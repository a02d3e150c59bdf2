import Caminus.Common.Interleave
import Caminus.Common.Split
import Caminus.Security.Payload
import Mathlib.Data.Finset.Card
import Mathlib.Data.UInt

/-!
# Rotating keys under readers

`KmsProvider` (`src/security/kms.rs`) behind its two locks, one for the version in use and one for the
map of keys. `get_active_key` reads the version and, after it has released that lock, the map.
`rotate_key` takes the lock of the version, then that of the map, and holds both until the new key is
in. A reader may be overtaken by rotations between its two reads, and still finds the key of the
version it has read, since no key is ever replaced (`keysIntact`).
-/

namespace Caminus.KmsProvider

/-- The calls that tasks make of a provider. -/
inductive Call
  | getActiveKey
  | rotateKey (newKey : List UInt8)

def Call.isRotation : Call → Bool
  | getActiveKey => false
  | rotateKey _ => true

def Call.newKey : Call → List UInt8
  | getActiveKey => []
  | rotateKey newKey => newKey

/-- Where a call stands. A call of `get_active_key` that is over has returned its version and what it
found under it, or an empty key if it found none. -/
inductive CallPoint
  | called
  | versionRead (version : UInt32)
  | activeKey (version : UInt32) (found : Option (List UInt8))
  | versionLocked (nextVersion : UInt32)
  | keyInserted (nextVersion : UInt32)
  | rotated (version : UInt32)

/-- A provider and the calls on it. The locks name the rotation that holds them; `rotations` records
the rotations that are over, in the order in which they ended. -/
structure Session (ι : Type) where
  kms : KmsProvider
  versionLock : Option ι
  keysLock : Option ι
  calls : ι → CallPoint
  rotations : List ι

namespace Session

variable {ι : Type} [DecidableEq ι] (call : ι → Call)

def start (initialKey : List UInt8) : Session ι := ⟨.new initialKey, none, none, fun _ => .called, []⟩

def goTo (s : Session ι) (i : ι) (point : CallPoint) : Session ι :=
  { s with calls := Function.update s.calls i point }

/-- The next atomic step of a call; a call that finds a lock taken waits. A reader takes the two
locks one after the other, a rotation holds both until it is over. -/
def step (i : ι) (s : Session ι) : Session ι :=
  match s.calls i, call i with
  | .called, .getActiveKey =>
      -- the guard of the version is dropped at once
      if s.versionLock = none then s.goTo i (.versionRead s.kms.currentVersion) else s
  | .versionRead version, _ =>
      if s.keysLock = none then s.goTo i (.activeKey version (s.kms.keys.lookup version)) else s
  | .called, .rotateKey _ =>
      if s.versionLock = none then
        { s.goTo i (.versionLocked (s.kms.currentVersion + 1)) with versionLock := some i }
      else s
  | .versionLocked nextVersion, _ =>
      if s.keysLock = none then
        { s.goTo i (.keyInserted nextVersion) with
          kms := { s.kms with keys := s.kms.keys.insert nextVersion (call i).newKey }
          keysLock := some i }
      else s
  | .keyInserted nextVersion, _ =>
      -- both guards are dropped at the end of the call
      { s.goTo i (.rotated nextVersion) with
        kms := { s.kms with currentVersion := nextVersion }
        versionLock := none
        keysLock := none
        rotations := s.rotations ++ [i] }
  | .activeKey _ _, _ => s
  | .rotated _, _ => s

/-- The calls take their steps in the order of the schedule. -/
abbrev run (s : Session ι) (sched : List ι) : Session ι := Interleave.run (step call) s sched

/-- The state a schedule leads to. -/
abbrev after (initialKey : List UInt8) (sched : List ι) : Session ι :=
  run call (start initialKey) sched

/-- The keys in the order of their versions, from version `1` on. -/
def installed (initialKey : List UInt8) (s : Session ι) : List (List UInt8) :=
  initialKey :: s.rotations.map fun i => (call i).newKey

/-- The key was installed as the version: versions count the installed keys from one. -/
def InstalledAs (initialKey : List UInt8) (s : Session ι) (version : UInt32) (key : List UInt8) :
    Prop :=
  ∃ n, version.toNat = n + 1 ∧ (installed call initialKey s)[n]? = some key

/-- The rotations that take a turn in a schedule, each counted once. -/
def rotationsIn (sched : List ι) : Finset ι := sched.toFinset.filter fun i => (call i).isRotation = true

/-- No version is torn or forgotten: what a reader returns is a version with the key that was
installed as it, and what is installed stays so under its version, with versions counted by the
rotations. -/
structure KeysIntact (initialKey : List UInt8) (sched : List ι) : Prop where
  active : ∀ i version found, (after call initialKey sched).calls i = .activeKey version found →
    ∃ key, found = some key ∧ InstalledAs call initialKey (after call initialKey sched) version key
  distinct : (after call initialKey sched).rotations.Nodup
  consecutive : ∀ i version, (after call initialKey sched).calls i = .rotated version ↔
    ∃ n, (after call initialKey sched).rotations[n]? = some i ∧ version.toNat = n + 2
  kept : ∀ before, before <+: sched → ∀ version key,
    InstalledAs call initialKey (after call initialKey before) version key →
    (after call initialKey sched).kms.getKeyByVersion version = some key

/-- Calls that are not interrupted do what the functions do. -/
theorem run_uninterrupted (s : Session ι) (i : ι) (hi : s.calls i = .called)
    (hversion : s.versionLock = none) (hkeys : s.keysLock = none) :
    (call i = .getActiveKey → ∃ version found,
      (run call s [i, i]).calls i = .activeKey version found ∧
        (version, found.getD []) = s.kms.getActiveKey ∧ (run call s [i, i]).kms = s.kms) ∧
    (∀ newKey, call i = .rotateKey newKey →
      (run call s [i, i, i]).calls i = .rotated (s.kms.rotateKey newKey).1 ∧
        (run call s [i, i, i]).kms = (s.kms.rotateKey newKey).2) := by
  constructor
  · intro hcall
    refine ⟨s.kms.currentVersion, s.kms.keys.lookup s.kms.currentVersion, ?_⟩
    simp [step, goTo, hi, hcall, hversion, hkeys, KmsProvider.getActiveKey]
  · intro newKey hcall
    simp [step, goTo, hi, hcall, hversion, hkeys, rotateKey, Call.newKey]

/-! ## What a step does -/

/-- The steps of a call, with what each of them needs. -/
inductive Moves (i : ι) (s : Session ι) : Session ι → Prop
  | waits : Moves i s s
  | readsVersion (hcalled : s.calls i = .called) (hlock : s.versionLock = none) :
      Moves i s (s.goTo i (.versionRead s.kms.currentVersion))
  | readsKey {version : UInt32} (hread : s.calls i = .versionRead version) :
      Moves i s (s.goTo i (.activeKey version (s.kms.keys.lookup version)))
  | locksVersion (hcalled : s.calls i = .called) (hlock : s.versionLock = none)
      (hrotation : (call i).isRotation = true) :
      Moves i s { s.goTo i (.versionLocked (s.kms.currentVersion + 1)) with versionLock := some i }
  | insertsKey {nextVersion : UInt32} (hlocked : s.calls i = .versionLocked nextVersion) :
      Moves i s
        { s.goTo i (.keyInserted nextVersion) with
          kms := { s.kms with keys := s.kms.keys.insert nextVersion (call i).newKey }
          keysLock := some i }
  | promotes {nextVersion : UInt32} (hinserted : s.calls i = .keyInserted nextVersion) :
      Moves i s
        { s.goTo i (.rotated nextVersion) with
          kms := { s.kms with currentVersion := nextVersion }
          versionLock := none
          keysLock := none
          rotations := s.rotations ++ [i] }

/-- A step does nothing but what `Moves` lists. -/
theorem moves_step (i : ι) (s : Session ι) : Moves call i s (step call i s) := by
  rw [step]
  split
  · rename_i hcalled hcall
    split_ifs with hlock
    · exact .readsVersion hcalled hlock
    · exact .waits
  · rename_i hread
    split_ifs
    · exact .readsKey hread
    · exact .waits
  · rename_i hcalled hcall
    split_ifs with hlock
    · exact .locksVersion hcalled hlock (by rw [hcall]; rfl)
    · exact .waits
  · rename_i hlocked
    split_ifs
    · exact .insertsKey hlocked
    · exact .waits
  · rename_i hinserted
    exact .promotes hinserted
  · exact .waits
  · exact .waits

/-! ## The invariant -/

/-- What is known of a call: a reader between its reads has the version of an installed key, and one
rotation at a time works on the version that comes next. `few` holds all rotations. -/
def CallOk (initialKey : List UInt8) (few : Finset ι) (s : Session ι) (i : ι) : CallPoint → Prop
  | .called => True
  | .versionRead version => 1 ≤ version.toNat ∧ version.toNat ≤ s.rotations.length + 1
  | .activeKey version found =>
      ∃ key, found = some key ∧ InstalledAs call initialKey s version key
  | .versionLocked nextVersion =>
      s.versionLock = some i ∧ nextVersion.toNat = s.rotations.length + 2 ∧ i ∈ few
  | .keyInserted nextVersion =>
      s.versionLock = some i ∧ nextVersion.toNat = s.rotations.length + 2 ∧ i ∈ few ∧
        s.kms.keys.lookup nextVersion = some (call i).newKey
  | .rotated version => ∃ n, s.rotations[n]? = some i ∧ version.toNat = n + 2

/-- What holds in every state: the version counts the rotations that are over, every installed key
is under its version, and each call is where `CallOk` says. -/
structure Intact (initialKey : List UInt8) (few : Finset ι) (s : Session ι) : Prop where
  version : s.kms.currentVersion.toNat = s.rotations.length + 1
  keys : ∀ version key, InstalledAs call initialKey s version key →
    s.kms.keys.lookup version = some key
  calls : ∀ i, CallOk call initialKey few s i (s.calls i)
  ended : ∀ i ∈ s.rotations, ∃ version, s.calls i = .rotated version
  nodup : s.rotations.Nodup
  few : ∀ i ∈ s.rotations, i ∈ few

variable {call} {initialKey : List UInt8} {few : Finset ι} {s s' : Session ι} {i : ι}

omit [DecidableEq ι] in
/-- What is installed stays installed, as the record of rotations only grows. -/
theorem InstalledAs.mono (hgrows : s.rotations <+: s'.rotations) {version : UInt32}
    {key : List UInt8} (h : InstalledAs call initialKey s version key) :
    InstalledAs call initialKey s' version key := by
  obtain ⟨n, hn, hkey⟩ := h
  refine ⟨n, hn, ?_⟩
  have hinstalled : installed call initialKey s <+: installed call initialKey s' :=
    (List.prefix_cons_inj initialKey).mpr (hgrows.map _)
  exact getElem?_of_grows hinstalled hkey

omit [DecidableEq ι] in
/-- A key is installed as one of the versions so far. -/
theorem InstalledAs.toNat_le {version : UInt32} {key : List UInt8}
    (h : InstalledAs call initialKey s version key) : version.toNat ≤ s.rotations.length + 1 := by
  obtain ⟨n, hn, hkey⟩ := h
  have hlt := (List.getElem?_eq_some_iff.mp hkey).1
  rw [installed, List.length_cons, List.length_map] at hlt
  omega

omit [DecidableEq ι] in
/-- There is a key for every version up to the one in use. -/
theorem exists_installedAs {version : UInt32} (hpos : 1 ≤ version.toNat)
    (hle : version.toNat ≤ s.rotations.length + 1) :
    ∃ key, InstalledAs call initialKey s version key := by
  have hlt : version.toNat - 1 < (installed call initialKey s).length := by
    rw [installed, List.length_cons, List.length_map]
    omega
  exact ⟨_, version.toNat - 1, by omega, List.getElem?_eq_getElem hlt⟩

omit [DecidableEq ι] in
/-- What is known of a call that holds no lock survives the steps of others. -/
theorem CallOk.of_grows {point : CallPoint} (h : CallOk call initialKey few s i point)
    (hlock : s.versionLock ≠ some i) (hgrows : s.rotations <+: s'.rotations) :
    CallOk call initialKey few s' i point := by
  cases point with
  | called => trivial
  | versionRead version =>
    have hlen := hgrows.length_le
    exact ⟨h.1, by have := h.2; omega⟩
  | activeKey version found =>
    obtain ⟨key, hfound, hkey⟩ := h
    exact ⟨key, hfound, hkey.mono hgrows⟩
  | versionLocked nextVersion => exact absurd h.1 hlock
  | keyInserted nextVersion => exact absurd h.1 hlock
  | rotated version =>
    obtain ⟨n, hn, hversion⟩ := h
    exact ⟨n, getElem?_of_grows hgrows hn, hversion⟩

omit [DecidableEq ι] in
/-- A call at a point before the end of a rotation is not on record. -/
theorem Intact.notMem_rotations (h : Intact call initialKey few s) {point : CallPoint}
    (hi : s.calls i = point) (hpoint : ∀ version, point ≠ .rotated version) : i ∉ s.rotations := by
  intro hmem
  obtain ⟨version, hversion⟩ := h.ended i hmem
  exact hpoint version (hi.symm.trans hversion)

/-- The versions of all rotations fit into their type. -/
theorem Intact.room (h : Intact call initialKey few s) (hfew : few.card < 2 ^ 32 - 1)
    (hi : i ∉ s.rotations) (hmem : i ∈ few) : s.rotations.length + 2 < 2 ^ 32 := by
  have hnodup : (i :: s.rotations).Nodup := List.nodup_cons.mpr ⟨hi, h.nodup⟩
  have hsub : (i :: s.rotations).toFinset ⊆ few := by
    intro j hj
    rcases List.mem_cons.mp (List.mem_toFinset.mp hj) with rfl | hj
    · exact hmem
    · exact h.few j hj
  have hcard := Finset.card_le_card hsub
  rw [List.toFinset_card_of_nodup hnodup, List.length_cons] at hcard
  omega

theorem calls_goTo {point : CallPoint} (hold : ∀ j, j ≠ i → CallOk call initialKey few s' j (s.calls j))
    (hpoint : CallOk call initialKey few s' i point) (j : ι) :
    CallOk call initialKey few s' j ((s.goTo i point).calls j) := by
  show CallOk call initialKey few s' j (Function.update s.calls i point j)
  by_cases hj : j = i
  · subst hj
    rw [Function.update_self]
    exact hpoint
  · rw [Function.update_of_ne hj]
    exact hold j hj

theorem ended_goTo {point : CallPoint} (h : ∀ j ∈ s.rotations, ∃ version, s.calls j = .rotated version)
    (hi : i ∉ s.rotations) :
    ∀ j ∈ s.rotations, ∃ version, (s.goTo i point).calls j = .rotated version := by
  intro j hj
  obtain ⟨version, hversion⟩ := h j hj
  refine ⟨version, ?_⟩
  show Function.update s.calls i point j = _
  have hne : j ≠ i := fun hji => hi (hji ▸ hj)
  rw [Function.update_of_ne hne, hversion]

/-! ## Each step keeps the invariant -/

theorem Intact.goTo (h : Intact call initialKey few s) (hi : i ∉ s.rotations) {point : CallPoint}
    (hpoint : CallOk call initialKey few s i point) :
    Intact call initialKey few (s.goTo i point) where
  version := h.version
  keys := h.keys
  calls := calls_goTo (fun j _ => h.calls j) hpoint
  ended := ended_goTo h.ended hi
  nodup := h.nodup
  few := h.few

/-- A reader that looks up the version it has read finds the key that was installed as it, even if
it was overtaken. -/
theorem Intact.readsKey (h : Intact call initialKey few s) {version : UInt32}
    (hread : s.calls i = .versionRead version) :
    Intact call initialKey few (s.goTo i (.activeKey version (s.kms.keys.lookup version))) := by
  have hok := h.calls i
  rw [hread] at hok
  obtain ⟨key, hkey⟩ := @exists_installedAs _ call initialKey s version hok.1 hok.2
  refine h.goTo (h.notMem_rotations hread nofun) ?_
  exact ⟨key, h.keys version key hkey, hkey⟩

/-- A rotation that gets the version lock works on the version that comes next, and nobody else
does. -/
theorem Intact.locksVersion (h : Intact call initialKey few s) (hfew : few.card < 2 ^ 32 - 1)
    (hcalled : s.calls i = .called) (hlock : s.versionLock = none) (hmem : i ∈ few) :
    Intact call initialKey few
      { s.goTo i (.versionLocked (s.kms.currentVersion + 1)) with versionLock := some i } := by
  have hi : i ∉ s.rotations := h.notMem_rotations hcalled nofun
  have hroom := h.room hfew hi hmem
  have hnext : (s.kms.currentVersion + 1).toNat = s.rotations.length + 2 := by
    rw [UInt32.toNat_add, h.version]
    exact Nat.mod_eq_of_lt hroom
  refine ⟨h.version, h.keys, calls_goTo (fun j _ => ?_) ⟨rfl, hnext, hmem⟩, ended_goTo h.ended hi,
    h.nodup, h.few⟩
  exact (h.calls j).of_grows (by rw [hlock]; exact fun h' => by cases h') (List.prefix_refl _)

/-- The new key goes under a version that no installed key has. -/
theorem Intact.insertsKey (h : Intact call initialKey few s) {nextVersion : UInt32}
    (hlocked : s.calls i = .versionLocked nextVersion) :
    Intact call initialKey few
      { s.goTo i (.keyInserted nextVersion) with
        kms := { s.kms with keys := s.kms.keys.insert nextVersion (call i).newKey }
        keysLock := some i } := by
  have hi : i ∉ s.rotations := h.notMem_rotations hlocked nofun
  have hok := h.calls i
  rw [hlocked] at hok
  obtain ⟨hlock, hnext, hmem⟩ := hok
  refine ⟨h.version, fun version key hkey => ?_, calls_goTo (fun j hj => ?_)
    ⟨hlock, hnext, hmem, AList.lookup_insert _⟩, ended_goTo h.ended hi, h.nodup, h.few⟩
  · -- the version is new, so no installed key is replaced
    have hne : version ≠ nextVersion := by
      rintro rfl
      have hle := hkey.toNat_le
      rw [hnext] at hle
      exact absurd hle (Nat.not_succ_le_self _)
    show (s.kms.keys.insert nextVersion (call i).newKey).lookup version = some key
    rw [AList.lookup_insert_ne hne]
    exact h.keys version key hkey
  · refine (h.calls j).of_grows ?_ (List.prefix_refl _)
    rw [hlock]
    exact fun h' => hj (Option.some.inj h').symm

omit [DecidableEq ι] in
/-- A rotation adds one key, as the version after all others. -/
theorem installedAs_concat {version : UInt32} {key : List UInt8} {s' : Session ι}
    (hrotations : s'.rotations = s.rotations ++ [i])
    (h : InstalledAs call initialKey s' version key) :
    InstalledAs call initialKey s version key ∨
      version.toNat = s.rotations.length + 2 ∧ key = (call i).newKey := by
  obtain ⟨n, hn, hkey⟩ := h
  rw [installed, hrotations, List.map_append, ← List.cons_append, List.getElem?_append] at hkey
  split_ifs at hkey with hlt
  · exact Or.inl ⟨n, hn, hkey⟩
  · rw [List.length_cons, List.length_map] at hlt hkey
    obtain ⟨hlast, hkey⟩ := List.getElem?_eq_some_iff.mp hkey
    rw [List.length_map, List.length_singleton] at hlast
    refine Or.inr ⟨by omega, ?_⟩
    rw [← hkey]
    simp

/-- The end of a rotation puts its version in use and on record. -/
theorem Intact.promotes (h : Intact call initialKey few s) {nextVersion : UInt32}
    (hinserted : s.calls i = .keyInserted nextVersion) :
    Intact call initialKey few
      { s.goTo i (.rotated nextVersion) with
        kms := { s.kms with currentVersion := nextVersion }
        versionLock := none
        keysLock := none
        rotations := s.rotations ++ [i] } := by
  have hi : i ∉ s.rotations := h.notMem_rotations hinserted nofun
  have hok := h.calls i
  rw [hinserted] at hok
  obtain ⟨hlock, hnext, hmem, hkey⟩ := hok
  refine ⟨?_, fun version key hinstalled => ?_, calls_goTo (fun j hj => ?_) ?_, fun j hj => ?_, ?_,
    fun j hj => ?_⟩
  · show nextVersion.toNat = (s.rotations ++ [i]).length + 1
    rw [hnext, List.length_append, List.length_singleton]
  · show s.kms.keys.lookup version = some key
    -- an installed key is an old one or the new one
    rcases installedAs_concat rfl hinstalled with hold | ⟨hversion, rfl⟩
    · exact h.keys version key hold
    · obtain rfl : version = nextVersion := UInt32.toNat_inj.mp (hversion.trans hnext.symm)
      exact hkey
  · refine (h.calls j).of_grows ?_ (List.prefix_append _ _)
    rw [hlock]
    exact fun h' => hj (Option.some.inj h').symm
  · refine ⟨s.rotations.length, ?_, hnext⟩
    show (s.rotations ++ [i])[s.rotations.length]? = some i
    simp
  · rcases List.mem_append.mp hj with hj | hj
    · exact ended_goTo h.ended hi j hj
    · rw [List.mem_singleton.mp hj]
      exact ⟨nextVersion, Function.update_self _ _ _⟩
  · exact List.nodup_append.mpr ⟨h.nodup, List.nodup_singleton i, fun a ha b hb hab => hi (by
      rw [← List.mem_singleton.mp hb, ← hab]
      exact ha)⟩
  · rcases List.mem_append.mp hj with hj | hj
    · exact h.few j hj
    · rw [List.mem_singleton.mp hj]
      exact hmem

/-- Every step keeps the state intact, as long as there are fewer rotations than versions. -/
theorem Intact.step (h : Intact call initialKey few s) (hfew : few.card < 2 ^ 32 - 1)
    (hi : (call i).isRotation = true → i ∈ few) :
    Intact call initialKey few (step call i s) := by
  have hmove := moves_step call i s
  generalize Session.step call i s = next at hmove ⊢
  cases hmove with
  | waits => exact h
  | readsVersion hcalled hlock =>
    refine h.goTo (h.notMem_rotations hcalled nofun) ?_
    show 1 ≤ s.kms.currentVersion.toNat ∧ s.kms.currentVersion.toNat ≤ s.rotations.length + 1
    rw [h.version]
    omega
  | readsKey hread => exact h.readsKey hread
  | locksVersion hcalled hlock hrotation => exact h.locksVersion hfew hcalled hlock (hi hrotation)
  | insertsKey hlocked => exact h.insertsKey hlocked
  | promotes hinserted => exact h.promotes hinserted

omit [DecidableEq ι] in
/-- A new provider has its initial key as version `1`. -/
theorem intact_start (initialKey : List UInt8) (few : Finset ι) :
    Intact call initialKey few (start initialKey) where
  version := rfl
  keys := by
    rintro version key ⟨n, hn, hkey⟩
    obtain rfl : n = 0 := by
      have hlt := (List.getElem?_eq_some_iff.mp hkey).1
      rw [installed, start, List.map_nil, List.length_singleton] at hlt
      omega
    obtain rfl : version = 1 := UInt32.toNat_inj.mp hn
    obtain rfl : initialKey = key := Option.some.inj hkey
    exact AList.lookup_insert _
  calls _ := trivial
  ended i hi := absurd hi List.not_mem_nil
  nodup := List.nodup_nil
  few i hi := absurd hi List.not_mem_nil

/-- The state is intact after every schedule with fewer rotations than there are versions. -/
theorem intact_after {sched : List ι} (hfew : few.card < 2 ^ 32 - 1)
    (hsub : rotationsIn call sched ⊆ few) :
    Intact call initialKey few (after call initialKey sched) := by
  refine Interleave.run_invariant_of_mem (fun i hi s h => h.step hfew fun hrotation => ?_)
    (intact_start initialKey few)
  exact hsub (Finset.mem_filter.mpr ⟨List.mem_toFinset.mpr hi, hrotation⟩)

/-- The record of rotations only grows. -/
theorem rotations_step (i : ι) (s : Session ι) : s.rotations <+: (step call i s).rotations := by
  have hmove := moves_step call i s
  generalize step call i s = next at hmove ⊢
  cases hmove with
  | promotes => exact List.prefix_append _ _
  | _ => exact List.prefix_refl _

/-- What is on record stays on record. -/
theorem rotations_run (s : Session ι) (sched : List ι) :
    s.rotations <+: (run call s sched).rotations := by
  refine @Interleave.run_invariant _ _ (step call) (fun s' => s.rotations <+: s'.rotations)
    (fun i s' h => ?_) s (List.prefix_refl _) sched
  exact h.trans (rotations_step i s')

omit [DecidableEq ι] in
/-- A rotation that is over has returned the version of its place in the record. -/
theorem Intact.rotated_iff (h : Intact call initialKey few s) {version : UInt32} :
    s.calls i = .rotated version ↔ ∃ n, s.rotations[n]? = some i ∧ version.toNat = n + 2 := by
  constructor
  · intro hi
    have hok := h.calls i
    rw [hi] at hok
    exact hok
  · rintro ⟨n, hn, hversion⟩
    obtain ⟨version', hi⟩ := h.ended i (List.mem_of_getElem? hn)
    have hok := h.calls i
    rw [hi] at hok
    obtain ⟨n', hn', hversion'⟩ := hok
    obtain rfl : n = n' := by
      have hlt := (List.getElem?_eq_some_iff.mp hn).1
      exact (List.getElem?_inj hlt h.nodup).mp (hn.trans hn'.symm)
    rw [hi, UInt32.toNat_inj.mp (hversion.trans hversion'.symm)]

/-- **Versions are neither torn nor forgotten**, whatever the order of the steps of any number of
readers and fewer rotations than there are versions: a reader gets a version with the key it was
installed as. -/
theorem keysIntact (call : ι → Call) (initialKey : List UInt8) (sched : List ι)
    (hfew : (rotationsIn call sched).card < 2 ^ 32 - 1) : KeysIntact call initialKey sched := by
  have h : Intact call initialKey (rotationsIn call sched) (after call initialKey sched) :=
    intact_after hfew (Finset.Subset.refl _)
  refine ⟨fun i version found hi => ?_, h.nodup, fun i version => h.rotated_iff, ?_⟩
  · have hok := h.calls i
    rw [hi] at hok
    exact hok
  · rintro before ⟨more, rfl⟩ version key hkey
    apply h.keys
    rw [after, run, Interleave.run_append]
    exact hkey.mono (rotations_run _ more)

/-- A reader that is overtaken by a rotation between its two reads still finds the key of its
version. -/
theorem keysIntact_overtaken :
    KeysIntact (fun i : Bool => if i then .rotateKey [7] else .getActiveKey) [1, 2, 3]
      [false, true, true, true, false] :=
  keysIntact _ _ _ (by decide)

end Session

end Caminus.KmsProvider

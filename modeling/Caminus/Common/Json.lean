import Mathlib.Data.List.OfFn
import Mathlib.Data.String.Basic
import Mathlib.Data.Fintype.Basic

/-!
# JSON values

The value type of `serde_json`: six kinds of value, numbers split into unsigned, negative and
floating ones, and objects ordered by key without repetition (the `BTreeMap` representation). Arrays
and objects are finite indexed families, so functions on values are plain structural recursions and
an object with a repeated or misplaced key cannot be written down.
-/

namespace Caminus

/-! ## Numbers -/

/-- A finite binary64 number: sign, biased exponent below the one reserved for infinities and NaN,
and fraction. -/
structure F64 where
  negative : Bool
  exponent : Fin 2047
  fraction : Fin (2 ^ 52)
deriving DecidableEq

namespace F64

/-- The integer significand, with the hidden bit of a normal number. -/
def significand (x : F64) : ℕ :=
  if x.exponent.val = 0 then x.fraction.val else 2 ^ 52 + x.fraction.val

/-- `fract() == 0.0`: the significand has no bit below the binary point. The value is
`significand · 2 ^ (exponent - 1075)`, with subnormal exponents read as `1`. -/
def fractIsZero (x : F64) : Bool :=
  x.significand % 2 ^ (1075 - max x.exponent.val 1) == 0

/-- The number is one of the two zeros, which differ in their sign and compare as equal. -/
def isZero (x : F64) : Bool :=
  x.exponent.val == 0 && x.fraction.val == 0

/-- IEEE equality of finite numbers: the two zeros are equal. -/
def eq (x y : F64) : Bool :=
  x == y || (x.isZero && y.isZero)

/-- IEEE equality of finite numbers is symmetric. -/
theorem eq_symm {x y : F64} (h : x.eq y = true) : y.eq x = true := by
  simp only [eq, Bool.or_eq_true, beq_iff_eq, Bool.and_eq_true] at h ⊢
  exact h.imp Eq.symm And.symm

/-- IEEE equality of finite numbers is transitive. -/
theorem eq_trans {x y z : F64} (hxy : x.eq y = true) (hyz : y.eq z = true) : x.eq z = true := by
  simp only [eq, Bool.or_eq_true, beq_iff_eq, Bool.and_eq_true] at hxy hyz ⊢
  rcases hxy with rfl | hzero
  · exact hyz
  · rcases hyz with rfl | hzero'
    · exact Or.inr hzero
    · exact Or.inr ⟨hzero.1, hzero'.2⟩

end F64

/-- `serde_json::Number`: `negInt n` is the integer `-(n + 1)`. -/
inductive Number
  | posInt (n : UInt64)
  | negInt (n : Fin (2 ^ 63))
  | float (x : F64)
deriving DecidableEq

namespace Number

/-- `as_f64().unwrap().fract() == 0.0`. Every integer converts to an integral binary64 value. -/
def fractIsZero : Number → Bool
  | posInt _ => true
  | negInt _ => true
  | float x => x.fractIsZero

/-- `PartialEq` of numbers: an integer is never equal to a float. -/
def eq : Number → Number → Bool
  | posInt m, posInt n => m == n
  | negInt m, negInt n => m == n
  | float x, float y => x.eq y
  | _, _ => false

/-- Equality of numbers is symmetric, as that of floats is. -/
theorem eq_symm {m n : Number} (h : m.eq n = true) : n.eq m = true := by
  cases m <;> cases n <;> simp only [eq, beq_iff_eq, Bool.false_eq_true] at h ⊢
  · exact h.symm
  · exact h.symm
  · exact F64.eq_symm h

/-- Equality of numbers is transitive, as that of floats is. -/
theorem eq_trans {l m n : Number} (hlm : l.eq m = true) (hmn : m.eq n = true) :
    l.eq n = true := by
  cases l <;> cases m <;> simp only [eq, beq_iff_eq, Bool.false_eq_true] at hlm <;>
    cases n <;> simp only [eq, beq_iff_eq, Bool.false_eq_true] at hmn ⊢
  · exact hlm.trans hmn
  · exact hlm.trans hmn
  · exact F64.eq_trans hlm hmn

end Number

/-! ## Values -/

/-- The keys of an object, in strictly increasing order, so that an object has one representation. -/
structure Keys where
  names : List String
  sorted : names.Pairwise (· < ·)
deriving DecidableEq

/-- `serde_json::Value`. An array has its elements and an object its values by index, so that a
value is a tree and functions on it are recursive in its structure; the keys of an object are
sorted. -/
inductive Json
  | null
  | bool (b : Bool)
  | number (n : Number)
  | string (s : String)
  | array (n : ℕ) (elems : Fin n → Json)
  | object (keys : Keys) (vals : Fin keys.names.length → Json)

instance : Inhabited Json := ⟨.null⟩

/-- `serde_json::Map`: the entries of an object in key order, each key once. -/
structure Map (α : Type) where
  entries : List (String × α)
  sorted : (entries.map Prod.fst).Pairwise (· < ·)

namespace Map

variable {α : Type}

/-- The map without entries. -/
def empty : Map α := ⟨[], List.Pairwise.nil⟩

/-- The value of a key. -/
def get? (m : Map α) (k : String) : Option α := m.entries.lookup k

/-- The key has a value. -/
def containsKey (m : Map α) (k : String) : Bool := (m.get? k).isSome

/-- The keys in order: `serde_json` keeps objects as a `BTreeMap`. -/
def keys (m : Map α) : List String := m.entries.map Prod.fst

/-- Insertion into a list of entries ordered by key; an old entry of the same key is replaced. -/
def insertEntry (k : String) (v : α) : List (String × α) → List (String × α)
  | [] => [(k, v)]
  | (k', v') :: rest =>
      if k < k' then (k, v) :: (k', v') :: rest
      else if k = k' then (k, v) :: rest
      else (k', v') :: insertEntry k v rest

/-- A key after an insertion is the new one or was there before. -/
theorem mem_keys_insertEntry {k x : String} {v : α} {l : List (String × α)}
    (hx : x ∈ (insertEntry k v l).map Prod.fst) : x = k ∨ x ∈ l.map Prod.fst := by
  induction l with
  | nil => simpa [insertEntry] using hx
  | cons p rest ih =>
    obtain ⟨k', v'⟩ := p
    simp only [insertEntry] at hx
    split_ifs at hx with hlt heq
    · simpa using hx
    · simp only [List.map_cons, List.mem_cons] at hx ⊢
      exact hx.imp id Or.inr
    · simp only [List.map_cons, List.mem_cons] at hx ⊢
      rcases hx with rfl | hx
      · exact Or.inr (Or.inl rfl)
      · exact (ih hx).imp id Or.inr

/-- An insertion keeps the keys in order and distinct, which is what makes the result a map. -/
theorem insertEntry_sorted (k : String) (v : α) {l : List (String × α)}
    (hl : (l.map Prod.fst).Pairwise (· < ·)) :
    ((insertEntry k v l).map Prod.fst).Pairwise (· < ·) := by
  induction l with
  | nil => simp [insertEntry]
  | cons p rest ih =>
    obtain ⟨k', v'⟩ := p
    rw [List.map_cons, List.pairwise_cons] at hl
    obtain ⟨hhead, hrest⟩ := hl
    simp only [insertEntry]
    split_ifs with hlt heq
    -- the new key goes in front of a greater one
    · simp only [List.map_cons, List.pairwise_cons, List.mem_cons]
      refine ⟨?_, hhead, hrest⟩
      rintro x (rfl | hx)
      · exact hlt
      · exact hlt.trans (hhead x hx)
    · subst heq
      rw [List.map_cons, List.pairwise_cons]
      exact ⟨hhead, hrest⟩
    · rw [List.map_cons, List.pairwise_cons]
      refine ⟨fun x hx => ?_, ih hrest⟩
      rcases mem_keys_insertEntry hx with rfl | hx
      · exact lt_of_le_of_ne (not_lt.mp hlt) (Ne.symm heq)
      · exact hhead x hx

/-- `Map::insert`: an old value of the key is replaced. -/
def insert (m : Map α) (k : String) (v : α) : Map α :=
  ⟨insertEntry k v m.entries, insertEntry_sorted k v m.sorted⟩

/-- The map built by inserting the listed entries one after another. -/
def ofList (l : List (String × α)) : Map α :=
  l.foldl (fun m p => m.insert p.1 p.2) empty

/-- An insertion sets the value of its own key and leaves the others. -/
theorem lookup_insertEntry (k x : String) (v : α) (l : List (String × α)) :
    (insertEntry k v l).lookup x = if x = k then some v else l.lookup x := by
  have hcons : ∀ (y : String) (w : α) rest,
      ((y, w) :: rest).lookup x = if x = y then some w else rest.lookup x := by
    intro y w rest
    rw [List.lookup_cons]
    by_cases hy : x = y
    · simp [hy]
    · simp [hy, beq_false_of_ne hy]
  induction l with
  | nil => rw [insertEntry, hcons]
  | cons p rest ih =>
    obtain ⟨k', v'⟩ := p
    rw [insertEntry]
    by_cases hlt : k < k'
    · rw [if_pos hlt, hcons]
    · rw [if_neg hlt]
      by_cases heq : k = k'
      · subst heq
        rw [if_pos rfl, hcons, hcons]
        split_ifs <;> rfl
      · -- the entry of `k'` stays in front, and `k` is another key
        rw [if_neg heq, hcons, ih, hcons]
        by_cases hx : x = k
        · subst hx
          rw [if_neg heq, if_pos rfl, if_pos rfl]
        · rw [if_neg hx, if_neg hx]

@[simp] theorem get?_empty (k : String) : (empty : Map α).get? k = none := rfl

@[simp] theorem get?_insert (m : Map α) (k x : String) (v : α) :
    (m.insert k v).get? x = if x = k then some v else m.get? x :=
  lookup_insertEntry k x v m.entries

/-- No key comes twice. -/
theorem nodup_keys (m : Map α) : m.keys.Nodup :=
  m.sorted.imp fun h => ne_of_lt h

/-- The value of a key is that of its one entry, so lookups and entries can be exchanged. -/
theorem get?_eq_some_iff {m : Map α} {k : String} {v : α} :
    m.get? k = some v ↔ (k, v) ∈ m.entries := by
  obtain ⟨entries, hs⟩ := m
  have hnd : (entries.map Prod.fst).Nodup := nodup_keys ⟨entries, hs⟩
  simp only [get?]
  clear hs
  induction entries with
  | nil => simp
  | cons p rest ih =>
    obtain ⟨k', v'⟩ := p
    simp only [List.map_cons, List.nodup_cons] at hnd
    rw [List.lookup_cons]
    by_cases hk : k = k'
    · subst hk
      have hout : (k, v) ∉ rest := fun hmem => hnd.1 (List.mem_map_of_mem hmem)
      simp [hout, eq_comm]
    · simp [beq_false_of_ne hk, ih hnd.2, hk]

/-- A key has a value exactly if it is among the keys. -/
theorem containsKey_iff {m : Map α} {k : String} : m.containsKey k = true ↔ k ∈ m.keys := by
  simp only [containsKey, Option.isSome_iff_exists, get?_eq_some_iff, keys, List.mem_map]
  constructor
  · rintro ⟨v, hv⟩
    exact ⟨(k, v), hv, rfl⟩
  · rintro ⟨⟨_, v⟩, hv, rfl⟩
    exact ⟨v, hv⟩

end Map

namespace Json

/-- Comparison of values kind by kind and child by child, with the given comparison of numbers.
Objects must have the same keys. -/
def eqBy (cmp : Number → Number → Bool) : Json → Json → Bool
  | null, null => true
  | bool a, bool b => a == b
  | number a, number b => cmp a b
  | string a, string b => a == b
  | array n xs, array m ys =>
      if h : n = m then decide (∀ i, eqBy cmp (xs i) (ys (Fin.cast h i)) = true) else false
  | object ks vs, object ls ws =>
      if h : ks = ls then decide (∀ i, eqBy cmp (vs i) (ws (Fin.cast (by rw [h]) i)) = true)
      else false
  | _, _ => false

/-- `PartialEq` of values. It differs from identity only on the two floating zeros. -/
def eq : Json → Json → Bool := eqBy Number.eq

/-- Values that agree kind by kind and child by child: the relation that `eqBy` decides, and over
which to induct. -/
inductive Agree (cmp : Number → Number → Bool) : Json → Json → Prop
  | null : Agree cmp null null
  | bool (b : Bool) : Agree cmp (bool b) (bool b)
  | number {m n : Number} (h : cmp m n = true) : Agree cmp (number m) (number n)
  | string (s : String) : Agree cmp (string s) (string s)
  | array {n : ℕ} {xs ys : Fin n → Json} (h : ∀ i, Agree cmp (xs i) (ys i)) :
      Agree cmp (array n xs) (array n ys)
  | object {keys : Keys} {vs ws : Fin keys.names.length → Json} (h : ∀ i, Agree cmp (vs i) (ws i)) :
      Agree cmp (object keys vs) (object keys ws)

/-- What the comparison accepts agrees. By induction on the first value, with a case for each kind
of the second. -/
theorem Agree.of_eqBy {cmp : Number → Number → Bool} {v w : Json} (h : eqBy cmp v w = true) :
    Agree cmp v w := by
  induction v generalizing w with
  | array n xs ih =>
    cases w with
    | array m ys =>
      by_cases hn : n = m
      · subst hn
        simp only [eqBy, dif_pos, decide_eq_true_iff, Fin.cast_eq_self] at h
        exact .array fun i => ih i (h i)
      · simp [eqBy, hn] at h
    | _ => simp [eqBy] at h
  | object ks vs ih =>
    cases w with
    | object ls ws =>
      by_cases hk : ks = ls
      · subst hk
        simp only [eqBy, dif_pos, decide_eq_true_iff, Fin.cast_eq_self] at h
        exact .object fun i => ih i (h i)
      · simp [eqBy, hk] at h
    | _ => simp [eqBy] at h
  | null =>
    cases w with
    | null => exact .null
    | _ => simp [eqBy] at h
  | bool b =>
    cases w with
    | bool b' =>
      obtain rfl : b = b' := by simpa [eqBy] using h
      exact .bool b
    | _ => simp [eqBy] at h
  | number n =>
    cases w with
    | number m => exact .number h
    | _ => simp [eqBy] at h
  | string t =>
    cases w with
    | string t' =>
      obtain rfl : t = t' := by simpa [eqBy] using h
      exact .string t
    | _ => simp [eqBy] at h

/-- The comparison decides agreement, so that the relation can be evaluated and reasoned about. -/
theorem eqBy_iff {cmp : Number → Number → Bool} {v w : Json} :
    eqBy cmp v w = true ↔ Agree cmp v w := by
  refine ⟨.of_eqBy, fun h => ?_⟩
  induction h with
  | null => rfl
  | bool b => exact beq_self_eq_true b
  | number h => exact h
  | string s => exact beq_self_eq_true s
  | array h ih => simpa [eqBy] using ih
  | object h ih => simpa [eqBy] using ih

/-- With identity of numbers, values that agree are identical. -/
theorem eqBy_beq_iff {v w : Json} : eqBy (· == ·) v w = true ↔ v = w := by
  rw [eqBy_iff]
  constructor
  · intro h
    induction h with
    | null | bool | string => rfl
    | number h => rw [eq_of_beq h]
    | array h ih => rw [funext ih]
    | object h ih => rw [funext ih]
  · rintro rfl
    induction v with
    | null => exact .null
    | bool b => exact .bool b
    | number n => exact .number (beq_self_eq_true n)
    | string s => exact .string s
    | array n xs ih => exact .array ih
    | object keys vs ih => exact .object ih

instance : DecidableEq Json := fun _ _ => decidable_of_iff _ eqBy_beq_iff

/-- Comparison is as symmetric as that of numbers, the only place where it is not equality. -/
theorem eqBy_symm {cmp : Number → Number → Bool} (hcmp : ∀ {m n}, cmp m n = true → cmp n m = true)
    {v w : Json} (h : eqBy cmp v w = true) : eqBy cmp w v = true := by
  rw [eqBy_iff] at h ⊢
  induction h with
  | null => exact .null
  | bool b => exact .bool b
  | number h => exact .number (hcmp h)
  | string s => exact .string s
  | array h ih => exact .array ih
  | object h ih => exact .object ih

/-- Comparison is as transitive as that of numbers, by induction on the values. -/
theorem eqBy_trans {cmp : Number → Number → Bool}
    (hcmp : ∀ {l m n}, cmp l m = true → cmp m n = true → cmp l n = true) {u v w : Json}
    (huv : eqBy cmp u v = true) (hvw : eqBy cmp v w = true) : eqBy cmp u w = true := by
  rw [eqBy_iff] at huv hvw ⊢
  induction huv generalizing w with
  | null | bool | string => exact hvw
  | number hlm =>
    cases hvw with
    | number hmn => exact .number (hcmp hlm hmn)
  | array huv ih =>
    cases hvw with
    | array hvw => exact .array fun i => ih i (hvw i)
  | object huv ih =>
    cases hvw with
    | object hvw => exact .object fun i => ih i (hvw i)

/-- Equality of values is symmetric, which is not immediate: it is not Lean's equality, since the
two zeros are equal. -/
theorem eq_symm {v w : Json} (h : v.eq w = true) : w.eq v = true := eqBy_symm Number.eq_symm h

/-- Equality of values is transitive. -/
theorem eq_trans {u v w : Json} (huv : u.eq v = true) (hvw : v.eq w = true) : u.eq w = true :=
  @eqBy_trans Number.eq Number.eq_trans u v w huv hvw

/-! ## Reading and building values -/

/-- `Value::is_number`. -/
def isNumber : Json → Bool
  | number _ => true
  | _ => false

/-- `Value::is_string`. -/
def isString : Json → Bool
  | string _ => true
  | _ => false

/-- `Value::is_boolean`. -/
def isBoolean : Json → Bool
  | bool _ => true
  | _ => false

/-- `Value::as_str`. -/
def asStr : Json → Option String
  | string s => some s
  | _ => none

/-- `as_f64().unwrap().fract() == 0.0`; only ever asked of a number. -/
def fractIsZero : Json → Bool
  | number n => n.fractIsZero
  | _ => false

/-- `Value::as_object`, as the map of its members. -/
def asObject : Json → Option (Map Json)
  | object ks vs => some
      ⟨List.ofFn fun i => (ks.names.get i, vs i), by
        simpa [List.map_ofFn, Function.comp_def] using ks.sorted⟩
  | _ => none

/-- `Value::get` at a string index: `None` on anything but an object. -/
def get? (v : Json) (k : String) : Option Json := v.asObject.bind (·.get? k)

/-- The object with the given entries; its keys are sorted because those of the map are. -/
def ofMap (m : Map Json) : Json :=
  object ⟨m.entries.map Prod.fst, m.sorted⟩
    fun i => (m.entries.get (Fin.cast (by simp) i)).2

/-- `Map::get_mut` and a write through it: the value of a key is replaced where the object has it. -/
def modify (k : String) (f : Json → Json) : Json → Json
  | object keys vals => object keys fun i => if keys.names.get i = k then f (vals i) else vals i
  | v => v

/-- The `json!` literal of an object, with its members in any order. -/
def obj (l : List (String × Json)) : Json := ofMap (Map.ofList l)

/-- The integer value of a natural number that fits. -/
def nat (n : ℕ) : Json := number (.posInt (UInt64.ofNat n))

@[simp] theorem asObject_ofMap (m : Map Json) : (ofMap m).asObject = some m := by
  obtain ⟨entries, hs⟩ := m
  simp only [ofMap, asObject, Option.some.injEq, Map.mk.injEq]
  apply List.ext_getElem
  · simp
  · intro i hi hi'
    simp

/-- Rewriting the values of a list of entries by key rewrites what is looked up. -/
theorem lookup_map_value {α β : Type} (f : String → α → β) (k : String) (l : List (String × α)) :
    (l.map fun p => (p.1, f p.1 p.2)).lookup k = (l.lookup k).map (f k) := by
  induction l with
  | nil => rfl
  | cons p l ih =>
    obtain ⟨k', v⟩ := p
    rw [List.map_cons, List.lookup_cons, List.lookup_cons]
    by_cases hk : k = k'
    · subst hk
      simp
    · rw [beq_false_of_ne hk]
      exact ih

/-- A member of an object whose values are rewritten one by one. -/
theorem get?_object_map (f : String → Json → Json) (keys : Keys) (vals : Fin keys.names.length → Json)
    (k : String) :
    (object keys fun i => f (keys.names.get i) (vals i)).get? k =
      ((object keys vals).get? k).map (f k) := by
  have hmap : (List.ofFn fun i => (keys.names.get i, f (keys.names.get i) (vals i))) =
      (List.ofFn fun i => (keys.names.get i, vals i)).map fun p => (p.1, f p.1 p.2) := by
    rw [List.map_ofFn]
    rfl
  show (List.ofFn fun i => (keys.names.get i, f (keys.names.get i) (vals i))).lookup k = _
  rw [hmap, lookup_map_value]
  rfl

/-- Equal values spell the same string: outside numbers the comparison is exact. -/
theorem eq_asStr {v w : Json} (h : v.eq w = true) : v.asStr = w.asStr := by
  cases eqBy_iff.mp h with
  | null | bool | string | number | array | object => rfl

end Json

end Caminus

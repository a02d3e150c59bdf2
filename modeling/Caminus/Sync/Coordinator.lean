import Caminus.Common.Split
import Caminus.Source.Event
import Mathlib.Data.List.Infix
import Mathlib.Data.List.Perm.Basic
import Mathlib.Order.Basic

/-!
# The sync coordinator

`SyncCoordinator` (`src/sync/mod.rs`) decides which events a cluster hands to its peers, by a tag in
the transaction id, and which of two conflicting events wins, by their timestamps. Both decisions are
made by less than they look at: the tag has no end, and equal timestamps fall to the first argument.
-/

namespace Caminus

/-- A peer of a cluster. Peers are registered as active, and nothing in the source makes one
inactive. -/
structure ClusterNode where
  clusterId : String
  endpointUrl : String
  isActive : Bool
deriving DecidableEq, Repr

/-- What a cluster knows of a deployment: its own id and its peers. -/
structure SyncCoordinator where
  localClusterId : String
  remotePeers : List ClusterNode

/-- `str::starts_with`, on characters: a string is a beginning of itself. -/
def startsWith (s pat : String) : Bool := pat.toList.isPrefixOf s.toList

/-- The test is the prefix relation on the characters. -/
theorem startsWith_iff {s pat : String} : startsWith s pat = true ↔ pat.toList <+: s.toList :=
  List.isPrefixOf_iff_prefix

namespace SyncCoordinator

/-- A coordinator without peers. -/
def new (localClusterId : String) : SyncCoordinator := ⟨localClusterId, []⟩

/-- A peer is added at the end, also one that is registered already. -/
def registerPeer (c : SyncCoordinator) (clusterId endpointUrl : String) : SyncCoordinator :=
  { c with remotePeers := c.remotePeers ++ [⟨clusterId, endpointUrl, true⟩] }

/-- An event is kept back if its transaction id begins with the tag of this cluster. The tag is
compared without the separator after it, so the tag of `us-east-10` begins with that of `us-east-1`. -/
def shouldForward (c : SyncCoordinator) (event : ChangeEvent) : Bool :=
  match event.transactionId with
  | some txId => !startsWith txId ("remote-" ++ c.localClusterId)
  | none => true

/-- Last write wins; of two events with one timestamp the first argument does. -/
def resolveConflict (_c : SyncCoordinator) (eventA eventB : ChangeEvent) : ChangeEvent :=
  if eventA.timestamp ≥ eventB.timestamp then eventA else eventB

/-! ## Last write wins -/

/-- The event that a cluster keeps of those it receives in turn, each compared with the winner so
far. -/
def winner (c : SyncCoordinator) : List ChangeEvent → Option ChangeEvent
  | [] => none
  | event :: events => some (events.foldl c.resolveConflict event)

/-- The winner depends neither on the order of the events nor on the cluster, and the choice between
two events neither on their order nor on how several are grouped. -/
structure Converges (events : List ChangeEvent) : Prop where
  winner_eq : ∀ (c d : SyncCoordinator) (l₁ l₂ : List ChangeEvent), l₁.Perm events →
    l₂.Perm events → c.winner l₁ = d.winner l₂
  comm : ∀ c : SyncCoordinator, ∀ a ∈ events, ∀ b ∈ events,
    c.resolveConflict a b = c.resolveConflict b a
  assoc : ∀ c : SyncCoordinator, ∀ a ∈ events, ∀ b ∈ events, ∀ e ∈ events,
    c.resolveConflict (c.resolveConflict a b) e = c.resolveConflict a (c.resolveConflict b e)

/-- The first event is kept if the second is not later. -/
theorem resolveConflict_of_le (c : SyncCoordinator) {a b : ChangeEvent}
    (h : b.timestamp ≤ a.timestamp) : c.resolveConflict a b = a :=
  if_pos h

/-- The second event is kept only if it is later. -/
theorem resolveConflict_of_lt (c : SyncCoordinator) {a b : ChangeEvent}
    (h : a.timestamp < b.timestamp) : c.resolveConflict a b = b :=
  if_neg (not_le_of_gt h)

/-- How the events are grouped does not matter, even with ties: the first of the latest ones wins. -/
theorem resolveConflict_assoc (c : SyncCoordinator) (a b e : ChangeEvent) :
    c.resolveConflict (c.resolveConflict a b) e = c.resolveConflict a (c.resolveConflict b e) := by
  rcases le_or_gt b.timestamp a.timestamp with hab | hab
  · rw [c.resolveConflict_of_le hab]
    rcases le_or_gt e.timestamp b.timestamp with hbe | hbe
    · rw [c.resolveConflict_of_le hbe, c.resolveConflict_of_le hab,
        c.resolveConflict_of_le (hbe.trans hab)]
    · rw [c.resolveConflict_of_lt hbe]
  · rw [c.resolveConflict_of_lt hab]
    rcases le_or_gt e.timestamp b.timestamp with hbe | hbe
    · rw [c.resolveConflict_of_le hbe, c.resolveConflict_of_lt hab]
    · rw [c.resolveConflict_of_lt hbe, c.resolveConflict_of_lt (hab.trans hbe)]

/-- The one that wins a fold is among the events, and none of them is later. -/
theorem foldl_resolveConflict (c : SyncCoordinator) (a : ChangeEvent) (events : List ChangeEvent) :
    events.foldl c.resolveConflict a ∈ a :: events ∧
      ∀ e ∈ a :: events, e.timestamp ≤ (events.foldl c.resolveConflict a).timestamp := by
  induction events generalizing a with
  | nil => exact ⟨List.mem_cons_self, fun e he => by rw [List.mem_singleton.mp he]; rfl⟩
  -- the winner of the first two goes on against the rest, so both conjuncts come from its own fold
  | cons b events ih =>
    obtain ⟨hmem, hlatest⟩ := ih (c.resolveConflict a b)
    have hfirst := hlatest _ List.mem_cons_self
    have hrest : ∀ e ∈ events, e.timestamp ≤
        (events.foldl c.resolveConflict (c.resolveConflict a b)).timestamp :=
      fun e he => hlatest e (List.mem_cons_of_mem _ he)
    rw [List.foldl_cons]
    rcases le_or_gt b.timestamp a.timestamp with hle | hlt
    · rw [c.resolveConflict_of_le hle] at hmem hfirst hrest ⊢
      refine ⟨?_, fun e he => ?_⟩
      · rcases List.mem_cons.mp hmem with hw | hw
        · rw [hw]
          exact List.mem_cons_self
        · exact List.mem_cons_of_mem _ (List.mem_cons_of_mem _ hw)
      · rcases List.mem_cons.mp he with rfl | he
        · exact hfirst
        · rcases List.mem_cons.mp he with rfl | he
          · exact hle.trans hfirst
          · exact hrest e he
    · rw [c.resolveConflict_of_lt hlt] at hmem hfirst hrest ⊢
      refine ⟨List.mem_cons_of_mem _ hmem, fun e he => ?_⟩
      rcases List.mem_cons.mp he with rfl | he
      · exact hlt.le.trans hfirst
      · rcases List.mem_cons.mp he with rfl | he
        · exact hfirst
        · exact hrest e he

/-- A winner is one of the events received and none of them is later. -/
theorem winner_eq_some {c : SyncCoordinator} {events : List ChangeEvent} {w : ChangeEvent}
    (h : c.winner events = some w) :
    w ∈ events ∧ ∀ e ∈ events, e.timestamp ≤ w.timestamp := by
  cases events with
  | nil => cases h
  | cons a events =>
    rw [← Option.some.inj h]
    exact c.foldl_resolveConflict a events

/-- A cluster that has received anything has a winner. -/
theorem exists_winner (c : SyncCoordinator) {events : List ChangeEvent} (h : events ≠ []) :
    ∃ w, c.winner events = some w := by
  cases events with
  | nil => exact absurd rfl h
  | cons a events => exact ⟨_, rfl⟩

/-- **Last write wins converges exactly on events without ties**: no two different events of the
collection have the same timestamp. -/
theorem converges_iff (events : List ChangeEvent) : Converges events ↔
    ∀ a ∈ events, ∀ b ∈ events, a.timestamp = b.timestamp → a = b := by
  constructor
  · intro h a ha b hb htie
    have hcomm := h.comm (new "") a ha b hb
    rwa [resolveConflict_of_le _ htie.ge, resolveConflict_of_le _ htie.le] at hcomm
  · intro hties
    refine ⟨fun c d l₁ l₂ hl₁ hl₂ => ?_, fun c a ha b hb => ?_,
      fun c a _ b _ e _ => c.resolveConflict_assoc a b e⟩
    -- both winners are latest ones of the same collection, so their timestamps are equal
    · have hperm := hl₁.trans hl₂.symm
      by_cases hnil : l₁ = []
      · subst hnil
        rw [List.nil_perm.mp hperm]
        rfl
      · obtain ⟨a, ha⟩ := c.exists_winner hnil
        obtain ⟨b, hb⟩ := d.exists_winner fun h => hnil (List.perm_nil.mp (h ▸ hperm))
        obtain ⟨hamem, halatest⟩ := winner_eq_some ha
        obtain ⟨hbmem, hblatest⟩ := winner_eq_some hb
        have hle := halatest b (hperm.mem_iff.mpr hbmem)
        have hge := hblatest a (hperm.mem_iff.mp hamem)
        rw [ha, hb, hties a (hl₁.mem_iff.mp hamem) b (hl₂.mem_iff.mp hbmem) (le_antisymm hge hle)]
    · rcases lt_trichotomy a.timestamp b.timestamp with hlt | htie | hgt
      · rw [c.resolveConflict_of_lt hlt, c.resolveConflict_of_le hlt.le]
      · rw [hties a ha b hb htie]
      · rw [c.resolveConflict_of_le hgt.le, c.resolveConflict_of_lt hgt]

/-- Two writes of one row at the same time, which differ in the id of the event. -/
def concurrentUpdate (id database : String) : ChangeEvent where
  id := id
  sourceDatabase := database
  sourceTableOrCollection := "accounts"
  operation := .update
  timestamp := 0
  key := .nat 42
  before := none
  after := some (.string id)
  transactionId := none
  offset := "0"

/-- Two events of one timestamp: each wins over the other if it comes first. -/
theorem not_converges_tie :
    ¬Converges [concurrentUpdate "evt-us-100" "users_db", concurrentUpdate "evt-eu-100" "users_db"] := by
  intro h
  have hcomm := h.comm (new "us-east-1") _ List.mem_cons_self _
    (List.mem_cons_of_mem _ List.mem_cons_self)
  have hid : "evt-us-100" = "evt-eu-100" := congrArg ChangeEvent.id hcomm
  exact absurd hid (by decide)

/-! ## Loop suppression -/

/-- An event of a transaction is kept back exactly if its transaction id begins with the cluster's
tag. -/
theorem shouldForward_eq_false_iff (c : SyncCoordinator) {event : ChangeEvent} {txId : String}
    (h : event.transactionId = some txId) : c.shouldForward event = false ↔
      ("remote-" ++ c.localClusterId).toList <+: txId.toList := by
  rw [shouldForward, h, ← startsWith_iff]
  exact (Bool.not_eq_false' _).to_iff

/-- An event with the tag of a cluster in its transaction id. -/
def tagged (event : ChangeEvent) (clusterId suffix : String) : ChangeEvent :=
  { event with transactionId := some ("remote-" ++ clusterId ++ "-" ++ suffix) }

/-- The coordinator of cluster `a` suppresses events with the tag of cluster `b` and a suffix if and
only if it is that cluster's. -/
def Identifies (a b suffix : String) : Prop :=
  ∀ (peers : List ClusterNode) (event : ChangeEvent),
    SyncCoordinator.shouldForward ⟨a, peers⟩ (tagged event b suffix) = false ↔ a = b

/-- A cluster keeps back an event with the tag of `b` exactly if its own id is a beginning of `b`,
or goes on beyond `b` through the separator into the suffix. -/
theorem shouldForward_tagged (c : SyncCoordinator) (event : ChangeEvent) (b suffix : String) :
    c.shouldForward (tagged event b suffix) = false ↔
      c.localClusterId.toList <+: b.toList ∨
        ∃ t : String, t.toList <+: suffix.toList ∧ c.localClusterId = b ++ "-" ++ t := by
  have htag : ("remote-" ++ b ++ "-" ++ suffix).toList =
      "remote-".toList ++ (b.toList ++ '-' :: suffix.toList) := by
    simp [String.toList_append]
  rw [shouldForward_eq_false_iff c rfl, htag, String.toList_append, List.prefix_append_right_inj,
    prefix_append_cons_iff]
  refine or_congr_right ⟨?_, ?_⟩
  · rintro ⟨t, ht, hc⟩
    refine ⟨String.ofList t, by simpa using ht, ?_⟩
    rw [← String.toList_inj, hc]
    simp [String.toList_append]
  · rintro ⟨t, ht, hc⟩
    refine ⟨t.toList, ht, ?_⟩
    rw [hc]
    simp [String.toList_append]

/-- **Loop suppression identifies the cluster exactly if its id is neither a proper beginning of the
tagged one nor the tagged one continued by the separator and a beginning of the suffix.** -/
theorem identifies_iff (a b suffix : String) : Identifies a b suffix ↔
    ¬(a ≠ b ∧ a.toList <+: b.toList) ∧
      ∀ t : String, t.toList <+: suffix.toList → a ≠ b ++ "-" ++ t := by
  constructor
  · intro h
    have hevent := h [] (concurrentUpdate "" "")
    rw [shouldForward_tagged] at hevent
    refine ⟨fun hproper => hproper.1 (hevent.mp (Or.inl hproper.2)), fun t ht hab => ?_⟩
    have hsame : a = b := hevent.mp (Or.inr ⟨t, ht, hab⟩)
    have hlength := congrArg String.length (hsame.symm.trans hab)
    rw [String.length_append, String.length_append] at hlength
    -- the second case cannot be the cluster itself: its id would be longer than it is
    change b.length = b.length + 1 + t.length at hlength
    omega
  · rintro ⟨hproper, hlonger⟩ peers event
    rw [shouldForward_tagged]
    constructor
    · rintro (hbegin | ⟨t, ht, hab⟩)
      · by_contra hne
        exact hproper ⟨hne, hbegin⟩
      · exact absurd hab (hlonger t ht)
    · intro hab
      exact Or.inl (hab ▸ List.prefix_refl _)

/-- An event tagged for `us-east-10` is suppressed by `us-east-1`, whose tag is a beginning of the
other. -/
theorem not_identifies_usEast : ¬Identifies "us-east-1" "us-east-10" "tx" := by
  intro h
  have hsame := (h [] (concurrentUpdate "evt-1" "users_db")).mp (by decide)
  exact absurd hsame (by decide)

end SyncCoordinator

end Caminus

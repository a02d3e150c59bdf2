import Caminus.Consensus.Coordinator
import Mathlib.Data.Fin.VecNotation
import Mathlib.Tactic.IntervalCases

/-!
# A cluster of coordinators

The election loops of a cluster exchange no messages: a candidate becomes the leader at its next
timeout, whatever the others do. So a run is safe exactly as long as a single node gets that far
(`safeThroughout_iff`).
-/

namespace Caminus

namespace ClusterCoordinator

/-- Coordinators that all run their election loops. -/
abbrev Cluster (n : ℕ) := Fin n → Node

namespace Cluster

variable {n : ℕ}

/-- All nodes start as followers. -/
def start (nodeIds : Fin n → UInt64) : Cluster n := fun i => Node.start (nodeIds i)

/-- The next atomic step of one node's loop, which touches that node alone: no messages are
exchanged. -/
def step (i : Fin n) (s : Cluster n) : Cluster n := Function.update s i (s i).loopStep

/-- The loops take their steps in the order of the schedule. -/
abbrev run (s : Cluster n) (sched : List (Fin n)) : Cluster n := Interleave.run step s sched

/-- At most one leader in each term, and at most one node that reports to be the leader: what the
vote of a majority would give. -/
structure ElectionSafe (s : Cluster n) : Prop where
  oneLeaderPerTerm : ∀ i j, (s i).role = .leader → (s j).role = .leader →
    (s i).term = (s j).term → i = j
  oneReports : ∀ i j, (s i).isLeader = true → (s j).isLeader = true → i = j

/-- Election safety in every state of a run, not only at its end. -/
def SafeThroughout (nodeIds : Fin n → UInt64) (sched : List (Fin n)) : Prop :=
  ∀ before, before <+: sched → ElectionSafe (run (start nodeIds) before)

/-! ## One loop -/

/-- A node that leads its first term. It stays there: nothing in the loop makes a leader step down. -/
structure InOffice (s : Node) : Prop where
  role : s.role = .leader
  term : s.term = 1
  isLeader : s.isLeader = true

/-- A leader goes round its loop and stays the leader of its term. -/
theorem InOffice.loopStep {s : Node} (h : InOffice s) : InOffice s.loopStep := by
  rcases s.loopStep_cases with ⟨point, -, hstep⟩ | ⟨-, hstep⟩ | ⟨-, hstep⟩
  · rw [hstep]
    exact ⟨h.role, h.term, h.isLeader⟩
  · rw [hstep]
    exact ⟨h.role, h.term, h.isLeader⟩
  · rw [hstep, Node.act, h.role]
    exact ⟨rfl, h.term, rfl⟩

/-- A node is in office from its sixth step on: its second match, after two sleeps and two flag
checks. -/
theorem inOffice_iterate (nodeId : UInt64) {k : ℕ} (hk : 6 ≤ k) :
    InOffice (Node.loopStep^[k] (Node.start nodeId)) := by
  induction k, hk using Nat.le_induction with
  | base => exact ⟨rfl, rfl, rfl⟩
  | succ k _ ih =>
    rw [Function.iterate_succ_apply']
    exact ih.loopStep

/-- Before its sixth step a node is not the leader. -/
theorem not_leader_iterate (nodeId : UInt64) {k : ℕ} (hk : k < 6) :
    (Node.loopStep^[k] (Node.start nodeId)).role ≠ .leader ∧
      (Node.loopStep^[k] (Node.start nodeId)).isLeader = false := by
  interval_cases k <;> exact ⟨fun hleader => StateRole.noConfusion hleader, rfl⟩

/-! ## The cluster -/

/-- The nodes share nothing, so that each is where its own steps have taken it. -/
theorem run_apply (nodeIds : Fin n → UInt64) (sched : List (Fin n)) (i : Fin n) :
    run (start nodeIds) sched i = Node.loopStep^[sched.count i] (Node.start (nodeIds i)) :=
  Interleave.run_update Node.loopStep (start nodeIds) sched i

/-- A node is the leader exactly from its sixth step on. -/
theorem role_eq_leader_iff {nodeIds : Fin n → UInt64} {sched : List (Fin n)} {i : Fin n} :
    (run (start nodeIds) sched i).role = .leader ↔ 6 ≤ sched.count i := by
  rw [run_apply]
  constructor
  · intro hleader
    by_contra hk
    exact (not_leader_iterate _ (Nat.lt_of_not_le hk)).1 hleader
  · exact fun hk => (inOffice_iterate _ hk).role

/-- A node reports to be the leader exactly from its sixth step on. -/
theorem isLeader_eq_true_iff {nodeIds : Fin n → UInt64} {sched : List (Fin n)} {i : Fin n} :
    (run (start nodeIds) sched i).isLeader = true ↔ 6 ≤ sched.count i := by
  rw [run_apply]
  constructor
  · intro hleader
    by_contra hk
    rw [(not_leader_iterate _ (Nat.lt_of_not_le hk)).2] at hleader
    cases hleader
  · exact fun hk => (inOffice_iterate _ hk).isLeader

/-- **A run is safe exactly if at most one node gets to its second timeout**, whatever the node ids:
a candidate leads at its next timeout, and asks nobody. -/
theorem safeThroughout_iff (nodeIds : Fin n → UInt64) (sched : List (Fin n)) :
    SafeThroughout nodeIds sched ↔ ∀ i j, 6 ≤ sched.count i → 6 ≤ sched.count j → i = j := by
  constructor
  · intro hsafe i j hi hj
    exact (hsafe sched (List.prefix_refl sched)).oneReports i j (isLeader_eq_true_iff.mpr hi)
      (isLeader_eq_true_iff.mpr hj)
  · intro hone before hbefore
    have hcount (i : Fin n) : before.count i ≤ sched.count i := hbefore.sublist.count_le i
    refine ⟨fun i j hi hj _ => ?_, fun i j hi hj => ?_⟩
    · rw [role_eq_leader_iff] at hi hj
      exact hone i j (hi.trans (hcount i)) (hj.trans (hcount j))
    · rw [isLeader_eq_true_iff] at hi hj
      exact hone i j (hi.trans (hcount i)) (hj.trans (hcount j))

/-- Two nodes that take turns both lead term 1: each becomes a candidate at its first timeout and a
leader at its second. -/
theorem not_safeThroughout_twoNodes :
    Function.Injective (![1, 2] : Fin 2 → UInt64) ∧
      ¬SafeThroughout ![1, 2] (List.replicate 6 0 ++ List.replicate 6 1) := by
  refine ⟨by decide, fun hsafe => ?_⟩
  have hboth := (hsafe _ (List.prefix_refl _)).oneLeaderPerTerm 0 1 rfl rfl rfl
  exact absurd hboth (by decide)

end Cluster

end ClusterCoordinator

end Caminus

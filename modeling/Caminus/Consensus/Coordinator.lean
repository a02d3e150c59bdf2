import Caminus.Common.Interleave
import Mathlib.Data.UInt

/-!
# The cluster coordinator

`ClusterCoordinator` (`src/consensus/mod.rs`) runs an election loop in the background and is shut
down by two stores. The loop loads the shutdown flag in one atomic step and stores `is_leader` in a
later one, so a shutdown can fall between the two (`noLeadershipAfter_iff`).
-/

namespace Caminus

/-- The role that the election loop keeps in a variable of its own. -/
inductive StateRole
  | follower
  | candidate
  | leader
deriving DecidableEq, Repr

/-- The two atomics that the loop and the callers share, and the id of the node. -/
structure ClusterCoordinator where
  nodeId : UInt64
  isLeader : Bool
  shutdown : Bool

namespace ClusterCoordinator

/-- A coordinator that neither leads nor is shut down. -/
def new (nodeId : UInt64) : ClusterCoordinator := ⟨nodeId, false, false⟩

/-- Where the task of the election loop stands: in its sleep, before the load of the flag, before the
match on the role, or at its end. -/
inductive LoopPoint
  | sleeping
  | woken
  | acting
  | terminated
deriving DecidableEq, Repr

/-- Where a call of `shutdown` stands: before its stores, between them, or returned. -/
inductive ShutdownPoint
  | notCalled
  | flagged
  | returned
deriving DecidableEq, Repr

/-- A coordinator whose election loop was started, with the loop's own variables. Nothing else
stores to the two flags than this loop and a call of `shutdown`. -/
structure Node where
  coordinator : ClusterCoordinator
  loop : LoopPoint
  role : StateRole
  term : ℕ
  shutdownCall : ShutdownPoint

namespace Node

/-- The loop right after it was spawned: a follower of term `0`, in its first sleep. -/
def start (nodeId : UInt64) : Node := ⟨.new nodeId, .sleeping, .follower, 0, .notCalled⟩

/-- What `is_leader` answers: the flag as it is, which two tasks store to without a lock. -/
def isLeader (s : Node) : Bool := s.coordinator.isLeader

/-- The body of the loop after the flag check. No other node is asked for anything: a follower
becomes a candidate of the next term, and a candidate the leader. -/
def act (s : Node) : Node :=
  match s.role with
  | .follower => { s with role := .candidate, term := s.term + 1 }
  | .candidate => { s with role := .leader, coordinator := { s.coordinator with isLeader := true } }
  | .leader => { s with coordinator := { s.coordinator with isLeader := true } }

/-- The next atomic step of the election loop. -/
def loopStep (s : Node) : Node :=
  match s.loop with
  | .sleeping => { s with loop := .woken }
  | .woken =>
      if s.coordinator.shutdown then { s with loop := .terminated } else { s with loop := .acting }
  | .acting => { s.act with loop := .sleeping }
  | .terminated => s

/-- The next store of `shutdown`: first the flag that ends the loop, then the leadership is given
up. -/
def shutdownStep (s : Node) : Node :=
  match s.shutdownCall with
  | .notCalled =>
      { s with coordinator := { s.coordinator with shutdown := true }, shutdownCall := .flagged }
  | .flagged =>
      { s with coordinator := { s.coordinator with isLeader := false }, shutdownCall := .returned }
  | .returned => s

/-- The task of the loop, and a caller of `shutdown`. -/
inductive Actor
  | electionLoop
  | shutdown
deriving DecidableEq, Repr

/-- The next atomic step of an actor, with at most one access to the flags that the two share. -/
def step : Actor → Node → Node
  | .electionLoop => loopStep
  | .shutdown => shutdownStep

/-- The actors take their steps in the order of the schedule. -/
abbrev run (s : Node) (sched : List Actor) : Node := Interleave.run step s sched

/-! ## Shutdown -/

/-- The loop has passed its flag check and stores `is_leader = true` next. -/
def AboutToLead (s : Node) : Prop := s.loop = .acting ∧ s.role ≠ .follower

/-- From the end of a schedule on, the coordinator is never the leader. -/
def NoLeadershipAfter (nodeId : UInt64) (sched : List Actor) : Prop :=
  ∀ more, (run (start nodeId) (sched ++ more)).isLeader = false

/-- What a step of the loop does: it moves on towards its match, stops, or runs the match. -/
theorem loopStep_cases (s : Node) :
    (∃ point, point ≠ .acting ∧ loopStep s = { s with loop := point }) ∨
    s.coordinator.shutdown = false ∧ loopStep s = { s with loop := .acting } ∨
    s.loop = .acting ∧ loopStep s = { s.act with loop := .sleeping } := by
  rw [loopStep]
  cases hloop : s.loop with
  | sleeping => exact Or.inl ⟨.woken, by decide, rfl⟩
  | woken =>
    cases hflag : s.coordinator.shutdown with
    | false => exact Or.inr (Or.inl ⟨rfl, rfl⟩)
    | true => exact Or.inl ⟨.terminated, by decide, rfl⟩
  | acting => exact Or.inr (Or.inr ⟨rfl, rfl⟩)
  | terminated => exact Or.inl ⟨s.loop, by rw [hloop]; decide, rfl⟩

@[simp] theorem act_shutdownCall (s : Node) : s.act.shutdownCall = s.shutdownCall := by
  rw [act]
  cases s.role <;> rfl

@[simp] theorem act_shutdown (s : Node) : s.act.coordinator.shutdown = s.coordinator.shutdown := by
  rw [act]
  cases s.role <;> rfl

@[simp] theorem loopStep_shutdownCall (s : Node) : (loopStep s).shutdownCall = s.shutdownCall := by
  rcases loopStep_cases s with ⟨point, -, hstep⟩ | ⟨-, hstep⟩ | ⟨-, hstep⟩
  · rw [hstep]
  · rw [hstep]
  · rw [hstep, ← act_shutdownCall s]

@[simp] theorem loopStep_shutdown (s : Node) :
    (loopStep s).coordinator.shutdown = s.coordinator.shutdown := by
  rcases loopStep_cases s with ⟨point, -, hstep⟩ | ⟨-, hstep⟩ | ⟨-, hstep⟩
  · rw [hstep]
  · rw [hstep]
  · rw [hstep, ← act_shutdown s]

/-- The next step of such a loop makes the node the leader, whatever the flag says by then. -/
theorem AboutToLead.isLeader_loopStep {s : Node} (h : s.AboutToLead) :
    (loopStep s).isLeader = true := by
  obtain ⟨hacting, hrole⟩ := h
  rw [loopStep, hacting, act]
  cases hcase : s.role with
  | follower => exact absurd hcase hrole
  | candidate => rfl
  | leader => rfl

/-- `shutdown` sets the flag before anything else, so that it is set in every state after the first
store. -/
theorem flag_run (nodeId : UInt64) (sched : List Actor)
    (h : (run (start nodeId) sched).shutdownCall ≠ .notCalled) :
    (run (start nodeId) sched).coordinator.shutdown = true := by
  have hstep : ∀ (a : Actor) (s : Node),
      (s.shutdownCall ≠ .notCalled → s.coordinator.shutdown = true) →
      (step a s).shutdownCall ≠ .notCalled → (step a s).coordinator.shutdown = true := by
    intro a s hs hcalled
    cases a with
    | electionLoop =>
      rw [step, loopStep_shutdownCall] at hcalled
      rw [step, loopStep_shutdown, hs hcalled]
    | shutdown =>
      rw [step, shutdownStep]
      cases hpoint : s.shutdownCall with
      | notCalled => rfl
      | flagged => exact hs (by rw [hpoint]; decide)
      | returned => exact hs (by rw [hpoint]; decide)
  exact Interleave.run_invariant hstep (fun h => absurd rfl h) sched h

/-- What holds once `shutdown` has returned at a quiet moment: the flag is set, the leadership is
given up and the loop is not about to take it. -/
structure Released (s : Node) : Prop where
  flag : s.coordinator.shutdown = true
  notLeader : s.isLeader = false
  returned : s.shutdownCall = .returned
  quiet : ¬s.AboutToLead

/-- The flag keeps the loop from another match, and the one it may be in does not lead. -/
theorem Released.step {s : Node} (h : s.Released) (a : Actor) : (step a s).Released := by
  cases a with
  | shutdown =>
    rw [Node.step, shutdownStep, h.returned]
    exact h
  | electionLoop =>
    rw [Node.step]
    rcases loopStep_cases s with ⟨point, hpoint, hstep⟩ | ⟨hflag, -⟩ | ⟨hacting, hstep⟩
    · rw [hstep]
      exact ⟨h.flag, h.notLeader, h.returned, fun hlead => hpoint hlead.1⟩
    · rw [h.flag] at hflag
      cases hflag
    -- a loop in its match that is not about to lead is a follower, and becomes a mere candidate
    · have hrole : s.role = .follower := by
        by_contra hrole
        exact h.quiet ⟨hacting, hrole⟩
      rw [hstep, act, hrole]
      refine ⟨h.flag, h.notLeader, h.returned, fun hlead => ?_⟩
      cases hlead.1

/-- **No leadership after shutdown, unless the loop was about to lead** when `shutdown` made its
last store: past its check of the flag, as a candidate or a leader. -/
theorem noLeadershipAfter_iff (nodeId : UInt64) (sched : List Actor)
    (h : (run (start nodeId) sched).shutdownCall = .flagged) :
    NoLeadershipAfter nodeId (sched ++ [.shutdown]) ↔ ¬(run (start nodeId) sched).AboutToLead := by
  have hreturn : run (start nodeId) (sched ++ [.shutdown]) =
      { run (start nodeId) sched with
          coordinator := { (run (start nodeId) sched).coordinator with isLeader := false }
          shutdownCall := .returned } := by
    rw [run, Interleave.run_concat, step, shutdownStep, h]
  constructor
  · intro hnever hlead
    -- one more step of the loop is enough
    have hlater := hnever [.electionLoop]
    rw [run, Interleave.run_concat, ← run, hreturn] at hlater
    have hleader : (loopStep { run (start nodeId) sched with
        coordinator := { (run (start nodeId) sched).coordinator with isLeader := false }
        shutdownCall := .returned }).isLeader = true := AboutToLead.isLeader_loopStep hlead
    exact Bool.false_ne_true (hlater.symm.trans hleader)
  · intro hquiet more
    have hreleased : (run (start nodeId) (sched ++ [.shutdown])).Released := by
      rw [hreturn]
      refine ⟨flag_run nodeId sched ?_, rfl, rfl, hquiet⟩
      rw [h]
      decide
    rw [run, Interleave.run_append]
    exact (Interleave.run_invariant (fun a s hs => hs.step a) hreleased more).notLeader

/-- Both stores are made before the loop has woken up once. -/
theorem noLeadershipAfter_idle : NoLeadershipAfter 1 ([.shutdown] ++ [.shutdown]) := by
  refine (noLeadershipAfter_iff 1 [.shutdown] rfl).mpr fun hlead => ?_
  cases hlead.1

/-- The loop passes its flag check as a candidate, `shutdown` makes both stores and returns, and then
the loop makes its own. -/
theorem not_noLeadershipAfter_candidate :
    ∃ sched, (run (start 1) sched).shutdownCall = .returned ∧ ¬NoLeadershipAfter 1 sched := by
  refine ⟨List.replicate 5 .electionLoop ++ [.shutdown, .shutdown], rfl, fun hnever => ?_⟩
  exact Bool.false_ne_true (hnever [.electionLoop]).symm

end Node

end ClusterCoordinator

end Caminus

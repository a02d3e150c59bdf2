import Mathlib.Data.List.Induction
import Mathlib.Data.List.Count
import Mathlib.Data.Finset.Dedup
import Mathlib.Data.Fintype.Defs
import Mathlib.Logic.Function.Iterate

/-!
# Actors that take turns

A concurrent component is a state with one atomic step for each actor. A schedule is the list of the
actors in the order of their turns, and `run` is the state after it. What every order of turns keeps
is proved from single steps by `run_invariant`. An actor with enough turns is done if its measure
falls on its own turns and never grows on the others' (`run_measure_eq_zero`), or if it makes progress
on its own turns until it is done (`run_done_or_progress`), and actors that share nothing run side by
side (`run_update`).
-/

namespace Caminus.Interleave

variable {ι σ : Type*} (step : ι → σ → σ)

/-- The state after a schedule, which names the actor of each atomic step. Every interleaving of the
actors is the run of some schedule. -/
def run (s : σ) (sched : List ι) : σ :=
  sched.foldl (fun s i => step i s) s

@[simp] theorem run_nil (s : σ) : run step s [] = s := rfl

@[simp] theorem run_cons (s : σ) (i : ι) (sched : List ι) :
    run step s (i :: sched) = run step (step i s) sched := rfl

/-- A schedule can be run in two parts, the second from where the first has led. -/
theorem run_append (s : σ) (sched more : List ι) :
    run step s (sched ++ more) = run step (run step s sched) more :=
  List.foldl_append

/-- One more turn is a step from where the others have led. -/
theorem run_concat (s : σ) (sched : List ι) (i : ι) :
    run step s (sched ++ [i]) = step i (run step s sched) :=
  run_append step s sched [i]

variable {step}

/-- What the steps of the scheduled actors preserve holds after the schedule. -/
theorem run_invariant_of_mem {Inv : σ → Prop} {sched : List ι}
    (hstep : ∀ i ∈ sched, ∀ s, Inv s → Inv (step i s)) {s : σ} (hinit : Inv s) :
    Inv (run step s sched) := by
  induction sched generalizing s with
  | nil => exact hinit
  | cons i sched ih =>
    apply ih
    · exact fun j hj => hstep j (List.mem_cons_of_mem i hj)
    · exact hstep i List.mem_cons_self s hinit

/-- What every step preserves holds after every schedule. All invariants of interleavings go through
this rule. -/
theorem run_invariant {Inv : σ → Prop} (hstep : ∀ i s, Inv s → Inv (step i s)) {s : σ}
    (hinit : Inv s) (sched : List ι) : Inv (run step s sched) :=
  run_invariant_of_mem (fun i _ => hstep i) hinit

/-- An actor whose measure falls on each of its turns is done after as many turns as its measure,
provided that the turns of others do not raise it. -/
theorem run_measure_eq_zero [DecidableEq ι] {measure : σ → ℕ} {i : ι}
    (hown : ∀ s, measure (step i s) ≤ measure s - 1)
    (hother : ∀ j s, measure (step j s) ≤ measure s) {s : σ} {sched : List ι}
    (hturns : measure s ≤ sched.count i) : measure (run step s sched) = 0 := by
  induction sched generalizing s with
  | nil => exact Nat.le_zero.mp hturns
  | cons j sched ih =>
    refine ih (s := step j s) ?_
    by_cases hij : j = i
    · subst hij
      rw [List.count_cons_self] at hturns
      exact Nat.le_trans (hown s) (Nat.sub_le_of_le_add hturns)
    · rw [List.count_cons_of_ne hij] at hturns
      exact Nat.le_trans (hother j s) hturns

/-- An actor that makes progress on each of its turns until it is done, and is then done for good. -/
theorem run_done_or_progress [DecidableEq ι] {progress : σ → ℕ} {Done : σ → Prop} {i : ι}
    (hown : ∀ s, Done s ∨ progress (step i s) = progress s + 1)
    (hother : ∀ j, j ≠ i → ∀ s, progress (step j s) = progress s)
    (hdone : ∀ j s, Done s → Done (step j s)) (s : σ) (sched : List ι) :
    Done (run step s sched) ∨ progress (run step s sched) = progress s + sched.count i := by
  induction sched generalizing s with
  | nil => exact Or.inr rfl
  | cons j sched ih =>
    rw [run_cons]
    by_cases hij : j = i
    · subst hij
      rcases hown s with hs | hs
      · exact Or.inl (run_invariant hdone (hdone j s hs) sched)
      · refine (ih (step j s)).imp_right fun h => ?_
        rw [h, hs, List.count_cons_self]
        omega
    · refine (ih (step j s)).imp_right fun h => ?_
      rw [h, hother j hij, List.count_cons_of_ne hij]

/-- There are schedules with any number of turns for every actor. -/
theorem exists_turns [Fintype ι] [DecidableEq ι] (turns : ℕ) :
    ∃ sched : List ι, ∀ i, turns ≤ sched.count i := by
  induction turns with
  | zero => exact ⟨[], fun i => Nat.zero_le _⟩
  | succ turns ih =>
    obtain ⟨sched, hsched⟩ := ih
    refine ⟨sched ++ Finset.univ.toList, fun i => ?_⟩
    have hone : 0 < (Finset.univ : Finset ι).toList.count i :=
      List.count_pos_iff.mpr (Finset.mem_toList.mpr (Finset.mem_univ i))
    rw [List.count_append]
    exact Nat.add_le_add (hsched i) hone

/-- Actors that share nothing: each one is where its own turns have taken it. -/
theorem run_update [DecidableEq ι] (f : σ → σ) (s : ι → σ) (sched : List ι) (i : ι) :
    run (fun j t => Function.update t j (f (t j))) s sched i = f^[sched.count i] (s i) := by
  induction sched generalizing s with
  | nil => rfl
  | cons j sched ih =>
    rw [run_cons, ih]
    by_cases hij : j = i
    · subst hij
      rw [Function.update_self, List.count_cons_self, Function.iterate_succ_apply]
    · rw [Function.update_of_ne (Ne.symm hij), List.count_cons_of_ne hij]

end Caminus.Interleave

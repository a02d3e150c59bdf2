import Caminus.Common.Split

/-!
# Cutting a list of jobs

A worker does jobs one after another, each in several steps, and is stopped after any number of
steps. Then a prefix of the jobs is done and at most one more is begun (`exists_take_flatMap`).
-/

namespace Caminus

variable {α β : Type*}

/-- `begun` is what was done of the first job of `rest`: some of its steps, and not all. -/
def Begun (steps : α → List β) (rest : List α) (begun : List β) : Prop :=
  begun = [] ∨ ∃ job rest', rest = job :: rest' ∧ begun <+: steps job ∧ begun ≠ steps job

/-- After any number of steps some jobs are done and at most one is begun. This is what a crash at
an arbitrary moment leaves behind. -/
theorem exists_take_flatMap (steps : α → List β) (jobs : List α) (n : ℕ) :
    ∃ done rest begun, jobs = done ++ rest ∧
      (jobs.flatMap steps).take n = done.flatMap steps ++ begun ∧ Begun steps rest begun := by
  induction jobs generalizing n with
  | nil => exact ⟨[], [], [], rfl, by simp, Or.inl rfl⟩
  | cons job jobs ih =>
    rw [List.flatMap_cons, List.take_append]
    -- the first job is done, or it is the one that is begun
    by_cases hn : (steps job).length ≤ n
    · obtain ⟨done, rest, begun, rfl, htake, hbegun⟩ := ih (n - (steps job).length)
      refine ⟨job :: done, rest, begun, rfl, ?_, hbegun⟩
      rw [htake, List.take_of_length_le hn, List.flatMap_cons, List.append_assoc]
    · have hzero : n - (steps job).length = 0 := by omega
      refine ⟨[], job :: jobs, (steps job).take n, rfl, ?_, Or.inr ⟨job, jobs, rfl, ?_, ?_⟩⟩
      · rw [hzero]
        simp
      · exact List.take_prefix _ _
      · intro h
        have hlen := congrArg List.length h
        rw [List.length_take] at hlen
        omega

/-- A step in the middle is one of a job, after the jobs before it and the steps before it. -/
theorem flatMap_eq_append_cons {steps : α → List β} {jobs : List α} {before after : List β} {b : β}
    (h : jobs.flatMap steps = before ++ b :: after) :
    ∃ done job rest begun left, jobs = done ++ job :: rest ∧ steps job = begun ++ b :: left ∧
      before = done.flatMap steps ++ begun := by
  induction jobs generalizing before with
  | nil => simp at h
  | cons job jobs ih =>
    rw [List.flatMap_cons] at h
    rcases append_eq_append_cons h with ⟨left, hjob⟩ | ⟨before', rfl, hlater⟩
    · exact ⟨[], job, jobs, before, left, rfl, hjob, rfl⟩
    · obtain ⟨done, job', rest, begun, left, rfl, hsteps, rfl⟩ := ih hlater
      refine ⟨job :: done, job', rest, begun, left, rfl, hsteps, ?_⟩
      rw [List.flatMap_cons, List.append_assoc]

/-- Every prefix of the jobs is done after some number of steps. -/
theorem take_length_flatMap (steps : α → List β) (done rest : List α) :
    ((done ++ rest).flatMap steps).take (done.flatMap steps).length = done.flatMap steps := by
  rw [List.flatMap_append, List.take_left]

end Caminus

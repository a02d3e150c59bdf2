import Caminus.Common.Mealy

/-!
# Concurrent objects that behave like sequential ones

Threads call an object whose operations take several atomic steps. A step is silent or is the moment
at which an operation takes effect, with its answer. If every silent step leaves the object as it
looks from outside, and every other one does to it what the sequential object does, then each history
is a run of the sequential object (`Linearized.history`). The operations of one thread keep their
order (`servedOf_history`).
-/

namespace Caminus.Mealy

variable {σ α τ ω β : Type*} (step : σ → α → Option (ω × β) × σ) (seq : τ → ω → β × τ)

/-- The operations that took effect in a run, with their answers. -/
def history (s : σ) (as : List α) : List (ω × β) := (outputs step s as).filterMap id

/-- The first step contributes the operation that takes effect in it, if any. -/
theorem history_cons (s : σ) (a : α) (as : List α) :
    history step s (a :: as) = (step s a).1.toList ++ history step (step s a).2 as := by
  rw [history, outputs_cons]
  cases (step s a).1 <;> rfl

/-- An operation took effect in some step, after the steps in which those before it did. -/
theorem exists_step_of_history {s : σ} {as : List α} {earlier later : List (ω × β)} {e : ω × β}
    (h : history step s as = earlier ++ e :: later) :
    ∃ before a after, as = before ++ a :: after ∧ history step s before = earlier ∧
      (step (final step s before) a).1 = some e := by
  induction as generalizing s earlier with
  | nil => exact absurd h (by simp [history])
  | cons a as ih =>
    rw [history_cons] at h
    -- the first step has no effect, or the first of the operations took effect in it
    cases hstep : (step s a).1 with
    | none =>
      rw [hstep] at h
      obtain ⟨before, b, after, rfl, hhistory, hb⟩ := ih h
      refine ⟨a :: before, b, after, rfl, ?_, hb⟩
      rw [history_cons, hstep, hhistory]
      rfl
    | some e₀ =>
      rw [hstep, Option.toList_some, List.singleton_append] at h
      cases earlier with
      | nil =>
        obtain ⟨rfl, -⟩ := List.cons.inj h
        exact ⟨[], a, as, rfl, rfl, hstep⟩
      | cons e₁ earlier =>
        obtain ⟨rfl, hrest⟩ := List.cons.inj h
        obtain ⟨before, b, after, rfl, hhistory, hb⟩ := ih hrest
        refine ⟨a :: before, b, after, rfl, ?_, hb⟩
        rw [history_cons, hstep, hhistory]
        rfl

/-- `R` relates a state to the sequential object that it looks like: a step without an effect keeps
the object, and one with an effect is a step of the object with the same answer. -/
structure Linearized (R : σ → τ → Prop) : Prop where
  silent : ∀ {s t a}, R s t → (step s a).1 = none → R (step s a).2 t
  effect : ∀ {s t a op answer}, R s t → (step s a).1 = some (op, answer) →
    (seq t op).1 = answer ∧ R (step s a).2 (seq t op).2

variable {step seq} {R : σ → τ → Prop}

/-- **The answers of a history are those of the sequential object**, and the two end alike. -/
theorem Linearized.history (h : Linearized step seq R) {s : σ} {t : τ} (hR : R s t) (as : List α) :
    (history step s as).map Prod.snd = outputs seq t ((history step s as).map Prod.fst) ∧
      R (final step s as) (final seq t ((history step s as).map Prod.fst)) := by
  induction as generalizing s t with
  | nil => exact ⟨rfl, hR⟩
  | cons a as ih =>
    rw [history_cons, final_cons]
    cases hstep : (step s a).1 with
    | none => exact ih (h.silent hR hstep)
    | some effect =>
      obtain ⟨op, answer⟩ := effect
      obtain ⟨rfl, hR'⟩ := h.effect hR hstep
      obtain ⟨hanswers, hfinal⟩ := ih hR'
      exact ⟨congrArg ((seq t op).1 :: ·) hanswers, hfinal⟩

/-- Each answer is that of the sequential object after the operations before it. -/
theorem Linearized.answer_eq (h : Linearized step seq R) {s : σ} {t : τ} (hR : R s t) {as : List α}
    {earlier later : List (ω × β)} {op : ω} {answer : β}
    (hsplit : Mealy.history step s as = earlier ++ (op, answer) :: later) :
    answer = (seq (final seq t (earlier.map Prod.fst)) op).1 := by
  obtain ⟨hanswers, -⟩ := h.history hR as
  rw [hsplit, List.map_append, List.map_append, outputs_append] at hanswers
  obtain ⟨-, hanswer⟩ := List.append_inj hanswers (by simp)
  rw [List.map_cons, List.map_cons, outputs_cons, List.cons.injEq] at hanswer
  exact hanswer.1

/-! ## The order of each thread -/

variable {ι ρ : Type*} [DecidableEq ι] (thread : ω → ι) (request : ω → ρ)

/-- The requests of a thread among the operations that took effect. -/
def servedOf (i : ι) (effects : List (ω × β)) : List ρ :=
  (effects.filter fun e => thread e.1 = i).map fun e => request e.1

variable {thread request}

/-- The requests of two stretches are served one after the other. -/
theorem servedOf_append (i : ι) (effects effects' : List (ω × β)) :
    servedOf thread request i (effects ++ effects') =
      servedOf thread request i effects ++ servedOf thread request i effects' := by
  rw [servedOf, List.filter_append, List.map_append]
  rfl

/-- If each step serves the next request of its thread or none, then the requests of every thread take
effect in their order, each once. -/
theorem servedOf_history {todo : σ → ι → List ρ}
    (hstep : ∀ s a i, servedOf thread request i (step s a).1.toList ++ todo (step s a).2 i =
      todo s i) (s : σ) (as : List α) (i : ι) :
    servedOf thread request i (history step s as) ++ todo (final step s as) i = todo s i := by
  induction as generalizing s with
  | nil => rfl
  | cons a as ih => rw [history_cons, servedOf_append, List.append_assoc, final_cons, ih, hstep]

end Caminus.Mealy

import Mathlib.Data.List.Induction

/-!
# Machines with an output per input

A component that consumes one input at a time is a step function `σ → α → β × σ`. `outputs` and
`final` are its whole runs, and a property of the state after a run is proved from the history that
led to it: `final_invariant` is the induction rule, `outputs_getElem?` reads a single output off the
state that the preceding inputs left behind.
-/

namespace Caminus.Mealy

variable {σ α β : Type*} (step : σ → α → β × σ)

/-- The state after a list of inputs, whatever the machine answers on its way. -/
def final : σ → List α → σ
  | s, [] => s
  | s, a :: as => final (step s a).2 as

/-- The outputs of a list of inputs, one for each. -/
def outputs : σ → List α → List β
  | _, [] => []
  | s, a :: as => (step s a).1 :: outputs (step s a).2 as

@[simp] theorem final_nil (s : σ) : final step s [] = s := rfl

@[simp] theorem outputs_nil (s : σ) : outputs step s [] = [] := rfl

@[simp] theorem final_cons (s : σ) (a : α) (as : List α) :
    final step s (a :: as) = final step (step s a).2 as := rfl

@[simp] theorem outputs_cons (s : σ) (a : α) (as : List α) :
    outputs step s (a :: as) = (step s a).1 :: outputs step (step s a).2 as := rfl

/-- Inputs can be fed in two parts, which is how a run is cut at a call. -/
theorem final_append (s : σ) (as bs : List α) :
    final step s (as ++ bs) = final step (final step s as) bs := by
  induction as generalizing s with
  | nil => rfl
  | cons a as ih => exact ih _

/-- The last input moves on the state that the others leave. -/
theorem final_concat (s : σ) (as : List α) (a : α) :
    final step s (as ++ [a]) = (step (final step s as) a).2 :=
  final_append step s as [a]

/-- The outputs of two parts, the second from the state that the first one leaves. -/
theorem outputs_append (s : σ) (as bs : List α) :
    outputs step s (as ++ bs) = outputs step s as ++ outputs step (final step s as) bs := by
  induction as generalizing s with
  | nil => rfl
  | cons a as ih => simp [ih]

/-- The state alone, as a fold. -/
theorem final_eq_foldl (s : σ) (as : List α) :
    final step s as = as.foldl (fun s a => (step s a).2) s := by
  induction as generalizing s with
  | nil => rfl
  | cons a as ih => exact ih _

@[simp] theorem length_outputs (s : σ) (as : List α) :
    (outputs step s as).length = as.length := by
  induction as generalizing s with
  | nil => rfl
  | cons a as ih => simp [ih]

/-- The output at a position is the step's output in the state left by the inputs before it. -/
theorem outputs_getElem? (s : σ) (as : List α) (i : ℕ) :
    (outputs step s as)[i]? = as[i]?.map fun a => (step (final step s (as.take i)) a).1 := by
  induction as generalizing s i with
  | nil => simp
  | cons a as ih =>
    cases i with
    | zero => simp
    | succ i => simp [ih]

/-- A relation between history and state that holds at the start and survives every step holds after
every run. -/
theorem final_invariant {Inv : List α → σ → Prop} {s : σ} (hinit : Inv [] s)
    (hstep : ∀ hist s a, Inv hist s → Inv (hist ++ [a]) (step s a).2) (as : List α) :
    Inv as (final step s as) := by
  induction as using List.reverseRecOn with
  | nil => exact hinit
  | append_singleton as a ih =>
    rw [final_concat]
    exact hstep as _ a ih

end Caminus.Mealy

import Caminus.Common.Mealy

/-!
# Machines that keep their clients apart

Every input of a machine belongs to a client, and a client has a view of the state. If the inputs of
others leave the view alone, and a client's own inputs are answered from the view, then the answers a
client gets are those of a run in which it is alone (`Unwinds.answers_inputsOf`).
-/

namespace Caminus.Mealy

variable {σ α β γ κ : Type*} [DecidableEq κ] (step : σ → α → β × σ) (owner : α → κ)

/-- The outputs of the inputs of one client: all that this client gets to see of a run with others. -/
def answers (c : κ) : σ → List α → List β
  | _, [] => []
  | s, a :: as =>
      if owner a = c then (step s a).1 :: answers c (step s a).2 as
      else answers c (step s a).2 as

/-- The inputs of one client, that is the run that it would have alone. -/
def inputsOf (c : κ) (as : List α) : List α := as.filter (owner · = c)

/-- A step works on the view of its owner and on no other client's. From this one condition it
follows that a client cannot tell a run with others from a run of its own. -/
structure Unwinds (view : κ → σ → γ) : Prop where
  output : ∀ {s s'} a, view (owner a) s = view (owner a) s' → (step s a).1 = (step s' a).1
  own : ∀ {s s'} a, view (owner a) s = view (owner a) s' →
    view (owner a) (step s a).2 = view (owner a) (step s' a).2
  others : ∀ {c} s a, owner a ≠ c → view c (step s a).2 = view c s

variable {step owner}

/-- Two runs from states that look alike to a client answer it alike, whatever others do in one of
them. -/
theorem Unwinds.answers_inputsOf {view : κ → σ → γ} (h : Unwinds step owner view) (c : κ)
    (as : List α) {s s' : σ} (hview : view c s = view c s') :
    answers step owner c s (inputsOf owner c as) = answers step owner c s' as := by
  induction as generalizing s s' with
  | nil => rfl
  | cons a as ih =>
    by_cases ha : owner a = c
    · subst ha
      rw [inputsOf, List.filter_cons_of_pos (by simp), ← inputsOf, answers, answers, if_pos rfl,
        if_pos rfl, h.output a hview, ih (h.own a hview)]
    · rw [inputsOf, List.filter_cons_of_neg (by simpa using ha), ← inputsOf, answers, if_neg ha]
      exact ih (hview.trans (h.others s' a ha).symm)

end Caminus.Mealy

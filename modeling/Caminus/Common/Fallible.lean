import Mathlib.Data.List.Basic

/-!
# Computations that stop at the first error
-/

namespace Caminus

variable {α ε : Type}

/-- A computation with a first step succeeds if both of its parts do. -/
theorem bind_eq_ok_iff {β : Type} {x : Except ε α} {f : α → Except ε β} {b : β} :
    (x >>= f) = .ok b ↔ ∃ a, x = .ok a ∧ f a = .ok b := by
  cases x with
  | error e =>
    constructor
    · intro h
      cases h
    · rintro ⟨a, h, -⟩
      cases h
  | ok a =>
    constructor
    · intro h
      exact ⟨a, rfl, h⟩
    · rintro ⟨a', h, hf⟩
      cases h
      exact hf

/-- `Option::ok_or`. -/
def okOr (o : Option α) (e : ε) : Except ε α :=
  match o with
  | some a => .ok a
  | none => .error e

/-- A missing value is an error, and nothing else is. -/
theorem okOr_eq_ok_iff {o : Option α} {e : ε} {a : α} : okOr o e = .ok a ↔ o = some a := by
  cases o <;> simp [okOr]

/-- Related values are related after a next step that keeps them so: both are there, or neither is. -/
theorem rel_bind {β γ δ : Type} {R : α → β → Prop} {S : γ → δ → Prop} {x : Option α} {y : Option β}
    {f : α → Option γ} {g : β → Option δ} (h : Option.Rel R x y)
    (hstep : ∀ {a b}, R a b → Option.Rel S (f a) (g b)) : Option.Rel S (x.bind f) (y.bind g) := by
  cases h with
  | none => exact .none
  | some hab => exact hstep hab

/-- The same for a next step that does not tell related values apart. -/
theorem bind_eq_of_rel {β γ : Type} {R : α → β → Prop} {x : Option α} {y : Option β}
    {f : α → Option γ} {g : β → Option γ} (h : Option.Rel R x y)
    (hstep : ∀ {a b}, R a b → g b = f a) : y.bind g = x.bind f := by
  cases h with
  | none => rfl
  | some hab => exact hstep hab

/-- Run a check on every element; the first error ends the loop. -/
def checkAll (check : α → Except ε Unit) : List α → Except ε Unit
  | [] => .ok ()
  | a :: rest =>
      match check a with
      | .error e => .error e
      | .ok () => checkAll check rest

/-- All elements pass exactly if each of them does; which error comes first does not matter here. -/
theorem checkAll_eq_ok_iff {check : α → Except ε Unit} {l : List α} :
    checkAll check l = .ok () ↔ ∀ a ∈ l, check a = .ok () := by
  induction l with
  | nil => simp [checkAll]
  | cons a rest ih =>
    rw [checkAll, List.forall_mem_cons, ← ih]
    cases check a <;> simp

end Caminus

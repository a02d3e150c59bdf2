import Mathlib.Algebra.Order.Field.Basic

/-!
# Growth up to a cap

A quantity is multiplied by a factor and cut off at a cap, again and again. Its multiples stay below a
bound exactly if the first and the last one do (`forall_mul_capped_lt_iff`): with a factor of at least
one it grows towards the cap, with a smaller one it shrinks.
-/

namespace Caminus

variable {K : Type*} [Field K] [LinearOrder K]

/-- The quantity after some rounds, in each of which it is multiplied and cut off at the cap. The
start is not cut off. -/
def capped (factor cap start : K) : ℕ → K
  | 0 => start
  | i + 1 => min (capped factor cap start i * factor) cap

variable {factor cap start : K}

/-- Nothing grows from zero: multiplied by any factor it stays zero, and the cap does not bind. -/
theorem capped_zero_start (hcap : 0 ≤ cap) (i : ℕ) : capped factor cap 0 i = 0 := by
  induction i with
  | zero => rfl
  | succ i ih => rw [capped, ih, zero_mul, min_eq_left hcap]

variable [IsStrictOrderedRing K]

/-- The quantity never becomes negative. -/
theorem capped_nonneg (hfactor : 0 ≤ factor) (hcap : 0 ≤ cap) (hstart : 0 ≤ start) (i : ℕ) :
    0 ≤ capped factor cap start i := by
  induction i with
  | zero => exact hstart
  | succ i ih => exact le_min (mul_nonneg ih hfactor) hcap

/-- With a factor of at most one the quantity never exceeds its start. -/
theorem capped_le_start (hfactor : 0 ≤ factor) (hone : factor ≤ 1) (hcap : 0 ≤ cap)
    (hstart : 0 ≤ start) (i : ℕ) : capped factor cap start i ≤ start := by
  induction i with
  | zero => exact le_refl _
  | succ i ih =>
    calc capped factor cap start (i + 1)
        ≤ capped factor cap start i * factor := min_le_left _ _
      _ ≤ capped factor cap start i :=
          mul_le_of_le_one_right (capped_nonneg hfactor hcap hstart i) hone
      _ ≤ start := ih

/-- With a factor of at least one the cap counts only in the end. -/
theorem capped_succ_eq (hone : 1 ≤ factor) (hcap : 0 ≤ cap) (i : ℕ) :
    capped factor cap start (i + 1) = min (start * factor ^ (i + 1)) cap := by
  induction i with
  | zero => rw [capped, capped, pow_one]
  | succ i ih =>
    rw [capped, ih, min_mul_of_nonneg _ _ (zero_le_one.trans hone), min_assoc, mul_assoc,
      ← pow_succ, min_eq_right (le_mul_of_one_le_right hcap hone)]

/-- A multiple of the smaller of two is below a bound if that of the first one is. -/
theorem mul_min_lt {c bound x y : K} (hc : 0 ≤ c) (h : c * x < bound) : c * min x y < bound :=
  lt_of_le_of_lt (mul_le_mul_of_nonneg_left (min_le_left _ _) hc) h

/-- A multiple stays below a bound in all rounds exactly if it does so at the start and in the last
round. With a factor of at most one the start is the largest value, otherwise the last one is. -/
theorem forall_mul_capped_lt_iff {c bound : K} (hc : 0 ≤ c) (hfactor : 0 ≤ factor) (hcap : 0 ≤ cap)
    (hstart : 0 ≤ start) (n : ℕ) :
    (∀ i ≤ n, c * capped factor cap start i < bound) ↔
      c * start < bound ∧ c * min (start * factor ^ n) cap < bound := by
  rcases le_total factor 1 with hone | hone
  · -- nothing is larger than the start
    have hpow : c * (start * factor ^ n) ≤ c * start :=
      mul_le_mul_of_nonneg_left (mul_le_of_le_one_right hstart (pow_le_one₀ hfactor hone)) hc
    constructor
    · intro h
      have hfirst : c * start < bound := h 0 (Nat.zero_le n)
      exact ⟨hfirst, mul_min_lt hc (hpow.trans_lt hfirst)⟩
    · rintro ⟨hfirst, -⟩ i -
      have hle := capped_le_start hfactor hone hcap hstart i
      exact (mul_le_mul_of_nonneg_left hle hc).trans_lt hfirst
  · constructor
    · intro h
      have hfirst : c * start < bound := h 0 (Nat.zero_le n)
      refine ⟨hfirst, ?_⟩
      cases n with
      | zero =>
        rw [pow_zero, mul_one]
        exact mul_min_lt hc hfirst
      | succ n =>
        rw [← capped_succ_eq hone hcap]
        exact h (n + 1) (Nat.le_refl _)
    · rintro ⟨hfirst, hlast⟩ i hi
      cases i with
      | zero => exact hfirst
      | succ i =>
        have hpow : start * factor ^ (i + 1) ≤ start * factor ^ n :=
          mul_le_mul_of_nonneg_left (pow_le_pow_right₀ hone hi) hstart
        rw [capped_succ_eq hone hcap]
        exact (mul_le_mul_of_nonneg_left (min_le_min_right cap hpow) hc).trans_lt hlast

end Caminus

import Caminus.Common.Mealy
import Mathlib.Algebra.Order.Field.Basic
import Mathlib.Tactic.Linarith
import Mathlib.Tactic.Ring

/-!
# Machines with a bounded rate

A machine whose inputs carry times spends what a level allows. If every step pays from the level,
and time refills the level at a fixed rate and never above a capacity, then no window of any run
costs more than the capacity and what the rate gives over the window (`Metered.windowCost_le`).
-/

namespace Caminus.Mealy

variable {σ α β K : Type*} [Field K] [LinearOrder K] [IsStrictOrderedRing K]
  (step : σ → α → β × σ) (time : α → K) (cost : β → K)

/-- The total cost of the inputs between two times, of a run that may begin before and end after
them. -/
def windowCost (t₁ t₂ : K) : σ → List α → K
  | _, [] => 0
  | s, a :: as =>
      (if t₁ ≤ time a ∧ time a ≤ t₂ then cost (step s a).1 else 0) + windowCost t₁ t₂ (step s a).2 as

/-- Costs are paid from a level between `0` and `cap` that time refills at `rate`; `clock` is the
time of the last refill. This is all that a bound on the costs of an interval needs. -/
structure Metered (Inv : σ → Prop) (level clock : σ → K) (cap rate : K) : Prop where
  rate_nonneg : 0 ≤ rate
  level_nonneg : ∀ {s}, Inv s → 0 ≤ level s
  level_le : ∀ {s}, Inv s → level s ≤ cap
  keeps : ∀ {s a}, Inv s → clock s ≤ time a → Inv (step s a).2
  ticks : ∀ s a, clock (step s a).2 = time a
  cost_nonneg : ∀ s a, 0 ≤ cost (step s a).1
  paid : ∀ {s a}, Inv s → clock s ≤ time a →
    cost (step s a).1 + level (step s a).2 ≤ level s + rate * (time a - clock s)
  capped : ∀ {s a}, Inv s → clock s ≤ time a → cost (step s a).1 + level (step s a).2 ≤ cap

namespace Metered

variable {step time cost} {Inv : σ → Prop} {level clock : σ → K} {cap rate : K}

/-- The inputs come in the order of their times, after the clock. -/
def InTime (time : α → K) (clock : σ → K) (s : σ) (as : List α) : Prop :=
  (clock s :: as.map time).IsChain (· ≤ ·)

omit [IsStrictOrderedRing K] in
/-- The first input is after the clock, and the others are after the first. -/
theorem inTime_cons (h : Metered step time cost Inv level clock cap rate) {s : σ} {a : α}
    {as : List α} (hin : InTime time clock s (a :: as)) :
    clock s ≤ time a ∧ InTime time clock (step s a).2 as := by
  rw [InTime, List.map_cons, List.isChain_cons_cons] at hin
  rw [InTime, h.ticks]
  exact hin

/-- Nothing is spent in a window that ends before the clock. -/
theorem windowCost_eq_zero (h : Metered step time cost Inv level clock cap rate) {t₁ t₂ : K} {s : σ}
    {as : List α} (hin : InTime time clock s as) (hlate : t₂ < clock s) :
    windowCost step time cost t₁ t₂ s as = 0 := by
  induction as generalizing s with
  | nil => rfl
  | cons a as ih =>
    obtain ⟨hclock, hrest⟩ := h.inTime_cons hin
    have hout : ¬(t₁ ≤ time a ∧ time a ≤ t₂) := fun hw => absurd hw.2 (by linarith)
    rw [windowCost, if_neg hout, ih hrest (by rw [h.ticks]; linarith), add_zero]

/-- From a state on, no more is spent than its level and what is refilled. By induction on the
inputs; those after the window cost nothing. -/
theorem windowCost_le_level (h : Metered step time cost Inv level clock cap rate) {t₁ t₂ : K} {s : σ}
    {as : List α} (hinv : Inv s) (hin : InTime time clock s as) (hclock : clock s ≤ t₂) :
    windowCost step time cost t₁ t₂ s as ≤ level s + rate * (t₂ - clock s) := by
  induction as generalizing s with
  | nil =>
    have hrefill : 0 ≤ rate * (t₂ - clock s) := mul_nonneg h.rate_nonneg (sub_nonneg.mpr hclock)
    exact add_nonneg (h.level_nonneg hinv) hrefill
  | cons a as ih =>
    obtain ⟨ha, hrest⟩ := h.inTime_cons hin
    rw [windowCost]
    by_cases hlate : time a ≤ t₂
    · have hcost : (if t₁ ≤ time a ∧ time a ≤ t₂ then cost (step s a).1 else 0) ≤ cost (step s a).1 := by
        split_ifs
        · exact le_refl _
        · exact h.cost_nonneg s a
      have hlater := ih (h.keeps hinv ha) hrest (by rwa [h.ticks])
      rw [h.ticks] at hlater
      calc _ ≤ cost (step s a).1 + (level (step s a).2 + rate * (t₂ - time a)) :=
            add_le_add hcost hlater
        _ ≤ level s + rate * (time a - clock s) + rate * (t₂ - time a) := by
            rw [← add_assoc]
            exact add_le_add_left (h.paid hinv ha) _
        _ = level s + rate * (t₂ - clock s) := by ring
    · rw [if_neg (fun hw => hlate hw.2), zero_add,
        h.windowCost_eq_zero hrest (by rw [h.ticks]; exact lt_of_not_ge hlate)]
      have hrefill : 0 ≤ rate * (t₂ - clock s) := mul_nonneg h.rate_nonneg (sub_nonneg.mpr hclock)
      exact add_nonneg (h.level_nonneg hinv) hrefill

/-- **No window costs more than the capacity and what the rate gives over it.** Inputs before the
window do not count, and at the first one in it the level is at most the capacity. -/
theorem windowCost_le (h : Metered step time cost Inv level clock cap rate) {t₁ t₂ : K} (ht : t₁ ≤ t₂)
    {s : σ} {as : List α} (hinv : Inv s) (hin : InTime time clock s as) :
    windowCost step time cost t₁ t₂ s as ≤ cap + rate * (t₂ - t₁) := by
  have hwindow : 0 ≤ rate * (t₂ - t₁) := mul_nonneg h.rate_nonneg (sub_nonneg.mpr ht)
  have hcap : 0 ≤ cap := (h.level_nonneg hinv).trans (h.level_le hinv)
  induction as generalizing s with
  | nil => exact add_nonneg hcap hwindow
  | cons a as ih =>
    obtain ⟨ha, hrest⟩ := h.inTime_cons hin
    rw [windowCost]
    by_cases hin₁ : t₁ ≤ time a
    · by_cases hin₂ : time a ≤ t₂
      · -- the first input of the window: what follows is paid from the level it leaves behind
        have hclock : clock (step s a).2 ≤ t₂ := by rwa [h.ticks]
        have hlater : windowCost step time cost t₁ t₂ (step s a).2 as ≤
            level (step s a).2 + rate * (t₂ - clock (step s a).2) :=
          h.windowCost_le_level (h.keeps hinv ha) hrest hclock
        rw [h.ticks] at hlater
        have hshorter : rate * (t₂ - time a) ≤ rate * (t₂ - t₁) :=
          mul_le_mul_of_nonneg_left (by linarith) h.rate_nonneg
        have hcapped := h.capped hinv ha
        rw [if_pos ⟨hin₁, hin₂⟩]
        linarith
      · rw [if_neg (fun hw => hin₂ hw.2), zero_add,
          h.windowCost_eq_zero hrest (by rw [h.ticks]; exact lt_of_not_ge hin₂)]
        exact add_nonneg hcap hwindow
    · rw [if_neg (fun hw => hin₁ hw.1), zero_add]
      exact ih (h.keeps hinv ha) hrest

omit [IsStrictOrderedRing K] in
/-- The invariant holds in every state of a run whose inputs come in the order of time. -/
theorem inv_final (h : Metered step time cost Inv level clock cap rate) {s : σ} {as : List α}
    (hinv : Inv s) (hin : InTime time clock s as) : Inv (final step s as) := by
  induction as generalizing s with
  | nil => exact hinv
  | cons a as ih =>
    obtain ⟨ha, hrest⟩ := h.inTime_cons hin
    exact ih (h.keeps hinv ha) hrest

end Metered

end Caminus.Mealy

import Caminus.Common.RateBound
import Mathlib.Data.List.Chain

/-!
# Machines that spend whenever they can

A machine of `Caminus.Mealy.Metered` is bounded in every window. If its level is refilled exactly, and
starts at the capacity, then the converse holds too: what is available at some time is the least that
any window up to this time leaves of its bound (`Refilled.le_available_iff`).
-/

namespace Caminus.Mealy

variable {σ α β K : Type*} [Field K] [LinearOrder K] [IsStrictOrderedRing K]
  (step : σ → α → β × σ) (time : α → K) (cost : β → K)

/-- The cost of a list of inputs, by what the machine answers to them when they come in this order. -/
def totalCost (s : σ) (as : List α) : K := ((outputs step s as).map cost).sum

omit [LinearOrder K] [IsStrictOrderedRing K] in
/-- One more input costs what its step costs in the state before it. -/
theorem totalCost_concat (s : σ) (as : List α) (a : α) :
    totalCost step cost s (as ++ [a]) =
      totalCost step cost s as + cost (step (final step s as) a).1 := by
  simp [totalCost, outputs_append]

omit [IsStrictOrderedRing K] in
/-- The cost of a window is that of the steps in it. -/
theorem windowCost_eq_sum (t₁ t₂ : K) (s : σ) (as : List α) :
    windowCost step time cost t₁ t₂ s as =
      (((as.zip (outputs step s as)).filter fun p => t₁ ≤ time p.1 ∧ time p.1 ≤ t₂).map
        fun p => cost p.2).sum := by
  induction as generalizing s with
  | nil => rfl
  | cons a as ih =>
    rw [windowCost, ih, outputs_cons, List.zip_cons_cons]
    by_cases hin : t₁ ≤ time a ∧ time a ≤ t₂
    · rw [if_pos hin, List.filter_cons_of_pos (by simpa using hin), List.map_cons, List.sum_cons]
    · rw [if_neg hin, List.filter_cons_of_neg (by simpa using hin), zero_add]

/-- The time of the first input of a window, or the present if there is none. -/
def windowStart (now : K) (window : List α) : K := (window.head?.map time).getD now

omit [Field K] [LinearOrder K] [IsStrictOrderedRing K] in
/-- A window that goes on starts where it started, or at its new input if it was empty. -/
theorem windowStart_concat (now : K) (window : List α) (a : α) :
    windowStart time now (window ++ [a]) = windowStart time (time a) window := by
  cases window <;> rfl

/-- Time refills the level at `rate` up to `cap`, and each step pays from it. Unlike a bound on the
cost, this says exactly what the level is, so that a denial can be explained. -/
structure Refilled (Inv : σ → Prop) (level clock : σ → K) (cap rate : K) : Prop where
  rate_nonneg : 0 ≤ rate
  keeps : ∀ {s a}, Inv s → clock s ≤ time a → Inv (step s a).2
  ticks : ∀ s a, clock (step s a).2 = time a
  refilled : ∀ {s a}, Inv s → clock s ≤ time a →
    cost (step s a).1 + level (step s a).2 = min (level s + rate * (time a - clock s)) cap

namespace Refilled

variable {step time cost} {Inv : σ → Prop} {level clock : σ → K} {cap rate : K}

omit [IsStrictOrderedRing K] in
/-- Inputs in time keep the invariant, and the last of them sets the clock. -/
theorem inv_final_concat (h : Refilled step time cost Inv level clock cap rate) {s : σ} {as : List α}
    {a : α} (hinv : Inv s) (hin : Metered.InTime time clock s (as ++ [a])) :
    Inv (final step s as) ∧ Metered.InTime time clock s as ∧ clock (final step s as) ≤ time a := by
  induction as generalizing s with
  | nil =>
    rw [List.nil_append, Metered.InTime, List.map_singleton, List.isChain_cons_cons] at hin
    exact ⟨hinv, List.isChain_singleton _, hin.1⟩
  | cons b as ih =>
    rw [Metered.InTime, List.cons_append, List.map_cons, List.isChain_cons_cons] at hin
    have hrest : Metered.InTime time clock (step s b).2 (as ++ [a]) := by
      rw [Metered.InTime, h.ticks]
      exact hin.2
    obtain ⟨hfinal, hbefore, hclock⟩ := ih (h.keeps hinv hin.1) hrest
    rw [Metered.InTime, h.ticks] at hbefore
    refine ⟨hfinal, ?_, hclock⟩
    rw [Metered.InTime, List.map_cons, List.isChain_cons_cons]
    exact ⟨hin.1, hbefore⟩

/-- **What is available is what every window leaves of its bound.** By induction from the last input
backwards: what is available after it, together with what it spent, was available before. -/
theorem le_available_iff (h : Refilled step time cost Inv level clock cap rate) {s : σ}
    (hinv : Inv s) (hfull : level s = cap) {as : List α} (hin : Metered.InTime time clock s as)
    {now : K} (hnow : clock (final step s as) ≤ now) (c : K) :
    c ≤ min (level (final step s as) + rate * (now - clock (final step s as))) cap ↔
      ∀ before window, as = before ++ window →
        totalCost step cost (final step s before) window + c ≤
          cap + rate * (now - windowStart time now window) := by
  induction as using List.reverseRecOn generalizing now c with
  | nil =>
    have hrefill : 0 ≤ rate * (now - clock s) := mul_nonneg h.rate_nonneg (sub_nonneg.mpr hnow)
    have hmin : min (cap + rate * (now - clock s)) cap = cap := min_eq_right (by linarith)
    rw [final_nil, hfull, hmin]
    constructor
    · intro hc before window hsplit
      obtain ⟨rfl, rfl⟩ := List.append_eq_nil_iff.mp hsplit.symm
      simpa [totalCost, windowStart] using hc
    · intro hall
      simpa [totalCost, windowStart] using hall [] [] rfl
  | append_singleton as a ih =>
    obtain ⟨hfinal, hbefore, hclock⟩ := h.inv_final_concat hinv hin
    have hpaid := h.refilled hfinal hclock
    rw [final_concat, h.ticks] at hnow ⊢
    -- what is available after `a` was available before it, on top of what `a` spent
    have hstep := ih hbefore hclock (cost (step (final step s as) a).1 + c - rate * (now - time a))
    rw [← hpaid] at hstep
    have hlevel : c ≤ level (step (final step s as) a).2 + rate * (now - time a) ↔
        cost (step (final step s as) a).1 + c - rate * (now - time a) ≤
          cost (step (final step s as) a).1 + level (step (final step s as) a).2 := by
      constructor <;> intro hle <;> linarith
    rw [le_min_iff, hlevel, hstep]
    constructor
    · rintro ⟨hall, hcap⟩ before window hsplit
      -- the empty window bounds by the capacity alone; any other one ends with the last input
      rcases List.eq_nil_or_concat window with rfl | ⟨window, b, rfl⟩
      · simpa [totalCost, windowStart] using hcap
      · rw [List.concat_eq_append, ← List.append_assoc] at hsplit
        obtain ⟨rfl, hb⟩ := List.append_inj' hsplit rfl
        obtain rfl := List.head_eq_of_cons_eq hb
        have hwindow := hall before window rfl
        rw [List.concat_eq_append, totalCost_concat, windowStart_concat, ← final_append]
        linarith
    · intro hall
      refine ⟨fun before window hsplit => ?_, ?_⟩
      · have hwindow := hall before (window ++ [a]) (by rw [hsplit, List.append_assoc])
        rw [totalCost_concat, windowStart_concat, ← final_append, ← hsplit] at hwindow
        linarith
      · simpa [totalCost, windowStart] using hall (as ++ [a]) [] (by simp)

/-- A demand that could be met at some time, up to a debt, still can be after a step before that time,
up to what the step spends on top. -/
theorem demand_step (h : Refilled step time cost Inv level clock cap rate) {s : σ} {a : α}
    (hinv : Inv s) (ha : clock s ≤ time a) {now : K} (hnow : time a ≤ now) {c debt : K}
    (hcost : 0 ≤ cost (step s a).1) (hdebt : 0 ≤ debt) (hcap : c ≤ cap)
    (hmet : c ≤ level s + rate * (now - clock s) + debt) :
    c ≤ min (level (step s a).2 + rate * (now - clock (step s a).2)) cap +
      (debt + cost (step s a).1) := by
  have hpaid := h.refilled hinv ha
  have hlater : 0 ≤ rate * (now - time a) := mul_nonneg h.rate_nonneg (sub_nonneg.mpr hnow)
  have htimes : rate * (now - clock s) = rate * (time a - clock s) + rate * (now - time a) := by ring
  rw [h.ticks, ← sub_le_iff_le_add, le_min_iff]
  constructor
  · -- the step has left what it found, less its cost: all of the refill, or a full level
    rcases min_choice (level s + rate * (time a - clock s)) cap with hmin | hmin
    · rw [hmin] at hpaid
      linarith
    · rw [hmin] at hpaid
      linarith
  · linarith

end Refilled

end Caminus.Mealy

import Caminus.Common.GreedyRate
import Caminus.Resiliency.RateLimiter

/-!
# What a token bucket admits

The bound of `Caminus.TokenBucketLimiter.RateBounded` is all that a bucket enforces: an attempt gets
its tokens whenever they keep every window of the attempts so far within the bound
(`granted_iff_windows`). So a bucket never turns a caller away for another reason, whatever the order
and the kinds of the attempts before.
-/

namespace Caminus.TokenBucketLimiter

/-- The attempt gets its tokens: `try_acquire` returns `true`, the loop of `acquire` ends. -/
def Granted (b : TokenBucketLimiter ℚ) (a : Attempt) : Prop :=
  match a.kind with
  | .tryAcquire => (b.tryAcquire .exact a.now a.count).1 = true
  | .acquireIteration => (b.acquireIteration .exact a.now a.count).1 = none

/-- The tokens granted to a window of attempts, after the attempts `before`. -/
def grantedIn (capacity : UInt32) (rate : ℚ) (created : ℕ) (before window : List Attempt) : ℕ :=
  (Mealy.outputs (attempt .exact)
    (Mealy.final (attempt .exact) (new .exact capacity rate created) before) window).sum

/-- With the attempt `a` at its end, the window stays within the capacity and what the rate gives from
its first attempt on. -/
def WithinBound (capacity : UInt32) (rate : ℚ) (created : ℕ) (before window : List Attempt)
    (a : Attempt) : Prop :=
  (grantedIn capacity rate created before window + a.count.toNat : ℚ) ≤
    capacity.toNat + rate * (secsAt a.now - secsAt ((window.head?.map Attempt.now).getD a.now))

/-- An attempt is granted exactly if the refilled bucket holds its tokens. -/
theorem granted_iff_le (b : TokenBucketLimiter ℚ) (a : Attempt) :
    b.Granted a ↔ (a.count.toNat : ℚ) ≤ (b.refill .exact a.now).tokens := by
  have hdecide : (BucketArith.exact.ge (b.refill .exact a.now).tokens
      (BucketArith.exact.ofU32 a.count) = true) ↔
      (a.count.toNat : ℚ) ≤ (b.refill .exact a.now).tokens := decide_eq_true_iff
  rw [Granted, ← hdecide]
  cases a.kind with
  | tryAcquire =>
    simp only [tryAcquire]
    split_ifs with hge <;> simp [hge]
  | acquireIteration =>
    simp only [acquireIteration]
    split_ifs with hge <;> simp [hge]

/-- The refill in seconds. -/
theorem tokens_refill_eq {b : TokenBucketLimiter ℚ} {now : ℕ} (hnow : b.lastRefill ≤ now) :
    (b.refill .exact now).tokens =
      min (b.tokens + b.refillRatePerSec * (secsAt now - secsAt b.lastRefill)) b.capacity.toNat := by
  rw [← secsAt_sub hnow, mul_comm]
  rfl

/-- A bucket is refilled exactly: between two attempts by the rate times the seconds, up to the
capacity. -/
theorem refilled (capacity : UInt32) {rate : ℚ} (hrate : 0 ≤ rate) :
    Mealy.Refilled (attempt .exact) (fun a => secsAt a.now) (fun n : ℕ => (n : ℚ))
      (Sound capacity rate) tokens (fun b => secsAt b.lastRefill) capacity.toNat rate where
  rate_nonneg := hrate
  keeps h hnow := (h.attempt hrate (le_of_secsAt_le hnow)).1
  ticks b a := by rw [lastRefill_attempt]
  refilled h hnow := by
    rw [(h.attempt hrate (le_of_secsAt_le hnow)).2, tokens_refill_eq (le_of_secsAt_le hnow), h.rate,
      h.capacity]

/-- The tokens of a window are the cost of its attempts. -/
theorem totalCost_eq (b : TokenBucketLimiter ℚ) (window : List Attempt) :
    Mealy.totalCost (attempt .exact) (fun n : ℕ => (n : ℚ)) b window =
      ((Mealy.outputs (attempt .exact) b window).sum : ℕ) := by
  rw [Mealy.totalCost]
  exact (map_list_sum (Nat.castRingHom ℚ) _).symm

/-- The start of a window in seconds. -/
theorem windowStart_eq (now : ℕ) (window : List Attempt) :
    Mealy.windowStart (fun a : Attempt => secsAt a.now) (secsAt now) window =
      secsAt ((window.head?.map Attempt.now).getD now) := by
  cases window <;> rfl

/-- **An attempt is granted exactly when every window that it ends stays within its bound.** -/
theorem granted_iff_windows (capacity : UInt32) {rate : ℚ} (hrate : 0 ≤ rate) (created : ℕ)
    {attempts : List Attempt} {a : Attempt}
    (htimes : (created :: (attempts ++ [a]).map Attempt.now).IsChain (· ≤ ·)) :
    Granted (Mealy.final (attempt .exact) (new .exact capacity rate created) attempts) a ↔
      ∀ before window, attempts = before ++ window →
        WithinBound capacity rate created before window a := by
  have hmeter := refilled capacity hrate
  have hnew := sound_new capacity rate created
  obtain ⟨hsound, hin, hclock⟩ :=
    hmeter.inv_final_concat hnew (inTime_of_isChain htimes)
  have havailable := hmeter.le_available_iff hnew rfl hin hclock a.count.toNat
  rw [granted_iff_le, tokens_refill_eq (le_of_secsAt_le hclock), hsound.rate, hsound.capacity,
    havailable]
  simp only [totalCost_eq, windowStart_eq]
  rfl

/-- A bucket of two tokens that is refilled once a second: after two grants at once, the third attempt
breaks the bound of the window that they share until a second has passed. -/
theorem granted_iff_windows_two :
    Granted (Mealy.final (attempt .exact) (new .exact 2 1 0)
        [⟨.tryAcquire, 0, 1⟩, ⟨.acquireIteration, 0, 1⟩]) ⟨.tryAcquire, 1000000000, 1⟩ ↔
      ∀ before window,
        [⟨.tryAcquire, 0, 1⟩, ⟨.acquireIteration, 0, 1⟩] = before ++ window →
        WithinBound 2 1 0 before window ⟨.tryAcquire, 1000000000, 1⟩ :=
  granted_iff_windows 2 (by norm_num) 0 (by simp)

end Caminus.TokenBucketLimiter

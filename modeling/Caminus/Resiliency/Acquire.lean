import Caminus.Resiliency.RateLimiter
import Mathlib.Algebra.Order.Archimedean.Basic
import Mathlib.Data.Rat.Cast.Order

/-!
# Waiting for tokens

The loop of `TokenBucketLimiter::acquire` (`src/resiliency/rate_limiter.rs`), for a caller that is
alone on the bucket. An iteration that finds too few tokens sleeps for the time that the missing ones
take to come in. The next refill then holds `count` tokens, unless it is cut off at a capacity below
`count`, or the sleep is too long for a `Duration` and the call panics (`leavesWithinTwo_iff`).
-/

namespace Caminus.TokenBucketLimiter

/-- Where a call of `acquire` stands after its iterations so far. -/
inductive Acquiring (F : Type)
  | returned (iterations : ℕ) (b : TokenBucketLimiter F)
  | sleeping (b : TokenBucketLimiter F)
  | panicked (b : TokenBucketLimiter F)

/-- The loop, with an iteration at each of the instants. `Duration::from_secs_f64` panics on seconds
that a `Duration` does not hold. -/
def acquireLoop {F : Type} (arith : BucketArith F) (isDuration : F → Bool) (count : UInt32) :
    ℕ → TokenBucketLimiter F → List ℕ → Acquiring F
  | _, b, [] => .sleeping b
  | i, b, now :: instants =>
      match b.acquireIteration arith now count with
      | (none, b) => .returned (i + 1) b
      | (some secs, b) =>
          if isDuration secs then acquireLoop arith isDuration count (i + 1) b instants
          else .panicked b

/-- `acquire`, with its iterations at the given instants, as many as there are. -/
def acquire {F : Type} (arith : BucketArith F) (isDuration : F → Bool) (b : TokenBucketLimiter F)
    (count : UInt32) (instants : List ℕ) : Acquiring F :=
  acquireLoop arith isDuration count 0 b instants

/-- A `Duration` counts its seconds in a `u64`; a longer sleep is a panic of `from_secs_f64`. -/
def isDurationExact (secs : ℚ) : Bool := decide (secs < 2 ^ 64)

/-- Nobody else is served between the iterations, and each sleep lasts at least the time asked for. -/
def SleepsEnough (count : UInt32) : TokenBucketLimiter ℚ → List ℕ → Prop
  | b, now :: next :: instants =>
      match b.acquireIteration .exact now count with
      | (none, _) => True
      | (some secs, b) => secsAt now + secs ≤ secsAt next ∧ SleepsEnough count b (next :: instants)
  | _, _ => True

/-- A call whose first iteration is at `now` leaves the loop after at most two iterations, and takes
its tokens out of what the refills gave. -/
def LeavesWithinTwo (b : TokenBucketLimiter ℚ) (count : UInt32) (now : ℕ) : Prop :=
  ∀ next instants, SleepsEnough count b (now :: next :: instants) →
    ∃ n ≤ 2, b.acquire .exact isDurationExact count (now :: next :: instants) =
      .returned n ((((now :: next :: instants).take n).foldl (refill .exact) b).take .exact count)

/-- An iteration takes its tokens, or sleeps until the missing ones have come in. -/
theorem acquireIteration_cases (b : TokenBucketLimiter ℚ) (now : ℕ) (count : UInt32) :
    ((count.toNat : ℚ) ≤ (b.refill .exact now).tokens ∧
      b.acquireIteration .exact now count = (none, (b.refill .exact now).take .exact count)) ∨
    ((b.refill .exact now).tokens < count.toNat ∧
      b.acquireIteration .exact now count =
        (some (max ((count.toNat - (b.refill .exact now).tokens) / b.refillRatePerSec) (1 / 1000)),
          b.refill .exact now)) := by
  by_cases hge : (count.toNat : ℚ) ≤ (b.refill .exact now).tokens
  · have hdecide : BucketArith.exact.ge (b.refill .exact now).tokens
        (BucketArith.exact.ofU32 count) = true := decide_eq_true hge
    refine Or.inl ⟨hge, ?_⟩
    simp only [acquireIteration, hdecide, if_true]
  · have hdecide : BucketArith.exact.ge (b.refill .exact now).tokens
        (BucketArith.exact.ofU32 count) = false := decide_eq_false hge
    refine Or.inr ⟨lt_of_not_ge hge, ?_⟩
    simp only [acquireIteration, hdecide, Bool.false_eq_true, if_false]
    rfl

/-- A refill in the rational numbers. -/
theorem tokens_refill (b : TokenBucketLimiter ℚ) (now : ℕ) :
    (b.refill .exact now).tokens =
      min (b.tokens + secsAt (now - b.lastRefill) * b.refillRatePerSec) b.capacity.toNat := rfl

/-- After a sleep of the missing time the refill holds the tokens, if the capacity does. -/
theorem le_tokens_refill {b : TokenBucketLimiter ℚ} (hrate : 0 < b.refillRatePerSec)
    {count : UInt32} (hcount : count.toNat ≤ b.capacity.toNat) {secs : ℚ} {next : ℕ}
    (hsecs : (count.toNat - b.tokens) / b.refillRatePerSec ≤ secs) (hpos : 0 ≤ secs)
    (hnext : secsAt b.lastRefill + secs ≤ secsAt next) :
    (count.toNat : ℚ) ≤ (b.refill .exact next).tokens := by
  have hlater : b.lastRefill ≤ next := le_of_secsAt_le (by linarith)
  have hmissing : count.toNat - b.tokens ≤ secs * b.refillRatePerSec := (div_le_iff₀ hrate).mp hsecs
  have hrefill : secs * b.refillRatePerSec ≤
      secsAt (next - b.lastRefill) * b.refillRatePerSec := by
    apply mul_le_mul_of_nonneg_right _ hrate.le
    rw [secsAt_sub hlater]
    linarith
  rw [tokens_refill]
  apply le_min
  · linarith
  · exact Nat.cast_le.mpr hcount

section Loop

variable {b b' : TokenBucketLimiter ℚ} {count : UInt32} {now : ℕ}

/-- An iteration that takes its tokens ends the loop. -/
theorem acquireLoop_of_take (h : b.acquireIteration .exact now count = (none, b')) (i : ℕ)
    (instants : List ℕ) :
    acquireLoop .exact isDurationExact count i b (now :: instants) = .returned (i + 1) b' := by
  rw [acquireLoop, h]

/-- An iteration that does not, sleeps and goes on, unless the sleep is no `Duration`. -/
theorem acquireLoop_of_wait {secs : ℚ} (h : b.acquireIteration .exact now count = (some secs, b'))
    (i : ℕ) (instants : List ℕ) :
    acquireLoop .exact isDurationExact count i b (now :: instants) =
      if isDurationExact secs then acquireLoop .exact isDurationExact count (i + 1) b' instants
      else .panicked b' := by
  rw [acquireLoop, h]

end Loop

/-- A call for more tokens than the bucket can hold never returns. -/
theorem acquireLoop_ne_returned {count : UInt32} {b : TokenBucketLimiter ℚ}
    (hcount : b.capacity.toNat < count.toNat) (instants : List ℕ) (i n : ℕ)
    (b' : TokenBucketLimiter ℚ) :
    acquireLoop .exact isDurationExact count i b instants ≠ .returned n b' := by
  induction instants generalizing b i with
  | nil => exact fun h => by cases h
  | cons now instants ih =>
    have hlt : (b.capacity.toNat : ℚ) < count.toNat := Nat.cast_lt.mpr hcount
    rcases acquireIteration_cases b now count with ⟨hge, -⟩ | ⟨-, hwait⟩
    · rw [tokens_refill] at hge
      exact absurd (hge.trans (min_le_right _ _)) (not_le.mpr hlt)
    · rw [acquireLoop_of_wait hwait]
      split_ifs
      · apply ih
        exact hcount
      · exact fun h => by cases h

/-- The next iteration comes late enough, and so on. -/
theorem sleepsEnough_iff {b b' : TokenBucketLimiter ℚ} {count : UInt32} {now next : ℕ}
    {instants : List ℕ} {secs : ℚ} (h : b.acquireIteration .exact now count = (some secs, b')) :
    SleepsEnough count b (now :: next :: instants) ↔
      secsAt now + secs ≤ secsAt next ∧ SleepsEnough count b' (next :: instants) := by
  show (match b.acquireIteration .exact now count with
    | (none, _) => True
    | (some secs, b) => secsAt now + secs ≤ secsAt next ∧ SleepsEnough count b (next :: instants)) ↔ _
  rw [h]

/-- There is always an instant late enough for the next iteration. -/
theorem exists_sleepsEnough (b : TokenBucketLimiter ℚ) (count : UInt32) (now : ℕ) :
    ∃ next, SleepsEnough count b [now, next] := by
  rcases acquireIteration_cases b now count with ⟨-, htake⟩ | ⟨-, hwait⟩
  · refine ⟨now, ?_⟩
    show (match b.acquireIteration .exact now count with
      | (none, _) => True
      | (some secs, b) => secsAt now + secs ≤ secsAt now ∧ SleepsEnough count b [now])
    rw [htake]
    trivial
  · obtain ⟨next, hnext⟩ := exists_nat_gt ((secsAt now +
      max ((count.toNat - (b.refill .exact now).tokens) / b.refillRatePerSec) (1 / 1000)) * 10 ^ 9)
    refine ⟨next, (sleepsEnough_iff hwait).mpr ⟨?_, trivial⟩⟩
    show _ ≤ (next : ℚ) / 10 ^ 9
    rw [le_div_iff₀ (by positivity)]
    exact hnext.le

/-- The tokens missing at the first iteration come in within the longest `Duration`. -/
theorem isDurationExact_iff {b : TokenBucketLimiter ℚ} (hrate : 0 < b.refillRatePerSec)
    {count : UInt32} (hcount : count.toNat ≤ b.capacity.toNat) (now : ℕ) :
    isDurationExact
        (max ((count.toNat - (b.refill .exact now).tokens) / b.refillRatePerSec) (1 / 1000)) = true ↔
      count.toNat - b.tokens < (secsAt (now - b.lastRefill) + 2 ^ 64) * b.refillRatePerSec := by
  have hcap : (count.toNat : ℚ) ≤ b.capacity.toNat := Nat.cast_le.mpr hcount
  have hlong : 0 < 2 ^ 64 * b.refillRatePerSec := by positivity
  rw [isDurationExact, decide_eq_true_iff, max_lt_iff, div_lt_iff₀ hrate, tokens_refill]
  rw [sub_lt_comm, lt_min_iff, add_mul]
  constructor
  · rintro ⟨⟨hfull, -⟩, -⟩
    linarith
  · intro hfull
    refine ⟨⟨?_, ?_⟩, ?_⟩
    · linarith
    · linarith
    · norm_num

/-- A caller alone on a bucket is served within two iterations exactly if its tokens fit into the
bucket and the time until they are there fits into a `Duration`. -/
theorem leavesWithinTwo_iff (b : TokenBucketLimiter ℚ) (hrate : 0 < b.refillRatePerSec)
    (count : UInt32) (now : ℕ) :
    LeavesWithinTwo b count now ↔ count.toNat ≤ b.capacity.toNat ∧
      count.toNat - b.tokens < (secsAt (now - b.lastRefill) + 2 ^ 64) * b.refillRatePerSec := by
  constructor
  · intro h
    obtain ⟨next, henough⟩ := exists_sleepsEnough b count now
    obtain ⟨n, -, hreturned⟩ := h next [] henough
    have hcount : count.toNat ≤ b.capacity.toNat := by
      by_contra hgt
      exact acquireLoop_ne_returned (Nat.lt_of_not_le hgt) _ _ _ _ hreturned
    refine ⟨hcount, ?_⟩
    rw [← isDurationExact_iff hrate hcount]
    rcases acquireIteration_cases b now count with ⟨hge, -⟩ | ⟨-, hwait⟩
    · -- nothing is missing, so the time is short enough
      rw [isDurationExact, decide_eq_true_iff, max_lt_iff]
      have hmissing : (count.toNat - (b.refill .exact now).tokens) / b.refillRatePerSec ≤ 0 :=
        div_nonpos_of_nonpos_of_nonneg (by linarith) hrate.le
      exact ⟨by linarith, by norm_num⟩
    · rw [acquire, acquireLoop_of_wait hwait] at hreturned
      split_ifs at hreturned with hduration
      exact hduration
  · rintro ⟨hcount, hlong⟩ next instants henough
    rcases acquireIteration_cases b now count with ⟨-, htake⟩ | ⟨-, hwait⟩
    · refine ⟨1, by omega, ?_⟩
      exact acquireLoop_of_take htake 0 _
    · have hslept := (sleepsEnough_iff hwait).mp henough
      -- the sleep lasts until the missing tokens have come in, and the capacity does not cut them
      -- off
      have hsecond : (count.toNat : ℚ) ≤ ((b.refill .exact now).refill .exact next).tokens := by
        have hpos : (0 : ℚ) ≤ 1 / 1000 := by norm_num
        apply le_tokens_refill (b := b.refill .exact now) hrate hcount _ _ hslept.1
        · exact le_max_left _ _
        · exact hpos.trans (le_max_right _ _)
      rcases acquireIteration_cases (b.refill .exact now) next count with ⟨-, htake⟩ | ⟨hlt, -⟩
      · refine ⟨2, le_refl 2, ?_⟩
        rw [acquire, acquireLoop_of_wait hwait,
          if_pos ((isDurationExact_iff hrate hcount now).mpr hlong)]
        exact acquireLoop_of_take htake 1 _
      · exact absurd hsecond (not_le.mpr hlt)

/-- An empty bucket of ten tokens, refilled at one hundred a second, serves a call for five. -/
theorem leavesWithinTwo_five : LeavesWithinTwo ⟨10, 0, 100, 0⟩ 5 0 := by
  refine (leavesWithinTwo_iff ⟨10, 0, 100, 0⟩ (by norm_num) 5 0).mpr ⟨by decide, ?_⟩
  show ((5 : ℕ) : ℚ) - 0 < (secsAt 0 + 2 ^ 64) * 100
  norm_num [secsAt]

/-- Ten tokens, of which a call wants eleven: it waits, is refilled up to ten and waits again. -/
theorem not_leavesWithinTwo_eleven : ¬LeavesWithinTwo (new .exact 10 100 0) 11 0 := by
  intro h
  obtain ⟨next, henough⟩ := exists_sleepsEnough (new .exact 10 100 0) 11 0
  obtain ⟨n, -, hreturned⟩ := h next [] henough
  have hcount : (new .exact 10 100 0).capacity.toNat < UInt32.toNat 11 := by
    show UInt32.toNat 10 < UInt32.toNat 11
    decide
  exact acquireLoop_ne_returned hcount _ _ _ _ hreturned

end Caminus.TokenBucketLimiter

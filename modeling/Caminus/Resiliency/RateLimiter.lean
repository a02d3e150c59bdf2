import Caminus.Common.HashMap
import Caminus.Common.RateBound
import Mathlib.Data.List.Chain
import Mathlib.Data.Rat.Floor
import Mathlib.Data.UInt

/-!
# Token buckets

`TokenBucketLimiter` and `TenantQuotaLimiter` (`src/resiliency/rate_limiter.rs`). An attempt refills
the bucket for the time since the last one and then takes its tokens or leaves them. The arithmetic
of the tokens is a parameter; in exact arithmetic a bucket grants no more in any interval than its
capacity and what the rate gives over the interval (`rateBounded`).
-/

namespace Caminus

/-- The arithmetic of a bucket, `f64` in the source. Time is counted in nanoseconds. -/
structure BucketArith (F : Type) where
  ofU32 : UInt32 → F
  asSecs : ℕ → F
  /-- The shortest sleep, `0.001`. -/
  milli : F
  add : F → F → F
  sub : F → F → F
  mul : F → F → F
  div : F → F → F
  min : F → F → F
  max : F → F → F
  ge : F → F → Bool

/-- The bucket: its capacity, the tokens in it, its rate, and the instant of the last refill. -/
structure TokenBucketLimiter (F : Type) where
  capacity : UInt32
  tokens : F
  refillRatePerSec : F
  lastRefill : ℕ

namespace TokenBucketLimiter

variable {F : Type} (arith : BucketArith F)

/-- A full bucket, refilled last when it was made. -/
def new (capacity : UInt32) (refillRatePerSec : F) (now : ℕ) : TokenBucketLimiter F :=
  ⟨capacity, arith.ofU32 capacity, refillRatePerSec, now⟩

/-- The refill at the start of every attempt. `duration_since` saturates at zero. -/
def refill (b : TokenBucketLimiter F) (now : ℕ) : TokenBucketLimiter F :=
  let elapsedSecs := arith.asSecs (now - b.lastRefill)
  let newTokens := arith.add b.tokens (arith.mul elapsedSecs b.refillRatePerSec)
  { b with tokens := arith.min newTokens (arith.ofU32 b.capacity), lastRefill := now }

/-- Tokens are taken, without a look at how many there are: the callers compare before. -/
def take (b : TokenBucketLimiter F) (count : UInt32) : TokenBucketLimiter F :=
  { b with tokens := arith.sub b.tokens (arith.ofU32 count) }

/-- `try_acquire`: a refill, and the tokens if they are there. -/
def tryAcquire (b : TokenBucketLimiter F) (now : ℕ) (count : UInt32) :
    Bool × TokenBucketLimiter F :=
  let b := b.refill arith now
  if arith.ge b.tokens (arith.ofU32 count) then (true, b.take arith count) else (false, b)

/-- One iteration of the loop of `acquire`: `none` if it took its tokens, otherwise the seconds it
sleeps before the next iteration. -/
def acquireIteration (b : TokenBucketLimiter F) (now : ℕ) (count : UInt32) :
    Option F × TokenBucketLimiter F :=
  let b := b.refill arith now
  if arith.ge b.tokens (arith.ofU32 count) then (none, b.take arith count)
  else
    -- both locks are dropped before the sleep, so others may be served in between
    let missingTokens := arith.sub (arith.ofU32 count) b.tokens
    let waitSecs := arith.div missingTokens b.refillRatePerSec
    (some (arith.max waitSecs arith.milli), b)

end TokenBucketLimiter

/-! ## Exact arithmetic -/

/-- An attempt of some caller: a call of `try_acquire` or an iteration of the loop of `acquire`. -/
inductive AttemptKind
  | tryAcquire
  | acquireIteration
deriving DecidableEq, Repr

/-- An attempt, with its instant and the tokens that it asks for. -/
structure TokenBucketLimiter.Attempt where
  kind : AttemptKind
  now : ℕ
  count : UInt32

/-- The seconds at an instant. -/
def secsAt (now : ℕ) : ℚ := now / 10 ^ 9

/-- Rational numbers in place of `f64`: the arithmetic the limiter is meant to have. -/
def BucketArith.exact : BucketArith ℚ where
  ofU32 n := n.toNat
  asSecs := secsAt
  milli := 1 / 1000
  add := (· + ·)
  sub := (· - ·)
  mul := (· * ·)
  div := (· / ·)
  min x y := x ⊓ y
  max x y := x ⊔ y
  ge x y := decide (y ≤ x)

namespace TokenBucketLimiter

/-- The tokens that an attempt is granted. Callers hold both locks during an attempt, so a run of any
number of callers is a list of attempts. -/
def attempt {F : Type} (arith : BucketArith F) (b : TokenBucketLimiter F) (a : Attempt) :
    ℕ × TokenBucketLimiter F :=
  match a.kind with
  | .tryAcquire =>
      let (acquired, b) := b.tryAcquire arith a.now a.count
      (if acquired then a.count.toNat else 0, b)
  | .acquireIteration =>
      let (waitSecs, b) := b.acquireIteration arith a.now a.count
      (if waitSecs.isNone then a.count.toNat else 0, b)

/-- What a bucket promises over a list of attempts: its tokens stay between `0` and the capacity,
and no interval is granted more than the capacity and what the rate gives over it. -/
structure RateBounded (capacity : UInt32) (rate : ℚ) (created : ℕ) (attempts : List Attempt) :
    Prop where
  tokens : ∀ before, before <+: attempts →
    0 ≤ (Mealy.final (attempt .exact) (new .exact capacity rate created) before).tokens ∧
      (Mealy.final (attempt .exact) (new .exact capacity rate created) before).tokens ≤ capacity.toNat
  granted : ∀ s t : ℚ, s ≤ t →
    Mealy.windowCost (attempt .exact) (fun a => secsAt a.now) (fun n : ℕ => (n : ℚ)) s t
      (new .exact capacity rate created) attempts ≤ capacity.toNat + rate * (t - s)

/-- Later instants are later in seconds. -/
theorem secsAt_mono {m n : ℕ} (h : m ≤ n) : secsAt m ≤ secsAt n :=
  div_le_div_of_nonneg_right (Nat.cast_le.mpr h) (by positivity)

/-- And the other way round. -/
theorem le_of_secsAt_le {m n : ℕ} (h : secsAt m ≤ secsAt n) : m ≤ n := by
  rw [secsAt, secsAt, div_le_div_iff_of_pos_right (by positivity)] at h
  exact Nat.cast_le.mp h

/-- The seconds between two instants. -/
theorem secsAt_sub {m n : ℕ} (h : m ≤ n) : secsAt (n - m) = secsAt n - secsAt m := by
  rw [secsAt, Nat.cast_sub h, sub_div, secsAt, secsAt]

/-- Both kinds of attempt refill the bucket and take their tokens if these are there. -/
theorem attempt_cases (b : TokenBucketLimiter ℚ) (a : Attempt) :
    ((a.count.toNat : ℚ) ≤ (b.refill .exact a.now).tokens ∧
      b.attempt .exact a = (a.count.toNat, (b.refill .exact a.now).take .exact a.count)) ∨
    b.attempt .exact a = (0, b.refill .exact a.now) := by
  by_cases hge : (a.count.toNat : ℚ) ≤ (b.refill .exact a.now).tokens
  · have hdecide : BucketArith.exact.ge (b.refill .exact a.now).tokens
        (BucketArith.exact.ofU32 a.count) = true := decide_eq_true hge
    refine Or.inl ⟨hge, ?_⟩
    cases hkind : a.kind <;> simp [attempt, hkind, tryAcquire, acquireIteration, hdecide]
  · have hdecide : BucketArith.exact.ge (b.refill .exact a.now).tokens
        (BucketArith.exact.ofU32 a.count) = false := decide_eq_false hge
    refine Or.inr ?_
    cases hkind : a.kind <;> simp [attempt, hkind, tryAcquire, acquireIteration, hdecide]

/-- A bucket of the given capacity and rate that is neither overdrawn nor overfull, as every attempt
leaves it. -/
structure Sound (capacity : UInt32) (rate : ℚ) (b : TokenBucketLimiter ℚ) : Prop where
  capacity : b.capacity = capacity
  rate : b.refillRatePerSec = rate
  nonneg : 0 ≤ b.tokens
  le : b.tokens ≤ b.capacity.toNat

/-- A sound bucket holds no more than its capacity. -/
theorem Sound.tokens_le {capacity : UInt32} {rate : ℚ} {b : TokenBucketLimiter ℚ}
    (h : Sound capacity rate b) : b.tokens ≤ capacity.toNat := by
  have hle := h.le
  rwa [h.capacity] at hle

/-- A full bucket is sound. -/
theorem sound_new (capacity : UInt32) (rate : ℚ) (created : ℕ) :
    Sound capacity rate (new .exact capacity rate created) :=
  ⟨rfl, rfl, Nat.cast_nonneg _, le_refl _⟩

/-- What a refill adds: at most the rate times the time since the last one. -/
theorem Sound.refill {capacity : UInt32} {rate : ℚ} {b : TokenBucketLimiter ℚ}
    (h : Sound capacity rate b) (hrate : 0 ≤ rate) {now : ℕ} (hnow : b.lastRefill ≤ now) :
    Sound capacity rate (b.refill .exact now) ∧
      (b.refill .exact now).tokens ≤ b.tokens + rate * (secsAt now - secsAt b.lastRefill) := by
  have htokens : (b.refill .exact now).tokens =
      min (b.tokens + (secsAt now - secsAt b.lastRefill) * rate) b.capacity.toNat := by
    rw [← secsAt_sub hnow, ← h.rate]
    rfl
  have helapsed : 0 ≤ (secsAt now - secsAt b.lastRefill) * rate :=
    mul_nonneg (sub_nonneg.mpr (secsAt_mono hnow)) hrate
  refine ⟨⟨h.capacity, h.rate, ?_, ?_⟩, ?_⟩
  · rw [htokens]
    exact le_min (add_nonneg h.nonneg helapsed) (Nat.cast_nonneg _)
  · rw [htokens]
    exact min_le_right _ _
  · rw [htokens, mul_comm rate]
    exact min_le_left _ _

/-- An attempt is paid for by the tokens it finds after its refill. -/
theorem Sound.attempt {capacity : UInt32} {rate : ℚ} {b : TokenBucketLimiter ℚ}
    (h : Sound capacity rate b) (hrate : 0 ≤ rate) {a : Attempt} (hnow : b.lastRefill ≤ a.now) :
    Sound capacity rate (b.attempt .exact a).2 ∧
      ((b.attempt .exact a).1 : ℚ) + (b.attempt .exact a).2.tokens =
        (b.refill .exact a.now).tokens := by
  obtain ⟨hrefill, -⟩ := h.refill hrate hnow
  rcases attempt_cases b a with ⟨hge, hattempt⟩ | hattempt
  · have htake : ((b.refill .exact a.now).take .exact a.count).tokens =
        (b.refill .exact a.now).tokens - a.count.toNat := rfl
    rw [hattempt]
    refine ⟨⟨hrefill.capacity, hrefill.rate, ?_, ?_⟩, ?_⟩
    · rw [htake]
      exact sub_nonneg.mpr hge
    · rw [htake]
      exact (sub_le_self _ (Nat.cast_nonneg _)).trans hrefill.le
    · rw [htake]
      ring
  · rw [hattempt]
    exact ⟨hrefill, by simp⟩

/-- Every attempt refills the bucket first, also one that is then denied. -/
theorem lastRefill_attempt (b : TokenBucketLimiter ℚ) (a : Attempt) :
    (b.attempt .exact a).2.lastRefill = a.now := by
  rcases attempt_cases b a with ⟨-, hattempt⟩ | hattempt
  · rw [hattempt]
    rfl
  · rw [hattempt]
    rfl

/-- A bucket is a meter with its tokens as the level, which is all that the bound on its rate uses. -/
theorem metered (capacity : UInt32) {rate : ℚ} (hrate : 0 ≤ rate) :
    Mealy.Metered (attempt .exact) (fun a => secsAt a.now) (fun n : ℕ => (n : ℚ))
      (Sound capacity rate) tokens (fun b => secsAt b.lastRefill) capacity.toNat rate where
  rate_nonneg := hrate
  level_nonneg h := h.nonneg
  level_le h := h.tokens_le
  keeps h hnow := (h.attempt hrate (le_of_secsAt_le hnow)).1
  ticks b a := by rw [lastRefill_attempt]
  cost_nonneg b a := Nat.cast_nonneg _
  paid h hnow := by
    rw [(h.attempt hrate (le_of_secsAt_le hnow)).2]
    exact (h.refill hrate (le_of_secsAt_le hnow)).2
  capped h hnow := by
    rw [(h.attempt hrate (le_of_secsAt_le hnow)).2]
    exact (h.refill hrate (le_of_secsAt_le hnow)).1.tokens_le

/-- Attempts in the order of their instants, after the bucket was created, are in time for the
meter. -/
theorem inTime_of_isChain {capacity : UInt32} {rate : ℚ} {created : ℕ} {attempts : List Attempt}
    (h : (created :: attempts.map Attempt.now).IsChain (· ≤ ·)) :
    Mealy.Metered.InTime (fun a => secsAt a.now) (fun b => secsAt b.lastRefill)
      (new .exact capacity rate created) attempts := by
  have hmap := List.isChain_cons_map_of_isChain_cons secsAt (fun _ _ => secsAt_mono) h
  rw [List.map_map] at hmap
  exact hmap

/-- **A bucket enforces its rate over every interval**, and its tokens stay between `0` and its
capacity, whatever the attempts and whoever makes them. -/
theorem rateBounded (capacity : UInt32) {rate : ℚ} (hrate : 0 ≤ rate) (created : ℕ)
    {attempts : List Attempt}
    (htimes : (created :: attempts.map Attempt.now).IsChain (· ≤ ·)) :
    RateBounded capacity rate created attempts where
  tokens := by
    intro before hbefore
    have htimes' : (created :: before.map Attempt.now).IsChain (· ≤ ·) := by
      apply htimes.prefix
      exact (List.prefix_cons_inj created).mpr (hbefore.map Attempt.now)
    have hsound := (metered capacity hrate).inv_final (sound_new capacity rate created)
      (inTime_of_isChain htimes')
    exact ⟨hsound.nonneg, hsound.tokens_le⟩
  granted := by
    intro s t hst
    exact (metered capacity hrate).windowCost_le hst (sound_new capacity rate created)
      (inTime_of_isChain htimes)

/-- A bucket of ten tokens, refilled at one hundred a second: two callers take all of it, a third one
waits and gets five tokens after fifty milliseconds. -/
theorem rateBounded_ten : RateBounded 10 100 0
    [⟨.acquireIteration, 0, 5⟩, ⟨.tryAcquire, 1000, 5⟩, ⟨.acquireIteration, 2000, 5⟩,
      ⟨.acquireIteration, 50002000, 5⟩] :=
  rateBounded 10 (by norm_num) 0 (by simp)

end TokenBucketLimiter

/-! ## Quotas of tenants -/

/-- A bucket for each tenant that has called, and the parameters of a default one, which a tenant
gets with its first call. -/
structure TenantQuotaLimiter (F : Type) where
  tenantLimiters : HashMap String (TokenBucketLimiter F)
  defaultCapacity : UInt32
  defaultRefillRate : F

namespace TenantQuotaLimiter

variable {F : Type} (arith : BucketArith F)

/-- A limiter without buckets. -/
def new (defaultCapacity : UInt32) (defaultRefillRate : F) : TenantQuotaLimiter F :=
  ⟨∅, defaultCapacity, defaultRefillRate⟩

/-- A new bucket for the tenant, in place of the old one. -/
def setTenantQuota (q : TenantQuotaLimiter F) (now : ℕ) (tenantId : String) (capacity : UInt32)
    (refillRatePerSec : F) : TenantQuotaLimiter F :=
  { q with
    tenantLimiters := q.tenantLimiters.insert tenantId (.new arith capacity refillRatePerSec now) }

/-- The bucket of a tenant; a tenant without one gets a default bucket, created at `created`. -/
def limiterOf (q : TenantQuotaLimiter F) (created : ℕ) (tenantId : String) : TokenBucketLimiter F :=
  (q.tenantLimiters.lookup tenantId).getD (.new arith q.defaultCapacity q.defaultRefillRate created)

/-- The clock is read at `created` if the tenant has no bucket, and at `now` for the attempt. -/
def tryAllow (q : TenantQuotaLimiter F) (created now : ℕ) (tenantId : String) :
    Bool × TenantQuotaLimiter F :=
  let (allowed, limiter) := (q.limiterOf arith created tenantId).tryAcquire arith now 1
  (allowed, { q with tenantLimiters := q.tenantLimiters.insert tenantId limiter })

end TenantQuotaLimiter

end Caminus

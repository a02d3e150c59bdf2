import Caminus.Common.Capped
import Caminus.Source.Streams
import Mathlib.Data.ENat.Lattice
import Mathlib.Data.Rat.Cast.Order
import Mathlib.Tactic.Linarith
import Mathlib.Tactic.NormNum

/-!
# Retries with backoff

`retry_with_backoff` (`src/source/mod.rs`), in exact arithmetic. The calls of `f` are given by their
outcomes, the clock by the seeds of the jitter. A product that is no `Duration` makes `mul_f64` panic.
The delay is multiplied before it is cut off at the maximum, so a product that would be cut off ends the
retries as well; all goes right exactly if no product leaves the range (`retriesRightly_iff`).
-/

namespace Caminus

/-- `std::time::Duration`, in seconds. The whole seconds are a `u64`. -/
structure Duration where
  secs : ℚ
  nonneg : 0 ≤ secs
  lt_max : secs < 2 ^ 64

namespace Duration

/-- `None` is a panic: the product is negative or too large. -/
def mulF64 (d : Duration) (factor : ℚ) : Option Duration :=
  if h : 0 ≤ d.secs * factor ∧ d.secs * factor < 2 ^ 64 then some ⟨d.secs * factor, h.1, h.2⟩
  else none

/-- `std::cmp::min`. -/
def cmpMin (d e : Duration) : Duration := if d.secs ≤ e.secs then d else e

/-- `Duration::from_millis`. -/
def fromMillis (millis : ℕ) (h : millis < 2 ^ 64) : Duration where
  secs := millis / 1000
  nonneg := by positivity
  lt_max := by
    have hlt : (millis : ℚ) < 2 ^ 64 := by exact_mod_cast h
    linarith [show (0 : ℚ) ≤ millis by positivity]

@[simp] theorem secs_cmpMin (d e : Duration) : (d.cmpMin e).secs = min d.secs e.secs := by
  rw [cmpMin]
  split_ifs with h
  · exact (min_eq_left h).symm
  · exact (min_eq_right (le_of_not_ge h)).symm

/-- A product that is neither negative nor too large is a duration. -/
theorem exists_mulF64 {d : Duration} {factor : ℚ} (hnonneg : 0 ≤ d.secs * factor)
    (hlt : d.secs * factor < 2 ^ 64) :
    ∃ product, d.mulF64 factor = some product ∧ product.secs = d.secs * factor :=
  ⟨⟨d.secs * factor, hnonneg, hlt⟩, dif_pos ⟨hnonneg, hlt⟩, rfl⟩

/-- If there is no panic, the product is exact and in range. -/
theorem mulF64_eq_some {d product : Duration} {factor : ℚ} (h : d.mulF64 factor = some product) :
    product.secs = d.secs * factor ∧ 0 ≤ d.secs * factor ∧ d.secs * factor < 2 ^ 64 := by
  rw [mulF64] at h
  split_ifs at h with hrange
  rw [← Option.some.inj h]
  exact ⟨rfl, hrange⟩

end Duration

/-- The arguments beside `f`. Durations are exact here, and the factors rational numbers. -/
structure Backoff where
  maxAttempts : ℕ
  initialDelay : Duration
  multiplier : ℚ
  maxDelay : Duration

/-- What the caller of `retry_with_backoff` waits for. -/
inductive RetryStep
  | call
  | sleep (d : Duration)

namespace Backoff

variable {ε α : Type}

/-- The factor of a delay, from `0.75` to less than `1.25` in steps of `1 / 2000`. -/
def jitter (seed : UInt64) : ℚ := 3 / 4 + ((seed.toNat % 1000 : ℕ) : ℚ) / 2000

/-- The loop after `attempt` calls. A result that is `none` is a panic. -/
def retryLoop (p : Backoff) (outcomes : ℕ → Except ε α) (seeds : ℕ → UInt64) (attempt : ℕ)
    (delay : Duration) : List RetryStep × Option (Except ε α) :=
  match outcomes attempt with
  | .ok val => ([.call], some (.ok val))
  | .error err =>
      if p.maxAttempts ≤ attempt + 1 then ([.call], some (.error err))
      else
        match delay.mulF64 (jitter (seeds attempt)) with
        | none => ([.call], none)
        | some currentDelay =>
            -- the product is not cut off before it has been found to be a duration
            match delay.mulF64 p.multiplier with
            | none => ([.call, .sleep currentDelay], none)
            | some product =>
                let (log, result) :=
                  retryLoop p outcomes seeds (attempt + 1) (product.cmpMin p.maxDelay)
                (.call :: .sleep currentDelay :: log, result)
termination_by p.maxAttempts - attempt

/-- `retry_with_backoff`: the log of what it waits for, and its result, or `none` for a panic. -/
def retryWithBackoff (p : Backoff) (outcomes : ℕ → Except ε α) (seeds : ℕ → UInt64) :
    List RetryStep × Option (Except ε α) :=
  p.retryLoop outcomes seeds 0 p.initialDelay

/-! ## What is expected -/

/-- The number of the first call that succeeds, counted from one. -/
noncomputable def firstOk (outcomes : ℕ → Except ε α) : ℕ∞ :=
  open Classical in
  if h : ∃ i, (outcomes i).isOk = true then ((Nat.find h + 1 : ℕ) : ℕ∞) else ⊤

/-- The calls to be made: up to the first success, and no more than the attempts, but one at least. -/
noncomputable def callCount (p : Backoff) (outcomes : ℕ → Except ε α) : ℕ :=
  (min (firstOk outcomes) ((max 1 p.maxAttempts : ℕ) : ℕ∞)).toNat

/-- The right number of calls with one sleep between any two, the outcome of the last call as the
result, and no sleep that is too long. -/
structure RetriesRightly (p : Backoff) (outcomes : ℕ → Except ε α) (seeds : ℕ → UInt64) : Prop where
  steps : ∃ sleeps : List Duration, sleeps.length + 1 = p.callCount outcomes ∧
    (p.retryWithBackoff outcomes seeds).1 = .call :: sleeps.flatMap fun d => [.sleep d, .call]
  result : (p.retryWithBackoff outcomes seeds).2 = some (outcomes (p.callCount outcomes - 1))
  succeeds : (∃ val, (p.retryWithBackoff outcomes seeds).2 = some (.ok val)) ↔
    firstOk outcomes ≤ ((max 1 p.maxAttempts : ℕ) : ℕ∞)
  short : 0 ≤ p.multiplier → ∀ d, .sleep d ∈ (p.retryWithBackoff outcomes seeds).1 →
    d.secs ≤ 5 / 4 * max p.initialDelay.secs p.maxDelay.secs

/-! ## The number of calls -/

section Calls

variable {outcomes : ℕ → Except ε α}

/-- The first success comes within `n` calls exactly if one of them succeeds. -/
theorem firstOk_le_iff {n : ℕ} : firstOk outcomes ≤ n ↔ ∃ i < n, (outcomes i).isOk = true := by
  rw [firstOk]
  split_ifs with h
  · rw [Nat.cast_le]
    constructor
    · intro hle
      exact ⟨Nat.find h, hle, Nat.find_spec h⟩
    · rintro ⟨i, hi, hok⟩
      exact Nat.lt_of_le_of_lt (Nat.find_min' h hok) hi
  · constructor
    · intro hle
      exact absurd hle (by simp)
    · rintro ⟨i, -, hok⟩
      exact absurd ⟨i, hok⟩ h

variable (p : Backoff) (outcomes)

/-- The calls are made up to the first success, or as many as are allowed. -/
theorem coe_callCount : (p.callCount outcomes : ℕ∞) =
    min (firstOk outcomes) ((max 1 p.maxAttempts : ℕ) : ℕ∞) :=
  ENat.natCast_toNat (ne_top_of_le_ne_top (ENat.natCast_ne_top _) (min_le_right _ _))

/-- No more calls are made than allowed, but one. -/
theorem callCount_le : p.callCount outcomes ≤ max 1 p.maxAttempts := by
  have hle : (p.callCount outcomes : ℕ∞) ≤ ((max 1 p.maxAttempts : ℕ) : ℕ∞) := by
    rw [coe_callCount]
    exact min_le_right _ _
  exact Nat.cast_le.mp hle

variable {p outcomes}

/-- Fewer calls than allowed are made only up to a success. -/
theorem firstOk_eq_of_lt (h : p.callCount outcomes < max 1 p.maxAttempts) :
    firstOk outcomes = p.callCount outcomes := by
  have hlt : min (firstOk outcomes) ((max 1 p.maxAttempts : ℕ) : ℕ∞) <
      ((max 1 p.maxAttempts : ℕ) : ℕ∞) := by
    rw [← coe_callCount]
    exact Nat.cast_lt.mpr h
  have hfirst := (min_lt_iff.mp hlt).resolve_right (lt_irrefl _)
  rw [coe_callCount, min_eq_left hfirst.le]

/-- Every call before the last one fails. -/
theorem isOk_of_lt_callCount {i : ℕ} (h : i + 1 < p.callCount outcomes) :
    (outcomes i).isOk = false := by
  by_contra hok
  have hfirst : firstOk outcomes ≤ ((i + 1 : ℕ) : ℕ∞) :=
    firstOk_le_iff.mpr ⟨i, Nat.lt_succ_self i, by simpa using hok⟩
  have hcount : (p.callCount outcomes : ℕ∞) ≤ ((i + 1 : ℕ) : ℕ∞) := by
    rw [coe_callCount]
    exact (min_le_left _ _).trans hfirst
  exact absurd (Nat.cast_le.mp hcount) (Nat.not_le.mpr h)

/-- A success among the calls is that of the last one. -/
theorem isOk_last_of_lt {i : ℕ} (hi : i < p.callCount outcomes) (hok : (outcomes i).isOk = true) :
    (outcomes (p.callCount outcomes - 1)).isOk = true := by
  obtain rfl | hbefore : i = p.callCount outcomes - 1 ∨ i + 1 < p.callCount outcomes := by omega
  · exact hok
  · rw [isOk_of_lt_callCount hbefore] at hok
    cases hok

variable (p outcomes)

/-- At least one call is made. -/
theorem callCount_pos : 0 < p.callCount outcomes := by
  by_contra hzero
  have hcount : p.callCount outcomes = 0 := Nat.eq_zero_of_not_pos hzero
  have hlt : p.callCount outcomes < max 1 p.maxAttempts := by omega
  obtain ⟨i, hi, -⟩ := firstOk_le_iff.mp (firstOk_eq_of_lt hlt).le
  omega

/-- The last call succeeds, or no more are allowed. -/
theorem isOk_last_or_eq :
    (outcomes (p.callCount outcomes - 1)).isOk = true ∨
      p.callCount outcomes = max 1 p.maxAttempts := by
  rcases Nat.lt_or_eq_of_le (p.callCount_le outcomes) with hlt | heq
  · obtain ⟨i, hi, hok⟩ := firstOk_le_iff.mp (firstOk_eq_of_lt hlt).le
    exact Or.inl (isOk_last_of_lt hi hok)
  · exact Or.inr heq

/-- Whether a success comes in time is seen at the last call. -/
theorem isOk_last_iff :
    (outcomes (p.callCount outcomes - 1)).isOk = true ↔
      firstOk outcomes ≤ ((max 1 p.maxAttempts : ℕ) : ℕ∞) := by
  have hpos := p.callCount_pos outcomes
  have hle := p.callCount_le outcomes
  rw [firstOk_le_iff]
  constructor
  · intro hok
    exact ⟨_, by omega, hok⟩
  · rintro ⟨i, hi, hok⟩
    rcases p.isOk_last_or_eq outcomes with hlast | heq
    · exact hlast
    · exact isOk_last_of_lt (by omega) hok

end Calls

/-! ## The delays -/

/-- The delay after some retries, before the jitter. -/
def delayAt (p : Backoff) (i : ℕ) : ℚ :=
  capped p.multiplier p.maxDelay.secs p.initialDelay.secs i

/-- The jitter is never larger: this is the factor of the largest remainder. -/
def maxJitter : ℚ := 2499 / 2000

/-- The jitter is positive. -/
theorem jitter_pos (seed : UInt64) : 0 < jitter seed := by
  unfold jitter
  positivity

/-- The jitter is at most `1.2495`, the factor of the remainder `999`. -/
theorem jitter_le (seed : UInt64) : jitter seed ≤ maxJitter := by
  have hlt : seed.toNat % 1000 ≤ 999 := Nat.le_of_lt_succ (Nat.mod_lt _ (by decide))
  have hcast : ((seed.toNat % 1000 : ℕ) : ℚ) ≤ 999 := by exact_mod_cast hlt
  rw [jitter, maxJitter]
  linarith

/-- The bound is met by the seed `999`. -/
theorem jitter_largest : jitter 999 = maxJitter := by
  have hseed : (999 : UInt64).toNat % 1000 = 999 := by decide
  rw [jitter, hseed, maxJitter]
  norm_num

/-- Whatever the jitter, the products of a retry are durations. -/
structure InRange (p : Backoff) (i : ℕ) : Prop where
  jittered : p.delayAt i * maxJitter < 2 ^ 64
  nonneg : 0 ≤ p.delayAt i * p.multiplier
  lt_max : p.delayAt i * p.multiplier < 2 ^ 64

section Loop

variable {p : Backoff} {outcomes : ℕ → Except ε α} {seeds : ℕ → UInt64} {attempt : ℕ}
  {delay : Duration}

/-- The last call: it succeeds, or no attempt is left; its outcome is returned either way. -/
theorem retryLoop_last
    (h : (outcomes attempt).isOk = true ∨ p.maxAttempts ≤ attempt + 1) :
    p.retryLoop outcomes seeds attempt delay = ([.call], some (outcomes attempt)) := by
  rw [retryLoop]
  cases houtcome : outcomes attempt with
  | ok val => rfl
  | error err =>
    rw [houtcome] at h
    have hlast := h.resolve_left (by simp [Except.isOk, Except.toBool])
    simp only [if_pos hlast]

/-- A call after which another one is due: it has failed and attempts are left. The delay is
computed before the sleep, and may be no duration. -/
theorem retryLoop_next (hfail : (outcomes attempt).isOk = false)
    (hmore : attempt + 1 < p.maxAttempts) :
    p.retryLoop outcomes seeds attempt delay =
      match delay.mulF64 (jitter (seeds attempt)) with
      | none => ([.call], none)
      | some currentDelay =>
          match delay.mulF64 p.multiplier with
          | none => ([.call, .sleep currentDelay], none)
          | some product =>
              let (log, result) :=
                p.retryLoop outcomes seeds (attempt + 1) (product.cmpMin p.maxDelay)
              (.call :: .sleep currentDelay :: log, result) := by
  rw [retryLoop]
  cases houtcome : outcomes attempt with
  | ok val =>
    rw [houtcome] at hfail
    cases hfail
  | error err => simp only [if_neg (Nat.not_le.mpr hmore)]

/-- More calls are due than have been made, so more are allowed. -/
theorem lt_maxAttempts (h : attempt + 1 < p.callCount outcomes) : attempt + 1 < p.maxAttempts := by
  have hle := p.callCount_le outcomes
  omega

/-- As long as the products are durations, the loop makes the calls that are left. By induction on
their number. -/
theorem retryLoop_of_inRange (hlt : attempt < p.callCount outcomes)
    (hdelay : delay.secs = p.delayAt attempt)
    (hrange : ∀ i, attempt ≤ i → i + 1 < p.callCount outcomes → p.InRange i) :
    ∃ sleeps : List Duration, sleeps.length + attempt + 1 = p.callCount outcomes ∧
      p.retryLoop outcomes seeds attempt delay =
        (.call :: sleeps.flatMap fun d => [.sleep d, .call],
          some (outcomes (p.callCount outcomes - 1))) := by
  induction hleft : p.callCount outcomes - (attempt + 1) generalizing attempt delay with
  | zero =>
    have hlast : p.callCount outcomes - 1 = attempt := by omega
    refine ⟨[], by simp; omega, ?_⟩
    rw [hlast]
    apply retryLoop_last
    have hend := p.isOk_last_or_eq outcomes
    rw [hlast] at hend
    exact hend.imp_right fun heq => by omega
  | succ left ih =>
    have hnext : attempt + 1 < p.callCount outcomes := by omega
    obtain ⟨hjittered, hnonneg, hmax⟩ := hrange attempt (Nat.le_refl _) hnext
    rw [← hdelay] at hjittered hnonneg hmax
    -- a product with the largest jitter in range leaves every other one in range
    have hjitter : delay.secs * jitter (seeds attempt) < 2 ^ 64 :=
      (mul_le_mul_of_nonneg_left (jitter_le _) delay.nonneg).trans_lt hjittered
    obtain ⟨currentDelay, hcurrent, -⟩ :=
      Duration.exists_mulF64 (mul_nonneg delay.nonneg (jitter_pos (seeds attempt)).le) hjitter
    obtain ⟨product, hproduct, hsecs⟩ := Duration.exists_mulF64 hnonneg hmax
    have hdelay' : (product.cmpMin p.maxDelay).secs = p.delayAt (attempt + 1) := by
      rw [Duration.secs_cmpMin, hsecs, hdelay]
      rfl
    obtain ⟨sleeps, hlen, hloop⟩ := ih hnext hdelay'
      (fun i hi hlt => hrange i (Nat.le_of_succ_le hi) hlt) (by omega)
    refine ⟨currentDelay :: sleeps, by simp; omega, ?_⟩
    rw [retryLoop_next (isOk_of_lt_callCount hnext) (lt_maxAttempts hnext), hcurrent, hproduct]
    simp only [hloop]
    rfl

/-- A retry panics, or both of its products are durations and the loop goes on. -/
theorem retryLoop_next_cases (hfail : (outcomes attempt).isOk = false)
    (hmore : attempt + 1 < p.maxAttempts) :
    (p.retryLoop outcomes seeds attempt delay).2 = none ∨
      ∃ currentDelay product, delay.mulF64 (jitter (seeds attempt)) = some currentDelay ∧
        delay.mulF64 p.multiplier = some product ∧
        (p.retryLoop outcomes seeds attempt delay).2 =
          (p.retryLoop outcomes seeds (attempt + 1) (product.cmpMin p.maxDelay)).2 := by
  rw [retryLoop_next hfail hmore]
  cases hcurrent : delay.mulF64 (jitter (seeds attempt)) with
  | none => exact Or.inl rfl
  | some currentDelay =>
    cases hproduct : delay.mulF64 p.multiplier with
    | none => exact Or.inl rfl
    | some product => exact Or.inr ⟨currentDelay, product, rfl, rfl, rfl⟩

/-- With the largest jitter, a product that is no duration ends the retries with a panic. -/
theorem retryLoop_of_not_inRange {i : ℕ} (hi : attempt ≤ i) (hdue : i + 1 < p.callCount outcomes)
    (hnot : ¬p.InRange i) (hdelay : delay.secs = p.delayAt attempt) :
    (p.retryLoop outcomes (fun _ => 999) attempt delay).2 = none := by
  induction hleft : i - attempt using Nat.strongRecOn generalizing attempt delay with
  | ind left ih =>
    have hnext : attempt + 1 < p.callCount outcomes := by omega
    rcases retryLoop_next_cases (isOk_of_lt_callCount hnext) (lt_maxAttempts hnext) with
      hnone | ⟨currentDelay, product, hcurrent, hproduct, hloop⟩
    · exact hnone
    · obtain ⟨-, -, hjittered⟩ := Duration.mulF64_eq_some hcurrent
      obtain ⟨hsecs, hnonneg, hmax⟩ := Duration.mulF64_eq_some hproduct
      rcases Nat.eq_or_lt_of_le hi with rfl | hlater
      · -- both products are durations, for the largest jitter
        rw [hdelay] at hjittered hnonneg hmax
        rw [jitter_largest] at hjittered
        exact absurd ⟨hjittered, hnonneg, hmax⟩ hnot
      · rw [hloop]
        apply ih (i - (attempt + 1)) (by omega) hlater _ rfl
        rw [Duration.secs_cmpMin, hsecs, hdelay]
        rfl

/-- A delay with its jitter is at most a quarter longer. -/
theorem secs_le_of_jittered {seed : UInt64} {currentDelay : Duration} {longest : ℚ}
    (h : delay.mulF64 (jitter seed) = some currentDelay) (hdelay : delay.secs ≤ longest) :
    currentDelay.secs ≤ 5 / 4 * longest := by
  have hjitter : jitter seed ≤ 5 / 4 := (jitter_le seed).trans (by norm_num [maxJitter])
  calc currentDelay.secs
      = delay.secs * jitter seed := (Duration.mulF64_eq_some h).1
    _ ≤ delay.secs * (5 / 4) := mul_le_mul_of_nonneg_left hjitter delay.nonneg
    _ ≤ 5 / 4 * longest := by linarith

/-- No sleep is longer than a delay with its jitter. By induction over the recursion of the loop. -/
theorem secs_le_of_sleep_mem
    (hdelay : delay.secs ≤ max p.initialDelay.secs p.maxDelay.secs) {d : Duration}
    (hd : .sleep d ∈ (p.retryLoop outcomes seeds attempt delay).1) :
    d.secs ≤ 5 / 4 * max p.initialDelay.secs p.maxDelay.secs := by
  fun_induction p.retryLoop outcomes seeds attempt delay with
  | case1 => simp at hd
  | case2 => simp at hd
  | case3 => simp at hd
  | case4 attempt delay err houtcome hmore currentDelay hcurrent hproduct =>
    obtain rfl : d = currentDelay := by simpa using hd
    exact secs_le_of_jittered hcurrent hdelay
  -- a sleep of this retry, or of a later one, whose delay is cut off at the maximum
  | case5 attempt delay err houtcome hmore currentDelay hcurrent product hproduct log result hloop
      ih =>
    rcases List.mem_cons.mp (List.mem_of_ne_of_mem (by simp) hd) with hfirst | hlater
    · obtain rfl := RetryStep.sleep.inj hfirst
      exact secs_le_of_jittered hcurrent hdelay
    · apply ih
      · rw [Duration.secs_cmpMin]
        exact (min_le_right _ _).trans (le_max_right _ _)
      · rw [hloop]
        exact hlater

end Loop

/-! ## When all goes right -/

/-- Both products of a retry are in range if the larger factor's is. -/
theorem inRange_iff {p : Backoff} (hmultiplier : 0 ≤ p.multiplier) (i : ℕ) :
    p.InRange i ↔ max p.multiplier maxJitter * p.delayAt i < 2 ^ 64 := by
  have hdelay : 0 ≤ p.delayAt i :=
    capped_nonneg hmultiplier p.maxDelay.nonneg p.initialDelay.nonneg i
  rw [max_mul_of_nonneg _ _ hdelay, max_lt_iff, mul_comm p.multiplier, mul_comm maxJitter]
  constructor
  · rintro ⟨hjittered, -, hmax⟩
    exact ⟨hmax, hjittered⟩
  · rintro ⟨hmax, hjittered⟩
    exact ⟨hjittered, mul_nonneg hdelay hmultiplier, hmax⟩

/-- The products of the first and of the last retry decide. -/
theorem forall_inRange_iff (p : Backoff) (n : ℕ) :
    (∀ i ≤ n, p.InRange i) ↔
      p.initialDelay.secs = 0 ∨
        (0 ≤ p.multiplier ∧ max p.multiplier maxJitter * p.initialDelay.secs < 2 ^ 64 ∧
          max p.multiplier maxJitter *
            min (p.initialDelay.secs * p.multiplier ^ n) p.maxDelay.secs < 2 ^ 64) := by
  by_cases hzero : p.initialDelay.secs = 0
  · refine iff_of_true (fun i _ => ?_) (Or.inl hzero)
    have hdelay : p.delayAt i = 0 := by
      rw [delayAt, hzero]
      exact capped_zero_start p.maxDelay.nonneg i
    refine ⟨?_, ?_, ?_⟩ <;> rw [hdelay, zero_mul] <;> norm_num
  · by_cases hmultiplier : 0 ≤ p.multiplier
    · have hfactor : (0 : ℚ) ≤ max p.multiplier maxJitter := hmultiplier.trans (le_max_left _ _)
      simp only [inRange_iff hmultiplier, delayAt, hzero, hmultiplier, true_and, false_or]
      exact forall_mul_capped_lt_iff hfactor hmultiplier p.maxDelay.nonneg p.initialDelay.nonneg n
    · -- the first product is negative
      have hpos : 0 < p.initialDelay.secs := lt_of_le_of_ne p.initialDelay.nonneg (Ne.symm hzero)
      refine iff_of_false (fun h => ?_) (by simp [hzero, hmultiplier])
      exact absurd (h 0 (Nat.zero_le n)).nonneg
        (not_le.mpr (mul_neg_of_pos_of_neg hpos (not_le.mp hmultiplier)))

/-- A result that is there is a success exactly if it is `Ok`. -/
theorem exists_eq_ok_iff {x : Except ε α} : (∃ val, some x = some (.ok val)) ↔ x.isOk = true := by
  cases x with
  | error err => simp [Except.isOk, Except.toBool]
  | ok val => simp [Except.isOk, Except.toBool]

/-- If all products are durations, the loop does what it should. -/
theorem retriesRightly_of_inRange {p : Backoff} {outcomes : ℕ → Except ε α}
    (h : ∀ i, i + 1 < p.callCount outcomes → p.InRange i) (seeds : ℕ → UInt64) :
    RetriesRightly p outcomes seeds := by
  obtain ⟨sleeps, hlen, hloop⟩ := @retryLoop_of_inRange _ _ p outcomes seeds 0 p.initialDelay
    (p.callCount_pos outcomes) rfl fun i _ => h i
  have hresult : (p.retryWithBackoff outcomes seeds).2 =
      some (outcomes (p.callCount outcomes - 1)) := congrArg Prod.snd hloop
  refine ⟨⟨sleeps, hlen, congrArg Prod.fst hloop⟩, hresult, ?_, fun _ d => ?_⟩
  · rw [hresult, exists_eq_ok_iff, isOk_last_iff]
  · exact secs_le_of_sleep_mem (le_max_left _ _)

/-- **The retries go right exactly if no product leaves the range of durations**: none is made, the
delay is zero, or the multiplier is not negative and the products of the first and of the last retry
are in range. -/
theorem retriesRightly_iff (p : Backoff) (outcomes : ℕ → Except ε α) :
    (∀ seeds, RetriesRightly p outcomes seeds) ↔
      p.callCount outcomes ≤ 1 ∨ p.initialDelay.secs = 0 ∨
        (0 ≤ p.multiplier ∧ max p.multiplier maxJitter * p.initialDelay.secs < 2 ^ 64 ∧
          max p.multiplier maxJitter *
            min (p.initialDelay.secs * p.multiplier ^ (p.callCount outcomes - 2)) p.maxDelay.secs <
              2 ^ 64) := by
  by_cases hone : p.callCount outcomes ≤ 1
  · refine iff_of_true (retriesRightly_of_inRange fun i hi => ?_) (Or.inl hone)
    omega
  · have hdue : ∀ i, i ≤ p.callCount outcomes - 2 ↔ i + 1 < p.callCount outcomes := by
      intro i
      omega
    rw [← forall_inRange_iff, or_iff_right hone]
    constructor
    · intro h i hi
      by_contra hnot
      have hnone : (p.retryWithBackoff outcomes fun _ => 999).2 = none :=
        retryLoop_of_not_inRange (Nat.zero_le i) ((hdue i).mp hi) hnot rfl
      rw [(h _).result] at hnone
      cases hnone
    · intro h
      exact retriesRightly_of_inRange fun i hi => h i ((hdue i).mpr hi)

/-- A second of delay that is to be multiplied by `1e20` and cut off at ten seconds. -/
def steep : Backoff where
  maxAttempts := 3
  initialDelay := .fromMillis 1000 (by decide)
  multiplier := 10 ^ 20
  maxDelay := .fromMillis 10000 (by decide)

/-- An operation that fails once. -/
def failsOnce : ℕ → Except String Unit
  | 0 => .error "temporary error"
  | _ + 1 => .ok ()

/-- The second call is never made: the multiplied delay is no duration and the task panics. -/
theorem not_retriesRightly_steep : ¬∀ seeds, RetriesRightly steep failsOnce seeds := by
  intro h
  have hproduct : steep.initialDelay.mulF64 steep.multiplier = none :=
    dif_neg (by norm_num [steep, Duration.fromMillis])
  have hnone : (steep.retryWithBackoff failsOnce fun _ => 0).2 = none := by
    rw [retryWithBackoff, retryLoop_next rfl (by decide), hproduct]
    cases steep.initialDelay.mulF64 (jitter 0) <;> rfl
  rw [(h _).result] at hnone
  cases hnone

/-! ## The sources -/

section Sources

variable {σ : Type}

/-- The outcomes of an operation that is called again and again. -/
def outcomesFrom (f : σ → Except ε α × σ) (s : σ) (i : ℕ) : Except ε α :=
  (f ((fun s => (f s).2)^[i] s)).1

/-- The attempts of a source end with the outcome of the first success, or of the last attempt. -/
theorem fst_retryAfter {f : σ → Except ε α × σ} {n j : ℕ} {s : σ} (hj : j ≤ n)
    (hfail : ∀ i < j, (outcomesFrom f s i).isOk = false)
    (hend : (outcomesFrom f s j).isOk = true ∨ j = n) :
    (retryAfter f n s).1 = outcomesFrom f s j := by
  induction n generalizing s j with
  | zero =>
    obtain rfl : j = 0 := Nat.le_zero.mp hj
    rfl
  | succ n ih =>
    rw [retryAfter]
    cases j with
    | zero =>
      have hok : (f s).1.isOk = true := hend.resolve_right (by omega)
      show _ = (f s).1
      split
      · rename_i val s' hf
        rw [hf]
      · rename_i err s' hf
        rw [hf] at hok
        cases hok
    | succ j =>
      have hfirst : (f s).1.isOk = false := hfail 0 (Nat.succ_pos j)
      split
      · rename_i val s' hf
        rw [hf] at hfirst
        cases hfirst
      · rename_i err s' hf
        have hs' : s' = (f s).2 := by rw [hf]
        rw [hs']
        exact ih (Nat.le_of_succ_le_succ hj) (fun i hi => hfail (i + 1) (Nat.succ_lt_succ hi))
          (hend.imp_right Nat.succ.inj)

/-- Delays that are durations have no effect on the result. -/
theorem retryWithBackoff_outcomesFrom {p : Backoff} {f : σ → Except ε α × σ} {s : σ}
    (h : ∀ i, i + 1 < p.callCount (outcomesFrom f s) → p.InRange i) (seeds : ℕ → UInt64) :
    (p.retryWithBackoff (outcomesFrom f s) seeds).2 =
      some (Caminus.retryWithBackoff f p.maxAttempts s).1 := by
  have hpos := p.callCount_pos (outcomesFrom f s)
  have hle := p.callCount_le (outcomesFrom f s)
  rw [(retriesRightly_of_inRange h seeds).result, Caminus.retryWithBackoff]
  refine congrArg some (fst_retryAfter (by omega) (fun i hi => ?_) ?_).symm
  · have hbefore : i + 1 < p.callCount (outcomesFrom f s) := by omega
    exact isOk_of_lt_callCount hbefore
  · exact (p.isOk_last_or_eq _).imp_right fun heq => by omega

/-- The arguments of `start_stream`: five attempts with delays from 50 ms, doubled up to 500 ms. -/
def connecting : Backoff where
  maxAttempts := 5
  initialDelay := .fromMillis 50 (by decide)
  multiplier := 2
  maxDelay := .fromMillis 500 (by decide)

/-- The delays of `start_stream` never leave the range: they are cut off at half a second. -/
theorem inRange_connecting (i : ℕ) : connecting.InRange i := by
  have hfactor : max connecting.multiplier maxJitter = 2 :=
    max_eq_left (by norm_num [connecting, maxJitter])
  have hmax : connecting.maxDelay.secs = 1 / 2 := by norm_num [connecting, Duration.fromMillis]
  have hlast : 2 * min (connecting.initialDelay.secs * connecting.multiplier ^ i)
      connecting.maxDelay.secs < 2 ^ 64 := by
    have hle := min_le_right (connecting.initialDelay.secs * connecting.multiplier ^ i)
      connecting.maxDelay.secs
    rw [hmax] at hle ⊢
    linarith
  refine (connecting.forall_inRange_iff i).mpr (Or.inr ⟨?_, ?_, ?_⟩) i (Nat.le_refl i)
  · norm_num [connecting]
  · rw [hfactor]
    norm_num [connecting, Duration.fromMillis]
  · rw [hfactor]
    exact hlast

/-- A source that connects does not panic, and what its retries return is what `startStream` takes
them to return. -/
theorem retryWithBackoff_connecting (outage : String) (attempts : ℕ) (seeds : ℕ → UInt64) :
    (connecting.retryWithBackoff (outcomesFrom (makeConn outage) attempts) seeds).2 =
      some (Caminus.retryWithBackoff (makeConn outage) 5 attempts).1 :=
  retryWithBackoff_outcomesFrom (fun i _ => inRange_connecting i) seeds

end Sources

end Backoff

end Caminus

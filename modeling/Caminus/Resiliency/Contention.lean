import Caminus.Resiliency.Acquire
import Caminus.Resiliency.Admission
import Mathlib.Algebra.BigOperators.Group.Finset.Basic
import Mathlib.Algebra.Order.BigOperators.Group.Finset

/-!
# Waiting for tokens among others

Any number of callers share a bucket (`main` gives one to both of its tasks). Each makes its calls of
`try_acquire` and `acquire` (`src/resiliency/rate_limiter.rs`) one after the other, and sleeps after an
iteration of `acquire` that found too few tokens, with both locks released. Others may then take what
has come in, so a caller can be denied any number of times. But nobody is denied for nothing: a caller
that has slept is denied again only if others were granted tokens in the meantime (`Covered`). This
bounds the iterations of each caller by what the others get (`iterations_le`), and a caller with enough
turns has made all of its calls (`contended`).
-/

namespace Caminus.TokenBucketLimiter

/-- A call: `try_acquire`, or `acquire` with its iterations, and the tokens that it asks for. -/
structure Call where
  kind : AttemptKind
  count : UInt32

/-- The attempt on the bucket that a call makes. -/
def Call.attemptAt (c : Call) (now : ℕ) : Attempt := ⟨c.kind, now, c.count⟩

/-- A call of `acquire` asks for no more than the bucket holds, and for no more than comes in within the
longest `Duration`. -/
def Call.Fits (capacity : UInt32) (rate : ℚ) (c : Call) : Prop :=
  c.kind = .acquireIteration →
    c.count.toNat ≤ capacity.toNat ∧ (c.count.toNat : ℚ) < 2 ^ 64 * rate

/-- Where a caller stands between two turns. A sleep has the time of its end, in seconds. -/
inductive Waiting (F : Type)
  | running
  | sleeping (wake : F)
  | panicked

/-- The calls that a caller has still to make, and where it stands with the first of them. -/
structure Caller (F : Type) where
  todo : List Call
  waiting : Waiting F

/-- A bucket with its callers, each with a list of calls of its own. -/
structure Contention (ι F : Type) where
  bucket : TokenBucketLimiter F
  caller : ι → Caller F

namespace Contention

/-- A caller is scheduled at an instant. The schedule decides both; only time does not go back. -/
structure Turn (ι : Type) where
  caller : ι
  now : ℕ

/-- What a turn does. A caller that sleeps is scheduled in vain. -/
inductive Outcome
  /-- The caller has made its calls, or has panicked. -/
  | idle
  | asleep
  /-- A call returns with its tokens. -/
  | granted (count : UInt32)
  /-- `try_acquire` returns `false`. -/
  | refused
  /-- An iteration of `acquire` finds too few tokens. -/
  | denied
deriving DecidableEq

variable {ι F : Type} [DecidableEq ι]

/-- A new bucket, on which no caller has called yet. -/
def start (arith : BucketArith F) (capacity : UInt32) (refillRatePerSec : F) (created : ℕ)
    (calls : ι → List Call) : Contention ι F :=
  ⟨.new arith capacity refillRatePerSec created, fun i => ⟨calls i, .running⟩⟩

/-- A turn leaves its bucket and its caller behind; the other callers stay. -/
def set (s : Contention ι F) (i : ι) (bucket : TokenBucketLimiter F) (caller : Caller F) :
    Contention ι F :=
  ⟨bucket, Function.update s.caller i caller⟩

/-- An attempt of the caller `i`, whose next call is given. -/
def call (arith : BucketArith F) (isDuration : F → Bool) (s : Contention ι F) (i : ι) (now : ℕ)
    (next : Call) (rest : List Call) : Outcome × Contention ι F :=
  match next.kind with
  | .tryAcquire =>
      let (acquired, b) := s.bucket.tryAcquire arith now next.count
      (if acquired then .granted next.count else .refused, s.set i b ⟨rest, .running⟩)
  | .acquireIteration =>
      match s.bucket.acquireIteration arith now next.count with
      | (none, b) => (.granted next.count, s.set i b ⟨rest, .running⟩)
      | (some secs, b) =>
          -- `Duration::from_secs_f64` panics, after the locks have been released
          (.denied, s.set i b ⟨next :: rest,
            if isDuration secs then .sleeping (arith.add (arith.asSecs now) secs) else .panicked⟩)

/-- One turn. A sleep lasts at least as long as asked for: a turn before its end does nothing. -/
def step (arith : BucketArith F) (isDuration : F → Bool) (s : Contention ι F) (t : Turn ι) :
    (ι × Outcome) × Contention ι F :=
  match (s.caller t.caller).todo, (s.caller t.caller).waiting with
  | [], _ => ((t.caller, .idle), s)
  | _ :: _, .panicked => ((t.caller, .idle), s)
  | next :: rest, .running =>
      let (outcome, s) := s.call arith isDuration t.caller t.now next rest
      ((t.caller, outcome), s)
  | next :: rest, .sleeping wake =>
      if arith.ge (arith.asSecs t.now) wake then
        let (outcome, s) := s.call arith isDuration t.caller t.now next rest
        ((t.caller, outcome), s)
      else ((t.caller, .asleep), s)

/-! ## Counting -/

/-- The tokens that a turn takes. -/
def Outcome.tokens : Outcome → ℕ
  | .granted count => count.toNat
  | _ => 0

/-- The outcome ends a call, with or without its tokens. -/
def Outcome.ends : Outcome → Bool
  | .granted _ => true
  | .refused => true
  | _ => false

/-- The outcome is that of an attempt: the bucket was refilled and looked at. -/
def Outcome.iterates (o : Outcome) : Bool := o.ends || o = .denied

/-- The tokens granted to the callers other than `i`: what a caller can be overtaken by. -/
def tokensToOthers (i : ι) (outs : List (ι × Outcome)) : ℕ :=
  ((outs.filter fun o => o.1 ≠ i).map fun o => o.2.tokens).sum

/-- The tokens granted to caller `i`. -/
def tokensTo (i : ι) (outs : List (ι × Outcome)) : ℕ :=
  ((outs.filter fun o => o.1 = i).map fun o => o.2.tokens).sum

/-- The turns of `i` with the given outcomes, by which waiting is measured. -/
def turnsOf (i : ι) (p : Outcome → Bool) (outs : List (ι × Outcome)) : ℕ :=
  outs.countP fun o => o.1 = i && p o.2

/-- The tokens that a list of calls asks for. -/
def tokensOf (calls : List Call) : ℕ := (calls.map fun c => c.count.toNat).sum

/-! ## What a turn can do -/

/-- An attempt ends its call, or finds too few tokens for an `acquire`, which then sleeps until they have
come in. -/
theorem call_cases (s : Contention ι ℚ) (i : ι) (now : ℕ) (next : Call) (rest : List Call) :
    (∃ outcome : Outcome, outcome.ends = true ∧
      outcome.tokens = (s.bucket.attempt .exact (next.attemptAt now)).1 ∧
      s.call .exact isDurationExact i now next rest =
        (outcome, s.set i (s.bucket.attempt .exact (next.attemptAt now)).2 ⟨rest, .running⟩)) ∨
    ∃ secs, next.kind = .acquireIteration ∧
      (s.bucket.refill .exact now).tokens < next.count.toNat ∧
      secs = max ((next.count.toNat - (s.bucket.refill .exact now).tokens) /
        s.bucket.refillRatePerSec) (1 / 1000) ∧
      s.bucket.attempt .exact (next.attemptAt now) = (0, s.bucket.refill .exact now) ∧
      s.call .exact isDurationExact i now next rest =
        (.denied, s.set i (s.bucket.refill .exact now) ⟨next :: rest,
          if isDurationExact secs then .sleeping (secsAt now + secs) else .panicked⟩) := by
  cases hkind : next.kind with
  | tryAcquire =>
    left
    simp only [call, Call.attemptAt, attempt, hkind]
    cases (s.bucket.tryAcquire .exact now next.count).1 with
    | true => exact ⟨.granted next.count, rfl, rfl, rfl⟩
    | false => exact ⟨.refused, rfl, rfl, rfl⟩
  | acquireIteration =>
    simp only [call, Call.attemptAt, attempt, hkind]
    rcases acquireIteration_cases s.bucket now next.count with ⟨-, htake⟩ | ⟨hlt, hwait⟩
    · left
      rw [htake]
      exact ⟨.granted next.count, rfl, rfl, rfl⟩
    · right
      rw [hwait]
      exact ⟨_, trivial, hlt, rfl, rfl, rfl⟩

/-- A turn makes the attempt of its caller, unless this one is done or asleep. -/
theorem step_cases (s : Contention ι ℚ) (t : Turn ι) :
    ((s.step .exact isDurationExact t = ((t.caller, .idle), s) ∧
        ((s.caller t.caller).todo = [] ∨ (s.caller t.caller).waiting = .panicked)) ∨
      s.step .exact isDurationExact t = ((t.caller, .asleep), s)) ∨
    ∃ next rest, (s.caller t.caller).todo = next :: rest ∧
      (s.caller t.caller).waiting ≠ .panicked ∧
      (∀ wake, (s.caller t.caller).waiting = .sleeping wake → wake ≤ secsAt t.now) ∧
      s.step .exact isDurationExact t =
        ((t.caller, (s.call .exact isDurationExact t.caller t.now next rest).1),
          (s.call .exact isDurationExact t.caller t.now next rest).2) := by
  cases htodo : (s.caller t.caller).todo with
  | nil => exact Or.inl (Or.inl ⟨by simp [step, htodo], Or.inl rfl⟩)
  | cons next rest =>
    cases hwaiting : (s.caller t.caller).waiting with
    | panicked => exact Or.inl (Or.inl ⟨by simp [step, htodo, hwaiting], Or.inr rfl⟩)
    | running =>
      refine Or.inr ⟨next, rest, rfl, by simp, by simp, ?_⟩
      simp [step, htodo, hwaiting]
    | sleeping wake =>
      by_cases hawake : BucketArith.exact.ge (BucketArith.exact.asSecs t.now) wake = true
      · refine Or.inr ⟨next, rest, rfl, by simp, ?_, ?_⟩
        · rintro _ ⟨⟩
          exact of_decide_eq_true hawake
        · simp [step, htodo, hwaiting, hawake]
      · exact Or.inl (Or.inr (by simp [step, htodo, hwaiting, hawake]))

/-! ## Nobody is denied for nothing -/

/-- What a caller has still to go through on its own: two iterations for each of its calls, less the
one after which it sleeps. -/
def owed (c : Caller ℚ) : ℕ :=
  match c.waiting with
  | .sleeping _ => 2 * c.todo.length - 1
  | _ => 2 * c.todo.length

/-- Once its sleep is over, the caller finds its tokens, less those that others were granted since.
The debt counts these. -/
def Covered (capacity : UInt32) (rate : ℚ) (b : TokenBucketLimiter ℚ) (c : Caller ℚ) (debt : ℕ) :
    Prop :=
  ∀ next rest wake, c.todo = next :: rest → c.waiting = .sleeping wake →
    next.kind = .acquireIteration ∧ ∀ t, wake ≤ t → secsAt b.lastRefill ≤ t →
      (next.count.toNat : ℚ) ≤ min (b.tokens + rate * (t - secsAt b.lastRefill)) capacity.toNat + debt

/-- What holds of caller `i` in every state: its bucket is sound, its calls fit, it has not
panicked, and its sleep is long enough but for the debt. -/
structure Inv (capacity : UInt32) (rate : ℚ) (i : ι) (debt : ℕ) (s : Contention ι ℚ) : Prop where
  sound : Sound capacity rate s.bucket
  fits : ∀ c ∈ (s.caller i).todo, c.Fits capacity rate
  running : (s.caller i).waiting ≠ .panicked
  covered : Covered capacity rate s.bucket (s.caller i) debt

section Covered

variable {capacity : UInt32} {rate : ℚ} {b : TokenBucketLimiter ℚ} {c : Caller ℚ} {debt : ℕ}

/-- An attempt of another caller adds what it is granted to the debt. -/
theorem Covered.attempt (h : Covered capacity rate b c debt) (hrate : 0 ≤ rate)
    (hsound : Sound capacity rate b) (hfits : ∀ x ∈ c.todo, x.Fits capacity rate) {a : Attempt}
    (hnow : b.lastRefill ≤ a.now) :
    Covered capacity rate (b.attempt .exact a).2 c (debt + (b.attempt .exact a).1) := by
  intro next rest wake htodo hwaiting
  obtain ⟨hkind, hmet⟩ := h next rest wake htodo hwaiting
  refine ⟨hkind, fun t hwake hlast => ?_⟩
  rw [lastRefill_attempt] at hlast
  have hcap := (hfits next (by simp [htodo]) hkind).1
  have hfound := hmet t hwake ((secsAt_mono hnow).trans hlast)
  have hmin : min (b.tokens + rate * (t - secsAt b.lastRefill)) (capacity.toNat : ℚ) ≤
      b.tokens + rate * (t - secsAt b.lastRefill) := min_le_left _ _
  have hdemand := (refilled capacity hrate).demand_step hsound (secsAt_mono hnow) hlast
    (Nat.cast_nonneg _) (Nat.cast_nonneg debt) (Nat.cast_le.mpr hcap)
    (hfound.trans (add_le_add_left hmin _))
  rw [Nat.cast_add]
  exact hdemand

/-- A caller that falls asleep sleeps long enough: until its tokens have come in, were it alone. -/
theorem covered_sleeping (hrate : 0 < rate) {next : Call} {rest : List Call} (hkind : next.kind = .acquireIteration)
    (hfits : next.Fits capacity rate) {secs : ℚ} (hsecs : (next.count.toNat - b.tokens) / rate ≤ secs) :
    Covered capacity rate b ⟨next :: rest, .sleeping (secsAt b.lastRefill + secs)⟩ debt := by
  rintro _ _ _ ⟨⟩ ⟨⟩
  refine ⟨hkind, fun t hwake _ => ?_⟩
  have hmissing : next.count.toNat - b.tokens ≤ rate * (t - secsAt b.lastRefill) := by
    rw [mul_comm]
    apply (div_le_iff₀ hrate).mp
    linarith
  have hcap : (next.count.toNat : ℚ) ≤ capacity.toNat := Nat.cast_le.mpr (hfits hkind).1
  have hfound : (next.count.toNat : ℚ) ≤
      min (b.tokens + rate * (t - secsAt b.lastRefill)) capacity.toNat :=
    le_min (by linarith) hcap
  exact hfound.trans (le_add_of_nonneg_right (Nat.cast_nonneg debt))

/-- The missing tokens come in within the longest `Duration`, so a call that fits does not panic. -/
theorem isDurationExact_of_fits (hrate : 0 < rate) (hsound : Sound capacity rate b) {next : Call}
    (hkind : next.kind = .acquireIteration) (hfits : next.Fits capacity rate) :
    isDurationExact (max ((next.count.toNat - b.tokens) / rate) (1 / 1000)) = true := by
  have hlong := (hfits hkind).2
  have hnonneg := hsound.nonneg
  rw [isDurationExact, decide_eq_true_iff, max_lt_iff, div_lt_iff₀ hrate]
  exact ⟨by linarith, by norm_num⟩

/-- A caller that is denied after its sleep has been overtaken. -/
theorem Covered.debt_pos (h : Covered capacity rate b c debt) (hsound : Sound capacity rate b)
    {next : Call} {rest : List Call} {wake : ℚ} (htodo : c.todo = next :: rest)
    (hwaiting : c.waiting = .sleeping wake) {now : ℕ} (hnow : b.lastRefill ≤ now)
    (hwake : wake ≤ secsAt now) (hdenied : (b.refill .exact now).tokens < next.count.toNat) :
    0 < debt := by
  obtain ⟨-, hmet⟩ := h next rest wake htodo hwaiting
  have hfound := hmet (secsAt now) hwake (secsAt_mono hnow)
  rw [tokens_refill_eq hnow, hsound.rate, hsound.capacity] at hdenied
  have hpos : (0 : ℚ) < debt := by linarith
  exact Nat.cast_pos.mp hpos

end Covered

/-! ## A turn -/

omit [DecidableEq ι] in
/-- A caller that is not asleep has two iterations to go for each call. -/
theorem owed_of_running {c : Caller ℚ} (h : c.waiting = .running) : owed c = 2 * c.todo.length := by
  rw [owed, h]

omit [DecidableEq ι] in
/-- A caller that sleeps has had the first of them. -/
theorem owed_of_sleeping {c : Caller ℚ} {wake : ℚ} (h : c.waiting = .sleeping wake) :
    owed c = 2 * c.todo.length - 1 := by
  rw [owed, h]

omit [DecidableEq ι] in
/-- Either way it has at most one less than two for each call. -/
theorem two_mul_length_le (c : Caller ℚ) : 2 * c.todo.length ≤ owed c + 1 := by
  rw [owed]
  cases c.waiting with
  | sleeping wake => exact Nat.sub_le_iff_le_add.mp (le_refl _)
  | running => exact Nat.le_succ _
  | panicked => exact Nat.le_succ _

/-- The caller of the turn is the one that the turn leaves. -/
theorem set_caller_self (s : Contention ι ℚ) (i : ι) (b : TokenBucketLimiter ℚ) (c : Caller ℚ) :
    (s.set i b c).caller i = c :=
  Function.update_self ..

/-- The other callers are as before. -/
theorem set_caller_of_ne (s : Contention ι ℚ) {i j : ι} (h : j ≠ i) (b : TokenBucketLimiter ℚ)
    (c : Caller ℚ) : (s.set i b c).caller j = s.caller j :=
  Function.update_of_ne h ..

/-- The attempt of a call on the bucket, for the others. -/
theorem call_others (s : Contention ι ℚ) (i : ι) (now : ℕ) (next : Call) (rest : List Call) :
    (s.call .exact isDurationExact i now next rest).1.tokens =
        (s.bucket.attempt .exact (next.attemptAt now)).1 ∧
      (s.call .exact isDurationExact i now next rest).2.bucket =
        (s.bucket.attempt .exact (next.attemptAt now)).2 ∧
      ∀ j ≠ i, (s.call .exact isDurationExact i now next rest).2.caller j = s.caller j := by
  rcases call_cases s i now next rest with ⟨outcome, -, htokens, hcall⟩ | ⟨secs, -, -, -, hattempt, hcall⟩
  · rw [hcall]
    exact ⟨htokens, rfl, fun j hj => set_caller_of_ne s hj _ _⟩
  · rw [hcall, hattempt]
    exact ⟨rfl, rfl, fun j hj => set_caller_of_ne s hj _ _⟩

section Step

variable {capacity : UInt32} {rate : ℚ} {i : ι} {debt : ℕ} {s : Contention ι ℚ}

/-- What a caller has gone through, and has still to go through, is paid by what it owes and by what
others are granted. -/
def Paid (i : ι) (debt : ℕ) (s : Contention ι ℚ) (o : ι × Outcome) (debt' : ℕ) (s' : Contention ι ℚ) :
    Prop :=
  turnsOf i Outcome.iterates [o] + owed (s'.caller i) + debt' ≤
    owed (s.caller i) + debt + tokensToOthers i [o]

/-- A turn of the caller counts if its outcome does. -/
theorem turnsOf_own (i : ι) {p : Outcome → Bool} {o : Outcome} (h : p o = true) :
    turnsOf i p [(i, o)] = 1 := by
  simp [turnsOf, h]

/-- An outcome that does not count adds nothing, whoever's it is. -/
theorem turnsOf_of_not (i j : ι) {p : Outcome → Bool} {o : Outcome} (h : p o = false) :
    turnsOf i p [(j, o)] = 0 := by
  simp [turnsOf, h]

/-- Outcomes that both count, or both do not, add the same. -/
theorem turnsOf_congr (i j : ι) {p q : Outcome → Bool} {o : Outcome} (h : p o = q o) :
    turnsOf i p [(j, o)] = turnsOf i q [(j, o)] := by
  simp only [turnsOf, List.countP_cons, List.countP_nil, h]

/-- A turn of the caller counts for one or for nothing. -/
theorem turnsOf_single (i : ι) (p : Outcome → Bool) (o : Outcome) :
    turnsOf i p [(i, o)] = (p o).toNat := by
  cases hp : p o with
  | true => exact turnsOf_own i hp
  | false => exact turnsOf_of_not i i hp

/-- The tokens of a caller's own turn. -/
theorem tokensTo_own (i : ι) (o : Outcome) : tokensTo i [(i, o)] = o.tokens := by
  simp [tokensTo]

/-- Another caller's turn grants it nothing. -/
theorem tokensTo_other {i j : ι} (h : j ≠ i) (o : Outcome) : tokensTo i [(j, o)] = 0 := by
  simp [tokensTo, h]

/-- A turn without tokens grants nothing to anybody. -/
theorem tokensTo_of_not (i j : ι) {o : Outcome} (h : o.tokens = 0) : tokensTo i [(j, o)] = 0 := by
  by_cases hj : j = i
  · rw [hj, tokensTo_own, h]
  · exact tokensTo_other hj o

/-- A caller's own turn grants nothing to the others. -/
theorem tokensToOthers_own (i : ι) (o : Outcome) : tokensToOthers i [(i, o)] = 0 := by
  simp [tokensToOthers]

/-- Another caller's turn does not count. -/
theorem turnsOf_other {i j : ι} (h : j ≠ i) (p : Outcome → Bool) (o : Outcome) :
    turnsOf i p [(j, o)] = 0 := by
  simp [turnsOf, h]

/-- Another caller's turn grants its tokens to the others. -/
theorem tokensToOthers_other {i j : ι} (h : j ≠ i) (o : Outcome) :
    tokensToOthers i [(j, o)] = o.tokens := by
  simp [tokensToOthers, h]

/-- A turn that makes no attempt keeps the invariant with the same debt and costs the caller
nothing. -/
theorem Inv.silent (h : Inv capacity rate i debt s) (j : ι) {o : Outcome} (ho : o.iterates = false) :
    ∃ debt', Inv capacity rate i debt' s ∧ Paid i debt s (j, o) debt' s := by
  refine ⟨debt, h, ?_⟩
  rw [Paid, turnsOf_of_not i j ho]
  omega

/-- An attempt of another caller: what it is granted is added to the debt. -/
theorem Inv.call_of_ne (hrate : 0 < rate) (h : Inv capacity rate i debt s) {j : ι} (hj : j ≠ i)
    {now : ℕ} (hnow : s.bucket.lastRefill ≤ now) (next : Call) (rest : List Call) :
    ∃ debt', Inv capacity rate i debt' (s.call .exact isDurationExact j now next rest).2 ∧
      Paid i debt s (j, (s.call .exact isDurationExact j now next rest).1) debt'
        (s.call .exact isDurationExact j now next rest).2 := by
  obtain ⟨htokens, hbucket, hothers⟩ := call_others s j now next rest
  have hcaller := hothers i (Ne.symm hj)
  refine ⟨debt + (s.bucket.attempt .exact (next.attemptAt now)).1, ⟨?_, ?_, ?_, ?_⟩, ?_⟩
  · rw [hbucket]
    exact (h.sound.attempt hrate.le hnow).1
  · rw [hcaller]
    exact h.fits
  · rw [hcaller]
    exact h.running
  · rw [hbucket, hcaller]
    exact h.covered.attempt hrate.le h.sound h.fits hnow
  · rw [Paid, turnsOf_other hj, tokensToOthers_other hj, hcaller, htokens]
    omega

/-- An attempt of the caller itself that ends its call. -/
theorem Inv.ended (hrate : 0 < rate) (h : Inv capacity rate i debt s) {a : Attempt}
    (hnow : s.bucket.lastRefill ≤ a.now) {next : Call} {rest : List Call}
    (htodo : (s.caller i).todo = next :: rest) {outcome : Outcome} (hends : outcome.ends = true) :
    Inv capacity rate i debt (s.set i (s.bucket.attempt .exact a).2 ⟨rest, .running⟩) ∧
      Paid i debt s (i, outcome) debt (s.set i (s.bucket.attempt .exact a).2 ⟨rest, .running⟩) := by
  refine ⟨⟨(h.sound.attempt hrate.le hnow).1, ?_, ?_, ?_⟩, ?_⟩
  · rw [set_caller_self]
    intro c hc
    exact h.fits c (by rw [htodo]; exact List.mem_cons_of_mem _ hc)
  · rw [set_caller_self]
    simp
  · rw [set_caller_self]
    rintro _ _ _ _ ⟨⟩
  · have hleft := two_mul_length_le (s.caller i)
    have hrest : owed ⟨rest, .running⟩ = 2 * rest.length := rfl
    rw [htodo, List.length_cons] at hleft
    rw [Paid, turnsOf_own i (by rw [Outcome.iterates, hends]; rfl), tokensToOthers_own,
      set_caller_self, hrest]
    omega

/-- A caller that sleeps until the tokens it misses have come in. -/
def sleeper (rate : ℚ) (b : TokenBucketLimiter ℚ) (next : Call) (rest : List Call) : Caller ℚ :=
  ⟨next :: rest,
    .sleeping (secsAt b.lastRefill + max ((next.count.toNat - b.tokens) / rate) (1 / 1000))⟩

/-- An attempt of the caller itself that finds too few tokens: the first one of its call, or one
that others have paid for. -/
theorem Inv.denied (hrate : 0 < rate) (h : Inv capacity rate i debt s) {now : ℕ}
    (hnow : s.bucket.lastRefill ≤ now) {next : Call} {rest : List Call}
    (htodo : (s.caller i).todo = next :: rest) (hkind : next.kind = .acquireIteration)
    (hawake : ∀ wake, (s.caller i).waiting = .sleeping wake → wake ≤ secsAt now)
    (hlt : (s.bucket.refill .exact now).tokens < next.count.toNat) :
    ∃ debt', Inv capacity rate i debt' (s.set i (s.bucket.refill .exact now)
        (sleeper rate (s.bucket.refill .exact now) next rest)) ∧
      Paid i debt s (i, .denied) debt' (s.set i (s.bucket.refill .exact now)
        (sleeper rate (s.bucket.refill .exact now) next rest)) := by
  have hfits := h.fits next (by simp [htodo])
  have hinv : ∀ debt', Inv capacity rate i debt' (s.set i (s.bucket.refill .exact now)
      (sleeper rate (s.bucket.refill .exact now) next rest)) := by
    intro debt'
    refine ⟨(h.sound.refill hrate.le hnow).1, ?_, ?_, ?_⟩
    · rw [set_caller_self, sleeper, ← htodo]
      exact h.fits
    · rw [set_caller_self, sleeper]
      simp
    · rw [set_caller_self]
      exact covered_sleeping hrate hkind hfits (le_max_left _ _)
  have howed : owed (sleeper rate (s.bucket.refill .exact now) next rest) = 2 * rest.length + 1 := by
    rw [owed_of_sleeping rfl, sleeper, List.length_cons]
    omega
  cases hwaiting : (s.caller i).waiting with
  | panicked => exact absurd hwaiting h.running
  | running =>
    refine ⟨debt, hinv debt, ?_⟩
    rw [Paid, turnsOf_own i rfl, tokensToOthers_own, set_caller_self, howed, owed_of_running hwaiting,
      htodo, List.length_cons]
    omega
  | sleeping wake =>
    -- its sleep was long enough for its own tokens, so somebody else has taken some
    have hpos := h.covered.debt_pos h.sound htodo hwaiting hnow (hawake wake hwaiting) hlt
    refine ⟨debt - 1, hinv (debt - 1), ?_⟩
    rw [Paid, turnsOf_own i rfl, tokensToOthers_own, set_caller_self, howed,
      owed_of_sleeping hwaiting, htodo, List.length_cons]
    omega

/-- An attempt of the caller itself: it ends its call, or the denial is paid from what is owed or
from the debt. -/
theorem Inv.call_self (hrate : 0 < rate) (h : Inv capacity rate i debt s) {now : ℕ}
    (hnow : s.bucket.lastRefill ≤ now) {next : Call} {rest : List Call}
    (htodo : (s.caller i).todo = next :: rest)
    (hawake : ∀ wake, (s.caller i).waiting = .sleeping wake → wake ≤ secsAt now) :
    ∃ debt', Inv capacity rate i debt' (s.call .exact isDurationExact i now next rest).2 ∧
      Paid i debt s (i, (s.call .exact isDurationExact i now next rest).1) debt'
        (s.call .exact isDurationExact i now next rest).2 := by
  rcases call_cases s i now next rest with
    ⟨outcome, hends, -, hcall⟩ | ⟨secs, hkind, hlt, rfl, -, hcall⟩
  · rw [hcall]
    exact ⟨debt, h.ended hrate hnow htodo hends⟩
  · have hfits := h.fits next (by simp [htodo])
    have hduration := isDurationExact_of_fits hrate (h.sound.refill hrate.le hnow).1 hkind hfits
    rw [← h.sound.rate] at hduration
    rw [hcall, if_pos hduration, h.sound.rate]
    exact h.denied hrate hnow htodo hkind hawake hlt

/-- Every turn keeps the invariant of every caller, and is paid for. -/
theorem Inv.turn (hrate : 0 < rate) (h : Inv capacity rate i debt s) {t : Turn ι}
    (hnow : s.bucket.lastRefill ≤ t.now) :
    ∃ debt', Inv capacity rate i debt' (s.step .exact isDurationExact t).2 ∧
      Paid i debt s (s.step .exact isDurationExact t).1 debt' (s.step .exact isDurationExact t).2 := by
  rcases step_cases s t with (⟨hidle, -⟩ | hasleep) | ⟨next, rest, htodo, -, hawake, hstep⟩
  · rw [hidle]
    exact h.silent _ rfl
  · rw [hasleep]
    exact h.silent _ rfl
  · rw [hstep]
    by_cases hi : t.caller = i
    · rw [hi] at htodo hawake ⊢
      exact h.call_self hrate hnow htodo hawake
    · exact h.call_of_ne hrate hi hnow next rest

end Step

/-! ## A run -/

/-- Turns are counted one by one. -/
theorem turnsOf_cons (i : ι) (p : Outcome → Bool) (o : ι × Outcome) (outs : List (ι × Outcome)) :
    turnsOf i p (o :: outs) = turnsOf i p [o] + turnsOf i p outs := by
  rw [turnsOf, ← List.singleton_append, List.countP_append]
  rfl

/-- Tokens to the others are summed turn by turn. -/
theorem tokensToOthers_cons (i : ι) (o : ι × Outcome) (outs : List (ι × Outcome)) :
    tokensToOthers i (o :: outs) = tokensToOthers i [o] + tokensToOthers i outs := by
  rw [tokensToOthers, ← List.singleton_append, List.filter_append, List.map_append, List.sum_append]
  rfl

/-- So are the tokens to a caller. -/
theorem tokensTo_cons (i : ι) (o : ι × Outcome) (outs : List (ι × Outcome)) :
    tokensTo i (o :: outs) = tokensTo i [o] + tokensTo i outs := by
  rw [tokensTo, ← List.singleton_append, List.filter_append, List.map_append, List.sum_append]
  rfl

omit [DecidableEq ι] in
/-- And those that calls ask for. -/
theorem tokensOf_cons (c : Call) (calls : List Call) :
    tokensOf (c :: calls) = c.count.toNat + tokensOf calls :=
  List.sum_cons

/-- The bucket is never refilled ahead of its time, so the attempts come in the order of the clock. -/
theorem lastRefill_step {s : Contention ι ℚ} {t : Turn ι} (hnow : s.bucket.lastRefill ≤ t.now) :
    (s.step .exact isDurationExact t).2.bucket.lastRefill ≤ t.now := by
  rcases step_cases s t with (⟨hidle, -⟩ | hasleep) | ⟨next, rest, -, -, -, hstep⟩
  · rwa [hidle]
  · rwa [hasleep]
  · rw [hstep, (call_others s t.caller t.now next rest).2.1, lastRefill_attempt]
    exact le_refl t.now

/-- A turn at its time leaves the others at theirs. -/
theorem inTime_step {s : Contention ι ℚ} {t : Turn ι} {turns : List (Turn ι)}
    (htimes : (s.bucket.lastRefill :: (t :: turns).map Turn.now).IsChain (· ≤ ·)) :
    s.bucket.lastRefill ≤ t.now ∧
      ((s.step .exact isDurationExact t).2.bucket.lastRefill ::
        turns.map Turn.now).IsChain (· ≤ ·) := by
  rw [List.map_cons, List.isChain_cons_cons] at htimes
  refine ⟨htimes.1, ?_⟩
  cases turns with
  | nil => exact List.isChain_singleton _
  | cons t' turns =>
    rw [List.map_cons, List.isChain_cons_cons] at htimes ⊢
    exact ⟨(lastRefill_step htimes.1).trans htimes.2.1, htimes.2.2⟩

/-- The calls of a caller that have ended are those it has no longer to make, and it was granted no
more than they asked for. -/
theorem todo_step (s : Contention ι ℚ) (t : Turn ι) (i : ι) :
    turnsOf i Outcome.ends [(s.step .exact isDurationExact t).1] +
        ((s.step .exact isDurationExact t).2.caller i).todo.length = (s.caller i).todo.length ∧
      tokensTo i [(s.step .exact isDurationExact t).1] +
        tokensOf ((s.step .exact isDurationExact t).2.caller i).todo ≤ tokensOf (s.caller i).todo := by
  rcases step_cases s t with (⟨hidle, -⟩ | hasleep) | ⟨next, rest, htodo, -, -, hstep⟩
  · rw [hidle, turnsOf_of_not i t.caller rfl, tokensTo_of_not i t.caller rfl]
    exact ⟨Nat.zero_add _, le_of_eq (Nat.zero_add _)⟩
  · rw [hasleep, turnsOf_of_not i t.caller rfl, tokensTo_of_not i t.caller rfl]
    exact ⟨Nat.zero_add _, le_of_eq (Nat.zero_add _)⟩
  · rw [hstep]
    by_cases hi : t.caller = i
    · rw [hi] at htodo ⊢
      rw [htodo]
      rcases call_cases s i t.now next rest with
        ⟨outcome, hends, htokens, hcall⟩ | ⟨secs, -, -, -, -, hcall⟩
      -- an attempt is granted its tokens or none
      · have hgranted : (s.bucket.attempt .exact (next.attemptAt t.now)).1 ≤ next.count.toNat := by
          rcases attempt_cases s.bucket (next.attemptAt t.now) with ⟨-, h⟩ | h
          · rw [h]
            exact le_refl _
          · rw [h]
            exact Nat.zero_le _
        rw [hcall, set_caller_self, turnsOf_own i hends, tokensTo_own, htokens, tokensOf_cons,
          List.length_cons]
        exact ⟨Nat.add_comm 1 _, Nat.add_le_add_right hgranted _⟩
      · rw [hcall, set_caller_self, turnsOf_of_not i i rfl, tokensTo_of_not i i rfl]
        exact ⟨Nat.zero_add _, le_of_eq (Nat.zero_add _)⟩
    · rw [(call_others s t.caller t.now next rest).2.2 i (Ne.symm hi), turnsOf_other hi,
        tokensTo_other hi]
      omega

/-- What was granted and what is left to do are all calls, over a whole run. -/
theorem todo_run (s : Contention ι ℚ) (turns : List (Turn ι)) (i : ι) :
    turnsOf i Outcome.ends (Mealy.outputs (step .exact isDurationExact) s turns) +
        ((Mealy.final (step .exact isDurationExact) s turns).caller i).todo.length =
          (s.caller i).todo.length ∧
      tokensTo i (Mealy.outputs (step .exact isDurationExact) s turns) +
        tokensOf ((Mealy.final (step .exact isDurationExact) s turns).caller i).todo ≤
          tokensOf (s.caller i).todo := by
  induction turns generalizing s with
  | nil => exact ⟨Nat.zero_add _, le_of_eq (Nat.zero_add _)⟩
  | cons t turns ih =>
    obtain ⟨hlength, htokens⟩ := ih (s.step .exact isDurationExact t).2
    obtain ⟨hlength', htokens'⟩ := todo_step s t i
    rw [Mealy.outputs_cons, Mealy.final_cons, turnsOf_cons, tokensTo_cons]
    constructor
    · omega
    · omega

section Run

variable {capacity : UInt32} {rate : ℚ} {i : ι} {debt : ℕ} {s : Contention ι ℚ}

/-- **The iterations of a caller are paid for by its calls and by the tokens that others are granted.** -/
theorem Inv.iterations_le (hrate : 0 < rate) (h : Inv capacity rate i debt s) {turns : List (Turn ι)}
    (htimes : (s.bucket.lastRefill :: turns.map Turn.now).IsChain (· ≤ ·)) :
    turnsOf i Outcome.iterates (Mealy.outputs (step .exact isDurationExact) s turns) +
        owed ((Mealy.final (step .exact isDurationExact) s turns).caller i) ≤
      owed (s.caller i) + debt +
        tokensToOthers i (Mealy.outputs (step .exact isDurationExact) s turns) := by
  induction turns generalizing s debt with
  | nil =>
    have hnone : turnsOf i Outcome.iterates [] = 0 := rfl
    rw [Mealy.outputs_nil, Mealy.final_nil, hnone]
    omega
  | cons t turns ih =>
    obtain ⟨hnow, hrest⟩ := inTime_step htimes
    obtain ⟨debt', hinv, hpaid⟩ := h.turn hrate hnow
    have hlater := ih hinv hrest
    rw [Paid] at hpaid
    rw [Mealy.outputs_cons, Mealy.final_cons, turnsOf_cons, tokensToOthers_cons]
    omega

/-- A caller that has calls left makes an attempt in each turn in which it is awake. -/
theorem Inv.turnsOf_awake (hrate : 0 < rate) (h : Inv capacity rate i debt s) {turns : List (Turn ι)}
    (htimes : (s.bucket.lastRefill :: turns.map Turn.now).IsChain (· ≤ ·))
    (hleft : ((Mealy.final (step .exact isDurationExact) s turns).caller i).todo ≠ []) :
    turnsOf i (fun o => o ≠ .asleep) (Mealy.outputs (step .exact isDurationExact) s turns) =
      turnsOf i Outcome.iterates (Mealy.outputs (step .exact isDurationExact) s turns) := by
  induction turns generalizing s debt with
  | nil => rfl
  | cons t turns ih =>
    obtain ⟨hnow, hrest⟩ := inTime_step htimes
    obtain ⟨debt', hinv, -⟩ := h.turn hrate hnow
    have hlater := ih hinv hrest hleft
    rw [Mealy.outputs_cons, turnsOf_cons, turnsOf_cons i Outcome.iterates, hlater]
    congr 1
    by_cases hi : t.caller = i
    · rcases step_cases s t with (⟨hidle, hdone | hpanicked⟩ | hasleep) | ⟨next, rest, -, -, -, hstep⟩
      · -- it has no calls left now, so none at the end
        exfalso
        have hlength := (todo_run s (t :: turns) i).1
        rw [hi] at hdone
        rw [hdone] at hlength
        exact hleft (List.length_eq_zero_iff.mp (by simpa using (Nat.add_eq_zero_iff.mp hlength).2))
      · rw [hi] at hpanicked
        exact absurd hpanicked h.running
      · rw [hasleep]
        exact turnsOf_congr i t.caller rfl
      · rw [hstep]
        rcases call_cases s t.caller t.now next rest with
          ⟨outcome, hends, -, hcall⟩ | ⟨secs, -, -, -, -, hcall⟩
        · rw [hcall]
          apply turnsOf_congr
          cases outcome with
          | granted count => rfl
          | refused => rfl
          | _ => cases hends
        · rw [hcall]
          exact turnsOf_congr i t.caller rfl
    · have hother : (s.step .exact isDurationExact t).1.1 ≠ i := by
        rcases step_cases s t with (⟨hidle, -⟩ | hasleep) | ⟨next, rest, -, -, -, hstep⟩
        · rwa [hidle]
        · rwa [hasleep]
        · rwa [hstep]
      rw [← Prod.eta (s.step .exact isDurationExact t).1, turnsOf_other hother, turnsOf_other hother]

end Run

/-! ## Served in the end -/

/-- An attempt ends its call or is denied. -/
theorem turnsOf_iterates (i : ι) (outs : List (ι × Outcome)) :
    turnsOf i Outcome.iterates outs =
      turnsOf i Outcome.ends outs + turnsOf i (fun o => o = .denied) outs := by
  induction outs with
  | nil => rfl
  | cons o outs ih =>
    have hone : turnsOf i Outcome.iterates [o] =
        turnsOf i Outcome.ends [o] + turnsOf i (fun o => o = .denied) [o] := by
      obtain ⟨j, o⟩ := o
      by_cases hj : j = i
      · rw [hj, turnsOf_single, turnsOf_single, turnsOf_single]
        cases o <;> rfl
      · rw [turnsOf_other hj, turnsOf_other hj, turnsOf_other hj]
    rw [turnsOf_cons, turnsOf_cons i Outcome.ends, turnsOf_cons i fun o => o = .denied, ih, hone]
    omega

/-- What the others are granted is the sum over them. -/
theorem tokensToOthers_eq_sum [Fintype ι] (i : ι) (outs : List (ι × Outcome)) :
    tokensToOthers i outs = ∑ j ∈ Finset.univ.erase i, tokensTo j outs := by
  induction outs with
  | nil => exact (Finset.sum_const_zero).symm
  | cons o outs ih =>
    obtain ⟨k, o⟩ := o
    have hone : tokensToOthers i [(k, o)] = ∑ j ∈ Finset.univ.erase i, tokensTo j [(k, o)] := by
      by_cases hk : k = i
      · rw [hk, tokensToOthers_own, Finset.sum_eq_zero]
        intro j hj
        exact tokensTo_other (Finset.ne_of_mem_erase hj).symm o
      · rw [tokensToOthers_other hk,
          Finset.sum_eq_single_of_mem k (Finset.mem_erase.mpr ⟨hk, Finset.mem_univ k⟩), tokensTo_own]
        intro j _ hj
        exact tokensTo_other hj.symm o
    rw [tokensToOthers_cons, ih, hone, ← Finset.sum_add_distrib]
    exact Finset.sum_congr rfl fun j _ => (tokensTo_cons j _ outs).symm

/-- What the turns do, from a new bucket on, in the order of the schedule. -/
def outcomes (capacity : UInt32) (rate : ℚ) (created : ℕ) (calls : ι → List Call)
    (turns : List (Turn ι)) : List (ι × Outcome) :=
  Mealy.outputs (step .exact isDurationExact) (start .exact capacity rate created calls) turns

/-- What the caller `i` of a bucket can count on: a bound on how often it is denied, and one on the
turns after which all of its calls are made. -/
structure Contended [Fintype ι] (capacity : UInt32) (rate : ℚ) (created : ℕ) (calls : ι → List Call)
    (i : ι) (turns : List (Turn ι)) : Prop where
  /-- It is denied once for each of its calls, and once for each token that others are granted. -/
  overtaken : turnsOf i (fun o => o = .denied) (outcomes capacity rate created calls turns) ≤
    turnsOf i Outcome.ends (outcomes capacity rate created calls turns) + 1 +
      tokensToOthers i (outcomes capacity rate created calls turns)
  /-- With enough turns after its sleeps, it has made all of its calls. -/
  served : 2 * (calls i).length + ∑ j ∈ Finset.univ.erase i, tokensOf (calls j) ≤
      turnsOf i (fun o => o ≠ .asleep) (outcomes capacity rate created calls turns) →
    ((Mealy.final (step .exact isDurationExact) (start .exact capacity rate created calls)
      turns).caller i).todo = []

omit [DecidableEq ι] in
/-- On a new bucket every caller whose calls fit has the invariant, without debts. -/
theorem inv_start (capacity : UInt32) (rate : ℚ) (created : ℕ) {calls : ι → List Call} {i : ι}
    (hfits : ∀ c ∈ calls i, c.Fits capacity rate) :
    Inv capacity rate i 0 (start .exact capacity rate created calls) := by
  refine ⟨sound_new capacity rate created, hfits, fun h => ?_, ?_⟩
  · cases h
  · rintro _ _ _ _ ⟨⟩

/-- **Nobody starves at a bucket**: a caller whose calls fit is denied only once for each of its
calls and for each token that others get, and makes all of its calls if it has turns enough. -/
theorem contended [Fintype ι] (capacity : UInt32) {rate : ℚ} (hrate : 0 < rate) (created : ℕ)
    (calls : ι → List Call) (i : ι) (hfits : ∀ c ∈ calls i, c.Fits capacity rate)
    {turns : List (Turn ι)} (htimes : (created :: turns.map Turn.now).IsChain (· ≤ ·)) :
    Contended capacity rate created calls i turns := by
  have hinv := inv_start capacity rate created hfits
  have hiterations := hinv.iterations_le hrate htimes
  have hmine := (todo_run (start .exact capacity rate created calls) turns i).1
  have hstart : owed ((start .exact capacity rate created calls).caller i) = 2 * (calls i).length := rfl
  have hcalls : ((start .exact capacity rate created calls).caller i).todo = calls i := rfl
  rw [hstart] at hiterations
  rw [hcalls] at hmine
  have howed := two_mul_length_le ((Mealy.final (step .exact isDurationExact)
    (start .exact capacity rate created calls) turns).caller i)
  constructor
  · rw [turnsOf_iterates] at hiterations
    rw [outcomes]
    omega
  · intro henough
    by_contra hleft
    have hawake := hinv.turnsOf_awake hrate htimes hleft
    -- the others are granted no more than they ask for
    have hothers : tokensToOthers i (Mealy.outputs (step .exact isDurationExact)
        (start .exact capacity rate created calls) turns) ≤
        ∑ j ∈ Finset.univ.erase i, tokensOf (calls j) := by
      rw [tokensToOthers_eq_sum]
      refine Finset.sum_le_sum fun j _ => ?_
      exact (Nat.le_add_right _ _).trans (todo_run (start .exact capacity rate created calls) turns j).2
    have hpos := List.length_pos_iff.mpr hleft
    rw [outcomes, hawake] at henough
    omega

/-- One token a second, for which two callers compete. -/
def twoCallers (first : Bool) : List Call :=
  if first then [⟨.acquireIteration, 1⟩, ⟨.acquireIteration, 1⟩] else [⟨.acquireIteration, 1⟩]

/-- The second caller wakes up twice to find the token gone. -/
def overtakenTwice : List (Turn Bool) :=
  [⟨true, 0⟩, ⟨false, 0⟩, ⟨true, 0⟩, ⟨true, 1000000000⟩, ⟨false, 1000000000⟩, ⟨false, 2000000000⟩,
    ⟨false, 3000000000⟩]

/-- The first caller takes the token twice before the second one gets it; the bound is met. -/
theorem contended_overtakenTwice :
    outcomes 1 1 0 twoCallers overtakenTwice =
        [(true, .granted 1), (false, .denied), (true, .denied), (true, .granted 1), (false, .denied),
          (false, .granted 1), (false, .idle)] ∧
      Contended 1 1 0 twoCallers false overtakenTwice := by
  refine ⟨by decide +kernel, contended 1 (by norm_num) 0 twoCallers false ?_ (by decide)⟩
  intro c hc _
  obtain rfl : c = ⟨.acquireIteration, 1⟩ := List.mem_singleton.mp hc
  refine ⟨le_refl _, ?_⟩
  show ((1 : ℕ) : ℚ) < 2 ^ 64 * 1
  norm_num

end Contention

end Caminus.TokenBucketLimiter

import Caminus.Pipeline.Paced

/-!
# The engine under backpressure

The two tasks of `main` are callers of one limiter (`src/main.rs`): each acquires a token for an item
that it has read as leader. Together they handle no more than the limiter admits in any interval, and
neither of them starves: a task sleeps for two milliseconds at most, is denied again only if the other
one was admitted meanwhile, and with enough turns it is done (`paced`).
-/

namespace Caminus.Pipeline

open TokenBucketLimiter (isDurationExact)

namespace PacedEngine

variable {setup : Setup} {store : StateStore} {s s' : PacedEngine ℚ} {now : ℕ} {feed : Feed}

/-! ## The tasks at the limiter -/

open TokenBucketLimiter (Contention Call)

/-- The call of a task for each item: `acquire(1)` on the limiter that both tasks share. -/
def acquireOne : Call := ⟨.acquireIteration, 1⟩

/-- The tasks as callers of the limiter, with a call for each result of their streams. In this view
the engine is an instance of the contention for one bucket. -/
def contention (length : Feed → ℕ) (s : PacedEngine ℚ) : Contention Feed ℚ where
  bucket := s.rateLimiter
  caller feed :=
    ⟨List.replicate (length feed - count s.log feed .granted) acquireOne, (s.pace feed).waiting⟩

variable {length : Feed → ℕ} {actor : Engine.Actor} {event : PaceEvent}

/-- A turn that is no attempt leaves the callers where they are. -/
theorem contention_logged (hlimiter : s'.rateLimiter = s.rateLimiter) (hevent : event ≠ .granted)
    (hpace : ∀ g, (s'.pace g).waiting = (s.pace g).waiting) :
    (s.logged actor now event s').contention length = s.contention length := by
  simp only [contention, logged, hlimiter, hpace, count_concat, hevent, and_false, if_false,
    Nat.add_zero]

/-- An attempt changes the bucket and the caller of its task. -/
theorem contention_attempt {b : TokenBucketLimiter ℚ} {next : Pace ℚ} :
    (s.logged (.task feed) now event
      { s with rateLimiter := b, pace := Function.update s.pace feed next }).contention length =
      (s.contention length).set feed b
        ⟨List.replicate (length feed - count s.log feed .granted - if event = .granted then 1 else 0)
          acquireOne, next.waiting⟩ := by
  simp only [contention, logged, Contention.set, Contention.mk.injEq, true_and]
  funext g
  by_cases hg : g = feed
  · subst hg
    simp [count_concat, Nat.sub_add_eq]
  · have hother : Engine.Actor.task feed ≠ .task g := fun h => hg (Engine.Actor.task.inj h).symm
    simp [count_concat, hother, Function.update_of_ne hg]

/-- A task has made no more attempts than its results and the tokens of the other task pay for. The
debt is what the bucket still owes to a caller that sleeps. -/
def Contends (length : Feed → ℕ) (s : PacedEngine ℚ) (feed : Feed) : Prop :=
  ∃ debt, Contention.Inv 1000 500 feed debt (s.contention length) ∧
    count s.log feed .granted + count s.log feed .denied +
        Contention.owed ((s.contention length).caller feed) + debt ≤
      2 * length feed + count s.log feed.other .granted

/-- A turn that does not ask for a token, and neither puts a task to sleep nor wakes one, leaves the
accounts as they are. -/
theorem Contends.silent {i : Feed} (h : Contends length s i)
    (hlimiter : s'.rateLimiter = s.rateLimiter) (hgranted : event ≠ .granted)
    (hdenied : event ≠ .denied) (hpace : ∀ g, (s'.pace g).waiting = (s.pace g).waiting) :
    Contends length (s.logged actor now event s') i := by
  obtain ⟨debt, hinv, hpaid⟩ := h
  refine ⟨debt, ?_, ?_⟩
  · rw [contention_logged hlimiter hgranted hpace]
    exact hinv
  · rw [contention_logged hlimiter hgranted hpace]
    simpa [logged, count_concat, hgranted, hdenied] using hpaid

/-- An attempt is paid for: by the task's own result if it is granted, and by a token of the other
task if it is denied. -/
theorem Contends.attempt {i : Feed} (h : Contends length s i)
    (hnow : s.rateLimiter.lastRefill ≤ now) {rest : List Call} {o : Contention.Outcome}
    (hevent : (event = .granted ∧ o = .granted 1) ∨ (event = .denied ∧ o = .denied))
    (htodo : ((s.contention length).caller feed).todo = acquireOne :: rest)
    (hawake : ∀ wake, ((s.contention length).caller feed).waiting = .sleeping wake →
      wake ≤ secsAt now)
    (hcall : (s.contention length).call .exact isDurationExact feed now acquireOne rest =
      (o, (s.logged (.task feed) now event s').contention length)) :
    Contends length (s.logged (.task feed) now event s') i := by
  obtain ⟨debt, hinv, hpaid⟩ := h
  have hrate : (0 : ℚ) < 500 := by norm_num
  by_cases hi : feed = i
  · subst hi
    -- the task's own attempt
    obtain ⟨debt', hinv', hmore⟩ := hinv.call_self hrate hnow htodo hawake
    rw [hcall, Contention.Paid, Contention.tokensToOthers_own] at hmore
    rw [hcall] at hinv'
    refine ⟨debt', hinv', ?_⟩
    have hother : feed ≠ feed.other := Feed.ne_other feed
    rcases hevent with ⟨rfl, rfl⟩ | ⟨rfl, rfl⟩
    · rw [Contention.turnsOf_own feed rfl] at hmore
      simp [logged, count_concat, hother] at hmore ⊢
      omega
    · rw [Contention.turnsOf_own feed rfl] at hmore
      simp [logged, count_concat] at hmore ⊢
      omega
  -- an attempt of the other task, whose token may keep this one waiting
  · obtain ⟨debt', hinv', hmore⟩ := hinv.call_of_ne hrate hi hnow acquireOne rest
    rw [hcall, Contention.Paid, Contention.turnsOf_other hi, Contention.tokensToOthers_other hi]
      at hmore
    rw [hcall] at hinv'
    refine ⟨debt', hinv', ?_⟩
    obtain rfl := Feed.ne_iff_eq_other.mp hi
    rcases hevent with ⟨rfl, rfl⟩ | ⟨rfl, rfl⟩
    · simp [logged, count_concat, hi, Contention.Outcome.tokens] at hmore ⊢
      omega
    · simp [logged, count_concat, hi, Contention.Outcome.tokens] at hmore ⊢
      omega

/-- Every move keeps the accounts. Only the two outcomes of an attempt touch them. -/
theorem Contends.moves {i : Feed} (hinv : Engine.Inv setup store s.engine)
    (hpace : ∀ feed, InPace s feed) (hnow : s.rateLimiter.lastRefill ≤ now)
    (h : Contends (setup.length store) s i) (hmoves : Moves setup s now actor event s') :
    Contends (setup.length store) (s.logged actor now event s') i := by
  -- a change of pace that neither sleeps nor wakes is invisible to the limiter
  have hwaiting : ∀ {f : Feed} {next : Pace ℚ}, next.waiting = (s.pace f).waiting → ∀ g,
      (Function.update s.pace f next g).waiting = (s.pace g).waiting := by
    intro f next hnext g
    by_cases hg : g = f
    · subst hg
      rw [Function.update_self, hnext]
    · rw [Function.update_of_ne hg]
  have hawake : ∀ {f : Feed}, s.Ready f now → ∀ wake,
      ((s.contention (setup.length store)).caller f).waiting = .sleeping wake → wake ≤ secsAt now := by
    rintro f (hbeaten | ⟨wake', hsleeping, hle⟩) wake hw
    · simp [contention, hbeaten, Pace.waiting] at hw
    · simp only [contention, hsleeping, Pace.waiting, TokenBucketLimiter.Waiting.sleeping.injEq] at hw
      rwa [← hw]
  -- a task that may ask for a token has a result left to ask for, since its tokens are at most one
  -- ahead of its items
  have htodo : ∀ {f : Feed}, s.due f = true → s.Ready f now →
      ((s.contention (setup.length store)).caller f).todo = acquireOne :: List.replicate
        (setup.length store f - count s.log f .granted - 1) acquireOne := by
    intro f hdue hready
    have hlt := (hpace f).grants_lt hinv hdue hready
    rw [← List.replicate_succ]
    show List.replicate _ acquireOne = _
    congr 1
    omega
  cases hmoves with
  | loops => exact h.silent rfl (by decide) (by decide) fun _ => rfl
  | works f hdue => exact h.silent rfl (by decide) (by decide) fun _ => rfl
  | handles f hdue hadmitted =>
    exact h.silent rfl (by decide) (by decide) (hwaiting (by rw [hadmitted]; rfl))
  | beats f hdue hfresh =>
    exact h.silent rfl (by decide) (by decide) (hwaiting (by rw [hfresh]; rfl))
  | waits f hdue hasleep => exact h.silent rfl (by decide) (by decide) fun _ => rfl
  | grants f hdue hready b htake =>
    refine h.attempt hnow (Or.inl ⟨rfl, rfl⟩) (htodo hdue hready) (hawake hready) ?_
    have htake' : (s.contention (setup.length store)).bucket.acquireIteration .exact now 1 =
        (none, b) := htake
    rw [contention_attempt, Contention.call, acquireOne]
    simp only [htake']
    rfl
  | denies f hdue hready secs b hwait =>
    refine h.attempt hnow (Or.inr ⟨rfl, rfl⟩) (htodo hdue hready) (hawake hready) ?_
    have hwait' : (s.contention (setup.length store)).bucket.acquireIteration .exact now 1 =
        (some secs, b) := hwait
    have htodo' : List.replicate (setup.length store f - count s.log f .granted) acquireOne = _ :=
      htodo hdue hready
    rw [contention_attempt, if_neg (by decide), Nat.sub_zero, htodo', Contention.call, acquireOne]
    simp only [hwait']
    cases isDurationExact secs <;> rfl

/-! ## Sleeping -/

/-- The bucket is within its capacity and refills at its rate. -/
theorem Contends.sound (h : Contends length s feed) : TokenBucketLimiter.Sound 1000 500 s.rateLimiter := by
  obtain ⟨debt, hinv, -⟩ := h
  exact hinv.sound

/-- No task panics: one token comes in within two milliseconds, and so the time to sleep is a
`Duration`. -/
theorem Contends.running (h : Contends length s feed) : s.pace feed ≠ .panicked := by
  obtain ⟨debt, hinv, -⟩ := h
  intro hpanicked
  apply hinv.running
  show (s.pace feed).waiting = .panicked
  rw [hpanicked]
  rfl

/-- A task that sleeps wakes up within two milliseconds, since one token takes no longer to be
refilled. -/
def Wakes (s : PacedEngine ℚ) (feed : Feed) : Prop :=
  ∀ wake, s.pace feed = .sleeping wake → wake ≤ secsAt s.clock + 1 / 500

/-- A turn that puts no task to sleep keeps when the tasks wake up. -/
theorem Wakes.kept {i : Feed} (h : Wakes s i) (hnow : s.clock ≤ now)
    (hpace : ∀ wake, s'.pace i = .sleeping wake → s.pace i = .sleeping wake) :
    Wakes (s.logged actor now event s') i := by
  intro wake hwake
  exact (h wake (hpace wake hwake)).trans (add_le_add_left (TokenBucketLimiter.secsAt_mono hnow) _)

/-- A pace that is no sleep puts nobody to sleep. -/
theorem sleeping_of_update {f i : Feed} {next : Pace ℚ} (hnext : ∀ wake, next ≠ .sleeping wake)
    (wake : ℚ) (h : Function.update s.pace f next i = .sleeping wake) : s.pace i = .sleeping wake := by
  by_cases hi : i = f
  · rw [hi, Function.update_self] at h
    exact absurd h (hnext wake)
  · rwa [Function.update_of_ne hi] at h

/-- The sleep after a failed attempt is that in which at most one token comes in, at 500 tokens a
second. -/
theorem sleep_le {b : TokenBucketLimiter ℚ} (hsound : TokenBucketLimiter.Sound 1000 500 b)
    (hrefill : b.lastRefill ≤ now) {secs : ℚ} {b' : TokenBucketLimiter ℚ}
    (hwait : b.acquireIteration .exact now 1 = (some secs, b')) : secs ≤ 1 / 500 := by
  have hnonneg := (hsound.refill (by norm_num) hrefill).1.nonneg
  have hone : (UInt32.toNat 1 : ℚ) = 1 := Nat.cast_one
  rcases TokenBucketLimiter.acquireIteration_cases b now 1 with ⟨-, htake⟩ | ⟨-, hdeny⟩
  · rw [htake] at hwait
    cases hwait
  · rw [hdeny, Prod.mk.injEq, Option.some.injEq, hsound.rate, hone] at hwait
    rw [← hwait.1]
    apply max_le
    · linarith
    · norm_num

/-- Every move keeps the bound on the sleeps; only a denied attempt starts one. -/
theorem Wakes.moves {i : Feed} (hsound : TokenBucketLimiter.Sound 1000 500 s.rateLimiter)
    (hrefill : s.rateLimiter.lastRefill ≤ now) (hnow : s.clock ≤ now) (h : Wakes s i)
    (hmoves : Moves setup s now actor event s') : Wakes (s.logged actor now event s') i := by
  cases hmoves with
  | loops => exact h.kept hnow fun _ hwake => hwake
  | works f hdue => exact h.kept hnow fun _ hwake => hwake
  | waits f hdue hasleep => exact h.kept hnow fun _ hwake => hwake
  | handles f hdue hadmitted => exact h.kept hnow (sleeping_of_update (by simp))
  | beats f hdue hfresh => exact h.kept hnow (sleeping_of_update (by simp))
  | grants f hdue hready b htake => exact h.kept hnow (sleeping_of_update (by simp))
  | denies f hdue hready secs b hwait =>
    by_cases hi : i = f
    · subst hi
      intro wake hwake
      simp only [logged, Function.update_self] at hwake
      split_ifs at hwake with hduration
      cases hwake
      exact add_le_add_right (sleep_le hsound hrefill hwait) _
    · refine h.kept hnow fun wake hwake => ?_
      exact (Function.update_of_ne hi ..).symm.trans hwake

/-! ## What the limiter admits -/

/-- The attempts of the tasks on the limiter, with the tokens they were granted. -/
def attempts (log : List PaceEntry) : List (TokenBucketLimiter.Attempt × ℕ) :=
  log.filterMap fun e =>
    match e.event with
    | .granted => some (⟨.acquireIteration, e.now, 1⟩, 1)
    | .denied => some (⟨.acquireIteration, e.now, 1⟩, 0)
    | _ => none

/-- The limiter is where the attempts have taken it, and these were made in the order of time. -/
structure Limits (created : ℕ) (s : PacedEngine ℚ) : Prop where
  answers : Mealy.outputs (TokenBucketLimiter.attempt .exact) (.new .exact 1000 500 created)
    ((attempts s.log).map Prod.fst) = (attempts s.log).map Prod.snd
  limiter : Mealy.final (TokenBucketLimiter.attempt .exact) (.new .exact 1000 500 created)
    ((attempts s.log).map Prod.fst) = s.rateLimiter
  inTime : (created :: (attempts s.log).map fun a => a.1.now).Pairwise (· ≤ ·)
  past : ∀ t ∈ created :: (attempts s.log).map fun a => a.1.now, t ≤ s.clock
  clock : s.rateLimiter.lastRefill ≤ s.clock

variable {created : ℕ}

/-- A turn without an attempt does not touch the limiter, so its attempts are those logged before. -/
theorem Limits.silent (h : Limits created s) (hlimiter : s'.rateLimiter = s.rateLimiter)
    (hgranted : event ≠ .granted) (hdenied : event ≠ .denied) (hnow : s.clock ≤ now) :
    Limits created (s.logged actor now event s') := by
  have hattempts : attempts (s.log ++ [⟨actor, now, event⟩]) = attempts s.log := by
    rw [attempts, List.filterMap_append]
    cases event with
    | granted => exact absurd rfl hgranted
    | denied => exact absurd rfl hdenied
    | _ => exact List.append_nil _
  refine ⟨?_, ?_, ?_, ?_, ?_⟩
  · rw [logged, hattempts]
    exact h.answers
  · rw [logged, hattempts, hlimiter]
    exact h.limiter
  · rw [logged, hattempts]
    exact h.inTime
  · rw [logged, hattempts]
    exact fun t ht => (h.past t ht).trans hnow
  · rw [logged, hlimiter]
    exact h.clock.trans hnow

/-- A turn with an attempt is one more call of the limiter, at the time of the turn. -/
theorem Limits.attempt (h : Limits created s) {tokens : ℕ} {b : TokenBucketLimiter ℚ}
    (hevent : (event = .granted ∧ tokens = 1) ∨ (event = .denied ∧ tokens = 0))
    (hattempt : s.rateLimiter.attempt .exact ⟨.acquireIteration, now, 1⟩ = (tokens, b))
    (hlimiter : s'.rateLimiter = b) (hnow : s.clock ≤ now) :
    Limits created (s.logged actor now event s') := by
  have hattempts : attempts (s.log ++ [⟨actor, now, event⟩]) =
      attempts s.log ++ [(⟨.acquireIteration, now, 1⟩, tokens)] := by
    rw [attempts, List.filterMap_append]
    rcases hevent with ⟨rfl, rfl⟩ | ⟨rfl, rfl⟩ <;> rfl
  refine ⟨?_, ?_, ?_, ?_, ?_⟩
  · rw [logged, hattempts, List.map_append, List.map_append, Mealy.outputs_append, h.answers, h.limiter]
    simp [hattempt]
  · rw [logged, hattempts, List.map_append, List.map_singleton, Mealy.final_concat, h.limiter, hattempt,
      hlimiter]
  · rw [logged, hattempts, List.map_append, ← List.cons_append, List.pairwise_append]
    refine ⟨h.inTime, List.pairwise_singleton _ _, fun t ht t' ht' => ?_⟩
    rw [List.mem_singleton.mp ht']
    exact (h.past t ht).trans hnow
  · rw [logged, hattempts, List.map_append, ← List.cons_append]
    intro t ht
    rcases List.mem_append.mp ht with ht | ht
    · exact (h.past t ht).trans hnow
    · rw [List.mem_singleton.mp ht]
  · have hrefilled := TokenBucketLimiter.lastRefill_attempt s.rateLimiter ⟨.acquireIteration, now, 1⟩
    rw [hattempt] at hrefilled
    rw [logged, hlimiter, hrefilled]

/-- Every move keeps the limiter in step with the log, in which each attempt is one entry. -/
theorem Limits.moves (h : Limits created s) (hnow : s.clock ≤ now)
    (hmoves : Moves setup s now actor event s') : Limits created (s.logged actor now event s') := by
  cases hmoves with
  | loops => exact h.silent rfl (by decide) (by decide) hnow
  | works f hdue => exact h.silent rfl (by decide) (by decide) hnow
  | handles f hdue hadmitted => exact h.silent rfl (by decide) (by decide) hnow
  | beats f hdue hfresh => exact h.silent rfl (by decide) (by decide) hnow
  | waits f hdue hasleep => exact h.silent rfl (by decide) (by decide) hnow
  | grants f hdue hready b htake =>
    refine h.attempt (Or.inl ⟨rfl, rfl⟩) ?_ rfl hnow
    simp only [TokenBucketLimiter.attempt, htake]
    rfl
  | denies f hdue hready secs b hwait =>
    refine h.attempt (Or.inr ⟨rfl, rfl⟩) ?_ rfl hnow
    simp only [TokenBucketLimiter.attempt, hwait]
    rfl

/-- The items that were admitted between two times, which the limiter is there to bound. -/
def admissions (t₁ t₂ : ℚ) (log : List PaceEntry) : ℕ :=
  log.countP fun e => e.event = .granted ∧ t₁ ≤ secsAt e.now ∧ secsAt e.now ≤ t₂

/-- The items admitted between two times are the tokens granted between them, as each item takes
one. -/
theorem admissions_eq_sum (t₁ t₂ : ℚ) (log : List PaceEntry) :
    (admissions t₁ t₂ log : ℚ) =
      (((attempts log).filter fun a => t₁ ≤ secsAt a.1.now ∧ secsAt a.1.now ≤ t₂).map
        fun a => (a.2 : ℚ)).sum := by
  induction log with
  | nil => rfl
  | cons e log ih =>
    obtain ⟨actor, now, event⟩ := e
    by_cases hin : t₁ ≤ secsAt now ∧ secsAt now ≤ t₂
    · cases event <;> simp_all [admissions, attempts, add_comm]
    · cases event <;> simp_all [admissions, attempts]

/-- **No interval admits more than the limiter allows**: its capacity, and what is refilled within
the interval. -/
theorem Limits.admissions_le (h : Limits created s) {t₁ t₂ : ℚ} (ht : t₁ ≤ t₂) :
    (admissions t₁ t₂ s.log : ℚ) ≤ 1000 + 500 * (t₂ - t₁) := by
  have htimes : (created :: ((attempts s.log).map Prod.fst).map TokenBucketLimiter.Attempt.now).IsChain
      (· ≤ ·) := by
    rw [List.map_map]
    exact h.inTime.isChain
  have hbound := (TokenBucketLimiter.metered 1000 (by norm_num)).windowCost_le ht
    (TokenBucketLimiter.sound_new 1000 500 created) (TokenBucketLimiter.inTime_of_isChain htimes)
  rw [Mealy.windowCost_eq_sum, h.answers, List.zip_map'] at hbound
  rw [admissions_eq_sum]
  simpa using hbound

/-! ## Heartbeats -/

/-- The instant of the last heartbeat, at first that of the start. -/
def lastBeat (created : ℕ) (log : List PaceEntry) : ℕ :=
  ((log.filter fun e => e.event = .beat).getLast?.map PaceEntry.now).getD created

/-- A longer log has its own last heartbeat if its last entry is one. -/
theorem lastBeat_concat (created : ℕ) (log : List PaceEntry) (e : PaceEntry) :
    lastBeat created (log ++ [e]) = if e.event = .beat then e.now else lastBeat created log := by
  by_cases he : e.event = .beat <;> simp [lastBeat, List.filter_append, he]

/-- The controller knows the last heartbeat, and nobody has claimed its lease. -/
def Beats (created : ℕ) (s : PacedEngine ℚ) : Prop :=
  s.failoverController = (FailoverController.new 1 1000 created).recordHeartbeat (lastBeat created s.log)

/-- Every move keeps the controller in step with the heartbeats of the log. -/
theorem Beats.moves (h : Beats created s) (hmoves : Moves setup s now actor event s') :
    Beats created (s.logged actor now event s') := by
  rw [Beats] at h ⊢
  cases hmoves with
  | beats f hdue hfresh => simp [logged, lastBeat_concat, h, FailoverController.recordHeartbeat]
  | _ => simpa [logged, lastBeat_concat] using h

/-- A standby that checks now claims the lease exactly if more than two seconds have passed since
the last heartbeat. -/
theorem Beats.check (h : Beats created s) (now : ℕ) :
    (s.failoverController.checkAndClaimLease now).1 = true ↔
      lastBeat created s.log + 2000000000 < now := by
  have hmillis : UInt64.toNat 1000 = 1000 := rfl
  rw [h]
  simp only [FailoverController.checkAndClaimLease, FailoverController.claim,
    FailoverController.recordHeartbeat, FailoverController.new, hmillis]
  split_ifs with hlate
  · exact iff_of_true rfl (by omega)
  · exact iff_of_false not_false (by omega)

/-! ## Every run -/

/-- What holds in every state of a run: the engine within, the pace of each task, its place in the
contention, its sleep, the limiter and the controller. -/
structure Inv (setup : Setup) (store : StateStore) (created : ℕ) (s : PacedEngine ℚ) : Prop where
  refines : Refines setup store s
  pace : ∀ feed, InPace s feed
  contends : ∀ feed, Contends (setup.length store) s feed
  wakes : ∀ feed, Wakes s feed
  limits : Limits created s
  beats : Beats created s

/-- Every move keeps the invariant, part by part; each part has its own lemma above. -/
theorem Inv.moves (h : Inv setup store created s) (hnow : s.clock ≤ now)
    (hmoves : Moves setup s now actor event s') :
    Inv setup store created (s.logged actor now event s') where
  refines := h.refines.moves hmoves
  pace feed := (h.pace feed).moves h.refines.inv hmoves
  contends feed :=
    (h.contends feed).moves h.refines.inv h.pace (h.limits.clock.trans hnow) hmoves
  wakes feed :=
    (h.wakes feed).moves (h.contends feed).sound (h.limits.clock.trans hnow) hnow hmoves
  limits := h.limits.moves hnow hmoves
  beats := h.beats.moves hmoves

/-- The limiter of `main` holds 1000 tokens and refills 500 a second. -/
theorem start_rateLimiter (setup : Setup) (store : StateStore) (created : ℕ) :
    (start .exact setup store created).rateLimiter = .new .exact 1000 500 created := by
  have hrate : BucketArith.exact.ofU32 500 = (500 : ℚ) := by
    show ((500 : ℕ) : ℚ) = 500
    norm_num
  rw [start, hrate]

/-- A call for one token can be met by the limiter of `main`. -/
theorem fits_acquireOne : acquireOne.Fits 1000 500 := by
  intro _
  refine ⟨by decide, ?_⟩
  show ((1 : ℕ) : ℚ) < 2 ^ 64 * 500
  norm_num

/-- At the start every task has a call for each result, and none is paid yet. -/
theorem contends_start (setup : Setup) (store : StateStore) (created : ℕ) (length : Feed → ℕ)
    (feed : Feed) : Contends length (start .exact setup store created) feed := by
  have hstart : (start .exact setup store created).contention length =
      Contention.start .exact 1000 500 created fun feed => List.replicate (length feed) acquireOne := by
    rw [contention, start_rateLimiter]
    rfl
  refine ⟨0, ?_, ?_⟩
  · rw [hstart]
    apply Contention.inv_start
    intro c hc
    rw [List.eq_of_mem_replicate hc]
    exact fits_acquireOne
  · rw [hstart]
    show 0 + 0 + 2 * (List.replicate (length feed) acquireOne).length + 0 ≤ 2 * length feed + 0
    rw [List.length_replicate]
    omega

/-- The invariant holds at the start. -/
theorem inv_start (setup : Setup) (store : StateStore) (created : ℕ) :
    Inv setup store created (start .exact setup store created) where
  refines := rfl
  pace feed := ⟨fun h => absurd rfl h, rfl, rfl⟩
  contends := contends_start setup store created _
  wakes feed := fun wake hwake => by cases hwake
  limits := by
    refine ⟨rfl, (start_rateLimiter setup store created).symm, List.pairwise_singleton _ _, ?_, ?_⟩
    · intro t ht
      exact le_of_eq (List.mem_singleton.mp ht)
    · exact le_refl created
  beats := rfl

/-- The invariant holds after every schedule, by induction from `Inv.step`. -/
theorem inv_run (setup : Setup) (store : StateStore) (created : ℕ) (ticks : List Tick) :
    Inv setup store created
      ((start .exact setup store created).run .exact isDurationExact setup ticks) :=
  run_invariant_of_moves (fun h hnow hmoves => h.moves hnow hmoves) (inv_start setup store created) ticks

/-- Each turn is logged, under its actor, so that the log can be counted instead of the schedule. -/
theorem actors_run (s : PacedEngine ℚ) (ticks : List Tick) :
    (s.run .exact isDurationExact setup ticks).log.map PaceEntry.actor =
      s.log.map PaceEntry.actor ++ ticks.map Tick.actor := by
  induction ticks generalizing s with
  | nil => exact (List.append_nil _).symm
  | cons t ticks ih =>
    have hlog : (s.step .exact isDurationExact setup t).log.map PaceEntry.actor =
        s.log.map PaceEntry.actor ++ [t.actor] := List.map_append
    rw [run, Interleave.run_cons, ih, hlog, List.append_assoc]
    rfl

/-- The turns in which a task does not sleep: those that it can make use of. -/
def awake (log : List PaceEntry) (feed : Feed) : ℕ :=
  log.countP fun e => e.actor = .task feed ∧ e.event ≠ .waited

/-- A turn in which a task is awake is one of four kinds: a step of the engine, a heartbeat, a token
or a denial. -/
theorem awake_eq (log : List PaceEntry) (feed : Feed) :
    awake log feed = count log feed .worked + count log feed .beat + count log feed .granted +
      count log feed .denied := by
  induction log with
  | nil => rfl
  | cons e log ih =>
    obtain ⟨actor, now, event⟩ := e
    simp only [awake, count, List.countP_cons] at ih ⊢
    rw [ih]
    by_cases hactor : actor = .task feed
    · cases event <;> simp [hactor] <;> omega
    · simp [hactor]

/-- The turns of a task that come two milliseconds after the turn before. -/
def rested (ticks : List Tick) (feed : Feed) : ℕ :=
  ticks.countP fun t => t.actor = .task feed ∧ 2000000 ≤ t.pause

/-- A task only waits for two milliseconds: a turn after such a pause is not spent asleep. -/
theorem Inv.awake_of_rested (h : Inv setup store created s) {pause : ℕ} (hpause : 2000000 ≤ pause)
    (hmoves : Moves setup s (s.clock + pause) (.task feed) event s') : event ≠ .waited := by
  cases hmoves with
  | waits _ hdue hasleep =>
    rcases hasleep with hpanicked | ⟨wake, hsleeping, hearly⟩
    · exact absurd hpanicked (h.contends feed).running
    · have hwake := h.wakes feed wake hsleeping
      have hlater : secsAt s.clock + 1 / 500 ≤ secsAt (s.clock + pause) := by
        have hcast : (2000000 : ℚ) ≤ pause := by exact_mod_cast hpause
        rw [secsAt, secsAt, Nat.cast_add, add_div]
        linarith
      exact absurd hearly (not_lt_of_ge (hwake.trans hlater))
  | _ => simp

/-- A turn that comes after such a pause adds to the turns awake. -/
theorem Inv.awake_step (h : Inv setup store created s) (t : Tick) (feed : Feed) :
    awake s.log feed + rested [t] feed ≤ awake (s.step .exact isDurationExact setup t).log feed := by
  have hmoves := moves_actorTurn setup s t.actor (s.clock + t.pause)
  show _ ≤ awake (s.log ++ [_]) feed
  rw [awake, awake, rested, List.countP_append, List.countP_singleton, List.countP_singleton]
  apply Nat.add_le_add_left
  by_cases hrested : t.actor = .task feed ∧ 2000000 ≤ t.pause
  · obtain ⟨hactor, hpause⟩ := hrested
    rw [hactor] at hmoves
    have hawake := h.awake_of_rested hpause hmoves
    rw [hactor, if_pos (decide_eq_true ⟨rfl, hpause⟩), if_pos (decide_eq_true ⟨rfl, hawake⟩)]
  · rw [if_neg (by simpa using hrested)]
    exact Nat.zero_le _

/-- The turns that come after such a pause are no more than those in which the task is awake. -/
theorem rested_le_awake (setup : Setup) (store : StateStore) (created : ℕ) (ticks : List Tick)
    (feed : Feed) : rested ticks feed ≤
      awake ((start .exact setup store created).run .exact isDurationExact setup ticks).log feed := by
  induction ticks using List.reverseRecOn with
  | nil => exact Nat.zero_le _
  | append_singleton ticks t ih =>
    have hstep := (inv_run setup store created ticks).awake_step t feed
    rw [run, Interleave.run_concat]
    refine le_trans ?_ hstep
    rw [rested, List.countP_append]
    exact Nat.add_le_add_right ih _

/-- What holds of every run of the engine with its heartbeat and its limiter. -/
structure Paced (setup : Setup) (store : StateStore) (created : ℕ) (ticks : List Tick)
    (s : PacedEngine ℚ) : Prop where
  /-- The engine does nothing but what it does without them, in some of the turns. -/
  refines : ∃ sched, sched.Sublist (ticks.map Tick.actor) ∧
    s.engine = (Engine.start setup store).run setup sched
  /-- A task has beaten and been admitted once for each item that it has handled as leader, and at most
  once more. -/
  beats : ∀ feed, ledItems (s.engine.crew.worker feed) ≤ count s.log feed .beat ∧
    count s.log feed .beat ≤ ledItems (s.engine.crew.worker feed) + 1
  admitted : ∀ feed, ledItems (s.engine.crew.worker feed) ≤ count s.log feed .granted ∧
    count s.log feed .granted ≤ ledItems (s.engine.crew.worker feed) + 1
  /-- Both tasks together are admitted at the rate of the limiter. -/
  throughput : ∀ t₁ t₂, t₁ ≤ t₂ → (admissions t₁ t₂ s.log : ℚ) ≤ 1000 + 500 * (t₂ - t₁)
  /-- The lease can be claimed two seconds after the last heartbeat, and not before. -/
  lease : ∀ now, (s.failoverController.checkAndClaimLease now).1 = true ↔
    lastBeat created s.log + 2000000000 < now
  /-- No task panics, and a task only waits for two milliseconds. -/
  running : ∀ feed, s.pace feed ≠ .panicked
  awake : ∀ feed, rested ticks feed ≤ PacedEngine.awake s.log feed
  /-- A task that is awake for enough turns is done. -/
  done : ∀ feed, 1 + 5 * setup.length store feed + setup.length store feed.other +
      (trace setup.env (startup setup.env.serde store) (s.engine.handled feed) feed).length ≤
        PacedEngine.awake s.log feed →
    Engine.Done setup store feed s.engine

/-- A task with enough steps of the engine is done. -/
theorem Refines.done (h : Refines setup store s)
    (hworked : 1 + 2 * setup.length store feed +
      (trace setup.env (startup setup.env.serde store) (s.engine.handled feed) feed).length ≤
        count s.log feed .worked) : Engine.Done setup store feed s.engine := by
  rw [Refines] at h
  rw [h] at hworked ⊢
  apply Engine.done_of_count
  rw [count_worked]
  exact hworked

/-- Enough turns awake are enough steps of the engine: heartbeats, tokens and denials together take
no more than `3 n + m` of them, `n` and `m` being the results of the task and of the other one. -/
theorem Inv.done (h : Inv setup store created s)
    (henough : 1 + 5 * setup.length store feed + setup.length store feed.other +
      (trace setup.env (startup setup.env.serde store) (s.engine.handled feed) feed).length ≤
        awake s.log feed) : Engine.Done setup store feed s.engine := by
  obtain ⟨debt, -, hpaid⟩ := h.contends feed
  have hbeats := (h.pace feed).beats_le h.refines.inv
  have hothers := (h.pace feed.other).grants_le h.refines.inv
  rw [awake_eq] at henough
  apply h.refines.done
  omega

/-- **Heartbeats and backpressure only slow the engine down**: not below what it needs to get done.
All parts are read off the one invariant of the run. -/
theorem paced (setup : Setup) (store : StateStore) (created : ℕ) (ticks : List Tick) :
    Paced setup store created ticks
      ((start .exact setup store created).run .exact isDurationExact setup ticks) := by
  have h := inv_run setup store created ticks
  refine ⟨⟨_, ?_, h.refines⟩, fun feed => ?_, fun feed => ?_, fun t₁ t₂ => h.limits.admissions_le,
    h.beats.check, fun feed => (h.contends feed).running, rested_le_awake setup store created ticks,
    fun feed => h.done⟩
  · have hactors := @actors_run setup (start .exact setup store created) ticks
    rw [start, List.map_nil, List.nil_append] at hactors
    rw [← hactors]
    exact List.filter_sublist.map _
  · rw [(h.pace feed).beats]
    exact ⟨Nat.le_add_right _ _, Nat.add_le_add_left (Pace.beatsAhead_le _) _⟩
  · rw [(h.pace feed).grants]
    exact ⟨Nat.le_add_right _ _, Nat.add_le_add_left (Pace.grantsAhead_le _) _⟩

end PacedEngine

end Caminus.Pipeline

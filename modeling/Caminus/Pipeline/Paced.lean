import Caminus.Consensus.Failover
import Caminus.Pipeline.EngineProgress
import Caminus.Resiliency.Contention

/-!
# The engine with its heartbeat and its rate limiter

A task of `main` that has read an item as leader records a heartbeat and acquires a token of the
limiter that it shares with the other task, before it handles the item (`src/main.rs`). Both take turns
of their own, and `acquire` sleeps while there are too few tokens. None of this changes what the engine
does: each state of the paced engine is one that `Engine` reaches with some of the turns (`Refines`),
and each item is handled after one heartbeat and with one token (`InPace`).
-/

namespace Caminus.Pipeline

open TokenBucketLimiter (isDurationExact)

/-- Where a task stands with the item that it has read as leader: untouched, past its heartbeat,
asleep in `acquire`, past `acquire`, or ended by a panic of the sleep. -/
inductive Pace (F : Type)
  | fresh
  | beaten
  | sleeping (wake : F)
  | panicked
  | admitted

/-- The heartbeats of a task are one ahead of its items from the heartbeat on. -/
def Pace.beatsAhead {F : Type} : Pace F → ℕ
  | .fresh => 0
  | _ => 1

/-- The tokens of a task are one ahead of its items from the grant on. -/
def Pace.grantsAhead {F : Type} : Pace F → ℕ
  | .admitted => 1
  | _ => 0

/-- A task is at most one heartbeat ahead of the items that it has handled. -/
theorem Pace.beatsAhead_le {F : Type} (p : Pace F) : p.beatsAhead ≤ 1 := by
  cases p with
  | fresh => exact Nat.zero_le 1
  | _ => exact le_refl 1

/-- A task is at most one token ahead of the items that it has handled. -/
theorem Pace.grantsAhead_le {F : Type} (p : Pace F) : p.grantsAhead ≤ 1 := by
  cases p with
  | admitted => exact le_refl 1
  | _ => exact Nat.zero_le 1

/-- The part of the pace that the analysis of `acquire` knows: a caller sleeps, has panicked or
runs. -/
def Pace.waiting {F : Type} : Pace F → TokenBucketLimiter.Waiting F
  | .sleeping wake => .sleeping wake
  | .panicked => .panicked
  | _ => .running

/-- The task that a task shares the limiter with; there is one for each of the two sources. -/
def Feed.other : Feed → Feed
  | .postgres => .cassandra
  | .cassandra => .postgres

/-- There are two tasks only, so that one that is not `g` is the other. -/
theorem Feed.ne_iff_eq_other {f g : Feed} : f ≠ g ↔ f = g.other := by
  cases f <;> cases g <;> decide

/-- No task is its own competitor. -/
theorem Feed.ne_other (f : Feed) : f ≠ f.other := by
  cases f <;> decide

/-- What a turn does: the effects that the results count, with `worked` for a step of the engine. -/
inductive PaceEvent
  /-- A step of the engine. -/
  | worked
  | beat
  | granted
  | denied
  /-- Nothing: the task sleeps, or has panicked. -/
  | waited
deriving DecidableEq

/-- A line of the log: who took the turn, at which time, and what it did. -/
structure PaceEntry where
  actor : Engine.Actor
  now : ℕ
  event : PaceEvent

/-- The engine with the limiter and the failover controller of its tasks, the present, and what has
happened so far. -/
structure PacedEngine (F : Type) where
  engine : Engine
  rateLimiter : TokenBucketLimiter F
  failoverController : FailoverController
  pace : Feed → Pace F
  clock : ℕ
  log : List PaceEntry

/-- A worker has read an item as leader, and its calls are made. -/
def isDue {σ : Type} (w : Worker σ Item Effect) : Bool :=
  match w.pending, w.current with
  | [], some item => item.isLeader
  | _, _ => false

/-- The items that a worker has handled as leader: those that cost it a heartbeat and a token. -/
def ledItems {σ : Type} (w : Worker σ Item Effect) : ℕ := w.handled.countP Item.isLeader

/-- The number of results that a source yields. -/
def Setup.length (setup : Setup) (store : StateStore) (feed : Feed) : ℕ :=
  (setup.stream feed (lastOffset store feed.sourceId)).length

/-- No more is handled, or about to be handled, than was read, and no more is read than the source
yields. -/
theorem Engine.Inv.ledItems_le {setup : Setup} {store : StateStore} {e : Engine}
    (h : Engine.Inv setup store e) (feed : Feed) :
    ledItems (e.crew.worker feed) + (if isDue (e.crew.worker feed) then 1 else 0) ≤
      setup.length store feed := by
  have hled : ledItems (e.crew.worker feed) ≤ (e.crew.worker feed).handled.length :=
    List.countP_le_length
  -- at most one item is between reading and handling
  have hdue : (if isDue (e.crew.worker feed) then 1 else 0) ≤
      (e.crew.worker feed).current.toList.length := by
    unfold isDue
    split
    · rename_i hcurrent
      rw [hcurrent]
      split_ifs <;> simp
    · simp
  -- what was read and what is still to come make up the source's results
  have hseen : (e.seen feed).length ≤ setup.length store feed := by
    cases hopen : e.upcoming feed with
    | none =>
      rw [h.unopened feed hopen]
      exact Nat.zero_le _
    | some rest =>
      have hread := congrArg List.length (h.read feed rest hopen)
      rw [List.length_append, List.length_map] at hread
      exact Nat.le.intro hread
  rw [Engine.seen, Worker.seen, List.length_append] at hseen
  omega

namespace PacedEngine

/-- An actor is scheduled some time after the turn before. -/
structure Tick where
  actor : Engine.Actor
  pause : ℕ

section Steps

variable {F : Type} (arith : BucketArith F) (isDuration : F → Bool) (setup : Setup)

/-- The engine at its start, with the parameters of `main`: 1000 tokens, 500 of them a second, and a
lease of one second. -/
def start (store : StateStore) (created : ℕ) : PacedEngine F where
  engine := .start setup store
  rateLimiter := .new arith 1000 (arith.ofU32 500) created
  failoverController := .new 1 1000 created
  pace := fun _ => .fresh
  clock := created
  log := []

/-- The task has read an item as leader and not handled it, so it owes a heartbeat and a token
first. -/
def due (s : PacedEngine F) (feed : Feed) : Bool := isDue (s.engine.crew.worker feed)

/-- An iteration of `acquire(1)`: the token is taken, or the task sleeps until enough are refilled,
or the time to sleep is no duration and the task panics. -/
def attempt (s : PacedEngine F) (feed : Feed) (now : ℕ) : PaceEvent × PacedEngine F :=
  match s.rateLimiter.acquireIteration arith now 1 with
  | (none, b) =>
      (.granted, { s with rateLimiter := b, pace := Function.update s.pace feed .admitted })
  | (some secs, b) =>
      (.denied, { s with
        rateLimiter := b
        pace := Function.update s.pace feed
          (if isDuration secs then .sleeping (arith.add (arith.asSecs now) secs) else .panicked) })

/-- A turn of a source task. As long as no item is due it works as the engine does; with an item due
it records its heartbeat, then acquires its token, and only then handles the item. -/
def taskTurn (s : PacedEngine F) (feed : Feed) (now : ℕ) : PaceEvent × PacedEngine F :=
  if s.due feed then
    match s.pace feed with
    | .fresh =>
        (.beat, { s with
          failoverController := s.failoverController.recordHeartbeat now
          pace := Function.update s.pace feed .beaten })
    | .beaten => s.attempt arith isDuration feed now
    | .sleeping wake =>
        if arith.ge (arith.asSecs now) wake then s.attempt arith isDuration feed now
        else (.waited, s)
    | .panicked => (.waited, s)
    | .admitted =>
        (.worked, { s with
          engine := s.engine.taskStep setup feed
          pace := Function.update s.pace feed .fresh })
  else (.worked, { s with engine := s.engine.taskStep setup feed })

/-- A turn of an actor. The election loop is not paced: its steps are those of the engine. -/
def actorTurn (s : PacedEngine F) (actor : Engine.Actor) (now : ℕ) : PaceEvent × PacedEngine F :=
  match actor with
  | .electionLoop => (.worked, { s with engine := s.engine.step setup .electionLoop })
  | .task feed => s.taskTurn arith isDuration setup feed now

/-- The turn is over: the clock stands at its time and the log has its entry. -/
def logged (s : PacedEngine F) (actor : Engine.Actor) (now : ℕ) (event : PaceEvent)
    (next : PacedEngine F) : PacedEngine F :=
  { next with clock := now, log := s.log ++ [⟨actor, now, event⟩] }

/-- The scheduled actor takes its turn after the pause. -/
def step (t : Tick) (s : PacedEngine F) : PacedEngine F :=
  let now := s.clock + t.pause
  let (event, next) := s.actorTurn arith isDuration setup t.actor now
  s.logged t.actor now event next

/-- The actors take their turns in the order, and after the pauses, of the schedule. -/
abbrev run (s : PacedEngine F) (ticks : List Tick) : PacedEngine F :=
  Interleave.run (step arith isDuration setup) s ticks

end Steps

/-! ## What a turn can do -/

variable {setup : Setup} {s s' : PacedEngine ℚ} {now : ℕ}

/-- The task may try to acquire its token: its heartbeat is recorded, or its sleep is over. -/
def Ready (s : PacedEngine ℚ) (feed : Feed) (now : ℕ) : Prop :=
  s.pace feed = .beaten ∨ ∃ wake, s.pace feed = .sleeping wake ∧ wake ≤ secsAt now

/-- What a turn can do, but for the clock and the log: one constructor for each branch of the loop
head, with the condition under which the branch is taken. -/
inductive Moves (setup : Setup) (s : PacedEngine ℚ) (now : ℕ) :
    Engine.Actor → PaceEvent → PacedEngine ℚ → Prop
  | loops : Moves setup s now .electionLoop .worked
      { s with engine := s.engine.step setup .electionLoop }
  | works (feed : Feed) (hdue : s.due feed = false) : Moves setup s now (.task feed) .worked
      { s with engine := s.engine.step setup (.task feed) }
  | handles (feed : Feed) (hdue : s.due feed = true) (hpace : s.pace feed = .admitted) :
      Moves setup s now (.task feed) .worked
        { s with
          engine := s.engine.step setup (.task feed)
          pace := Function.update s.pace feed .fresh }
  | beats (feed : Feed) (hdue : s.due feed = true) (hpace : s.pace feed = .fresh) :
      Moves setup s now (.task feed) .beat
        { s with
          failoverController := s.failoverController.recordHeartbeat now
          pace := Function.update s.pace feed .beaten }
  | waits (feed : Feed) (hdue : s.due feed = true)
      (hasleep : s.pace feed = .panicked ∨ ∃ wake, s.pace feed = .sleeping wake ∧ secsAt now < wake) :
      Moves setup s now (.task feed) .waited s
  | grants (feed : Feed) (hdue : s.due feed = true) (hready : s.Ready feed now)
      (b : TokenBucketLimiter ℚ) (htake : s.rateLimiter.acquireIteration .exact now 1 = (none, b)) :
      Moves setup s now (.task feed) .granted
        { s with rateLimiter := b, pace := Function.update s.pace feed .admitted }
  | denies (feed : Feed) (hdue : s.due feed = true) (hready : s.Ready feed now) (secs : ℚ)
      (b : TokenBucketLimiter ℚ)
      (hwait : s.rateLimiter.acquireIteration .exact now 1 = (some secs, b)) :
      Moves setup s now (.task feed) .denied
        { s with
          rateLimiter := b
          pace := Function.update s.pace feed
            (if isDurationExact secs then .sleeping (secsAt now + secs) else .panicked) }

/-- An iteration of `acquire(1)` either takes the token or goes to sleep. -/
theorem moves_attempt {feed : Feed} (hdue : s.due feed = true) (hready : s.Ready feed now) :
    Moves setup s now (.task feed) (s.attempt .exact isDurationExact feed now).1
      (s.attempt .exact isDurationExact feed now).2 := by
  rw [attempt]
  rcases h : s.rateLimiter.acquireIteration .exact now 1 with ⟨secs, b⟩
  cases secs with
  | none => exact .grants feed hdue hready b h
  | some secs => exact .denies feed hdue hready secs b h

/-- A turn does nothing but what `Moves` lists: the case analysis on which the invariants rest. -/
theorem moves_actorTurn (setup : Setup) (s : PacedEngine ℚ) (actor : Engine.Actor) (now : ℕ) :
    Moves setup s now actor (s.actorTurn .exact isDurationExact setup actor now).1
      (s.actorTurn .exact isDurationExact setup actor now).2 := by
  cases actor with
  | electionLoop => exact .loops
  | task feed =>
    rw [actorTurn, taskTurn]
    cases hdue : s.due feed with
    | false => exact .works feed hdue
    | true =>
      rw [if_pos rfl]
      cases hpace : s.pace feed with
      | fresh => exact .beats feed hdue hpace
      | beaten => exact moves_attempt hdue (Or.inl hpace)
      | panicked => exact .waits feed hdue (Or.inl hpace)
      | admitted => exact .handles feed hdue hpace
      | sleeping wake =>
        by_cases hawake : BucketArith.exact.ge (BucketArith.exact.asSecs now) wake = true
        · simp only [hawake, if_true]
          exact moves_attempt hdue (Or.inr ⟨wake, hpace, of_decide_eq_true hawake⟩)
        · simp only [hawake, Bool.false_eq_true, if_false]
          -- a sleeper that is scheduled before its time waits on
          have hearly : secsAt now < wake := lt_of_not_ge fun h => hawake (decide_eq_true h)
          exact .waits feed hdue (Or.inr ⟨wake, hpace, hearly⟩)

/-- What each kind of turn keeps, with the clock and the log, every run keeps. -/
theorem run_invariant_of_moves {Inv : PacedEngine ℚ → Prop}
    (hmoves : ∀ {s s' : PacedEngine ℚ} {now : ℕ} {actor : Engine.Actor} {event : PaceEvent},
      Inv s → s.clock ≤ now → Moves setup s now actor event s' → Inv (s.logged actor now event s'))
    (hinit : Inv s) (ticks : List Tick) :
    Inv (s.run .exact isDurationExact setup ticks) := by
  refine Interleave.run_invariant (fun t s h => ?_) hinit ticks
  exact hmoves h (Nat.le_add_right _ _) (moves_actorTurn setup s t.actor (s.clock + t.pause))

/-! ## The engine within -/

/-- The turns that were steps of the engine, without the heartbeats, the waiting and the tokens. -/
def worked (log : List PaceEntry) : List Engine.Actor :=
  (log.filter fun e => e.event = .worked).map PaceEntry.actor

/-- How often a turn of a task had the given effect. -/
def count (log : List PaceEntry) (feed : Feed) (event : PaceEvent) : ℕ :=
  log.countP fun e => e.actor = .task feed ∧ e.event = event

/-- One more entry counts if it is of the task and of the kind asked for. -/
theorem count_concat (log : List PaceEntry) (e : PaceEntry) (feed : Feed) (event : PaceEvent) :
    count (log ++ [e]) feed event =
      count log feed event + if e.actor = .task feed ∧ e.event = event then 1 else 0 := by
  simp [count, List.countP_append, List.countP_singleton]

/-- One more entry adds its actor if it was a step of the engine. -/
theorem worked_concat (log : List PaceEntry) (e : PaceEntry) :
    worked (log ++ [e]) = worked log ++ if e.event = .worked then [e.actor] else [] := by
  rw [worked, List.filter_append, List.map_append]
  by_cases he : e.event = .worked <;> simp [worked, he]

/-- The engine steps of a task are its entries of kind `worked`. -/
theorem count_worked (log : List PaceEntry) (feed : Feed) :
    (worked log).count (.task feed) = count log feed .worked := by
  induction log using List.reverseRecOn with
  | nil => rfl
  | append_singleton log e ih =>
    rw [worked_concat, count_concat, List.count_append, ih]
    by_cases he : e.event = .worked <;> by_cases ha : e.actor = .task feed <;> simp [he, ha]

/-- The engine is where the turns that were steps of it have taken it: the paced engine refines the
plain one by leaving out heartbeats, tokens and waiting. -/
def Refines (setup : Setup) (store : StateStore) (s : PacedEngine ℚ) : Prop :=
  s.engine = (Engine.start setup store).run setup (worked s.log)

variable {store : StateStore} {feed : Feed}

/-- Every move keeps the refinement: only `loops`, `works` and `handles` touch the engine, and these
are logged as work. -/
theorem Refines.moves {actor : Engine.Actor} {event : PaceEvent} (h : Refines setup store s)
    (hmoves : Moves setup s now actor event s') :
    Refines setup store (s.logged actor now event s') := by
  rw [Refines] at h ⊢
  cases hmoves with
  | loops => simp [logged, worked_concat, Interleave.run_append, h]
  | works feed hdue => simp [logged, worked_concat, Interleave.run_append, h]
  | handles feed hdue hpace => simp [logged, worked_concat, Interleave.run_append, h]
  | _ => simpa [logged, worked_concat] using h

/-- What holds of every run of the plain engine holds of the paced one. -/
theorem Refines.inv (h : Refines setup store s) : Engine.Inv setup store s.engine := by
  rw [h]
  exact Engine.inv_run setup store _

/-- A step of the engine handles the item that is due, and none when none is due. -/
theorem ledItems_step_self {e : Engine} (h : Engine.Inv setup store e) (feed : Feed) :
    ledItems ((e.step setup (.task feed)).crew.worker feed) =
      ledItems (e.crew.worker feed) + if isDue (e.crew.worker feed) then 1 else 0 := by
  -- an unopened source has yielded nothing, so that no item can be due
  cases hopen : e.upcoming feed with
  | none =>
    have hseen := h.unopened feed hopen
    rw [Engine.seen, Worker.seen, List.append_eq_nil_iff, Option.toList_eq_nil_iff] at hseen
    simp [Engine.step, Engine.taskStep, hopen, isDue, hseen.2]
  | some results =>
    simp only [Engine.step, Engine.taskStep, hopen]
    -- of the three kinds of turns only the second handles an item
    rcases Crew.turn_cases (fun feed => iteration (feed.event setup.env)) Effect.perform feed
      (e.nextItem feed results) e.crew with
      ⟨eff, rest, hpending, hturn⟩ | ⟨item, hpending, hcurrent, hturn⟩ | ⟨hpending, hcurrent, hturn⟩
    · rw [hturn]
      simp [isDue, hpending, ledItems, Worker.call]
    · rw [hturn]
      simp [isDue, hpending, hcurrent, ledItems, Worker.handling, List.countP_append,
        List.countP_singleton]
    · rw [hturn]
      simp [isDue, hpending, hcurrent, ledItems, Worker.reading]

/-! ## Beats and grants -/

/-- A task records one heartbeat and acquires one token for each item that it handles as leader,
before it does so. Between the two it is ahead by what its pace says. -/
structure InPace (s : PacedEngine ℚ) (feed : Feed) : Prop where
  due : s.pace feed ≠ .fresh → s.due feed = true
  beats : count s.log feed .beat =
    ledItems (s.engine.crew.worker feed) + (s.pace feed).beatsAhead
  grants : count s.log feed .granted =
    ledItems (s.engine.crew.worker feed) + (s.pace feed).grantsAhead

/-- A turn of another actor does not touch the pace of a task, nor its counts or its worker. -/
theorem InPace.other {feed : Feed} {actor : Engine.Actor} {event : PaceEvent} (h : InPace s feed)
    (hactor : actor ≠ .task feed) (hworker : s'.engine.crew.worker feed = s.engine.crew.worker feed)
    (hpace : s'.pace feed = s.pace feed) :
    InPace (s.logged actor now event s') feed := by
  refine ⟨?_, ?_, ?_⟩
  · show s'.pace feed ≠ .fresh → isDue (s'.engine.crew.worker feed) = true
    rw [hpace, hworker]
    exact h.due
  · simpa [logged, hpace, hworker, count_concat, hactor] using h.beats
  · simpa [logged, hpace, hworker, count_concat, hactor] using h.grants

/-- A task that may try to acquire has recorded its heartbeat and holds no token yet. -/
theorem Ready.ahead {feed : Feed} (h : s.Ready feed now) :
    (s.pace feed).beatsAhead = 1 ∧ (s.pace feed).grantsAhead = 0 := by
  rcases h with hpace | ⟨wake, hpace, -⟩
  · rw [hpace]
    exact ⟨rfl, rfl⟩
  · rw [hpace]
    exact ⟨rfl, rfl⟩

/-- An own turn that leaves the engine alone changes the counts by what the pace changes. -/
theorem InPace.own {feed : Feed} {event : PaceEvent} {next : Pace ℚ} (h : InPace s feed)
    (hdue : s.due feed = true) (hengine : s'.engine = s.engine) (hpace : s'.pace feed = next)
    (hbeats : next.beatsAhead = (s.pace feed).beatsAhead + if event = .beat then 1 else 0)
    (hgrants : next.grantsAhead = (s.pace feed).grantsAhead + if event = .granted then 1 else 0) :
    InPace (s.logged (.task feed) now event s') feed := by
  refine ⟨fun _ => ?_, ?_, ?_⟩
  · show isDue (s'.engine.crew.worker feed) = true
    rw [hengine]
    exact hdue
  · show count (s.log ++ [_]) feed .beat =
      ledItems (s'.engine.crew.worker feed) + (s'.pace feed).beatsAhead
    rw [count_concat, h.beats, hpace, hbeats, hengine]
    simp [Nat.add_assoc]
  · show count (s.log ++ [_]) feed .granted =
      ledItems (s'.engine.crew.worker feed) + (s'.pace feed).grantsAhead
    rw [count_concat, h.grants, hpace, hgrants, hengine]
    simp [Nat.add_assoc]

/-- An own turn that is a step of the engine, after which the pace is fresh again. -/
theorem InPace.worked {feed : Feed} (h : InPace s feed)
    (hengine : ledItems (s'.engine.crew.worker feed) =
      ledItems (s.engine.crew.worker feed) + (s.pace feed).grantsAhead)
    (hahead : (s.pace feed).beatsAhead = (s.pace feed).grantsAhead) (hpace : s'.pace feed = .fresh) :
    InPace (s.logged (.task feed) now .worked s') feed := by
  refine ⟨fun hfresh => absurd hpace hfresh, ?_, ?_⟩
  · show count (s.log ++ [_]) feed .beat =
      ledItems (s'.engine.crew.worker feed) + (s'.pace feed).beatsAhead
    rw [count_concat, h.beats, hengine, hahead, hpace]
    simp [Pace.beatsAhead]
  · show count (s.log ++ [_]) feed .granted =
      ledItems (s'.engine.crew.worker feed) + (s'.pace feed).grantsAhead
    rw [count_concat, h.grants, hengine, hpace]
    simp [Pace.grantsAhead]

/-- Every move keeps every task in pace. The cases are those of the own turns, then those of the
others'. -/
theorem InPace.moves {actor : Engine.Actor} {event : PaceEvent} {feed : Feed}
    (hinv : Engine.Inv setup store s.engine) (h : InPace s feed)
    (hmoves : Moves setup s now actor event s') : InPace (s.logged actor now event s') feed := by
  have hworker : actor ≠ .task feed →
      (s.engine.step setup actor).crew.worker feed = s.engine.crew.worker feed := fun hactor =>
    (Engine.step_other hactor).1
  by_cases hactor : actor = .task feed
  · subst hactor
    -- the one place where the count of handled items changes
    have hled : ledItems ((s.engine.step setup (.task feed)).crew.worker feed) =
        ledItems (s.engine.crew.worker feed) + if s.due feed then 1 else 0 :=
      ledItems_step_self hinv feed
    cases hmoves with
    | works _ hdue =>
      -- a task works with nothing due only while its pace is fresh
      have hpace : s.pace feed = .fresh := by
        by_contra hpace
        rw [h.due hpace] at hdue
        cases hdue
      refine h.worked ?_ (by rw [hpace]; rfl) hpace
      rw [hled, hpace, hdue]
      rfl
    | handles _ hdue hpace =>
      refine h.worked ?_ (by rw [hpace]; rfl) (Function.update_self ..)
      rw [hled, hpace, hdue]
      rfl
    | beats _ hdue hpace =>
      refine h.own hdue rfl (Function.update_self ..) ?_ ?_
      · rw [hpace]
        rfl
      · rw [hpace]
        rfl
    | waits _ hdue _ => exact h.own hdue rfl rfl rfl rfl
    | grants _ hdue hready b htake =>
      refine h.own hdue rfl (Function.update_self ..) ?_ ?_
      · rw [hready.ahead.1]
        rfl
      · rw [hready.ahead.2]
        rfl
    | denies _ hdue hready secs b hwait =>
      refine h.own hdue rfl (Function.update_self ..) ?_ ?_
      · rw [hready.ahead.1]
        cases isDurationExact secs <;> rfl
      · rw [hready.ahead.2]
        cases isDurationExact secs <;> rfl
  · cases hmoves with
    | loops => exact h.other hactor (hworker hactor) rfl
    | works g _ => exact h.other hactor (hworker hactor) rfl
    | handles g _ _ =>
      have hg : feed ≠ g := fun hg => hactor (by rw [hg])
      exact h.other hactor (hworker hactor) (Function.update_of_ne hg ..)
    | waits g _ _ => exact h.other hactor rfl rfl
    | beats g _ _ =>
      have hg : feed ≠ g := fun hg => hactor (by rw [hg])
      exact h.other hactor rfl (Function.update_of_ne hg ..)
    | grants g _ _ b _ =>
      have hg : feed ≠ g := fun hg => hactor (by rw [hg])
      exact h.other hactor rfl (Function.update_of_ne hg ..)
    | denies g _ _ secs b _ =>
      have hg : feed ≠ g := fun hg => hactor (by rw [hg])
      exact h.other hactor rfl (Function.update_of_ne hg ..)

/-- A task records no more heartbeats than its source yields items. -/
theorem InPace.beats_le (hinv : Engine.Inv setup store s.engine) (h : InPace s feed) :
    count s.log feed .beat ≤ setup.length store feed := by
  have hle := hinv.ledItems_le feed
  rw [h.beats]
  cases hpace : s.pace feed with
  | fresh => exact (Nat.le_add_right _ _).trans hle
  | _ =>
    have hdue : isDue (s.engine.crew.worker feed) = true := h.due (by simp [hpace])
    rw [hdue] at hle
    exact hle

/-- A task is granted no more tokens than its source yields items. -/
theorem InPace.grants_le (hinv : Engine.Inv setup store s.engine) (h : InPace s feed) :
    count s.log feed .granted ≤ setup.length store feed := by
  have hbeats := h.beats_le hinv
  have hahead : (s.pace feed).grantsAhead ≤ (s.pace feed).beatsAhead := by
    cases s.pace feed <;> simp [Pace.grantsAhead, Pace.beatsAhead]
  rw [h.beats] at hbeats
  rw [h.grants]
  omega

/-- A task that is about to acquire has been granted fewer tokens than its source yields items. -/
theorem InPace.grants_lt (hinv : Engine.Inv setup store s.engine) (h : InPace s feed)
    (hdue : s.due feed = true) (hready : s.Ready feed now) :
    count s.log feed .granted < setup.length store feed := by
  have hle := hinv.ledItems_le feed
  have hread : isDue (s.engine.crew.worker feed) = true := hdue
  rw [hread] at hle
  rw [h.grants, hready.ahead.2]
  exact hle

end PacedEngine

end Caminus.Pipeline

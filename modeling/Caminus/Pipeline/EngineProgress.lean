import Caminus.Pipeline.Engine

/-!
# The steps of a task

Each step of a task opens the stream, reads a result, handles it or makes a call, until there is nothing
left to do. It takes `1 + 2 * n + k` of them, where `n` is the length of the stream and `k` the number
of the calls, however the steps of the others fall (`done_of_count`). Here a task never waits; in
`main` it waits for tokens of the rate limiter before it handles a result, which
`Caminus.Pipeline.Backpressure` adds.
-/

namespace Caminus.Pipeline.Engine

variable {setup : Setup} {store : StateStore} {s : Engine} {feed : Feed}

/-- The task has made all its calls, and its loop has ended or its stream is at its end, so nothing
is left for it to do. -/
structure Finished (feed : Feed) (s : Engine) : Prop where
  pending : (s.crew.worker feed).pending = []
  current : (s.crew.worker feed).current = none
  ended : s.upcoming feed ≠ none ∧
    ((s.crew.worker feed).state.2 = false ∨ s.upcoming feed = some [])

/-- The turns that have taken a task where it is: one to open its stream, two for each item, and one
for each call. -/
def progress (feed : Feed) (s : Engine) : ℕ :=
  (s.upcoming feed).toList.length + (s.crew.worker feed).progress

/-- A step of another actor does not touch the task. -/
theorem step_other {actor : Actor} (hactor : actor ≠ .task feed) :
    (step setup actor s).crew.worker feed = s.crew.worker feed ∧
      (step setup actor s).upcoming feed = s.upcoming feed := by
  cases actor with
  | electionLoop => exact ⟨rfl, rfl⟩
  | task g =>
    have hg : feed ≠ g := fun h => hactor (by rw [h])
    simp only [Engine.step, taskStep]
    cases hopen : s.upcoming g with
    | none => exact ⟨rfl, Function.update_of_ne hg _ _⟩
    | some results =>
      refine ⟨Crew.turn_worker_ne hg _ _, ?_⟩
      simp only
      split_ifs
      · exact Function.update_of_ne hg _ _
      · rfl

/-- A turn of another actor is no progress of the task, and no setback. -/
theorem progress_step_other {actor : Actor} (hactor : actor ≠ .task feed) (s : Engine) :
    progress feed (step setup actor s) = progress feed s := by
  obtain ⟨hworker, hupcoming⟩ := @step_other setup s feed actor hactor
  rw [progress, progress, hworker, hupcoming]

/-- Nothing is offered to a task only if it is in an iteration, has ended its loop or its stream. -/
theorem nextItem_eq_none {results : List (Except String ChangeEvent)}
    (h : s.nextItem feed results = none) (hpending : (s.crew.worker feed).pending = [])
    (hcurrent : (s.crew.worker feed).current = none) :
    (s.crew.worker feed).state.2 = false ∨ results = [] := by
  cases hrunning : (s.crew.worker feed).state.2 with
  | false => exact Or.inl rfl
  | true =>
    right
    have hreading : s.isReading feed = true := by simp [isReading, hpending, hcurrent, hrunning]
    rw [nextItem, if_pos hreading, Option.map_eq_none_iff, List.head?_eq_none_iff] at h
    exact h

/-- Each of its own turns takes a task one step ahead, until it is done: there is no turn in which
it idles. -/
theorem progress_step_self (s : Engine) :
    Finished feed s ∨ progress feed (step setup (.task feed) s) = progress feed s + 1 := by
  cases hopen : s.upcoming feed with
  | none =>
    right
    simp [Engine.step, taskStep, progress, hopen]
    omega
  | some results =>
    have hupcoming : (s.taskStep setup feed).upcoming feed =
        some (if s.isReading feed then results.tail else results) := by
      rw [upcoming_taskStep hopen, Function.update_self]
    have hworker : (s.taskStep setup feed).crew = s.crew.turn
        (fun feed => iteration (feed.event setup.env)) Effect.perform feed
        (s.nextItem feed results) := by
      simp only [taskStep, hopen]
    -- a turn of the crew is a call, the handling of an item or the reading of one; it is none of
    -- them only if nothing is offered
    rcases @Crew.progress_turn _ _ _ _ _ (fun feed => iteration (feed.event setup.env))
      Effect.perform _ feed (s.nextItem feed results) s.crew with ⟨hpending, hcurrent, hnext⟩ | hturn
    · left
      refine ⟨hpending, hcurrent, by simp [hopen], ?_⟩
      rw [hopen, Option.some.injEq]
      exact nextItem_eq_none hnext hpending hcurrent
    · right
      rw [Engine.step, progress, progress, hupcoming, hworker, hturn, hopen]
      simp only [Option.toList_some, List.length_singleton]
      omega

/-- A task that is done does nothing any more, and stays done whatever the others do. -/
theorem Finished.step (h : Finished feed s) (actor : Actor) :
    Finished feed (step setup actor s) := by
  by_cases hactor : actor = .task feed
  · subst hactor
    obtain ⟨results, hopen⟩ := Option.ne_none_iff_exists'.mp h.ended.1
    have hended := h.ended.2
    rw [hopen, Option.some.injEq] at hended
    -- a loop that has ended reads no more, and an empty stream has nothing to read
    have hnext : s.nextItem feed results = none := by
      rcases hended with hended | rfl
      · exact if_neg (by simp [isReading, hended])
      · simp [nextItem]
    have hcrew : (s.taskStep setup feed).crew.worker feed = s.crew.worker feed := by
      simp only [taskStep, hopen, hnext, Crew.turn, h.pending, h.current, Function.update_self]
      rw [← h.current]
      rfl
    have hupcoming : (s.taskStep setup feed).upcoming feed =
        some (if s.isReading feed then results.tail else results) := by
      rw [upcoming_taskStep hopen, Function.update_self]
    refine ⟨hcrew ▸ h.pending, hcrew ▸ h.current, by simp [Engine.step, hupcoming], ?_⟩
    rw [Engine.step, hcrew, hupcoming, Option.some.injEq]
    refine hended.imp_right ?_
    rintro rfl
    split_ifs <;> rfl
  · obtain ⟨hworker, hupcoming⟩ := @step_other setup s feed actor hactor
    exact ⟨hworker ▸ h.pending, hworker ▸ h.current, hupcoming ▸ hworker ▸ h.ended⟩

/-- A task is done, or each of its turns has been a step ahead. -/
theorem finished_or_progress (setup : Setup) (store : StateStore) (sched : List Actor) (feed : Feed) :
    Finished feed ((start setup store).run setup sched) ∨
      progress feed ((start setup store).run setup sched) = sched.count (.task feed) := by
  have hown : ∀ s, Finished feed s ∨ progress feed (step setup (.task feed) s) = progress feed s + 1 :=
    progress_step_self
  have hrun := Interleave.run_done_or_progress hown (fun j hj s => progress_step_other hj s)
    (fun j s h => h.step j) (start setup store) sched
  simpa [progress, start, Worker.progress, Worker.start] using hrun

/-! ## Done -/

/-- A loop that has ended has met an error of its stream while its node led. -/
theorem exists_error_of_ended {σ : Type} {handle : StateStore → σ → ChangeEvent → List Effect × σ}
    {store : StateStore} {items : List Item} {task : σ}
    (h : (Mealy.final (iteration handle store) (task, true) items).2 = false) :
    ∃ err, ⟨true, .error err⟩ ∈ items := by
  induction items generalizing task with
  | nil => cases h
  | cons item items ih =>
    obtain ⟨isLeader, result⟩ := item
    rw [Mealy.final_cons] at h
    cases isLeader with
    | false =>
      obtain ⟨err, herr⟩ := ih h
      exact ⟨err, List.mem_cons_of_mem _ herr⟩
    | true =>
      cases result with
      | error err => exact ⟨err, List.mem_cons_self⟩
      | ok e =>
        obtain ⟨err, herr⟩ := ih h
        exact ⟨err, List.mem_cons_of_mem _ herr⟩

/-- The task has made all the calls that it makes alone, on its whole stream or up to an error of
the source, which ends the loop. -/
structure Done (setup : Setup) (store : StateStore) (feed : Feed) (s : Engine) : Prop where
  calls : s.made feed = trace setup.env (startup setup.env.serde store) (s.handled feed) feed
  read : (s.handled feed).map Item.result = setup.stream feed (lastOffset store feed.sourceId) ∨
    ∃ err, ⟨true, .error err⟩ ∈ s.handled feed

/-- A task that is done has made the calls of its items and has nothing left to read, or has met an
error. -/
theorem Finished.done (h : Finished feed s) (hinv : Inv setup store s) :
    Done setup store feed s := by
  have hfollows := hinv.alone.follows feed
  constructor
  · have hcalls := hfollows.calls
    rw [h.pending, List.append_nil] at hcalls
    rw [trace_eq_outputs]
    exact hcalls
  · rcases h.ended.2 with hended | hended
    · right
      rw [hfollows.state] at hended
      exact exists_error_of_ended hended
    · left
      have hread := hinv.read feed [] hended
      rw [seen, Worker.seen, h.current, Option.toList_none, List.append_nil, List.append_nil] at hread
      exact hread

/-- How far a task can get: it opens its stream once, reads and handles each result once, and makes
the calls of what it has handled. -/
theorem Inv.progress_le (hinv : Inv setup store s) (feed : Feed) :
    progress feed s ≤ 1 + 2 * (setup.stream feed (lastOffset store feed.sourceId)).length +
      (trace setup.env (startup setup.env.serde store) (s.handled feed) feed).length := by
  have hmade : (s.crew.worker feed).made.length ≤
      (trace setup.env (startup setup.env.serde store) (s.handled feed) feed).length :=
    (hinv.undisturbed feed).calls.length_le
  -- an item that was read and not handled yet counts once, a handled one twice
  have hworker : (s.crew.worker feed).progress ≤ 2 * (s.seen feed).length +
      (s.crew.worker feed).made.length := by
    rw [seen, Worker.seen, List.length_append, Worker.progress]
    omega
  cases hopen : s.upcoming feed with
  | none =>
    rw [hinv.unopened feed hopen] at hworker
    simp only [progress, hopen, Option.toList_none, List.length_nil] at hworker ⊢
    omega
  | some rest =>
    have hread := congrArg List.length (hinv.read feed rest hopen)
    rw [List.length_append, List.length_map] at hread
    simp only [progress, hopen, Option.toList_some, List.length_singleton]
    omega

/-- A task that got as far as it can is done: the bound is met only if every part of it is. -/
theorem Inv.finished_of_progress (hinv : Inv setup store s)
    (h : progress feed s = 1 + 2 * (setup.stream feed (lastOffset store feed.sourceId)).length +
      (trace setup.env (startup setup.env.serde store) (s.handled feed) feed).length) :
    Finished feed s := by
  have hmade : (s.crew.worker feed).made.length ≤
      (trace setup.env (startup setup.env.serde store) (s.handled feed) feed).length :=
    (hinv.undisturbed feed).calls.length_le
  cases hopen : s.upcoming feed with
  | none =>
    have hseen := congrArg List.length (hinv.unopened feed hopen)
    rw [seen, Worker.seen, List.length_append, List.length_nil] at hseen
    simp only [progress, hopen, Option.toList_none, List.length_nil, Worker.progress] at h
    omega
  | some rest =>
    have hread := congrArg List.length (hinv.read feed rest hopen)
    rw [List.length_append, List.length_map, seen, Worker.seen, List.length_append] at hread
    simp only [progress, hopen, Option.toList_some, List.length_singleton, Worker.progress] at h
    -- nothing is left to read or to handle, and no call is missing
    have hcurrent : (s.crew.worker feed).current = none := by
      rw [← Option.toList_eq_nil_iff, ← List.length_eq_zero_iff]
      omega
    have hrest : rest = [] := by
      rw [← List.length_eq_zero_iff]
      omega
    have hcalls := congrArg List.length (hinv.alone.follows feed).calls
    rw [List.length_append, ← trace_eq_outputs] at hcalls
    have hpending : (s.crew.worker feed).pending = [] := by
      rw [← List.length_eq_zero_iff]
      unfold handled at h
      omega
    exact ⟨hpending, hcurrent, by simp [hopen], Or.inr (by rw [hopen, hrest])⟩

/-- **A task with enough steps of its own is done**, whatever the others do in the meantime. The waiting
for heartbeats and tokens comes on top of these steps. -/
theorem done_of_count (setup : Setup) (store : StateStore) (sched : List Actor) (feed : Feed)
    (hturns : 1 + 2 * (setup.stream feed (lastOffset store feed.sourceId)).length +
        (trace setup.env (startup setup.env.serde store)
          (((start setup store).run setup sched).handled feed) feed).length ≤
      sched.count (.task feed)) :
    Done setup store feed ((start setup store).run setup sched) := by
  have hinv := inv_run setup store sched
  rcases finished_or_progress setup store sched feed with hdone | hprogress
  · exact hdone.done hinv
  · have hle := hinv.progress_le feed
    have hfinished : Finished feed ((start setup store).run setup sched) :=
      hinv.finished_of_progress (by omega)
    exact hfinished.done hinv

end Caminus.Pipeline.Engine

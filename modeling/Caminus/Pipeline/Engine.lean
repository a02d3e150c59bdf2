import Caminus.Common.Crew
import Caminus.Consensus.Election
import Caminus.Pipeline.Delivery

/-!
# The engine

`main` starts the election loop of its coordinator and two tasks, one for each source, on one state
store. A step of the engine is a step of the election loop or a turn of a task: it opens its stream at
the stored offset, reads the next result together with the leadership it sees, handles it with what
the store holds then, or makes the next call of the iteration. Whatever the order of the steps, each
task does what it does alone on the items it has read (`tasks_undisturbed`). The heartbeat and the
limiter at the head of the loops are not here: `Caminus.Pipeline.Paced` adds them, and its runs are runs
of this engine.
-/

namespace Caminus.Pipeline

open ClusterCoordinator (Node)

/-! ## The tasks as workers -/

/-- The memory of a task. -/
abbrev Feed.Task : Feed → Type
  | .postgres => PgTask
  | .cassandra => CassTask

/-- The memory of a task right after it is spawned. -/
def Feed.newTask : (feed : Feed) → feed.Task
  | .postgres => .new
  | .cassandra => .new

/-- The body of a task's loop for an event: what is called, and the memory afterwards. -/
def Feed.event (env : Env) :
    (feed : Feed) → StateStore → feed.Task → ChangeEvent → List Effect × feed.Task
  | .postgres => pgEvent env
  | .cassandra => cassEvent env

/-- An iteration of a loop, whose calls are still to be made. The flag says whether the loop runs;
an item without leadership is dropped, and an error of the stream ends the loop. -/
def iteration {σ : Type} (handle : StateStore → σ → ChangeEvent → List Effect × σ)
    (store : StateStore) (state : σ × Bool) (item : Item) : List Effect × (σ × Bool) :=
  let (effs, loop) := ingest handle ⟨state.1, store, state.2⟩ item
  (effs, loop.task, loop.running)

/-- What an engine is given: the surroundings of its tasks, and the results that a source yields from
an offset on. -/
structure Setup where
  env : Env
  stream : Feed → Option String → List (Except String ChangeEvent)

/-- The node, the two tasks with their store, and their streams. A task that has opened its stream
has the results left in it. -/
structure Engine where
  node : Node
  crew : Crew (fun feed : Feed => feed.Task × Bool) Item Effect StateStore
  upcoming : Feed → Option (List (Except String ChangeEvent))

namespace Engine

/-- The engine of node 1 on a store, right after the tasks are spawned. -/
def start (setup : Setup) (store : StateStore) : Engine where
  node := .start 1
  crew := ⟨fun feed => .start (feed.newTask, true), startup setup.env.serde store⟩
  upcoming := fun _ => none

variable (setup : Setup) (s : Engine) (feed : Feed)

/-- The task waits for its stream: its iteration is over and its loop still runs. -/
def isReading : Bool :=
  (s.crew.worker feed).pending.isEmpty && (s.crew.worker feed).current.isNone &&
    (s.crew.worker feed).state.2

/-- The item that the task would read now, with the leadership that it would see. -/
def nextItem (results : List (Except String ChangeEvent)) : Option Item :=
  if s.isReading feed then results.head?.map fun result => ⟨s.node.isLeader, result⟩ else none

/-- Who takes a step: the loop of the coordinator, or one of the two source tasks. -/
inductive Actor
  | electionLoop
  | task (feed : Feed)
deriving DecidableEq

/-- A step of a task. Its first one opens the stream at the stored offset; after that it reads an
item, or makes the next call of its iteration. -/
def taskStep : Engine :=
  match s.upcoming feed with
  | none =>
      let results := setup.stream feed (lastOffset s.crew.store feed.sourceId)
      { s with upcoming := Function.update s.upcoming feed (some results) }
  | some results =>
      { s with
        crew := s.crew.turn (fun feed => iteration (feed.event setup.env)) Effect.perform feed
          (s.nextItem feed results)
        upcoming :=
          if s.isReading feed then Function.update s.upcoming feed (some results.tail)
          else s.upcoming }

/-- A step of the engine: of the election loop, or of one of the two tasks. -/
def step : Actor → Engine → Engine
  | .electionLoop, s => { s with node := s.node.loopStep }
  | .task feed, s => s.taskStep setup feed

/-- The actors take their steps in the order of the schedule. -/
abbrev run (sched : List Actor) : Engine := Interleave.run (step setup) s sched

/-- The items that a task has read: those handled, and the one it is about to handle. -/
def seen : List Item := (s.crew.worker feed).seen

/-- The items whose calls are all made, or under way: the stream up to where the task has got. -/
def handled : List Item := (s.crew.worker feed).handled

/-- The calls that a task has made, in order. -/
def made : List Effect := (s.crew.worker feed).made

end Engine

/-! ## The tasks do not meet in the store -/

variable {env : Env} {feed : Feed}

/-- What a task makes of an event depends on the store only through the schemas, which no call
writes. -/
theorem event_perform (env : Env) (feed : Feed) (store : StateStore) (eff : Effect) :
    feed.event env (eff.perform store) = feed.event env store := by
  have hschema : ∀ sourceId,
      (eff.perform store).getSchema env.serde sourceId = store.getSchema env.serde sourceId :=
    getSchema_runEffects env.serde store [eff]
  cases feed with
  | cassandra => rfl
  | postgres =>
    funext task e
    simp only [Feed.event, pgEvent, SchemaRegistry.validateEvent, hschema]

/-- No call changes what an iteration does: it reads schemas only, and calls write offsets only. -/
theorem iteration_perform (env : Env) (feed : Feed) (store : StateStore) (eff : Effect) :
    iteration (feed.event env) (eff.perform store) = iteration (feed.event env) store := by
  funext state item
  simp only [iteration, ingest, event_perform]
  split_ifs with hstopped hstandby
  · rfl
  · rfl
  · cases item.result with
    | ok e => rfl
    | error err => rfl

/-- The calls of a delivery save for their own source alone. -/
theorem savedFor_of_mem_deliver {sourceId other : String} (hother : other ≠ sourceId)
    {m : ChangeEvent} {eff : Effect} (h : eff ∈ deliver env sourceId m) :
    eff.savedFor other = none := by
  unfold deliver at h
  cases htr : env.transform m with
  | ok t =>
    simp only [htr, List.mem_cons, List.not_mem_nil, or_false] at h
    rcases h with rfl | rfl | rfl | rfl
    · rfl
    · rfl
    · rfl
    · simp [Effect.savedFor, Ne.symm hother]
  | error err =>
    simp only [htr, List.mem_cons, List.not_mem_nil, or_false] at h
    rcases h with rfl | rfl <;> rfl

/-- No call of a task saves the offset of the other source, which is why the tasks do not interfere. -/
theorem savedFor_of_mem_event {other : String} (hother : other ≠ feed.sourceId) {store : StateStore}
    {task : feed.Task} {e : ChangeEvent} {eff : Effect}
    (h : eff ∈ (feed.event env store task e).1) : eff.savedFor other = none := by
  have hflat : ∀ ms : List ChangeEvent, eff ∈ ms.flatMap (deliver env feed.sourceId) →
      eff.savedFor other = none := by
    intro ms hms
    obtain ⟨m, -, hm⟩ := List.mem_flatMap.mp hms
    exact savedFor_of_mem_deliver hother hm
  cases feed with
  | cassandra =>
    simp only [Feed.event, cassEvent] at h
    split at h
    · cases h
    · exact hflat _ h
  | postgres =>
    simp only [Feed.event, pgEvent] at h
    split at h
    · cases h
    · split at h
      · rw [List.mem_singleton.mp h]
        rfl
      · split at h
        · cases h
        · exact hflat _ h

/-- The calls of an iteration are those of the loop's body for some event. -/
theorem mem_iteration {σ : Type} {handle : StateStore → σ → ChangeEvent → List Effect × σ}
    {store : StateStore} {state : σ × Bool} {item : Item} {eff : Effect}
    (h : eff ∈ (iteration handle store state item).1) :
    ∃ e, eff ∈ (handle store state.1 e).1 := by
  unfold iteration ingest at h
  split_ifs at h with hstopped hstandby
  · cases h
  · cases h
  · cases hresult : item.result with
    | ok e =>
      rw [hresult] at h
      exact ⟨e, h⟩
    | error err =>
      rw [hresult] at h
      cases h

/-- The tasks save their offsets under different keys. -/
theorem sourceId_injective : Function.Injective Feed.sourceId := by
  intro f g h
  cases f <;> cases g <;> first | rfl | exact absurd h (by decide)

/-- The offset of a source after a call: the one that the call saves, or the one before. -/
theorem getOffset_perform (store : StateStore) (eff : Effect) (sourceId : String) :
    (eff.perform store).getOffset sourceId =
      (eff.savedFor sourceId).elim (store.getOffset sourceId) fun offset => .ok (some offset) :=
  writes_getOffset sourceId store eff

/-- The two tasks share the store and do not disturb each other there: neither reads what the other
writes. -/
theorem turns_independent (env : Env) :
    Crew.Independent (fun feed : Feed => iteration (feed.event env)) Effect.perform
      (fun feed store => store.getOffset feed.sourceId) where
  unread := iteration_perform env
  foreign := by
    intro f g hfg store state item eff heff store'
    obtain ⟨e, he⟩ := mem_iteration heff
    have hnone := savedFor_of_mem_event (sourceId_injective.ne (Ne.symm hfg)) he
    rw [getOffset_perform, hnone]
    rfl
  own := by
    intro f store store' eff h
    rw [getOffset_perform, getOffset_perform, h]

/-! ## A task alone -/

/-- Performing the calls of each iteration at once changes nothing for a handler that does not read
what they write. -/
theorem outputs_ingest_eq {σ : Type} {handle : StateStore → σ → ChangeEvent → List Effect × σ}
    (hunread : ∀ store eff, handle (Effect.perform store eff) = handle store) (s₀ : StateStore)
    (items : List Item) {store : StateStore} (hstore : handle store = handle s₀) (task : σ)
    (running : Bool) :
    Mealy.outputs (ingest handle) ⟨task, store, running⟩ items =
      Mealy.outputs (iteration handle s₀) (task, running) items := by
  -- whatever is called, the handler sees the store that it started with
  have hrun : ∀ (effs : List Effect) (store : StateStore), handle store = handle s₀ →
      handle (runEffects store effs) = handle s₀ := by
    intro effs
    induction effs with
    | nil => exact fun _ h => h
    | cons eff effs ih => exact fun store h => ih _ ((hunread store eff).trans h)
  induction items generalizing store task running with
  | nil => rfl
  | cons item items ih =>
    rw [Mealy.outputs_cons, Mealy.outputs_cons]
    unfold iteration ingest
    split_ifs with hstopped hstandby
    · exact congrArg _ (ih hstore task running)
    · exact congrArg _ (ih hstore task running)
    · cases item.result with
      | error err => exact congrArg _ (ih hstore task false)
      | ok e =>
        simp only [hstore]
        exact congrArg _ (ih (hrun _ store hstore) _ true)

/-- The calls of a task that runs alone, as outputs of its iterations on the store that it starts
with. -/
theorem trace_eq_outputs (env : Env) (store : StateStore) (items : List Item) (feed : Feed) :
    trace env store items feed =
      (Mealy.outputs (iteration (feed.event env) store) (feed.newTask, true) items).flatten := by
  cases feed with
  | postgres =>
    exact congrArg _ (outputs_ingest_eq (event_perform env .postgres) store items rfl _ true)
  | cassandra =>
    exact congrArg _ (outputs_ingest_eq (event_perform env .cassandra) store items rfl _ true)

/-! ## Every order of steps -/

/-- A leader stays one: `main` never shuts its coordinator down. -/
theorem isLeader_loopStep {node : Node} (h : node.isLeader = true) :
    node.loopStep.isLeader = true := by
  rcases node.loopStep_cases with ⟨point, -, hstep⟩ | ⟨-, hstep⟩ | ⟨-, hstep⟩
  · rw [hstep]
    exact h
  · rw [hstep]
    exact h
  · rw [hstep, Node.act]
    cases node.role with
    | follower => exact h
    | candidate => rfl
    | leader => rfl

namespace Engine

/-- What holds in every state of an engine: its tasks are where they would be alone, each has read a
beginning of the stream from its stored offset on, and the leadership it sees is never lost. -/
structure Inv (setup : Setup) (store : StateStore) (s : Engine) : Prop where
  alone : Crew.Alone (fun feed : Feed => iteration (feed.event setup.env)) Effect.perform
    (fun feed store => store.getOffset feed.sourceId) (fun feed => (feed.newTask, true))
    (startup setup.env.serde store) s.crew
  unopened : ∀ feed, s.upcoming feed = none → s.seen feed = []
  read : ∀ feed rest, s.upcoming feed = some rest →
    (s.seen feed).map Item.result ++ rest = setup.stream feed (lastOffset store feed.sourceId)
  flags : ∀ feed,
    ((s.seen feed).map Item.isLeader).Pairwise fun before after => before = true → after = true
  led : ∀ feed, ∀ item ∈ s.seen feed, item.isLeader = true → s.node.isLeader = true

variable {setup : Setup} {store : StateStore} {s : Engine}

/-- The invariant holds when the tasks are spawned. -/
theorem inv_start (setup : Setup) (store : StateStore) : Inv setup store (start setup store) where
  alone := Crew.alone_start _ _ _ _ _
  unopened := fun _ _ => rfl
  read := by
    intro feed rest h
    cases h
  flags := fun _ => List.Pairwise.nil
  led := by
    intro feed item hitem
    cases hitem

/-- A step of the coordinator's loop touches no task, and no leadership is lost by it. -/
theorem Inv.electionLoop (h : Inv setup store s) :
    Inv setup store { s with node := s.node.loopStep } where
  alone := h.alone
  unopened := h.unopened
  read := h.read
  flags := h.flags
  led := fun feed item hitem hled => isLeader_loopStep (h.led feed item hitem hled)

/-- The stored offset of a task that has not begun is the one the engine was started with. -/
theorem Inv.lastOffset_unopened (h : Inv setup store s) {feed : Feed}
    (hnone : s.upcoming feed = none) :
    lastOffset s.crew.store feed.sourceId = lastOffset store feed.sourceId := by
  have hseen := h.unopened feed hnone
  rw [seen, Worker.seen, List.append_eq_nil_iff] at hseen
  have hcalls := (h.alone.follows feed).calls
  rw [hseen.1, Mealy.outputs_nil, List.flatten_nil, List.append_eq_nil_iff] at hcalls
  have hview := h.alone.view feed
  rw [hcalls.1, List.foldl_nil, getOffset_startup] at hview
  rw [lastOffset_eq, lastOffset_eq, hview]

/-- Opening a stream keeps the invariant: nothing is read yet, and the stored offset is still the
one of the start. -/
theorem Inv.openStream (h : Inv setup store s) {feed : Feed} (hnone : s.upcoming feed = none) :
    Inv setup store { s with
      upcoming := Function.update s.upcoming feed
        (some (setup.stream feed (lastOffset s.crew.store feed.sourceId))) } where
  alone := h.alone
  unopened := by
    intro g hg
    by_cases hfg : g = feed
    · subst hfg
      simp at hg
    · exact h.unopened g (by simpa [Function.update_of_ne hfg] using hg)
  read := by
    intro g rest hg
    by_cases hfg : g = feed
    · subst hfg
      obtain rfl : _ = rest := by simpa using hg
      have hseen := h.unopened g hnone
      rw [h.lastOffset_unopened hnone]
      exact congrArg (fun items : List Item => items.map Item.result ++ _) hseen
    · exact h.read g rest (by simpa [Function.update_of_ne hfg] using hg)
  flags := h.flags
  led := h.led

/-- Nothing is read in the middle of an iteration: the calls of the last item come first. -/
theorem nextItem_ne_none {feed : Feed} {results : List (Except String ChangeEvent)}
    (h : s.nextItem feed results ≠ none) :
    (s.crew.worker feed).pending = [] ∧ (s.crew.worker feed).current = none := by
  have hreading : s.isReading feed = true := by
    by_contra hreading
    exact h (if_neg hreading)
  simp only [isReading, Bool.and_eq_true, List.isEmpty_iff, Option.isNone_iff_eq_none] at hreading
  exact hreading.1

/-- The item that is read comes off the stream, so none is lost between the stream and the task. -/
theorem nextItem_append (feed : Feed) (results : List (Except String ChangeEvent)) :
    (s.nextItem feed results).toList.map Item.result ++
      (if s.isReading feed then results.tail else results) = results := by
  unfold nextItem
  split_ifs with hreading
  · cases results with
    | nil => rfl
    | cons result rest => rfl
  · rfl

/-- It carries the leadership of this moment. -/
theorem isLeader_of_mem_nextItem {feed : Feed} {results : List (Except String ChangeEvent)}
    {item : Item} (h : item ∈ (s.nextItem feed results).toList) :
    item.isLeader = s.node.isLeader := by
  rw [Option.mem_toList, nextItem] at h
  split_ifs at h
  obtain ⟨result, -, rfl⟩ := Option.mem_map.mp h
  rfl

section TaskStep

variable {feed g : Feed} {results : List (Except String ChangeEvent)}

/-- A task's own step adds the item that it reads, if any, at the end of what it has seen. -/
theorem seen_taskStep_self (hopen : s.upcoming feed = some results) :
    (s.taskStep setup feed).seen feed = s.seen feed ++ (s.nextItem feed results).toList := by
  simp only [taskStep, hopen]
  exact Crew.seen_turn nextItem_ne_none

/-- A step of one task adds nothing to what the other has read. -/
theorem seen_taskStep_ne (hopen : s.upcoming feed = some results) (hg : g ≠ feed) :
    (s.taskStep setup feed).seen g = s.seen g := by
  simp only [taskStep, hopen]
  exact congrArg Worker.seen (Crew.turn_worker_ne hg _ _)

/-- A step takes the first result off the stream exactly if the task reads. -/
theorem upcoming_taskStep (hopen : s.upcoming feed = some results) :
    (s.taskStep setup feed).upcoming = Function.update s.upcoming feed
      (some (if s.isReading feed then results.tail else results)) := by
  simp only [taskStep, hopen]
  split_ifs with hreading
  · rfl
  · rw [← hopen, Function.update_eq_self]

/-- A task's step leaves the node alone. -/
theorem node_taskStep (hopen : s.upcoming feed = some results) :
    (s.taskStep setup feed).node = s.node := by
  simp only [taskStep, hopen]

/-- What was seen with leadership stays behind what was seen without, as a leader stays one. -/
theorem Inv.flags_append (h : Inv setup store s) (feed : Feed)
    (results : List (Except String ChangeEvent)) :
    ((s.seen feed ++ (s.nextItem feed results).toList).map Item.isLeader).Pairwise
      fun before after => before = true → after = true := by
  rw [List.map_append, List.pairwise_append]
  refine ⟨h.flags feed, ?_, fun before hbefore after hafter hled => ?_⟩
  · cases s.nextItem feed results with
    | none => exact List.Pairwise.nil
    | some item => exact List.pairwise_singleton _ _
  · obtain ⟨item, hitem, rfl⟩ := List.mem_map.mp hbefore
    obtain ⟨item', hitem', rfl⟩ := List.mem_map.mp hafter
    rw [isLeader_of_mem_nextItem hitem']
    exact h.led feed item hitem hled

/-- A step of a task with an open stream keeps the invariant. Each part is about the task itself or
the other one. -/
theorem Inv.turn (h : Inv setup store s) (hopen : s.upcoming feed = some results) :
    Inv setup store (s.taskStep setup feed) where
  alone := by
    simp only [taskStep, hopen]
    -- the shared store is dealt with once, by the independence of the turns
    exact h.alone.turn (turns_independent setup.env) feed _
  unopened := by
    intro g hg
    rw [upcoming_taskStep hopen] at hg
    by_cases hfg : g = feed
    · subst hfg
      simp at hg
    · rw [Function.update_of_ne hfg] at hg
      rw [seen_taskStep_ne hopen hfg, h.unopened g hg]
  read := by
    intro g rest hg
    rw [upcoming_taskStep hopen] at hg
    by_cases hfg : g = feed
    · subst hfg
      obtain rfl : _ = rest := by simpa using hg
      rw [seen_taskStep_self hopen, List.map_append, List.append_assoc, nextItem_append,
        h.read g results hopen]
    · rw [Function.update_of_ne hfg] at hg
      rw [seen_taskStep_ne hopen hfg, h.read g rest hg]
  flags := by
    intro g
    by_cases hfg : g = feed
    · subst hfg
      rw [seen_taskStep_self hopen]
      exact h.flags_append g results
    · rw [seen_taskStep_ne hopen hfg]
      exact h.flags g
  led := by
    intro g item hitem hled
    rw [node_taskStep hopen]
    by_cases hfg : g = feed
    · subst hfg
      rw [seen_taskStep_self hopen, List.mem_append] at hitem
      rcases hitem with hitem | hitem
      · exact h.led g item hitem hled
      · rw [← isLeader_of_mem_nextItem hitem, hled]
    · rw [seen_taskStep_ne hopen hfg] at hitem
      exact h.led g item hitem hled

end TaskStep

/-- Every step keeps the invariant; a step of one task leaves what the invariant says about the
other. -/
theorem Inv.step (h : Inv setup store s) (actor : Actor) : Inv setup store (step setup actor s) := by
  cases actor with
  | electionLoop => exact h.electionLoop
  | task feed =>
    cases hopen : s.upcoming feed with
    | none =>
      simp only [Engine.step, taskStep, hopen]
      exact h.openStream hopen
    | some results => exact h.turn hopen

/-- The invariant holds after every schedule of the election loop and the two tasks. -/
theorem inv_run (setup : Setup) (store : StateStore) (sched : List Actor) :
    Inv setup store ((start setup store).run setup sched) :=
  Interleave.run_invariant (fun actor _ h => h.step actor) (inv_start setup store) sched

/-- A task of the engine does what it does alone, on a beginning of the stream from its stored offset
on that it reads first without and then with leadership. -/
structure Undisturbed (setup : Setup) (store : StateStore) (feed : Feed) (s : Engine) : Prop where
  read : (s.handled feed).map Item.result <+:
    setup.stream feed (lastOffset store feed.sourceId)
  takeover : ∃ standby led, s.handled feed = standby ++ led ∧
    (∀ item ∈ standby, item.isLeader = false) ∧ ∀ item ∈ led, item.isLeader = true
  calls : s.made feed <+: trace setup.env (startup setup.env.serde store) (s.handled feed) feed
  offset : s.crew.store.getOffset feed.sourceId =
    (runEffects (startup setup.env.serde store) (s.made feed)).getOffset feed.sourceId

/-- The items of a task are those before and those after its node took the lead. -/
theorem Inv.takeover (h : Inv setup store s) (feed : Feed) :
    ∃ standby led, s.handled feed = standby ++ led ∧
      (∀ item ∈ standby, item.isLeader = false) ∧ ∀ item ∈ led, item.isLeader = true := by
  apply exists_append_of_pairwise
  exact List.Pairwise.sublist (List.sublist_append_left _ _) (List.pairwise_map.mp (h.flags feed))

/-- What the invariant says about one task. -/
theorem Inv.undisturbed (h : Inv setup store s) (feed : Feed) :
    Undisturbed setup store feed s := by
  refine ⟨?_, h.takeover feed, ?_, h.alone.view feed⟩
  · have hhandled : (s.handled feed).map Item.result <+: (s.seen feed).map Item.result :=
      (List.prefix_append _ _).map _
    cases hopen : s.upcoming feed with
    | none =>
      rw [h.unopened feed hopen, List.map_nil, List.prefix_nil] at hhandled
      rw [hhandled]
      exact List.nil_prefix
    | some rest => exact hhandled.trans ⟨rest, h.read feed rest hopen⟩
  · rw [trace_eq_outputs]
    exact h.alone.made_isPrefix feed

/-- **No order of steps lets the tasks of the engine disturb each other.** In every state of every
run each task has done what it does alone. -/
theorem tasks_undisturbed (setup : Setup) (store : StateStore) (sched : List Actor) (feed : Feed) :
    Undisturbed setup store feed ((start setup store).run setup sched) :=
  (inv_run setup store sched).undisturbed feed

end Engine

end Caminus.Pipeline

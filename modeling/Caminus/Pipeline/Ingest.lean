import Caminus.Buffer.TransactionBuffer
import Caminus.Resiliency.Dedup
import Caminus.Snapshot.Watermark
import Caminus.Storage.Compatibility

/-!
# The ingestion loops

The two tasks of `src/main.rs` read a source stream and pass each event through the deduplication
filter, for PostgreSQL the schema registry and the snapshotter, and the transaction buffer; what the
buffer flushes is transformed, sent and checkpointed. A task is modelled by the list of its visible
calls. Its memory is lost in a crash and the store is not, so what a crash leaves behind is what some
prefix of that list did.
-/

namespace Caminus.Pipeline

/-! ## Effects -/

/-- An entry of the dead letter queue: the event, the reason, the step that failed and the number of
attempts. -/
structure DlqRecord where
  failedEvent : ChangeEvent
  errorReason : String
  failedStep : String
  retryAttempts : ℕ

/-- A visible call of a task. A send carries the mutation it stems from and the answer of the
sink. -/
inductive Effect
  | transform (event : ChangeEvent)
  | kafkaSend (event transformed : ChangeEvent) (result : Except String Unit)
  | stdoutSend (transformed : ChangeEvent)
  | saveOffset (sourceId offset : String)
  | routeToDlq (record : DlqRecord)

/-- The effect on the store: the only calls that change it are those that save an offset. -/
def Effect.perform (store : StateStore) : Effect → StateStore
  | .saveOffset sourceId offset => store.saveOffset sourceId offset
  | _ => store

/-- The store after a list of calls. -/
def runEffects (store : StateStore) (effs : List Effect) : StateStore :=
  effs.foldl Effect.perform store

/-- What a task calls and does not own: the JSON library, the transformer and the Kafka sink. The
events of a run are told apart by their offsets, so functions of the event give every pattern of
results. -/
structure Env where
  serde : SerdeJson
  transform : ChangeEvent → Except String ChangeEvent
  kafkaSend : ChangeEvent → Except String Unit

/-- The environment with the identity as transform and a sink that always accepts. -/
def Env.passthrough (serde : SerdeJson) : Env := ⟨serde, .ok, fun _ => .ok ()⟩

/-- The flush of one mutation. The answers of the sinks are ignored. -/
def deliver (env : Env) (sourceId : String) (mutEvent : ChangeEvent) : List Effect :=
  match env.transform mutEvent with
  | .ok transformed =>
      [.transform mutEvent, .kafkaSend mutEvent transformed (env.kafkaSend transformed),
        .stdoutSend transformed, .saveOffset sourceId transformed.offset]
  | .error e => [.transform mutEvent, .routeToDlq ⟨mutEvent, e, "WasmTransform", 1⟩]

/-! ## The tasks -/

/-- What the PostgreSQL task keeps in memory. All of it is lost with the process. -/
structure PgTask where
  txBuffer : TransactionBuffer
  watermarkEngine : WatermarkSnapshotter
  dedupFilter : DeduplicationFilter

/-- The memory of the task at its start. The filter remembers a thousand ids. -/
def PgTask.new : PgTask := ⟨.new, .new, .new 1000⟩

/-- The PostgreSQL task on an event: duplicates are dropped, then come validation, the snapshotter,
the buffer, and the delivery of what it flushes. -/
def pgEvent (env : Env) (store : StateStore) (task : PgTask) (event : ChangeEvent) :
    List Effect × PgTask :=
  match task.dedupFilter.checkAndTrack event.id with
  | (true, dedupFilter) => ([], { task with dedupFilter := dedupFilter })
  | (false, dedupFilter) =>
      match SchemaRegistry.validateEvent env.serde store "postgres_users" event with
      | .error e =>
          ([.routeToDlq ⟨event, e.message, "SchemaValidation", 1⟩],
            { task with dedupFilter := dedupFilter })
      | .ok () =>
          match task.watermarkEngine.processReplicationEvent env.serde event with
          | (none, watermarkEngine) =>
              ([], ⟨task.txBuffer, watermarkEngine, dedupFilter⟩)
          | (some processedEvent, watermarkEngine) =>
              let (mutations, txBuffer) := task.txBuffer.process processedEvent
              (mutations.flatMap (deliver env "postgres_users"),
                ⟨txBuffer, watermarkEngine, dedupFilter⟩)

/-- What the Cassandra task keeps in memory. It has no snapshotter, and is otherwise like that of
the PostgreSQL task. -/
structure CassTask where
  txBuffer : TransactionBuffer
  dedupFilter : DeduplicationFilter

/-- The memory of the Cassandra task at its start. -/
def CassTask.new : CassTask := ⟨.new, .new 1000⟩

/-- The Cassandra task on an event: neither validation nor snapshots. -/
def cassEvent (env : Env) (_store : StateStore) (task : CassTask) (event : ChangeEvent) :
    List Effect × CassTask :=
  match task.dedupFilter.checkAndTrack event.id with
  | (true, dedupFilter) => ([], { task with dedupFilter := dedupFilter })
  | (false, dedupFilter) =>
      let (mutations, txBuffer) := task.txBuffer.process event
      (mutations.flatMap (deliver env "cassandra_sensors"), ⟨txBuffer, dedupFilter⟩)

/-- One iteration of a loop: the leadership it sees and the result the stream yields. -/
structure Item where
  isLeader : Bool
  result : Except String ChangeEvent

/-- A loop between two iterations: the task's memory, the store, and whether the loop still runs. -/
structure Loop (σ : Type) where
  task : σ
  store : StateStore
  running : Bool

/-- An iteration. An item read while another node leads is dropped, and an error of the stream ends
the loop. -/
def ingest {σ : Type} (handle : StateStore → σ → ChangeEvent → List Effect × σ) (loop : Loop σ)
    (item : Item) : List Effect × Loop σ :=
  if !loop.running then ([], loop)
  else if !item.isLeader then ([], loop)
  else
    match item.result with
    | .ok event =>
        let (effs, task) := handle loop.store loop.task event
        (effs, ⟨task, runEffects loop.store effs, true⟩)
    | .error _ => ([], { loop with running := false })

/-- The loop that a task runs: each source has its own, with its own order of checks. -/
inductive Feed
  | postgres
  | cassandra
deriving DecidableEq

/-- The key under which the offsets of a loop are stored; the PostgreSQL loop also validates under
it. -/
def Feed.sourceId : Feed → String
  | .postgres => "postgres_users"
  | .cassandra => "cassandra_sensors"

/-- The PostgreSQL loop at its start. -/
def pgStart (store : StateStore) : Loop PgTask := ⟨.new, store, true⟩

/-- The Cassandra loop at its start. -/
def cassStart (store : StateStore) : Loop CassTask := ⟨.new, store, true⟩

/-- The calls a task makes from its start, for a list of iterations. -/
def trace (env : Env) (store : StateStore) (items : List Item) : Feed → List Effect
  | .postgres => (Mealy.outputs (ingest (pgEvent env)) (pgStart store) items).flatten
  | .cassandra => (Mealy.outputs (ingest (cassEvent env)) (cassStart store) items).flatten

/-- The iterations over a list of events while the node leads. -/
def leading (evs : List ChangeEvent) : List Item := evs.map fun e => ⟨true, .ok e⟩

/-- The stored offset a task starts from (`src/consensus/failover.rs`). -/
def resumeCheckpointOffset (store : StateStore) (sourceId : String) : Option String :=
  match store.getOffset sourceId with
  | .ok (some offset) => some offset
  | _ => none

/-- The offset a task hands to its source: that of the failover controller, or else the one that it
reads itself. -/
def lastOffset (store : StateStore) (sourceId : String) : Option String :=
  (resumeCheckpointOffset store sourceId).or
    (match store.getOffset sourceId with
     | .ok offset => offset
     | .error _ => none)

/-- The schema that `main` registers for the PostgreSQL users at its start. -/
def userSchema : Json :=
  Json.obj [("fields", Json.obj [("id", .string "integer"), ("name", .string "string")])]

/-- The start of the engine on a store; a failed registration is only reported. -/
def startup (serde : SerdeJson) (store : StateStore) : StateStore :=
  match SchemaRegistry.registerSchema serde store "postgres_users" userSchema .backward with
  | .ok store => store
  | .error _ => store

/-- Starting the engine registers a schema and leaves the offsets alone. -/
theorem getOffset_startup (serde : SerdeJson) (store : StateStore) (sourceId : String) :
    (startup serde store).getOffset sourceId = store.getOffset sourceId := by
  unfold startup
  split
  · rename_i store' h
    rw [SchemaRegistry.registerSchema_eq_ok h, StateStore.getOffset_saveSchema]
  · rfl

/-- The schema of `main` is flat and without numbers, so it comes back from the store. -/
theorem readsBack_userSchema (serde : SerdeJson) : serde.ReadsBack userSchema :=
  .of_plain (by decide)

/-- A store on which the engine has been started holds its schema, also after any later start. -/
theorem getSchema_startup {serde : SerdeJson} {store : StateStore}
    (h : store.getSchema serde "postgres_users" = .ok none ∨
      store.getSchema serde "postgres_users" = .ok (some userSchema)) :
    (startup serde store).getSchema serde "postgres_users" = .ok (some userSchema) := by
  have hsame : SchemaRegistry.checkCompatibility serde userSchema userSchema .backward = .ok () := by
    rfl
  have hsaved := StateStore.getSchema_saveSchema_of_readsBack store "postgres_users"
    (readsBack_userSchema serde)
  unfold startup SchemaRegistry.registerSchema
  rcases h with h | h
  · simp [h, hsaved]
  · simp [h, hsame, hsaved]

/-- A fresh engine validates against the schema of `main`. -/
theorem validateEvent_startup (serde : SerdeJson) (e : ChangeEvent) :
    SchemaRegistry.validateEvent serde (startup serde .new) "postgres_users" e =
      SchemaRegistry.validateAgainst serde userSchema e := by
  rw [SchemaRegistry.validateEvent, getSchema_startup (Or.inl (StateStore.getSchema_new _ _))]

/-- The fields that the schema of `main` declares. -/
theorem fieldsOf_userSchema : SchemaRegistry.fieldsOf userSchema =
    some (Map.ofList [("id", .string "integer"), ("name", .string "string")]) := by
  rfl

/-- What the schema of `main` asks of a payload. -/
theorem validateAgainst_userSchema {serde : SerdeJson} {e : ChangeEvent} {payload : Map Json}
    (n : ℕ) (name : String) (hpayload : e.after.bind Json.asObject = some payload)
    (hid : payload.get? "id" = some (.nat n)) (hname : payload.get? "name" = some (.string name)) :
    SchemaRegistry.validateAgainst serde userSchema e = .ok () := by
  by_cases hop : SchemaRegistry.IsCreateOrUpdate e
  · rw [SchemaRegistry.validateAgainst_eq_ok_iff fieldsOf_userSchema hop]
    refine ⟨payload, hpayload, fun p hp => ?_⟩
    have hcases : p = ("id", .string "integer") ∨ p = ("name", .string "string") := by
      have hentries : (Map.ofList [("id", .string "integer"), ("name", .string "string")]).entries =
          [("id", Json.string "integer"), ("name", .string "string")] := by decide
      simpa [hentries] using hp
    rcases hcases with rfl | rfl
    · exact ⟨"integer", .nat n, rfl, hid, rfl⟩
    · exact ⟨"string", .string name, rfl, hname, rfl⟩
  · rw [SchemaRegistry.validateAgainst, fieldsOf_userSchema]
    exact if_pos (not_or.mp hop)

/-- A sample event on row `n` of the users. -/
def userEvent (n : ℕ) (operation : Operation) (tx : Option String) : ChangeEvent where
  id := "evt-" ++ n.repr
  sourceDatabase := "db"
  sourceTableOrCollection := "users"
  operation := operation
  timestamp := 0
  key := Json.obj [("id", .nat n)]
  before := none
  after := some (Json.obj [("id", .nat n), ("name", .string "John")])
  transactionId := tx
  offset := n.repr

/-- The sample events pass the schema of `main`. -/
theorem validateAgainst_userEvent (serde : SerdeJson) (n : ℕ) (operation : Operation)
    (tx : Option String) :
    SchemaRegistry.validateAgainst serde userSchema (userEvent n operation tx) = .ok () := by
  refine validateAgainst_userSchema n "John" (Json.asObject_ofMap _) ?_ ?_
  · simp [Map.ofList]
  · simp [Map.ofList]

/-! ## What a loop does, without its state -/

/-- What happens to an event in front of the buffer: it fails validation, it is a row that only
moves the window, or it goes on. -/
inductive Screening
  | deadLetter (record : DlqRecord)
  | filtered
  | forwarded

/-- What the loops do with an event before the buffer. Cassandra events go straight to it. -/
def screen (env : Env) (store : StateStore) : Feed → ChangeEvent → Screening
  | .postgres, e =>
      match SchemaRegistry.validateEvent env.serde store "postgres_users" e with
      | .error err => .deadLetter ⟨e, err.message, "SchemaValidation", 1⟩
      | .ok () => if e.isWatermarkRow then .filtered else .forwarded
  | .cassandra, _ => .forwarded

/-- The three ways of a PostgreSQL event, with the condition that decides between the first two. -/
theorem screen_postgres_cases (env : Env) (store : StateStore) (e : ChangeEvent) :
    screen env store .postgres e = .forwarded ∧ e.isWatermarkRow = false ∨
    screen env store .postgres e = .filtered ∧ e.isWatermarkRow = true ∨
    ∃ reason, screen env store .postgres e = .deadLetter ⟨e, reason, "SchemaValidation", 1⟩ := by
  cases hval : SchemaRegistry.validateEvent env.serde store "postgres_users" e with
  | error err => exact Or.inr (Or.inr ⟨err.message, by simp [screen, hval]⟩)
  | ok u =>
    by_cases hrow : e.isWatermarkRow = true
    · exact Or.inr (Or.inl ⟨by simp [screen, hval, hrow], hrow⟩)
    · exact Or.inl ⟨by simp [screen, hval, hrow], by simpa using hrow⟩

/-- Validation and the snapshotter forward an event, filter it, or dead-letter it under its name. -/
theorem screen_cases (env : Env) (store : StateStore) (feed : Feed) (e : ChangeEvent) :
    screen env store feed e = .forwarded ∨ screen env store feed e = .filtered ∨
    ∃ reason, screen env store feed e = .deadLetter ⟨e, reason, "SchemaValidation", 1⟩ := by
  cases feed with
  | cassandra => exact Or.inl rfl
  | postgres =>
    rcases screen_postgres_cases env store e with ⟨h, -⟩ | ⟨h, -⟩ | h
    · exact Or.inl h
    · exact Or.inr (Or.inl h)
    · exact Or.inr (Or.inr h)

/-- The sample events pass a fresh engine, so that results about passing events are not empty. -/
theorem screen_userEvent (env : Env) (feed : Feed) (n : ℕ) (operation : Operation)
    (tx : Option String) :
    screen env (startup env.serde .new) feed (userEvent n operation tx) = .forwarded := by
  have hvalid := validateEvent_startup env.serde (userEvent n operation tx)
  rw [validateAgainst_userEvent] at hvalid
  cases feed with
  | postgres =>
    simp only [screen, hvalid]
    rfl
  | cassandra => rfl

/-- The event reaches the buffer: it is neither filtered nor dead-lettered. -/
def reaches (env : Env) (store : StateStore) (feed : Feed) (e : ChangeEvent) : Bool :=
  match screen env store feed e with
  | .forwarded => true
  | _ => false

/-- The calls for an event, after the events `hist` have reached the buffer. -/
def effectsOf (env : Env) (store : StateStore) (feed : Feed) (hist : List ChangeEvent)
    (e : ChangeEvent) : List Effect :=
  match screen env store feed e with
  | .deadLetter record => [.routeToDlq record]
  | .filtered => []
  | .forwarded => (TransactionBuffer.flushOf hist e).flatMap (deliver env feed.sourceId)

/-- The events that have reached the buffer once `e` is processed. -/
def advance (env : Env) (store : StateStore) (feed : Feed) (hist : List ChangeEvent)
    (e : ChangeEvent) : List ChangeEvent :=
  if reaches env store feed e then hist ++ [e] else hist

/-- The calls for a list of events, after those in `hist`; the history stands for what is in memory. -/
def run (env : Env) (store : StateStore) (feed : Feed) :
    List ChangeEvent → List ChangeEvent → List Effect
  | _, [] => []
  | hist, e :: evs =>
      effectsOf env store feed hist e ++ run env store feed (advance env store feed hist e) evs

/-- The events a loop takes from its iterations. What comes while the node does not lead is dropped,
and an error ends the loop. -/
def consumed : List Item → List ChangeEvent
  | [] => []
  | item :: items =>
      if !item.isLeader then consumed items
      else
        match item.result with
        | .ok event => event :: consumed items
        | .error _ => []

@[simp] theorem consumed_leading (evs : List ChangeEvent) : consumed (leading evs) = evs := by
  induction evs with
  | nil => rfl
  | cons e evs ih => simpa [leading, consumed] using ih

/-- Effects change offsets alone, so every event is validated against the schema of the start. -/
theorem getSchema_runEffects (serde : SerdeJson) (store : StateStore) (effs : List Effect)
    (sourceId : String) :
    (runEffects store effs).getSchema serde sourceId = store.getSchema serde sourceId := by
  induction effs generalizing store with
  | nil => rfl
  | cons eff effs ih =>
    rw [runEffects, List.foldl_cons, ← runEffects, ih]
    cases eff <;> simp [Effect.perform]

/-- No call changes what is validated, since no call writes a schema. -/
theorem screen_runEffects (env : Env) (store : StateStore) (effs : List Effect) :
    screen env (runEffects store effs) = screen env store := by
  funext feed e
  cases feed with
  | postgres => simp only [screen, SchemaRegistry.validateEvent, getSchema_runEffects]
  | cassandra => rfl

/-- Nor does a call change what is called for a later event. -/
theorem effectsOf_runEffects (env : Env) (store : StateStore) (effs : List Effect) :
    effectsOf env (runEffects store effs) = effectsOf env store := by
  funext feed hist e
  unfold effectsOf
  rw [screen_runEffects]

/-- Nor does it change whether a later event reaches the buffer. -/
theorem reaches_runEffects (env : Env) (store : StateStore) (effs : List Effect) :
    reaches env (runEffects store effs) = reaches env store := by
  funext feed e
  unfold reaches
  rw [screen_runEffects]

/-- So the calls for a list of events can be computed on the store at the start. -/
theorem run_runEffects (env : Env) (store : StateStore) (effs : List Effect) (feed : Feed) :
    run env (runEffects store effs) feed = run env store feed := by
  funext hist evs
  induction evs generalizing hist with
  | nil => rfl
  | cons e evs ih => rw [run, run, ih, effectsOf_runEffects, advance, advance, reaches_runEffects]

/-! ## The loops do that -/

/-- A task is in the state that the filter `f` and the events `hist` at the buffer describe. -/
def PgTask.Rep (f : DeduplicationFilter) (hist : List ChangeEvent) (task : PgTask) : Prop :=
  task.dedupFilter = f ∧ TransactionBuffer.Holds hist task.txBuffer

/-- The same for the Cassandra task, which has no snapshotter. -/
def CassTask.Rep (f : DeduplicationFilter) (hist : List ChangeEvent) (task : CassTask) : Prop :=
  task.dedupFilter = f ∧ TransactionBuffer.Holds hist task.txBuffer

/-- A handler drops what the filter reports as a duplicate and does what `effectsOf` says for every
other event. -/
structure Handles {σ : Type} (env : Env) (feed : Feed)
    (handle : StateStore → σ → ChangeEvent → List Effect × σ)
    (Rep : DeduplicationFilter → List ChangeEvent → σ → Prop) : Prop where
  duplicate : ∀ {f hist task} store e, Rep f hist task → (f.checkAndTrack e.id).1 = true →
    (handle store task e).1 = [] ∧ Rep (f.checkAndTrack e.id).2 hist (handle store task e).2
  new : ∀ {f hist task} store e, Rep f hist task → (f.checkAndTrack e.id).1 = false →
    (handle store task e).1 = effectsOf env store feed hist e ∧
      Rep (f.checkAndTrack e.id).2 (advance env store feed hist e) (handle store task e).2

/-- The PostgreSQL task as a handler: the snapshotter's own state does not matter for what is
called. -/
theorem pgEvent_handles (env : Env) : Handles env .postgres (pgEvent env) PgTask.Rep where
  duplicate := by
    rintro f hist task store e ⟨rfl, hbuf⟩ hdup
    have hpair : task.dedupFilter.checkAndTrack e.id =
        (true, (task.dedupFilter.checkAndTrack e.id).2) := Prod.ext hdup rfl
    unfold pgEvent
    rw [hpair]
    exact ⟨rfl, rfl, hbuf⟩
  new := by
    rintro f hist task store e ⟨rfl, hbuf⟩ hnew
    have hpair : task.dedupFilter.checkAndTrack e.id =
        (false, (task.dedupFilter.checkAndTrack e.id).2) := Prod.ext hnew rfl
    -- whatever the window, the snapshotter hands on all but the watermark rows
    have hws : task.watermarkEngine.processReplicationEvent env.serde e =
        (if e.isWatermarkRow then none else some e,
          (task.watermarkEngine.processReplicationEvent env.serde e).2) :=
      Prod.ext (WatermarkSnapshotter.processReplicationEvent_fst _ _) rfl
    unfold pgEvent
    rw [hpair, hws]
    cases hval : SchemaRegistry.validateEvent env.serde store "postgres_users" e with
    | error err =>
      simp only [effectsOf, advance, reaches, screen, hval]
      exact ⟨trivial, rfl, hbuf⟩
    | ok u =>
      by_cases hrow : e.isWatermarkRow = true
      · simp only [effectsOf, advance, reaches, screen, hval, hrow, if_true]
        exact ⟨trivial, rfl, hbuf⟩
      · simp only [effectsOf, advance, reaches, screen, hval, hrow]
        refine ⟨?_, rfl, hbuf.process e⟩
        exact congrArg (List.flatMap _) (hbuf.process_fst e)

/-- The Cassandra task as a handler. -/
theorem cassEvent_handles (env : Env) : Handles env .cassandra (cassEvent env) CassTask.Rep where
  duplicate := by
    rintro f hist task store e ⟨rfl, hbuf⟩ hdup
    have hpair : task.dedupFilter.checkAndTrack e.id =
        (true, (task.dedupFilter.checkAndTrack e.id).2) := Prod.ext hdup rfl
    unfold cassEvent
    rw [hpair]
    exact ⟨rfl, rfl, hbuf⟩
  new := by
    rintro f hist task store e ⟨rfl, hbuf⟩ hnew
    have hpair : task.dedupFilter.checkAndTrack e.id =
        (false, (task.dedupFilter.checkAndTrack e.id).2) := Prod.ext hnew rfl
    unfold cassEvent
    rw [hpair]
    refine ⟨?_, rfl, hbuf.process e⟩
    exact congrArg (List.flatMap _) (hbuf.process_fst e)

/-- The events that reach the buffer, in order: the valid ones that are not watermark rows. -/
def reaching (env : Env) (store : StateStore) (feed : Feed) (evs : List ChangeEvent) :
    List ChangeEvent :=
  evs.filter (reaches env store feed)

/-- One event at a time, or all of them at once: the history of the buffer is the same. -/
theorem advance_append_reaching (env : Env) (store : StateStore) (feed : Feed)
    (hist : List ChangeEvent) (e : ChangeEvent) (evs : List ChangeEvent) :
    advance env store feed hist e ++ reaching env store feed evs =
      hist ++ reaching env store feed (e :: evs) := by
  unfold advance reaching
  rw [List.filter_cons]
  split_ifs with h
  · rw [List.append_assoc, List.singleton_append]
  · rfl

/-- A loop that an error of the stream has ended calls nothing more. -/
theorem outputs_final_of_stopped {σ : Type}
    (handle : StateStore → σ → ChangeEvent → List Effect × σ) (items : List Item) (loop : Loop σ)
    (hloop : loop.running = false) :
    (Mealy.outputs (ingest handle) loop items).flatten = [] ∧
      Mealy.final (ingest handle) loop items = loop := by
  induction items with
  | nil => exact ⟨rfl, rfl⟩
  | cons item items ih =>
    rw [Mealy.outputs_cons, Mealy.final_cons, List.flatten_cons]
    simpa [ingest, hloop] using ih

/-- A loop around a handler makes the calls of `run` on the events it takes that are no duplicates,
and its task ends in the state those events describe. By induction on the items, for any state that
is so described. -/
theorem Handles.outputs_final {σ : Type} {env : Env} {feed : Feed}
    {handle : StateStore → σ → ChangeEvent → List Effect × σ}
    {Rep : DeduplicationFilter → List ChangeEvent → σ → Prop} (h : Handles env feed handle Rep)
    (items : List Item) {f : DeduplicationFilter} {hist : List ChangeEvent} {task : σ}
    (store : StateStore) (hrep : Rep f hist task) :
    (Mealy.outputs (ingest handle) ⟨task, store, true⟩ items).flatten =
        run env store feed hist (f.fresh (consumed items)) ∧
      ∃ f', Rep f' (hist ++ reaching env store feed (f.fresh (consumed items)))
        (Mealy.final (ingest handle) ⟨task, store, true⟩ items).task := by
  induction items generalizing f hist task store with
  | nil => exact ⟨rfl, f, by simpa [consumed, DeduplicationFilter.fresh, reaching] using hrep⟩
  | cons item items ih =>
    obtain ⟨isLeader, result⟩ := item
    rw [Mealy.outputs_cons, Mealy.final_cons, List.flatten_cons]
    cases isLeader with
    | false => exact ih store hrep
    | true =>
      cases result with
      | error err =>
        obtain ⟨houts, hfinal⟩ := outputs_final_of_stopped handle items ⟨task, store, false⟩ rfl
        have hlast : Mealy.final (ingest handle)
            (ingest handle ⟨task, store, true⟩ ⟨true, .error err⟩).2 items = ⟨task, store, false⟩ :=
          hfinal
        refine ⟨houts, f, ?_⟩
        rw [hlast]
        simpa [consumed, reaching] using hrep
      | ok e =>
        have hconsumed : consumed (⟨true, .ok e⟩ :: items) = e :: consumed items := rfl
        rw [hconsumed]
        cases hdup : (f.checkAndTrack e.id).1 with
        | true =>
          obtain ⟨heffs, hrep'⟩ := h.duplicate store e hrep hdup
          rw [DeduplicationFilter.fresh_cons_of_duplicate _ hdup]
          simpa [ingest, heffs, runEffects] using ih store hrep'
        | false =>
          obtain ⟨heffs, hrep'⟩ := h.new store e hrep hdup
          obtain ⟨houts, f', hfinal⟩ := ih (runEffects store (handle store task e).1) hrep'
          -- the calls of this iteration have changed the store, but nothing that `run` reads
          rw [run_runEffects] at houts
          rw [reaching, reaches_runEffects, ← reaching, advance_append_reaching] at hfinal
          rw [DeduplicationFilter.fresh_cons_of_new _ hdup]
          refine ⟨?_, f', hfinal⟩
          rw [run, ← heffs, ← houts]
          rfl

/-- The events of a stream of iterations that a loop handles: taken while the node leads, and no
duplicates. -/
def admitted (items : List Item) : List ChangeEvent :=
  (DeduplicationFilter.new 1000).fresh (consumed items)

/-- **Every loop is `run` on its admitted events.** This is how results about histories of events
become results about the loops of `main`. -/
theorem trace_eq_run (env : Env) (store : StateStore) (items : List Item) (feed : Feed) :
    trace env store items feed = run env store feed [] (admitted items) := by
  cases feed with
  | postgres =>
    exact ((pgEvent_handles env).outputs_final items store
      ⟨rfl, TransactionBuffer.holds_new⟩).1
  | cassandra =>
    exact ((cassEvent_handles env).outputs_final items store
      ⟨rfl, TransactionBuffer.holds_new⟩).1

/-- The PostgreSQL task after a list of iterations. -/
def pgFinal (env : Env) (store : StateStore) (items : List Item) : PgTask :=
  (Mealy.final (ingest (pgEvent env)) (pgStart store) items).task

/-- The buffer holds what is pending among the events that reached it. -/
theorem holds_pgFinal (env : Env) (store : StateStore) (items : List Item) :
    TransactionBuffer.Holds (reaching env store .postgres (admitted items))
      (pgFinal env store items).txBuffer := by
  have hnew : PgTask.Rep (.new 1000) [] PgTask.new := ⟨rfl, TransactionBuffer.holds_new⟩
  obtain ⟨-, f', -, hbuf⟩ := (pgEvent_handles env).outputs_final items store hnew
  exact hbuf

end Caminus.Pipeline

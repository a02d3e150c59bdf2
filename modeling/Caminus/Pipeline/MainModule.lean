import Caminus.Pipeline.Delivery
import Caminus.Sync.Forwarding
import Caminus.Transform.Passthrough

/-!
# The loops with the module and the sink of `main`

`main` gives its tasks the passthrough module and a `KafkaSink` (`src/main.rs`, `src/sink/kafka.rs`).
Then each mutation that the buffer flushes is sent and checkpointed as it comes back from its text, if
this fits into a page of the module and can be read, and is dead-lettered otherwise (`main_outcomes`).
-/

namespace Caminus

/-- The errors of the sink. -/
inductive KafkaSinkError
  | connection (reason : String)
  | delivery (reason : String)

/-- Their texts. -/
def KafkaSinkError.message : KafkaSinkError → String
  | .connection reason => "Broker connection error: " ++ reason
  | .delivery reason => "Message delivery failed: " ++ reason

/-- The sink only writes the event as text: no broker is asked. -/
def KafkaSink.send (serde : EventSerde) (event : ChangeEvent) : Except KafkaSinkError Unit :=
  match serializeEvent serde event with
  | .ok _ => .ok ()
  | .error reason => .error (.delivery reason)

/-- Every event can be written as text, so the sink of `main` accepts all of them. -/
theorem KafkaSink.send_eq_ok (serde : EventSerde) (event : ChangeEvent) :
    KafkaSink.send serde event = .ok () := by
  obtain ⟨text, hwrite⟩ := serde.writeEvent_ok event
  rw [KafkaSink.send, serializeEvent, hwrite]

namespace Pipeline

/-- The libraries that the engine calls: `serde_json` for values and for events, and the messages of
errors. -/
structure Libraries where
  json : SerdeJson
  events : EventSerde
  reason : List UInt8 → String
  message : TransformError → String

variable (libs : Libraries)

/-- The surroundings that `main` gives to its tasks. Its module does not panic. -/
def Env.main : Env where
  serde := libs.json
  transform := fun event =>
    match WasmTransformer.passthrough.transform libs.events libs.reason event with
    | .returned (.ok transformed) => .ok transformed
    | .returned (.error e) => .error (libs.message e)
    | .panicked => .error "panicked"
  kafkaSend := fun event => (KafkaSink.send libs.events event).mapError KafkaSinkError.message

/-- The text of the event fits into one page of guest memory. -/
def fitsPage (event : ChangeEvent) : Bool :=
  match libs.events.toVec event with
  | .ok bytes => bytes.length ≤ 65536
  | .error _ => false

/-- What the module makes of an event: the host writes it as text, and reads back the text that the
module returns. -/
def moduleResult (event : ChangeEvent) : Except TransformError ChangeEvent :=
  WasmTransformer.passedThrough libs.events libs.reason event

/-- The transformer of `main` is the module, with its error as text. -/
theorem transform_main (event : ChangeEvent) :
    (Env.main libs).transform event = (moduleResult libs event).mapError libs.message := by
  simp only [Env.main, WasmTransformer.transform_passthrough, moduleResult]
  cases WasmTransformer.passedThrough libs.events libs.reason event with
  | ok transformed => rfl
  | error e => rfl

/-- A text that does not fit is refused before it is read: the write into the memory fails. -/
theorem moduleResult_of_not_fitsPage {event : ChangeEvent} (h : fitsPage libs event = false) :
    moduleResult libs event = .error .memoryAccess := by
  obtain ⟨bytes, htext⟩ := libs.events.toVec_ok event
  simp only [fitsPage, htext, decide_eq_false_iff_not] at h
  simp only [moduleResult, WasmTransformer.passedThrough, htext, h, if_false]

/-- A mutation whose members come back goes through if it fits, up to its `null` values. -/
theorem moduleResult_of_readsBack {event : ChangeEvent} (hread : libs.events.ReadsBack event)
    (h : fitsPage libs event = true) : moduleResult libs event = .ok event.withoutNulls := by
  obtain ⟨bytes, htext⟩ := libs.events.toVec_ok event
  simp only [fitsPage, htext, decide_eq_true_eq] at h
  exact WasmTransformer.passedThrough_of_readsBack hread htext h

/-- The sink of `main` accepts every event: it serialises and prints it, and serialisation succeeds. -/
theorem kafkaSend_main (event : ChangeEvent) : (Env.main libs).kafkaSend event = .ok () := by
  simp only [Env.main, KafkaSink.send_eq_ok]
  rfl

/-- What becomes of a flushed mutation: it goes to both sinks and its offset is saved, or it goes to
the dead letter queue if the module does not give it back. -/
def mainDelivery (sourceId : String) (m : ChangeEvent) : List Effect :=
  match moduleResult libs m with
  | .ok t =>
      [.transform m, .kafkaSend m t (.ok ()), .stdoutSend t, .saveOffset sourceId m.offset]
  | .error e => [.transform m, .routeToDlq ⟨m, libs.message e, "WasmTransform", 1⟩]

/-- The module keeps the offset, so it is the mutation's own that is saved. -/
theorem deliver_main (sourceId : String) :
    deliver (.main libs) sourceId = mainDelivery libs sourceId := by
  funext m
  rw [deliver, transform_main, mainDelivery]
  cases hresult : moduleResult libs m with
  | error e => rfl
  | ok t =>
    have hoffset : t.offset = m.offset := by
      rw [(WasmTransformer.alike_of_passedThrough hresult).rest]
    show [Effect.transform m, .kafkaSend m t ((Env.main libs).kafkaSend t), .stdoutSend t,
      .saveOffset sourceId t.offset] = _
    rw [kafkaSend_main, hoffset]

/-- The dead letter of an event that fails validation. -/
def Effect.isRejection : Effect → Bool
  | .routeToDlq record => record.failedStep == "SchemaValidation"
  | _ => false

/-- No call of a delivery is a dead letter of validation. -/
theorem isRejection_deliver (env : Env) (sourceId : String) (m : ChangeEvent) :
    ∀ eff ∈ deliver env sourceId m, eff.isRejection = false := by
  cases htr : env.transform m with
  | ok t => simp [deliver, htr, Effect.isRejection]
  | error err => simp [deliver, htr, Effect.isRejection]

/-- The dead letter of an event, if it fails validation; only the PostgreSQL loop validates. -/
def rejection (env : Env) (store : StateStore) (feed : Feed) (e : ChangeEvent) : Option Effect :=
  match screen env store feed e with
  | .deadLetter record => some (.routeToDlq record)
  | _ => none

variable {env : Env} {store : StateStore} {feed : Feed}

/-- The same for the deliveries of a list of mutations: none of their calls is filtered out. -/
theorem filter_deliver (sourceId : String) (ms : List ChangeEvent) :
    (ms.flatMap (deliver env sourceId)).filter Effect.isRejection = [] ∧
      (ms.flatMap (deliver env sourceId)).filter (fun eff => !eff.isRejection) =
        ms.flatMap (deliver env sourceId) := by
  have hnone : ∀ eff ∈ ms.flatMap (deliver env sourceId), eff.isRejection = false := by
    intro eff heff
    obtain ⟨m, -, hm⟩ := List.mem_flatMap.mp heff
    exact isRejection_deliver env sourceId m eff hm
  exact ⟨List.filter_eq_nil_iff.mpr fun eff heff => by simp [hnone eff heff],
    List.filter_eq_self.mpr fun eff heff => by simp [hnone eff heff]⟩

/-- The calls of a loop come apart into the dead letters of validation and the deliveries. -/
theorem filter_run (hist evs : List ChangeEvent) :
    (run env store feed hist evs).filter Effect.isRejection =
        evs.filterMap (rejection env store feed) ∧
      (run env store feed hist evs).filter (fun eff => !eff.isRejection) =
        (delivered (jobs env store feed hist evs)).flatMap (deliver env feed.sourceId) := by
  induction evs generalizing hist with
  | nil => exact ⟨rfl, rfl⟩
  | cons e evs ih =>
    obtain ⟨hrejected, hdelivered⟩ := ih (advance env store feed hist e)
    rw [run, jobs, List.filter_append, List.filter_append, hrejected, hdelivered, delivered_append,
      List.flatMap_append, List.filterMap_cons]
    rcases screen_cases env store feed e with h | h | ⟨reason, h⟩
    · obtain ⟨hnone, hall⟩ := @filter_deliver env feed.sourceId
        (TransactionBuffer.flushOf hist e)
      simp [effectsOf, jobsOf, rejection, h, hnone, hall]
    · simp [effectsOf, jobsOf, rejection, h, delivered]
    · simp [effectsOf, jobsOf, rejection, h, delivered, Effect.isRejection]

/-- The mutations that the buffer flushes on a list of items, in order. -/
def mainFlushed (store : StateStore) (feed : Feed) (items : List Item) : List ChangeEvent :=
  (TransactionBuffer.flushes (reaching (.main libs) store feed (admitted items))).flatten

/-- The mutation comes out of the module, that is its text fits into the page and can be read again. -/
def goesThrough (m : ChangeEvent) : Bool := (moduleResult libs m).isOk

/-- What the calls of a task of `main` are: the dead letters of validation, and a delivery for each
flushed mutation, of which the fields say what the module makes of it. -/
structure MainOutcome (libs : Libraries) (store : StateStore) (feed : Feed) (items : List Item) :
    Prop where
  /-- Each admitted event that fails validation is dead-lettered, once and in order. -/
  rejected : (trace (.main libs) store items feed).filter Effect.isRejection =
    (admitted items).filterMap (rejection (.main libs) store feed)
  /-- All other calls are about what the buffer flushes, one mutation after the other. -/
  flushed : (trace (.main libs) store items feed).filter (fun eff => !eff.isRejection) =
    (mainFlushed libs store feed items).flatMap (mainDelivery libs feed.sourceId)
  /-- A mutation whose text is longer than a page is dead-lettered with the memory access error. -/
  tooLong : ∀ m ∈ mainFlushed libs store feed items, fitsPage libs m = false →
    moduleResult libs m = .error .memoryAccess
  /-- One that fits and comes back from its text is sent, without its `null` values. -/
  unchanged : ∀ m ∈ mainFlushed libs store feed items, libs.events.ReadsBack m →
    fitsPage libs m = true → moduleResult libs m = .ok m.withoutNulls
  /-- In any case what is sent differs from the mutation in floats and `null` values only. -/
  alike : ∀ m ∈ mainFlushed libs store feed items, ∀ t, moduleResult libs m = .ok t → m.Alike t
  /-- In the end the offset is that of the last flushed mutation that comes out of the module. -/
  offset : (runEffects store (trace (.main libs) store items feed)).getOffset feed.sourceId =
    (((mainFlushed libs store feed items).filter (goesThrough libs)).getLast?).elim
      (store.getOffset feed.sourceId) fun m => .ok (some m.offset)

/-- The offsets that the deliveries save are those of the mutations that come out of the module. -/
theorem filterMap_savedFor_deliver (sourceId : String) (ms : List ChangeEvent) :
    (ms.flatMap (deliver (.main libs) sourceId)).filterMap (Effect.savedFor sourceId) =
      (ms.filter (goesThrough libs)).map ChangeEvent.offset := by
  induction ms with
  | nil => rfl
  | cons m ms ih =>
    rw [List.flatMap_cons, List.filterMap_append, ih, deliver_main, mainDelivery, List.filter_cons,
      goesThrough]
    cases moduleResult libs m with
    | ok t => simp [Except.isOk, Except.toBool, List.filterMap_cons, Effect.savedFor]
    | error e => simp [Except.isOk, Except.toBool, Effect.savedFor]

/-- The dead letters of validation save nothing, so they can be left out when offsets are counted. -/
theorem filterMap_savedFor_filter (sourceId : String) (effs : List Effect) :
    (effs.filter fun eff => !eff.isRejection).filterMap (Effect.savedFor sourceId) =
      effs.filterMap (Effect.savedFor sourceId) := by
  rw [List.filterMap_filter]
  refine List.filterMap_congr fun eff _ => ?_
  cases eff with
  | routeToDlq record =>
    cases hrej : Effect.isRejection (.routeToDlq record) with
    | true => rfl
    | false => rfl
  | _ => rfl

/-- **What a task of `main` does with all it is given.** It holds of every event, also of one that
the module refuses or gives back with other digits. -/
theorem main_outcomes (libs : Libraries) (store : StateStore) (feed : Feed) (items : List Item) :
    MainOutcome libs store feed items := by
  obtain ⟨hrejected, hdelivered⟩ := @filter_run (.main libs) store feed [] (admitted items)
  rw [← trace_eq_run] at hrejected hdelivered
  rw [delivered_jobs] at hdelivered
  refine ⟨hrejected, ?_, fun m _ => moduleResult_of_not_fitsPage libs,
    fun m _ => moduleResult_of_readsBack libs,
    fun m _ t => WasmTransformer.alike_of_passedThrough, ?_⟩
  · rw [hdelivered, deliver_main]
    rfl
  · rw [getOffset_runEffects, ← filterMap_savedFor_filter, hdelivered, filterMap_savedFor_deliver,
      List.getLast?_map]
    exact Option.elim_map ..

end Pipeline

end Caminus

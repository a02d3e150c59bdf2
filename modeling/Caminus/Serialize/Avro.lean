import Caminus.Source.EventText
import Caminus.Storage.Confluent

/-!
# The event encoder

`AvroEncoder` (`src/serialize/avro.rs`) frames the text of an event with the id of the subject of its
table. Frames of different tables carry different ids (`subjectsApart`). An event whose members come back
from their text comes back from its frame exactly if no optional payload of it is a `null` value
(`roundTrips_iff`).
-/

namespace Caminus

/-! ## Events as bytes -/

namespace EventSerde

variable (serde : EventSerde)

/-- `serde_json::to_vec`: the bytes of the text of an event. -/
def toVec (event : ChangeEvent) : Except String (List UInt8) :=
  match serde.writeEvent event with
  | .ok text => .ok (Bytes.ofString text)
  | .error reason => .error reason

/-- `serde_json::from_slice`: the bytes have to be UTF-8, and their text that of an event. -/
def fromSlice (bytes : List UInt8) : Option ChangeEvent :=
  (Bytes.toString? bytes).bind serde.readEvent

/-- Every event can be written: writing has no limit on nesting, other than reading. -/
theorem toVec_ok (event : ChangeEvent) : ∃ bytes, serde.toVec event = .ok bytes := by
  obtain ⟨text, hwrite⟩ := serde.writeEvent_ok event
  exact ⟨Bytes.ofString text, by rw [toVec, hwrite]⟩

variable {serde}

/-- Bytes are read as the text that they are. -/
theorem fromSlice_of_toVec {event : ChangeEvent} {bytes : List UInt8}
    (hbytes : serde.toVec event = .ok bytes) :
    ∃ text, serde.writeEvent event = .ok text ∧ serde.fromSlice bytes = serde.readEvent text := by
  obtain ⟨text, hwrite⟩ := serde.writeEvent_ok event
  rw [toVec, hwrite] at hbytes
  refine ⟨text, hwrite, ?_⟩
  rw [← Except.ok.inj hbytes, fromSlice, Bytes.toString?_ofString, Option.bind_some]

/-- An event whose members come back comes back from its bytes, up to its `null` values. -/
theorem ReadsBack.fromSlice {event : ChangeEvent} (h : serde.ReadsBack event) {bytes : List UInt8}
    (hbytes : serde.toVec event = .ok bytes) :
    serde.fromSlice bytes = some event.withoutNulls := by
  obtain ⟨text, hwrite, hslice⟩ := fromSlice_of_toVec hbytes
  obtain ⟨text', hwrite', hread⟩ := h.readEvent
  obtain rfl := Except.ok.inj (hwrite.symm.trans hwrite')
  exact hslice.trans hread

/-- Whatever comes back from the bytes of an event differs from it in floats and `null` values only. -/
theorem alike_of_fromSlice {event event' : ChangeEvent} {bytes : List UInt8}
    (hbytes : serde.toVec event = .ok bytes) (hread : serde.fromSlice bytes = some event') :
    event.Alike event' := by
  obtain ⟨text, hwrite, hslice⟩ := fromSlice_of_toVec hbytes
  exact alike_of_readEvent hwrite (hslice.symm.trans hread)

end EventSerde

/-- The encoder owns the client of the schema registry, whose cache it fills. -/
structure AvroEncoder where
  registryClient : ConfluentRegistryClient

namespace AvroEncoder

def new (registryUrl : String) : AvroEncoder := ⟨.new registryUrl⟩

/-- The subject under which the schema of a table is registered. -/
def subjectOf (event : ChangeEvent) : String := event.sourceTableOrCollection ++ "-value"

/-- The schema that is registered for every table. -/
def schemaJson : String := "\x7b\"type\":\"record\",\"name\":\"ChangeEvent\"\x7d"

variable (serde : EventSerde)

/-- What `encode_event` makes of an event once its schema is registered. -/
def frame (schemaId : UInt32) (event : ChangeEvent) : Except String (List UInt8) :=
  match serde.toVec event with
  | .error reason => .error ("Serialization error: " ++ reason)
  | .ok rawPayload => .ok (ConfluentRegistryClient.encodeWireFormat schemaId rawPayload)

/-- `encode_event`: the schema is registered first, whether or not the event can be written. -/
def encodeEvent (encoder : AvroEncoder) (event : ChangeEvent) :
    Except String (List UInt8) × AvroEncoder :=
  let (schemaId, registryClient) :=
    encoder.registryClient.registerSchema (subjectOf event) schemaJson
  (frame serde schemaId event, ⟨registryClient⟩)

/-- The message of the parser on bytes that are no event is the parameter `reason`. -/
def decodeEvent (reason : List UInt8 → String) (buffer : List UInt8) :
    Except String (UInt32 × ChangeEvent) :=
  match ConfluentRegistryClient.decodeWireFormat buffer with
  | .error e => .error e
  | .ok (schemaId, payloadBytes) =>
      match serde.fromSlice payloadBytes with
      | none => .error ("Deserialization error: " ++ reason payloadBytes)
      | some event => .ok (schemaId, event)

/-! ## Round trips -/

/-- An event that is encoded is decoded to itself, with the id that is registered for its table. -/
def RoundTrips (reason : List UInt8 → String) (encoder : AvroEncoder) (event : ChangeEvent) : Prop :=
  ∀ buffer, (encoder.encodeEvent serde event).1 = .ok buffer →
    ∃ schemaId,
      (encoder.encodeEvent serde event).2.registryClient.cached (subjectOf event) = some schemaId ∧
      decodeEvent serde reason buffer = .ok (schemaId, event)

/-- What is decoded from the payload of a frame: the event, or the reason of the parser. -/
def decodePayload (reason : List UInt8 → String) (payloadBytes : List UInt8) :
    Except String ChangeEvent :=
  match serde.fromSlice payloadBytes with
  | none => .error ("Deserialization error: " ++ reason payloadBytes)
  | some event => .ok event

/-- A frame is decoded to its id and what its payload is read as. -/
theorem decodeEvent_frame (reason : List UInt8 → String) (schemaId : UInt32) {event : ChangeEvent}
    {payloadBytes : List UInt8} (hpayload : serde.toVec event = .ok payloadBytes) :
    ∃ buffer, frame serde schemaId event = .ok buffer ∧ decodeEvent serde reason buffer =
      (decodePayload serde reason payloadBytes).map fun event' => (schemaId, event') := by
  refine ⟨ConfluentRegistryClient.encodeWireFormat schemaId payloadBytes, by rw [frame, hpayload], ?_⟩
  rw [decodeEvent, ConfluentRegistryClient.decodeWireFormat_encodeWireFormat, decodePayload]
  simp only
  cases serde.fromSlice payloadBytes with
  | none => rfl
  | some event' => rfl

/-- What an encoder makes of an event whose members come back is decoded to the event, up to its `null`
values. -/
theorem decodeEvent_encodeEvent (reason : List UInt8 → String) (encoder : AvroEncoder)
    {event : ChangeEvent} (hread : serde.ReadsBack event) :
    ∃ buffer schemaId, (encoder.encodeEvent serde event).1 = .ok buffer ∧
      (encoder.encodeEvent serde event).2.registryClient.cached (subjectOf event) = some schemaId ∧
      decodeEvent serde reason buffer = .ok (schemaId, event.withoutNulls) := by
  obtain ⟨payloadBytes, hpayload⟩ := serde.toVec_ok event
  obtain ⟨buffer, hframe, hdecode⟩ := decodeEvent_frame serde reason
    (encoder.registryClient.registerSchema (subjectOf event) schemaJson).1 hpayload
  rw [decodePayload, hread.fromSlice hpayload] at hdecode
  exact ⟨buffer, _, hframe, ConfluentRegistryClient.cached_registerSchema _ _ _, hdecode⟩

/-- An optional value comes back unless it is a `null`. -/
theorem bind_nonNull_eq_self_iff {v : Option Json} : v.bind Json.nonNull = v ↔ v ≠ some .null := by
  cases v with
  | none => simp
  | some v => cases v <;> simp [Json.nonNull]

/-- An event is unchanged without its `null` values exactly if it has none in the two rows. -/
theorem withoutNulls_eq_self_iff {event : ChangeEvent} :
    event.withoutNulls = event ↔ event.before ≠ some .null ∧ event.after ≠ some .null := by
  rw [← bind_nonNull_eq_self_iff, ← bind_nonNull_eq_self_iff, ChangeEvent.withoutNulls]
  constructor
  · intro h
    exact ⟨congrArg ChangeEvent.before h, congrArg ChangeEvent.after h⟩
  · rintro ⟨hbefore, hafter⟩
    rw [hbefore, hafter]

/-- Exactly the events without `null` values come back as they were. -/
theorem roundTrips_iff_withoutNulls {reason : List UInt8 → String} {encoder : AvroEncoder}
    {event : ChangeEvent} (hread : serde.ReadsBack event) :
    RoundTrips serde reason encoder event ↔ event.withoutNulls = event := by
  obtain ⟨buffer, schemaId, hencode, hcached, hdecode⟩ :=
    decodeEvent_encodeEvent serde reason encoder hread
  constructor
  · intro h
    obtain ⟨schemaId', -, hdecode'⟩ := h buffer hencode
    rw [hdecode, Except.ok.injEq, Prod.mk.injEq] at hdecode'
    exact hdecode'.2
  · intro h buffer' hencode'
    rw [hencode, Except.ok.injEq] at hencode'
    rw [h] at hdecode
    exact ⟨schemaId, hcached, hencode' ▸ hdecode⟩

/-- **An event comes back from its encoding exactly if neither of its optional payloads is `null`**,
where its members come back from their text: a row that is `null` and no row at all are written
alike. -/
theorem roundTrips_iff (serde : EventSerde) (reason : List UInt8 → String) (encoder : AvroEncoder)
    (event : ChangeEvent) (hread : serde.ReadsBack event) :
    RoundTrips serde reason encoder event ↔
      event.before ≠ some .null ∧ event.after ≠ some .null := by
  rw [roundTrips_iff_withoutNulls serde hread, withoutNulls_eq_self_iff]

/-- An update with both of its rows. -/
def nameUpdate : ChangeEvent where
  id := "evt-avro-2"
  sourceDatabase := "db"
  sourceTableOrCollection := "users"
  operation := .update
  timestamp := 0
  key := .obj [("id", .nat 1)]
  before := some (.obj [("id", .nat 1), ("name", .string "Ada")])
  after := some (.obj [("id", .nat 1), ("name", .null)])
  transactionId := some "tx-1"
  offset := "offset-2"

/-- A `null` within a row is no hindrance. -/
theorem roundTrips_nameUpdate :
    RoundTrips .compact (fun _ => "expected value") (.new "http://localhost:8081") nameUpdate := by
  have hread : EventSerde.compact.ReadsBack nameUpdate :=
    .of_plain (by decide) (by decide) (by decide)
  exact (roundTrips_iff .compact _ _ nameUpdate hread).mpr ⟨by decide, by decide⟩

/-- An update whose row is a `null` value. -/
def nullUpdate : ChangeEvent where
  id := "evt-avro-1"
  sourceDatabase := "db"
  sourceTableOrCollection := "users"
  operation := .update
  timestamp := 0
  key := .obj [("id", .nat 1)]
  before := none
  after := some .null
  transactionId := some "tx-1"
  offset := "offset-1"

/-- The row comes back as no row, since both are written as `null`. -/
theorem not_roundTrips_nullUpdate :
    ¬RoundTrips .compact (fun _ => "expected value") (.new "http://localhost:8081") nullUpdate := by
  have hread : EventSerde.compact.ReadsBack nullUpdate :=
    .of_plain (by decide) (by decide) (by decide)
  rw [roundTrips_iff_withoutNulls .compact hread]
  intro h
  have hafter : none = some Json.null := congrArg ChangeEvent.after h
  cases hafter

/-! ## Frames of different tables -/

section Concurrent

variable {ι : Type} [DecidableEq ι]

open ConfluentRegistryClient (Session headerId)

/-- The number of ids allocated in a run of registrations. -/
def allocations (subject : ι → String) (registryUrl : String) (sched : List ι) : ℕ :=
  (Session.run subject (Session.start registryUrl) sched).registered.length

/-- The frame that a call of `encode_event` has made, once its registration has returned. -/
def frameOf (serde : EventSerde) (events : ι → ChangeEvent) (registryUrl : String) (sched : List ι)
    (i : ι) : Option (List UInt8) :=
  match (Session.run (fun j => subjectOf (events j)) (Session.start registryUrl) sched).calls i with
  | .returned schemaId => (frame serde schemaId (events i)).toOption
  | _ => none

/-- Different subjects have different ids, and the frames of different tables different headers, as
long as the counter has not reached its end. An encoder makes its calls one after the other. -/
structure SubjectsApart (serde : EventSerde) (registryUrl : String) (sched : List ι) : Prop where
  ids : ∀ subject : ι → String, allocations subject registryUrl sched < 2 ^ 32 - 100 →
    ∀ i j id id', subject i ≠ subject j →
      (Session.run subject (Session.start registryUrl) sched).calls i = .returned id →
      (Session.run subject (Session.start registryUrl) sched).calls j = .returned id' → id ≠ id'
  frames : ∀ events : ι → ChangeEvent,
    allocations (fun i => subjectOf (events i)) registryUrl sched < 2 ^ 32 - 100 →
    ∀ i j f g, (events i).sourceTableOrCollection ≠ (events j).sourceTableOrCollection →
      frameOf serde events registryUrl sched i = some f →
      frameOf serde events registryUrl sched j = some g → headerId f ≠ headerId g

/-- Tables with the same subject are the same. -/
theorem eq_of_subjectOf_eq {e e' : ChangeEvent} (h : subjectOf e = subjectOf e') :
    e.sourceTableOrCollection = e'.sourceTableOrCollection :=
  (String.append_left_inj "-value").mp h

/-- A frame carries the id that its registration returned. -/
theorem headerId_of_frameOf {events : ι → ChangeEvent} {registryUrl : String} {sched : List ι}
    {i : ι} {f : List UInt8} (hf : frameOf serde events registryUrl sched i = some f) :
    ∃ id, (Session.run (fun j => subjectOf (events j)) (Session.start registryUrl) sched).calls i =
        .returned id ∧ headerId f = Bytes.toBe id := by
  rw [frameOf] at hf
  split at hf
  · rename_i id hreturned
    obtain ⟨bytes, hwrite⟩ := serde.toVec_ok (events i)
    refine ⟨id, hreturned, ?_⟩
    rw [frame, hwrite] at hf
    rw [← Option.some.inj hf, ConfluentRegistryClient.headerId_encodeWireFormat]
  · cases hf

/-- **No id is shared between subjects**, and no header between tables: a reader can tell from a
frame which table it is of. -/
theorem subjectsApart (serde : EventSerde) (registryUrl : String) (sched : List ι) :
    SubjectsApart serde registryUrl sched where
  ids := by
    rintro subject hfew i j id _ hsubjects hi hj rfl
    exact hsubjects (Session.eq_of_returned (Session.accounted_run subject registryUrl sched) hfew hi hj)
  frames := by
    intro events hfew i j f g htables hf hg hheader
    obtain ⟨id, hi, hfid⟩ := headerId_of_frameOf serde hf
    obtain ⟨id', hj, hgid⟩ := headerId_of_frameOf serde hg
    -- equal headers carry equal ids, and these belong to one subject
    have hid : id = id' := by
      apply Bytes.toBe_injective
      rw [← hfid, ← hgid, hheader]
    subst hid
    apply htables
    apply eq_of_subjectOf_eq
    exact Session.eq_of_returned (Session.accounted_run _ registryUrl sched) hfew hi hj

end Concurrent

end AvroEncoder

end Caminus

import Caminus.Common.FirstUse
import Caminus.Common.Mealy
import Caminus.Serialize.Avro

/-!
# Streams of encoded events

An encoder (`src/serialize/avro.rs`) keeps the ids of its subjects in memory and gives them out in the
order in which the subjects come up. So what a stream of events is encoded to can be decoded anywhere, as
far as the events come back from their text, and the id of a subject is its number by first use in the
stream. Two processes, or one before and after a restart, agree on a table exactly if as many different
tables came up before it (`stream_codec`).
-/

namespace Caminus

open FirstUse (rank)

namespace ConfluentRegistryClient

/-- The id of a subject after some registrations. -/
def schemaId (subjects : List String) (subject : String) : UInt32 :=
  100 + UInt32.ofNat (rank subjects subject)

/-- What a client holds after the registration of some subjects, in this order: their ids count the
different subjects as they come up. -/
structure Numbered (subjects : List String) (client : ConfluentRegistryClient) : Prop where
  nextSchemaId : client.nextSchemaId = 100 + UInt32.ofNat subjects.dedup.length
  cached : ∀ subject, client.cached subject =
    if subject ∈ subjects then some (schemaId subjects subject) else none

/-- A new client has registered nothing, and its counter is at 100. -/
theorem numbered_new (registryUrl : String) : Numbered [] (new registryUrl) :=
  ⟨rfl, fun _ => rfl⟩

/-- Later registrations do not change the id of a subject. -/
theorem schemaId_append {subjects : List String} {subject : String} (h : subject ∈ subjects)
    (rest : List String) : schemaId (subjects ++ rest) subject = schemaId subjects subject := by
  rw [schemaId, FirstUse.rank_append h, schemaId]

variable {client : ConfluentRegistryClient} {subjects : List String} {subject : String}

/-- The id of a subject that came up before is still there. -/
theorem Numbered.cached_concat (h : Numbered subjects client) {other : String}
    (hne : other ≠ subject) :
    client.cached other =
      if other ∈ subjects ++ [subject] then some (schemaId (subjects ++ [subject]) other)
      else none := by
  rw [h.cached]
  by_cases hmem : other ∈ subjects
  · rw [if_pos hmem, if_pos (List.mem_append_left _ hmem), schemaId_append hmem]
  · rw [if_neg hmem, if_neg (by simp [hmem, hne])]

/-- A subject that came up before keeps its id; a new one gets the next. The counter wraps around
after `2 ^ 32` different subjects. -/
theorem Numbered.registerSchema (h : Numbered subjects client) (subject schemaJson : String) :
    (client.registerSchema subject schemaJson).1 = schemaId (subjects ++ [subject]) subject ∧
      Numbered (subjects ++ [subject]) (client.registerSchema subject schemaJson).2 := by
  have hcached := h.cached subject
  by_cases hmem : subject ∈ subjects
  · rw [if_pos hmem] at hcached
    have hregister : client.registerSchema subject schemaJson =
        (schemaId subjects subject, client) := by
      rw [ConfluentRegistryClient.registerSchema, hcached]
    rw [hregister]
    refine ⟨(schemaId_append hmem [subject]).symm, ?_, fun other => ?_⟩
    · rw [h.nextSchemaId, FirstUse.length_dedup_concat_of_mem hmem]
    · by_cases hother : other = subject
      · subst hother
        rw [hcached, if_pos (by simp), schemaId_append hmem]
      · exact h.cached_concat hother
  · rw [if_neg hmem] at hcached
    have hregister : client.registerSchema subject schemaJson = client.allocate subject := by
      rw [ConfluentRegistryClient.registerSchema, hcached]
    have hid : client.nextSchemaId = schemaId (subjects ++ [subject]) subject := by
      rw [h.nextSchemaId, schemaId, FirstUse.rank_of_notMem hmem]
    rw [hregister]
    refine ⟨hid, ?_, fun other => ?_⟩
    · rw [FirstUse.length_dedup_concat hmem, UInt32.ofNat_add, ← UInt32.add_assoc, ← h.nextSchemaId]
      rfl
    · by_cases hother : other = subject
      · subst hother
        rw [if_pos (by simp), ← hid]
        exact AList.lookup_insert _
      · rw [← h.cached_concat hother]
        exact AList.lookup_insert_ne hother

/-- Ids are numbers modulo `2 ^ 32`: the counter wraps around after as many subjects. -/
theorem schemaId_eq_iff {subjects' : List String} {subject' : String} :
    schemaId subjects subject = schemaId subjects' subject' ↔
      rank subjects subject % 2 ^ 32 = rank subjects' subject' % 2 ^ 32 := by
  rw [schemaId, schemaId, UInt32.add_right_inj, ← UInt32.toNat_inj, UInt32.toNat_ofNat',
    UInt32.toNat_ofNat']

end ConfluentRegistryClient

namespace AvroEncoder

open ConfluentRegistryClient (schemaId Numbered)

variable (serde : EventSerde)

/-- What a new encoder makes of a stream: the frames in order, or the errors in their places. -/
def encodeStream (registryUrl : String) (evs : List ChangeEvent) : List (Except String (List UInt8)) :=
  Mealy.outputs (encodeEvent serde) (new registryUrl) evs

/-- The subjects of a stream, in order. -/
def subjects (evs : List ChangeEvent) : List String := evs.map subjectOf

/-- Each event is framed with the id that its subject has in the end, since ids do not change. By
induction on the stream, for any client that has numbered the subjects before it. -/
theorem outputs_encodeEvent {encoder : AvroEncoder} {hist : List ChangeEvent}
    (h : Numbered (subjects hist) encoder.registryClient) (evs : List ChangeEvent) :
    Mealy.outputs (encodeEvent serde) encoder evs =
      evs.map fun e => frame serde (schemaId (subjects (hist ++ evs)) (subjectOf e)) e := by
  induction evs generalizing encoder hist with
  | nil => rfl
  | cons e evs ih =>
    obtain ⟨hid, hnumbered⟩ := h.registerSchema (subjectOf e) schemaJson
    have hsubjects : subjects hist ++ [subjectOf e] = subjects (hist ++ [e]) := by
      simp [subjects]
    -- the subjects behind the event do not change its id
    have hstable : schemaId (subjects (hist ++ [e])) (subjectOf e) =
        schemaId (subjects (hist ++ e :: evs)) (subjectOf e) := by
      have hsplit : subjects (hist ++ e :: evs) = subjects (hist ++ [e]) ++ subjects evs := by
        simp [subjects]
      rw [hsplit, ConfluentRegistryClient.schemaId_append (by simp [subjects])]
    rw [hsubjects] at hid hnumbered
    have hrest := @ih (encoder.encodeEvent serde e).2 (hist ++ [e]) hnumbered
    rw [Mealy.outputs_cons, List.map_cons, hrest, List.append_assoc, List.singleton_append, ← hstable,
      ← hid]
    rfl

/-- What comes back of an event from its payload. -/
def returned (reason : List UInt8 → String) (event : ChangeEvent) : Except String ChangeEvent :=
  match serde.toVec event with
  | .ok payloadBytes => decodePayload serde reason payloadBytes
  | .error message => .error ("Serialization error: " ++ message)

/-- What holds of the messages of a stream: each is decoded to the number of its table and what its
payload is read as, which is the event itself for members that come back and an alike one otherwise;
tables have numbers of their own, on which any two encoders agree as far as they have seen the same. -/
structure StreamCodec (reason : List UInt8 → String) (registryUrl : String) (evs : List ChangeEvent) :
    Prop where
  /-- Every message is decoded to the id of its subject and what its payload is read as. -/
  decoded : (encodeStream serde registryUrl evs).map (fun message => message.bind
      (decodeEvent serde reason)) =
    evs.map fun e => (returned serde reason e).map fun e' =>
      (schemaId (subjects evs) (subjectOf e), e')
  /-- This is the event up to its `null` values, if its members come back from their text. -/
  unchanged : ∀ e ∈ evs, serde.ReadsBack e → returned serde reason e = .ok e.withoutNulls
  /-- In any case it differs from the event in floats and `null` values only. -/
  alike : ∀ e ∈ evs, ∀ e', returned serde reason e = .ok e' → e.Alike e'
  /-- Tables are told apart by their ids. -/
  apart : (subjects evs).dedup.length ≤ 2 ^ 32 → ∀ e ∈ evs, ∀ e' ∈ evs,
    schemaId (subjects evs) (subjectOf e) = schemaId (subjects evs) (subjectOf e') →
    e.sourceTableOrCollection = e'.sourceTableOrCollection
  /-- The ids of another stream are the same for a table that has as many tables before it. -/
  agree : ∀ evs', (subjects evs).dedup.length ≤ 2 ^ 32 → (subjects evs').dedup.length ≤ 2 ^ 32 →
    ∀ subject ∈ subjects evs, subject ∈ subjects evs' →
    (schemaId (subjects evs) subject = schemaId (subjects evs') subject ↔
      rank (subjects evs) subject = rank (subjects evs') subject)

/-- With few subjects no number wraps around. -/
theorem rank_mod {evs : List ChangeEvent} (hfew : (subjects evs).dedup.length ≤ 2 ^ 32)
    {subject : String} (h : subject ∈ subjects evs) :
    rank (subjects evs) subject % 2 ^ 32 = rank (subjects evs) subject :=
  Nat.mod_eq_of_lt (Nat.lt_of_lt_of_le (FirstUse.rank_lt h) hfew)

/-- **A stream of events comes back from its messages** as far as the events come back from their
text, with the numbers of its tables. -/
theorem stream_codec (reason : List UInt8 → String) (registryUrl : String) (evs : List ChangeEvent) :
    StreamCodec serde reason registryUrl evs where
  decoded := by
    have hnew : Numbered (subjects []) (new registryUrl).registryClient :=
      ConfluentRegistryClient.numbered_new registryUrl
    -- the frames of the whole stream, from an encoder that has seen nothing
    rw [encodeStream, outputs_encodeEvent serde hnew, List.nil_append, List.map_map]
    refine List.map_congr_left fun e _ => ?_
    obtain ⟨payloadBytes, hpayload⟩ := serde.toVec_ok e
    obtain ⟨buffer, hframe, hdecode⟩ :=
      decodeEvent_frame serde reason (schemaId (subjects evs) (subjectOf e)) hpayload
    rw [Function.comp_apply, hframe, returned, hpayload]
    exact hdecode
  unchanged e _ hread := by
    obtain ⟨payloadBytes, hpayload⟩ := serde.toVec_ok e
    rw [returned, hpayload]
    simp only [decodePayload, hread.fromSlice hpayload]
  alike e _ e' hreturned := by
    obtain ⟨payloadBytes, hpayload⟩ := serde.toVec_ok e
    rw [returned, hpayload] at hreturned
    simp only [decodePayload] at hreturned
    split at hreturned
    · cases hreturned
    · rename_i event hslice
      rw [← Except.ok.inj hreturned]
      exact EventSerde.alike_of_fromSlice hpayload hslice
  apart hfew e he e' he' h := by
    have hmem : subjectOf e ∈ subjects evs := List.mem_map_of_mem he
    have hmem' : subjectOf e' ∈ subjects evs := List.mem_map_of_mem he'
    rw [ConfluentRegistryClient.schemaId_eq_iff, rank_mod hfew hmem, rank_mod hfew hmem'] at h
    exact eq_of_subjectOf_eq (FirstUse.eq_of_rank_eq hmem hmem' h)
  agree evs' hfew hfew' subject hmem hmem' := by
    rw [ConfluentRegistryClient.schemaId_eq_iff, rank_mod hfew hmem, rank_mod hfew' hmem']

end AvroEncoder

end Caminus

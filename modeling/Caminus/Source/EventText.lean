import Caminus.Common.JsonText
import Caminus.Source.Event

/-!
# Events as text

A `ChangeEvent` is written as an object with one member for each field, in the order of the fields.
An optional field without a value is written as `null`, and a `null` is read as no value, so an event
whose members come back from their text comes back up to its `null` values (`ReadsBack.readEvent`). Of
any other event either nothing comes back, or an event that differs in floats as well
(`alike_of_readEvent`). The text of a list of members and of a time are the libraries' business
(`EventSerde`).
-/

namespace Caminus

/-! ## Members -/

/-- The name of an operation in the text, as `Serialize` derives it from the variant. -/
def Operation.name : Operation → String
  | .create => "Create"
  | .update => "Update"
  | .delete => "Delete"
  | .snapshot => "Snapshot"
  | .commit => "Commit"
  | .rollback => "Rollback"

/-- The operation of a name, if there is one. -/
def Operation.ofName (name : String) : Option Operation :=
  [Operation.create, .update, .delete, .snapshot, .commit, .rollback].find? (·.name == name)

/-- Names are read back. -/
theorem Operation.ofName_name (op : Operation) : ofName op.name = some op := by
  cases op <;> rfl

/-- A value that is not `null`: an `Option` is read from a `null` as `None`, whatever was written. -/
def Json.nonNull : Json → Option Json
  | .null => none
  | v => some v

/-- An event as it is read back: a `null` in an optional field is no value. -/
def ChangeEvent.withoutNulls (e : ChangeEvent) : ChangeEvent :=
  { e with before := e.before.bind Json.nonNull, after := e.after.bind Json.nonNull }

/-- What the text of an event may be read as: floats may differ, and a `null` is no value. -/
structure ChangeEvent.Alike (e e' : ChangeEvent) : Prop where
  rest : e' = { e with key := e'.key, before := e'.before, after := e'.after }
  key : e.key.Alike e'.key
  before : Option.Rel Json.Alike e.withoutNulls.before e'.before
  after : Option.Rel Json.Alike e.withoutNulls.after e'.after

/-- What the engine relies on in `serde`, `simd_json` and `chrono`. Times can be written and read back.
Members can always be written, but reading goes 127 levels down, of which the object takes one, and may
miss the last digit of a float. -/
structure EventSerde where
  timestampText : ℤ → String
  parseTimestamp : String → Option ℤ
  toText : List (String × Json) → Except String String
  ofText : String → Option (List (String × Json))
  parseTimestamp_timestampText : ∀ t, parseTimestamp (timestampText t) = some t
  toText_ok : ∀ members, ∃ text, toText members = .ok text
  ofText_toText : ∀ members text, toText members = .ok text →
    (∀ p ∈ members, p.2.Plain 126) → ofText text = some members
  alike_of_ofText : ∀ members text members', toText members = .ok text →
    ofText text = some members' → Json.AlikeMembers members members'

namespace EventSerde

variable (serde : EventSerde)

/-- The members that `Serialize` writes, in the order of the fields; a `None` is written as `null`. -/
def members (e : ChangeEvent) : List (String × Json) :=
  [("id", .string e.id),
    ("source_database", .string e.sourceDatabase),
    ("source_table_or_collection", .string e.sourceTableOrCollection),
    ("operation", .string e.operation.name),
    ("timestamp", .string (serde.timestampText e.timestamp)),
    ("key", e.key),
    ("before", e.before.getD .null),
    ("after", e.after.getD .null),
    ("transaction_id", (e.transactionId.map Json.string).getD .null),
    ("offset", .string e.offset)]

/-- A field that has to be a string, or the text is no event. -/
def stringField (members : List (String × Json)) (name : String) : Option String :=
  (members.lookup name).bind Json.asStr

/-- An optional field: absent and `null` are no value. -/
def optionField (members : List (String × Json)) (name : String) : Option Json :=
  (members.lookup name).bind Json.nonNull

/-- The optional transaction, which has to be a string if there is one. -/
def transactionField (members : List (String × Json)) : Option (Option String) :=
  match optionField members "transaction_id" with
  | none => some none
  | some v => v.asStr.map some

/-- The event that `Deserialize` builds from the members of an object. A member that is missing, or
that is not of its type, is an error. -/
def ofMembers (members : List (String × Json)) : Option ChangeEvent := do
  let id ← stringField members "id"
  let sourceDatabase ← stringField members "source_database"
  let sourceTableOrCollection ← stringField members "source_table_or_collection"
  let operation ← (stringField members "operation").bind Operation.ofName
  let timestamp ← (stringField members "timestamp").bind serde.parseTimestamp
  let key ← members.lookup "key"
  let transactionId ← transactionField members
  let offset ← stringField members "offset"
  return {
    id, sourceDatabase, sourceTableOrCollection, operation, timestamp, key
    before := optionField members "before"
    after := optionField members "after"
    transactionId, offset }

/-- The text of an event, which is the object of its members. -/
def writeEvent (e : ChangeEvent) : Except String String := serde.toText (serde.members e)

/-- The event of a text: the members are looked up by name, so their order does not matter. -/
def readEvent (text : String) : Option ChangeEvent := (serde.ofText text).bind serde.ofMembers

/-- A missing value is written as `null`, and read as missing. -/
theorem nonNull_getD (v : Option Json) : (v.getD .null).nonNull = v.bind Json.nonNull := by
  cases v <;> rfl

/-- The transaction of an event is written as a string, or as `null`. -/
theorem transactionField_members (e : ChangeEvent) :
    transactionField (serde.members e) = some e.transactionId := by
  show (match ((e.transactionId.map Json.string).getD .null).nonNull with
    | none => some none
    | some v => v.asStr.map some) = _
  cases e.transactionId with
  | none => rfl
  | some txId => rfl

/-- The members of an event make the event, up to its `null` values. -/
theorem ofMembers_members (e : ChangeEvent) :
    serde.ofMembers (serde.members e) = some e.withoutNulls := by
  have hid : stringField (serde.members e) "id" = some e.id := rfl
  have hdatabase : stringField (serde.members e) "source_database" = some e.sourceDatabase := rfl
  have htable : stringField (serde.members e) "source_table_or_collection" =
    some e.sourceTableOrCollection := rfl
  have hoperation : stringField (serde.members e) "operation" = some e.operation.name := rfl
  have htimestamp : stringField (serde.members e) "timestamp" =
    some (serde.timestampText e.timestamp) := rfl
  have hkey : (serde.members e).lookup "key" = some e.key := rfl
  have hbefore : optionField (serde.members e) "before" = (e.before.getD .null).nonNull := rfl
  have hafter : optionField (serde.members e) "after" = (e.after.getD .null).nonNull := rfl
  have hoffset : stringField (serde.members e) "offset" = some e.offset := rfl
  rw [ofMembers, hid, hdatabase, htable, hoperation, htimestamp, hkey, hbefore, hafter,
    transactionField_members, hoffset, Option.bind_some, Option.bind_some, Operation.ofName_name,
    serde.parseTimestamp_timestampText, nonNull_getD, nonNull_getD]
  rfl

/-! ## Events that come back -/

/-- Every event can be written. -/
theorem writeEvent_ok (e : ChangeEvent) : ∃ text, serde.writeEvent e = .ok text :=
  serde.toText_ok (serde.members e)

/-- The text of the event has its members: it is not nested too deep for the reader, and its floats
survive. -/
def ReadsBack (e : ChangeEvent) : Prop :=
  ∃ text, serde.writeEvent e = .ok text ∧ serde.ofText text = some (serde.members e)

variable {serde}

/-- An event without floats that is not nested too deep comes back. -/
theorem ReadsBack.of_plain {e : ChangeEvent} (hkey : e.key.Plain 126)
    (hbefore : (e.before.getD .null).Plain 126) (hafter : (e.after.getD .null).Plain 126) :
    serde.ReadsBack e := by
  obtain ⟨text, hwrite⟩ := serde.writeEvent_ok e
  have hstring : ∀ s : String, (Json.string s).Plain 126 := fun s => ⟨rfl, rfl⟩
  have htransaction : ((e.transactionId.map Json.string).getD .null).Plain 126 := by
    cases e.transactionId with
    | none => exact ⟨rfl, rfl⟩
    | some txId => exact hstring txId
  refine ⟨text, hwrite, serde.ofText_toText _ _ hwrite ?_⟩
  simp only [members, List.forall_mem_cons]
  exact ⟨hstring _, hstring _, hstring _, hstring _, hstring _, hkey, hbefore, hafter, htransaction,
    hstring _, List.forall_mem_nil _⟩

/-- **An event whose members come back comes back up to its `null` values.** -/
theorem ReadsBack.readEvent {e : ChangeEvent} (h : serde.ReadsBack e) :
    ∃ text, serde.writeEvent e = .ok text ∧ serde.readEvent text = some e.withoutNulls := by
  obtain ⟨text, hwrite, hread⟩ := h
  refine ⟨text, hwrite, ?_⟩
  rw [EventSerde.readEvent, hread, Option.bind_some, ofMembers_members]

/-- A `null` is written as no value is, so an event without its `null` values has the same text. -/
theorem members_withoutNulls (e : ChangeEvent) : serde.members e.withoutNulls = serde.members e := by
  have hnull : ∀ v : Option Json, (v.bind Json.nonNull).getD .null = v.getD .null := by
    intro v
    cases v with
    | none => rfl
    | some v => cases v <;> rfl
  simp only [members, ChangeEvent.withoutNulls, hnull]

/-- The condition is about the text, so it does not depend on `null` values that are written as
missing ones. -/
theorem ReadsBack.withoutNulls {e : ChangeEvent} (h : serde.ReadsBack e) :
    serde.ReadsBack e.withoutNulls := by
  rw [ReadsBack, writeEvent, members_withoutNulls]
  exact h

/-- Alike members have the same strings, as only floats may differ. -/
theorem stringField_alike {l m : List (String × Json)} (h : Json.AlikeMembers l m) (name : String) :
    stringField m name = stringField l name :=
  bind_eq_of_rel (h.lookup name) fun halike => halike.asStr

/-- Alike values are `null` together, so a row does not appear or vanish by its floats. -/
theorem nonNull_alike {v w : Json} (h : v.Alike w) : Option.Rel Json.Alike v.nonNull w.nonNull := by
  cases h with
  | null => exact .none
  | bool b => exact .some (.bool b)
  | number h => exact .some (.number h)
  | string s => exact .some (.string s)
  | array h => exact .some (.array h)
  | object h => exact .some (.object h)

/-- Alike members have alike optional fields. -/
theorem optionField_alike {l m : List (String × Json)} (h : Json.AlikeMembers l m) (name : String) :
    Option.Rel Json.Alike (optionField l name) (optionField m name) :=
  rel_bind (h.lookup name) nonNull_alike

/-- Alike members have the same transaction. -/
theorem transactionField_alike {l m : List (String × Json)} (h : Json.AlikeMembers l m) :
    transactionField m = transactionField l := by
  have hfield := optionField_alike h "transaction_id"
  rw [transactionField, transactionField]
  generalize optionField l "transaction_id" = v at hfield ⊢
  generalize optionField m "transaction_id" = w at hfield ⊢
  cases hfield with
  | none => rfl
  | some halike => exact congrArg (Option.map some) halike.asStr

/-- Members that are alike to those of an event make an alike event: all fields but the key and the
two rows are strings, which do not change. -/
theorem alike_of_ofMembers {e e' : ChangeEvent} {m : List (String × Json)}
    (h : Json.AlikeMembers (serde.members e) m) (hread : serde.ofMembers m = some e') :
    e.Alike e' := by
  have hid : stringField m "id" = some e.id := stringField_alike h _
  have hdatabase : stringField m "source_database" = some e.sourceDatabase := stringField_alike h _
  have htable : stringField m "source_table_or_collection" = some e.sourceTableOrCollection :=
    stringField_alike h _
  have hoperation : stringField m "operation" = some e.operation.name := stringField_alike h _
  have htimestamp : stringField m "timestamp" = some (serde.timestampText e.timestamp) :=
    stringField_alike h _
  have htransaction : transactionField m = some e.transactionId :=
    (transactionField_alike h).trans (transactionField_members serde e)
  have hoffset : stringField m "offset" = some e.offset := stringField_alike h _
  have hbefore := optionField_alike h "before"
  have hafter := optionField_alike h "after"
  have hkey : Option.Rel Json.Alike (some e.key) (m.lookup "key") := h.lookup "key"
  -- the key is a value, of which only an alike one may come back
  generalize hk : m.lookup "key" = key at hkey
  cases hkey with
  | @some _ key halike =>
    rw [ofMembers, hid, hdatabase, htable, hoperation, htimestamp, hk, hoffset,
      htransaction, Option.bind_some, Option.bind_some, Operation.ofName_name,
      serde.parseTimestamp_timestampText] at hread
    obtain rfl := Option.some.inj hread
    refine ⟨rfl, halike, ?_, ?_⟩
    · show Option.Rel Json.Alike (e.before.bind Json.nonNull) _
      rw [← nonNull_getD]
      exact hbefore
    · show Option.Rel Json.Alike (e.after.bind Json.nonNull) _
      rw [← nonNull_getD]
      exact hafter

/-- **Whatever comes back from the text of an event differs from it in floats and `null` values
only.** This covers the events that `ReadsBack` leaves out. -/
theorem alike_of_readEvent {e e' : ChangeEvent} {text : String} (hwrite : serde.writeEvent e = .ok text)
    (hread : serde.readEvent text = some e') : e.Alike e' := by
  rw [EventSerde.readEvent] at hread
  obtain ⟨m, hm, hevent⟩ := Option.bind_eq_some_iff.mp hread
  exact alike_of_ofMembers (serde.alike_of_ofText _ _ _ hwrite hm) hevent

/-! ## Compact text -/

/-- The text of an object with the given members. -/
def objectText (members : List (String × Json)) : String :=
  String.ofList ('\x7b' :: Json.commaSep (members.map Json.memberChars) ++ ['\x7d'])

/-- The text of an object determines its members. -/
theorem objectText_injective : Function.Injective objectText := by
  intro l m h
  have hchars := congrArg String.toList h
  simp only [objectText, String.toList_ofList, List.cons_append, List.cons.injEq, true_and] at hchars
  have hhead : ∀ p : String × Json, ∃ c cs, Json.memberChars p = c :: cs ∧ c ≠ '\x7d' :=
    fun p => ⟨_, _, rfl, by decide⟩
  exact (Json.commaSep_decodes (p := Json.isNumeric) (by decide) (by decide) (by decide) hhead
    (fun p _ => Json.memberChars_decodes (Json.chars_decodes p.2)) m [] [] hchars).1

/-- The epoch as `chrono` writes it. Other times are written as signed nanoseconds. -/
def epochText (t : ℤ) : String :=
  if t = 0 then "1970-01-01T00:00:00Z"
  else if 0 < t then String.ofList ('+' :: Json.digits t.toNat)
  else String.ofList ('-' :: Json.digits (-t).toNat)

/-- Reads a time that `epochText` has written. -/
def parseEpoch (s : String) : Option ℤ :=
  match s.toList with
  | '+' :: digits => some (Nat.ofDigitChars 10 digits 0)
  | '-' :: digits => some (-(Nat.ofDigitChars 10 digits 0))
  | _ => if s = "1970-01-01T00:00:00Z" then some 0 else none

/-- Times are read back. -/
theorem parseEpoch_epochText (t : ℤ) : parseEpoch (epochText t) = some t := by
  have hdigits (n : ℕ) : Nat.ofDigitChars 10 (Json.digits n) 0 = n := by
    simp [Json.digits, Nat.ofDigitChars_toDigits]
  rw [epochText]
  split_ifs with hzero hpos
  · rw [hzero]
    rfl
  · simp only [parseEpoch, String.toList_ofList, hdigits]
    rw [Int.toNat_of_nonneg hpos.le]
  · simp only [parseEpoch, String.toList_ofList, hdigits]
    rw [Int.toNat_of_nonneg (by omega), Int.neg_neg]

open Classical in
/-- The text format as an implementation of the interface: a text is read by looking for what it was
written from, among the members that are not nested too deep. -/
noncomputable def compact : EventSerde where
  timestampText := epochText
  parseTimestamp := parseEpoch
  toText members := .ok (objectText members)
  ofText s :=
    if h : ∃ members : List (String × Json),
        (∀ p ∈ members, p.2.nestedAtMost 126 = true) ∧ objectText members = s then some h.choose
    else none
  parseTimestamp_timestampText := parseEpoch_epochText
  toText_ok members := ⟨_, rfl⟩
  ofText_toText := by
    rintro members _ ⟨⟩ hplain
    have h : ∃ l : List (String × Json),
        (∀ p ∈ l, p.2.nestedAtMost 126 = true) ∧ objectText l = objectText members :=
      ⟨members, fun p hp => (hplain p hp).1, rfl⟩
    rw [dif_pos h, objectText_injective h.choose_spec.2]
  alike_of_ofText := by
    rintro members _ members' ⟨⟩ hread
    split_ifs at hread with h
    rw [← Option.some.inj hread, objectText_injective h.choose_spec.2]
    exact List.forall₂_same.mpr fun p _ => ⟨rfl, .refl p.2⟩

end EventSerde

end Caminus

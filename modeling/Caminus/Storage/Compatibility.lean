import Caminus.Common.JsonText
import Caminus.Storage.Schema

/-!
# What the compatibility modes mean for validation

A compatibility mode is a promise about reading: under `Backward` the new schema reads old data,
under `Forward` the old schema reads new data, under `Full` both. `validateEvent` requires every field
of its schema, so a schema with more fields accepts fewer events, while `Backward` admits added
fields and `Forward` removed ones. `modesReadable_iff` is the exact extent to which the promise is
kept.
-/

namespace Caminus.SchemaRegistry

variable (serde : SerdeJson)

/-! ## The compatibility check as a relation of field maps -/

/-- Fields of one name have equal type values in both schemas. The values are compared as JSON
values, as `old_type != new_type` does, not by the type names in them. -/
def SameTypes (oldFields newFields : Map Json) : Prop :=
  ∀ p ∈ oldFields.entries, ∀ w, newFields.get? p.1 = some w → p.2.eq w = true

variable {serde}

/-- The type check of one old field passes if the new schema has no field of that name, or has it
with an equal type value. -/
theorem checkType_eq_ok_iff {newFields : Map Json} {p : String × Json} :
    checkType serde newFields p = .ok () ↔ ∀ w, newFields.get? p.1 = some w → p.2.eq w = true := by
  unfold checkType
  cases newFields.get? p.1 with
  | none => simp
  | some w => by_cases h : p.2.eq w = true <;> simp [h]

/-- The presence check passes exactly when the name is among the fields, whatever text it would
report. -/
theorem checkPresent_eq_ok_iff {fields : Map Json} {violation : String → String} {name : String} :
    checkPresent fields violation name = .ok () ↔ name ∈ fields.keys := by
  rw [← Map.containsKey_iff]
  unfold checkPresent
  by_cases h : fields.containsKey name = true <;> simp [h]

/-- The check passes exactly when both schemas have a `fields` object, common fields agree and the
mode's field-set rule holds. -/
theorem checkCompatibility_eq_ok_iff {oldSchema newSchema : Json} {mode : SchemaCompatibility}
    (hmode : mode ≠ .none) :
    checkCompatibility serde oldSchema newSchema mode = .ok () ↔
      ∃ fo fn, fieldsOf oldSchema = some fo ∧ fieldsOf newSchema = some fn ∧
        SameTypes fo fn ∧ checkFieldSets fo fn mode = .ok () := by
  unfold checkCompatibility
  rw [if_neg hmode]
  cases ho : fieldsOf oldSchema with
  | none => simp
  | some fo =>
    cases hn : fieldsOf newSchema with
    | none => simp
    | some fn =>
      have htypes : checkAll (checkType serde fn) fo.entries = .ok () ↔ SameTypes fo fn := by
        simp only [checkAll_eq_ok_iff, checkType_eq_ok_iff, SameTypes]
      simp only [Option.some.injEq, exists_and_left, exists_eq_left', ← htypes]
      cases checkAll (checkType serde fn) fo.entries <;> simp

/-- `Backward` asks that no field is deleted; an added field is not looked at. -/
theorem checkFieldSets_backward_iff {fo fn : Map Json} :
    checkFieldSets fo fn .backward = .ok () ↔ fo.keys ⊆ fn.keys := by
  simp only [checkFieldSets, checkAll_eq_ok_iff, checkPresent_eq_ok_iff]
  rfl

/-- `Forward` asks that no field is added; a deleted field is not looked at. -/
theorem checkFieldSets_forward_iff {fo fn : Map Json} :
    checkFieldSets fo fn .forward = .ok () ↔ fn.keys ⊆ fo.keys := by
  simp only [checkFieldSets, checkAll_eq_ok_iff, checkPresent_eq_ok_iff]
  rfl

/-- `Full` asks for both, deletions first, so its two loops pass exactly when the field names agree. -/
theorem checkFieldSets_full_iff {fo fn : Map Json} :
    checkFieldSets fo fn .full = .ok () ↔ fo.keys ⊆ fn.keys ∧ fn.keys ⊆ fo.keys := by
  have hdeleted : ∀ violation, checkAll (checkPresent fn violation) fo.keys = .ok () ↔
      fo.keys ⊆ fn.keys := by
    intro violation
    simp only [checkAll_eq_ok_iff, checkPresent_eq_ok_iff]
    rfl
  have hadded : ∀ violation, checkAll (checkPresent fo violation) fn.keys = .ok () ↔
      fn.keys ⊆ fo.keys := by
    intro violation
    simp only [checkAll_eq_ok_iff, checkPresent_eq_ok_iff]
    rfl
  rw [← hadded (fun name => "Full compatibility violation: Field '" ++ name ++ "' was added"),
    ← hdeleted (fun name => "Full compatibility violation: Field '" ++ name ++ "' was deleted")]
  simp only [checkFieldSets]
  cases checkAll (checkPresent fn
    fun name => "Full compatibility violation: Field '" ++ name ++ "' was deleted") fo.keys <;> simp

/-! ## Acceptance -/

/-- The type names that `validateEvent` knows. A type value that is not a string, or another string,
is refused for every payload. -/
def Supported (typeVal : Json) : Prop :=
  ∃ s ∈ ["integer", "string", "boolean", "float"], typeVal.asStr = some s

/-- A value of a supported type, used to build an event that a schema accepts. -/
def sample (typeVal : Json) : Json :=
  if typeVal.asStr = some "string" then .string ""
  else if typeVal.asStr = some "boolean" then .bool true
  else .nat 0

/-- What one field asks of a payload: a member of its name, whose value passes the check of its type
name. -/
def FieldReads (serde : SerdeJson) (payload : Map Json) (p : String × Json) : Prop :=
  ∃ s val, p.2.asStr = some s ∧ payload.get? p.1 = some val ∧ checkValue serde p.1 s val = .ok ()

/-- The check of one field passes exactly when the payload has a member that the field reads. -/
theorem checkField_eq_ok_iff {payload : Map Json} {p : String × Json} :
    checkField serde payload p = .ok () ↔ FieldReads serde payload p := by
  unfold checkField FieldReads
  cases p.2.asStr with
  | none => simp
  | some s => cases payload.get? p.1 <;> simp

/-- Only a supported type reads anything, so a field of any other type refuses every payload. -/
theorem supported_of_fieldReads {payload : Map Json} {p : String × Json}
    (h : FieldReads serde payload p) : Supported p.2 := by
  obtain ⟨s, val, hs, -, hval⟩ := h
  refine ⟨s, ?_, hs⟩
  by_contra hmem
  simp only [List.mem_cons, List.not_mem_nil, or_false, not_or] at hmem
  simp [checkValue, hmem] at hval

/-- The sample of a supported type is read, whatever the name of its field is. -/
theorem checkValue_sample {name s : String} {typeVal : Json} (hs : typeVal.asStr = some s)
    (h : Supported typeVal) : checkValue serde name s (sample typeVal) = .ok () := by
  obtain ⟨s', hmem, hs'⟩ := h
  obtain rfl : s = s' := by simpa [hs] using hs'
  simp only [List.mem_cons, List.not_mem_nil, or_false] at hmem
  rcases hmem with rfl | rfl | rfl | rfl <;>
    simp [checkValue, sample, hs, Json.isNumber, Json.isString, Json.isBoolean, Json.nat,
      Json.fractIsZero, Number.fractIsZero]

/-- The operations whose payload `validate_event` looks at; of the other events it checks nothing. -/
def IsCreateOrUpdate (e : ChangeEvent) : Prop := e.operation = .create ∨ e.operation = .update

/-- A `Create` or an `Update` is accepted exactly when it has an object after the change and every
field of the schema reads it. -/
theorem validateAgainst_eq_ok_iff {schema : Json} {fields : Map Json} {e : ChangeEvent}
    (hfields : fieldsOf schema = some fields) (hop : IsCreateOrUpdate e) :
    validateAgainst serde schema e = .ok () ↔
      ∃ payload, e.after.bind Json.asObject = some payload ∧
        ∀ p ∈ fields.entries, FieldReads serde payload p := by
  have hskip : ¬ (e.operation ≠ .create ∧ e.operation ≠ .update) := by
    rintro ⟨hc, hu⟩
    exact hop.elim hc hu
  simp only [validateAgainst, hfields, if_neg hskip]
  cases e.after with
  | none => simp
  | some v =>
    cases hobj : v.asObject with
    | none => simp [hobj]
    | some payload => simp [hobj, checkAll_eq_ok_iff, checkField_eq_ok_iff]

/-- Every field of `fn` is a field of `fo` with the same type name, so `fn` asks nothing that `fo`
does not ask. -/
def ReadsLess (fo fn : Map Json) : Prop :=
  ∀ p ∈ fn.entries, ∃ q ∈ fo.entries, q.1 = p.1 ∧ q.2.asStr = p.2.asStr

/-- A schema that asks for less accepts more: its field checks are among those of the other schema. -/
theorem accepts_of_readsLess {old new : Json} {fo fn : Map Json} {e : ChangeEvent}
    (ho : fieldsOf old = some fo) (hn : fieldsOf new = some fn) (hop : IsCreateOrUpdate e)
    (hless : ReadsLess fo fn) (h : validateAgainst serde old e = .ok ()) :
    validateAgainst serde new e = .ok () := by
  obtain ⟨payload, hpayload, hreads⟩ := (validateAgainst_eq_ok_iff ho hop).mp h
  refine (validateAgainst_eq_ok_iff hn hop).mpr ⟨payload, hpayload, fun p hp => ?_⟩
  obtain ⟨q, hq, hname, htype⟩ := hless p hp
  obtain ⟨s, val, hs, hval, hcheck⟩ := hreads q hq
  rw [hname] at hval hcheck
  exact ⟨s, val, htype ▸ hs, hval, hcheck⟩

/-- Validation reads nothing of a field but its name and the name of its type. -/
theorem readsLess_of_asStr_eq {fo fn : Map Json}
    (h : fn.entries.map (fun p => (p.1, p.2.asStr)) = fo.entries.map fun p => (p.1, p.2.asStr)) :
    ReadsLess fo fn := by
  intro p hp
  have hmem : (p.1, p.2.asStr) ∈ fo.entries.map fun p => (p.1, p.2.asStr) :=
    h ▸ List.mem_map_of_mem hp
  obtain ⟨q, hq, hqp⟩ := List.mem_map.mp hmem
  obtain ⟨hname, htype⟩ := Prod.mk.inj hqp
  exact ⟨q, hq, hname, htype⟩

/-- Alike schemas have alike fields: the `fields` member is looked up by its name, which does not
change. -/
theorem fieldsOf_alike {old new : Json} (h : old.Alike new) :
    Option.Rel (fun fo fn => Json.AlikeMembers fo.entries fn.entries) (fieldsOf old)
      (fieldsOf new) :=
  rel_bind (h.get? "fields") Json.Alike.asObject

/-- A schema that differs in floats only accepts the same events, since validation reads names and
type names and a float is neither. -/
theorem validateAgainst_alike {old new : Json} (h : old.Alike new) {e : ChangeEvent}
    (hop : IsCreateOrUpdate e) :
    validateAgainst serde old e = .ok () ↔ validateAgainst serde new e = .ok () := by
  -- either both have a `fields` object or neither has, and without one both refuse
  have hfields := fieldsOf_alike h
  cases ho : fieldsOf old with
  | none =>
    cases hn : fieldsOf new with
    | none => simp [validateAgainst, ho, hn]
    | some fn =>
      rw [ho, hn] at hfields
      cases hfields
  | some fo =>
    cases hn : fieldsOf new with
    | none =>
      rw [ho, hn] at hfields
      cases hfields
    | some fn =>
      rw [ho, hn] at hfields
      cases hfields with
      | some hmembers =>
        exact ⟨accepts_of_readsLess ho hn hop (readsLess_of_asStr_eq hmembers.asStr),
          accepts_of_readsLess hn ho hop (readsLess_of_asStr_eq hmembers.asStr.symm)⟩

/-- A payload with exactly the fields of a schema, each a sample of its type. -/
def samplePayload (fields : Map Json) : Map Json where
  entries := fields.entries.map fun p => (p.1, sample p.2)
  sorted := by simpa [Function.comp_def] using fields.sorted

/-- A `Create` event with a given payload; validation looks at nothing else of it. -/
def createEvent (payload : Map Json) : ChangeEvent where
  id := "evt-1"
  sourceDatabase := "db"
  sourceTableOrCollection := "users"
  operation := .create
  timestamp := 0
  key := Json.null
  before := none
  after := some (Json.ofMap payload)
  transactionId := none
  offset := "1"

/-- If every type is supported, the sample payload is accepted, so the schema is not unusable. -/
theorem accepts_samplePayload {schema : Json} {fields : Map Json}
    (hfields : fieldsOf schema = some fields) (hsup : ∀ p ∈ fields.entries, Supported p.2) :
    validateAgainst serde schema (createEvent (samplePayload fields)) = .ok () := by
  refine (validateAgainst_eq_ok_iff hfields (Or.inl rfl)).mpr
    ⟨samplePayload fields, by simp [createEvent], fun p hp => ?_⟩
  obtain ⟨s, -, hs⟩ := hsup p hp
  refine ⟨s, sample p.2, hs, ?_, checkValue_sample hs (hsup p hp)⟩
  exact Map.get?_eq_some_iff.mpr (List.mem_map_of_mem hp)

/-- An event with exactly the fields of one schema is rejected by a schema that has another. -/
theorem not_accepts_samplePayload {schema : Json} {fields other : Map Json} {name : String}
    (hfields : fieldsOf schema = some fields) (hname : name ∈ fields.keys)
    (hother : name ∉ other.keys) :
    validateAgainst serde schema (createEvent (samplePayload other)) ≠ .ok () := by
  intro h
  obtain ⟨payload, hpayload, hreads⟩ := (validateAgainst_eq_ok_iff hfields (Or.inl rfl)).mp h
  obtain rfl : samplePayload other = payload := by simpa [createEvent] using hpayload
  obtain ⟨p, hp, rfl⟩ := List.mem_map.mp hname
  obtain ⟨_, val, -, hval, -⟩ := hreads p hp
  have hmem := List.mem_map_of_mem (f := Prod.fst) (Map.get?_eq_some_iff.mp hval)
  exact hother (by simpa [samplePayload, Map.keys] using hmem)

/-! ## When the promise of a mode is kept -/

/-- Fields of the same name have the same type name, which is all that validation sees of a type
value. -/
def TypeNamesAgree (fo fn : Map Json) : Prop :=
  ∀ p ∈ fo.entries, ∀ q ∈ fn.entries, p.1 = q.1 → p.2.asStr = q.2.asStr

/-- Equal type values have equal type names; this is what a passed compatibility check leaves to
use. -/
theorem SameTypes.typeNamesAgree {fo fn : Map Json} (h : SameTypes fo fn) :
    TypeNamesAgree fo fn := by
  intro p hp q hq hname
  refine Json.eq_asStr (h p hp q.2 ?_)
  rw [hname]
  exact Map.get?_eq_some_iff.mpr hq

/-- The agreement of type names does not depend on which schema is the old one. -/
theorem TypeNamesAgree.symm {fo fn : Map Json} (h : TypeNamesAgree fo fn) :
    TypeNamesAgree fn fo := fun p hp q hq hname => (h q hq p hp hname.symm).symm

/-- Some field has a type that validation does not know, so no `Create` or `Update` is accepted. -/
def Unusable (fields : Map Json) : Prop := ∃ p ∈ fields.entries, ¬ Supported p.2

/-- Every type of a usable schema is supported. -/
theorem supported_of_usable {fields : Map Json} (husable : ¬Unusable fields) :
    ∀ p ∈ fields.entries, Supported p.2 := by
  intro p hp
  by_contra hunsup
  exact husable ⟨p, hp, hunsup⟩

/-- An accepted event has passed the check of every field, so all types of the schema are supported. -/
theorem supported_of_accepts {schema : Json} {fields : Map Json} {e : ChangeEvent}
    (hfields : fieldsOf schema = some fields) (hop : IsCreateOrUpdate e)
    (he : validateAgainst serde schema e = .ok ()) : ∀ p ∈ fields.entries, Supported p.2 := by
  obtain ⟨payload, -, hreads⟩ := (validateAgainst_eq_ok_iff hfields hop).mp he
  exact fun p hp => supported_of_fieldReads (hreads p hp)

/-- The new schema reads what the old one accepts exactly when it adds no field, or when the old one
accepts nothing. -/
theorem reads_iff {old new : Json} {fo fn : Map Json} (ho : fieldsOf old = some fo)
    (hn : fieldsOf new = some fn) (htypes : TypeNamesAgree fo fn) :
    (∀ e, IsCreateOrUpdate e → validateAgainst serde old e = .ok () →
        validateAgainst serde new e = .ok ()) ↔ fn.keys ⊆ fo.keys ∨ Unusable fo := by
  constructor
  · intro h
    by_contra hcon
    obtain ⟨hadds, husable⟩ := not_or.mp hcon
    -- the sample of the old schema lacks the added field, and the old schema accepts it
    refine hadds fun name hname => ?_
    by_contra hmiss
    exact not_accepts_samplePayload hn hname hmiss
      (h _ (Or.inl rfl) (accepts_samplePayload ho (supported_of_usable husable)))
  -- conversely the fields of the new schema are among the old ones, or no event is accepted
  · rintro (hsub | ⟨p, hp, hunsup⟩) e hop he
    · refine accepts_of_readsLess ho hn hop (fun p hp => ?_) he
      have hname : p.1 ∈ fo.keys := hsub (List.mem_map_of_mem hp)
      obtain ⟨q, hq, hqp⟩ := List.mem_map.mp hname
      exact ⟨q, hq, hqp, htypes q hq p hp hqp⟩
    · exact absurd (supported_of_accepts ho hop he p hp) hunsup

variable (serde)

/-- `validateEvent` accepts the event when `schema` is registered for the source: the schema is
saved, read back from its bytes and only then compared with the event. -/
def Accepts (store : StateStore) (sourceId : String) (schema : Json) (e : ChangeEvent) : Prop :=
  validateEvent serde (store.saveSchema serde sourceId schema) sourceId e = .ok ()

variable {serde} {store : StateStore} {sourceId : String}

/-- A registered schema accepts what it accepts by itself, if its bytes can be read: what they are read
as differs in floats only. -/
theorem accepts_iff {schema : Json} {e : ChangeEvent} (hop : IsCreateOrUpdate e) :
    Accepts serde store sourceId schema e ↔
      serde.Readable schema ∧ validateAgainst serde schema e = .ok () := by
  rw [Accepts, validateEvent, StateStore.getSchema_saveSchema_self]
  cases hread : serde.reread schema with
  | error reason => simp [SerdeJson.Readable, hread]
  | ok schema' =>
    simp [SerdeJson.Readable, hread, validateAgainst_alike (SerdeJson.alike_of_reread hread) hop]

/-- Without a type that validation does not know, some `Create` is accepted: the one with the sample
payload. -/
theorem exists_accepts_of_usable {schema : Json} {fields : Map Json}
    (hfields : fieldsOf schema = some fields) (husable : ¬Unusable fields) :
    ∃ e, IsCreateOrUpdate e ∧ validateAgainst serde schema e = .ok () :=
  ⟨_, Or.inl rfl, accepts_samplePayload hfields (supported_of_usable husable)⟩

/-- The new schema reads what the old one accepts exactly when it can be read itself and adds no field,
or when the old one accepts nothing. -/
theorem accepts_imp_iff {old new : Json} {fo fn : Map Json} (ho : fieldsOf old = some fo)
    (hn : fieldsOf new = some fn) (htypes : TypeNamesAgree fo fn) :
    (∀ e, IsCreateOrUpdate e → Accepts serde store sourceId old e →
        Accepts serde store sourceId new e) ↔
      (fn.keys ⊆ fo.keys ∧ serde.Readable new) ∨ Unusable fo ∨ ¬serde.Readable old := by
  constructor
  · intro h
    by_contra hcon
    simp only [not_or, not_not] at hcon
    obtain ⟨hkeeps, husable, hold⟩ := hcon
    have hreads : ∀ e, IsCreateOrUpdate e → validateAgainst serde old e = .ok () →
        serde.Readable new ∧ validateAgainst serde new e = .ok () := fun e hop he =>
      (accepts_iff hop).mp (h e hop ((accepts_iff hop).mpr ⟨hold, he⟩))
    obtain ⟨e, hop, he⟩ := @exists_accepts_of_usable serde _ _ ho husable
    -- some event is accepted under the old schema, so the new one can be read
    refine hkeeps ⟨?_, (hreads e hop he).1⟩
    have hless := (reads_iff ho hn htypes).mp fun e hop he => (hreads e hop he).2
    exact hless.resolve_right husable
  · rintro (⟨hkeeps, hnew⟩ | husable | hold) e hop he
    · have hreads := (reads_iff ho hn htypes).mpr (Or.inl hkeeps) e hop ((accepts_iff hop).mp he).2
      exact (accepts_iff hop).mpr ⟨hnew, hreads⟩
    · obtain ⟨p, hp, hunsup⟩ := husable
      exact absurd (supported_of_accepts ho hop ((accepts_iff hop).mp he).2 p hp) hunsup
    · exact absurd ((accepts_iff hop).mp he).1 hold

variable (serde)

/-- The modes mean what validation needs: a passed check lets the promised side read the other's
events. `Backward` promises it to the new schema, `Forward` to the old one, and `Full` to both. -/
structure ModesReadable (store : StateStore) (sourceId : String) (old new : Json) : Prop where
  backward : checkCompatibility serde old new .backward = .ok () → ∀ e, IsCreateOrUpdate e →
    Accepts serde store sourceId old e → Accepts serde store sourceId new e
  forward : checkCompatibility serde old new .forward = .ok () → ∀ e, IsCreateOrUpdate e →
    Accepts serde store sourceId new e → Accepts serde store sourceId old e
  full : checkCompatibility serde old new .full = .ok () → ∀ e, IsCreateOrUpdate e →
    (Accepts serde store sourceId old e ↔ Accepts serde store sourceId new e)

/-- **Exactly when the modes mean what validation needs.** Among schemas whose common fields agree,
a change that removes no field must not add one, and a change that adds none must not remove one;
and the schema that is to read the events of the other must come back from its bytes at all. This is
not asked of a schema whose events there are none to read: it has a type that validation does not
know, or does not come back from its bytes itself. -/
theorem modesReadable_iff (store : StateStore) (sourceId : String) (old new : Json) :
    ModesReadable serde store sourceId old new ↔
      ∀ fo fn, fieldsOf old = some fo → fieldsOf new = some fn → SameTypes fo fn →
        (fo.keys ⊆ fn.keys →
          (fn.keys ⊆ fo.keys ∧ serde.Readable new) ∨ Unusable fo ∨ ¬serde.Readable old) ∧
        (fn.keys ⊆ fo.keys →
          (fo.keys ⊆ fn.keys ∧ serde.Readable old) ∨ Unusable fn ∨ ¬serde.Readable new) := by
  -- a mode's check is its field-set rule, and the two rules are the two hypotheses of the right
  -- side
  have hbackward : SchemaCompatibility.backward ≠ .none := by decide
  have hforward : SchemaCompatibility.forward ≠ .none := by decide
  constructor
  · rintro ⟨hback, hforw, -⟩ fo fn ho hn htypes
    refine ⟨fun hkept => ?_, fun hkept => ?_⟩
    · have hcheck : checkCompatibility serde old new .backward = .ok () :=
        (checkCompatibility_eq_ok_iff hbackward).mpr
          ⟨fo, fn, ho, hn, htypes, checkFieldSets_backward_iff.mpr hkept⟩
      exact (accepts_imp_iff ho hn htypes.typeNamesAgree).mp (hback hcheck)
    · have hcheck : checkCompatibility serde old new .forward = .ok () :=
        (checkCompatibility_eq_ok_iff hforward).mpr
          ⟨fo, fn, ho, hn, htypes, checkFieldSets_forward_iff.mpr hkept⟩
      exact (accepts_imp_iff hn ho htypes.typeNamesAgree.symm).mp (hforw hcheck)
  · intro h
    refine ⟨fun hcheck => ?_, fun hcheck => ?_, fun hcheck => ?_⟩
    · obtain ⟨fo, fn, ho, hn, htypes, hsets⟩ := (checkCompatibility_eq_ok_iff hbackward).mp hcheck
      have hreads := (h fo fn ho hn htypes).1 (checkFieldSets_backward_iff.mp hsets)
      exact (accepts_imp_iff ho hn htypes.typeNamesAgree).mpr hreads
    · obtain ⟨fo, fn, ho, hn, htypes, hsets⟩ := (checkCompatibility_eq_ok_iff hforward).mp hcheck
      have hreads := (h fo fn ho hn htypes).2 (checkFieldSets_forward_iff.mp hsets)
      exact (accepts_imp_iff hn ho htypes.typeNamesAgree.symm).mpr hreads
    · -- equal field sets: both promises are made at once
      obtain ⟨fo, fn, ho, hn, htypes, hsets⟩ := (checkCompatibility_eq_ok_iff (by decide)).mp hcheck
      obtain ⟨hold, hnew⟩ := checkFieldSets_full_iff.mp hsets
      obtain ⟨hreads, hreads'⟩ := h fo fn ho hn htypes
      intro e hop
      exact ⟨(accepts_imp_iff ho hn htypes.typeNamesAgree).mpr (hreads hold) e hop,
        (accepts_imp_iff hn ho htypes.typeNamesAgree.symm).mpr (hreads' hnew) e hop⟩

/-- Adding a required field is `Backward` compatible, and an event without it stops validating: the
check forbids to delete a field, where validation would need that none is added. -/
theorem not_modesReadable_addedField :
    ¬ ModesReadable SerdeJson.compact StateStore.new "postgres_users"
      (Json.obj [("fields", Json.obj [("id", .string "integer")])])
      (Json.obj [("fields", Json.obj [("id", .string "integer"), ("name", .string "string")])]) := by
  rintro ⟨hback, -, -⟩
  have hcheck : checkCompatibility SerdeJson.compact
      (Json.obj [("fields", Json.obj [("id", .string "integer")])])
      (Json.obj [("fields", Json.obj [("id", .string "integer"), ("name", .string "string")])])
      .backward = .ok () := by rfl
  have hold : SerdeJson.compact.Readable
      (Json.obj [("fields", Json.obj [("id", .string "integer")])]) :=
    ⟨_, SerdeJson.ReadsBack.of_plain (by decide)⟩
  have hread := hback hcheck (createEvent (Map.ofList [("id", .nat 1)])) (Or.inl rfl)
    ((accepts_iff (Or.inl rfl)).mpr ⟨hold, rfl⟩)
  rw [accepts_iff (Or.inl rfl)] at hread
  cases hread.2

end Caminus.SchemaRegistry

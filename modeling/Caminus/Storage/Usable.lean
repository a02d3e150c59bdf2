import Caminus.Common.Split
import Caminus.Storage.History

/-!
# Schemas that accept something

A registration compares a schema with the one before it and never asks whether `validate_event` can
work with it. A registered schema accepts some `Create` event exactly if it has a `fields` object of
supported type names and can be read from the store, and nothing else keeps the events of its source out
of the dead letter queue (`alwaysUsable_iff`).
-/

namespace Caminus.SchemaRegistry

variable (serde : SerdeJson)

/-- A registration with the mode it is made in. -/
structure ModedRegistration extends Registration where
  mode : SchemaCompatibility

/-- One call of `register_schema`, in its own mode; calls of a run may differ in theirs. -/
def registerInMode (store : StateStore) (call : ModedRegistration) :
    Except SchemaError Unit × StateStore :=
  register serde call.mode store call.toRegistration

/-- The store after a list of calls on an empty one; failed calls are in the list too. -/
def storeAfter (calls : List ModedRegistration) : StateStore :=
  Mealy.final (registerInMode serde) .new calls

/-- Some `Create` event passes validation for the source, so the source is not blocked. -/
def Usable (store : StateStore) (sourceId : String) : Prop :=
  ∃ e : ChangeEvent, e.operation = .create ∧ validateEvent serde store sourceId e = .ok ()

/-- Whenever a schema is stored for a source, whether or not it can be read, some `Create` event of the
source is valid. -/
def AlwaysUsable (calls : List ModedRegistration) : Prop :=
  ∀ before, before <+: calls → ∀ sourceId,
    (storeAfter serde before).getSchema serde sourceId ≠ .ok none →
    Usable serde (storeAfter serde before) sourceId

/-- A `fields` object whose values are names of supported types; an empty object is one. -/
def WellFormed (schema : Json) : Prop :=
  ∃ fields, fieldsOf schema = some fields ∧ ∀ p ∈ fields.entries, Supported p.2

/-- The source has no schema, or one that can be read and that the new schema is compatible with.
These are the calls that `register_schema` answers with `Ok`. -/
def Accepted (store : StateStore) (call : ModedRegistration) : Prop :=
  ∃ stored, store.getSchema serde call.sourceId = .ok stored ∧
    ∀ old, stored = some old → checkCompatibility serde old call.newSchema call.mode = .ok ()

/-- Every call that is accepted where it stands has a well-formed schema, which can be read from its
bytes. -/
def AcceptedWellFormed (calls : List ModedRegistration) : Prop :=
  ∀ before call rest, calls = before ++ call :: rest →
    Accepted serde (storeAfter serde before) call →
    WellFormed call.newSchema ∧ serde.Readable call.newSchema

/-! ## One schema -/

variable {serde}

/-- A schema accepts some `Create` event exactly if it is well-formed. -/
theorem wellFormed_iff (serde : SerdeJson) {schema : Json} :
    WellFormed schema ↔
      ∃ e : ChangeEvent, e.operation = .create ∧ validateAgainst serde schema e = .ok () := by
  constructor
  · rintro ⟨fields, hfields, hsupported⟩
    exact ⟨_, rfl, accepts_samplePayload hfields hsupported⟩
  · rintro ⟨e, hop, hvalid⟩
    cases hfields : fieldsOf schema with
    | none =>
      -- validation fails before it looks at the event
      rw [validateAgainst, hfields] at hvalid
      cases hvalid
    | some fields => exact ⟨fields, hfields, supported_of_accepts hfields (Or.inl hop) hvalid⟩

/-- A schema that was just saved accepts some `Create` event exactly if it is well-formed and can be
read. -/
theorem usable_saveSchema_iff {store : StateStore} {sourceId : String} {schema : Json} :
    Usable serde (store.saveSchema serde sourceId schema) sourceId ↔
      WellFormed schema ∧ serde.Readable schema := by
  rw [wellFormed_iff serde]
  constructor
  · rintro ⟨e, hop, hvalid⟩
    obtain ⟨hread, hvalid⟩ := (accepts_iff (Or.inl hop)).mp hvalid
    exact ⟨⟨e, hop, hvalid⟩, hread⟩
  · rintro ⟨⟨e, hop, hvalid⟩, hread⟩
    exact ⟨e, hop, (accepts_iff (Or.inl hop)).mpr ⟨hread, hvalid⟩⟩

/-- Whether events of a source are valid depends on its stored schema alone, not on other sources. -/
theorem usable_congr {store store' : StateStore} {sourceId : String}
    (h : store'.getSchema serde sourceId = store.getSchema serde sourceId) :
    Usable serde store' sourceId ↔ Usable serde store sourceId := by
  simp only [Usable, validateEvent, h]

/-! ## Sequences of calls -/

/-- The store after one more call is that call on the store before it. -/
theorem storeAfter_concat (calls : List ModedRegistration) (call : ModedRegistration) :
    storeAfter serde (calls ++ [call]) = (registerInMode serde (storeAfter serde calls) call).2 :=
  Mealy.final_concat _ _ _ _

/-- A call that is accepted stores its schema, and any other call changes nothing. -/
theorem registerInMode_cases (store : StateStore) (call : ModedRegistration) :
    (Accepted serde store call ∧ (registerInMode serde store call).2 =
      store.saveSchema serde call.sourceId call.newSchema) ∨
    (¬Accepted serde store call ∧ (registerInMode serde store call).2 = store) := by
  simp only [Accepted, registerInMode, register, registerSchema]
  cases hget : store.getSchema serde call.sourceId with
  | error e => simp
  | ok stored =>
    cases stored with
    | none => simp
    | some old =>
      cases hcheck : checkCompatibility serde old call.newSchema call.mode with
      | error e => simp [hcheck]
      | ok u => simp [hcheck]

/-- The condition is about every call where it stands, so it holds for the calls made so far. -/
theorem AcceptedWellFormed.mono {before calls : List ModedRegistration}
    (h : AcceptedWellFormed serde calls) (hbefore : before <+: calls) :
    AcceptedWellFormed serde before :=
  forall_occurrence_mono hbefore h

/-- As long as accepted schemas are well-formed and can be read, every stored one accepts something. -/
theorem usable_storeAfter {calls : List ModedRegistration} (h : AcceptedWellFormed serde calls)
    {sourceId : String} (hstored : (storeAfter serde calls).getSchema serde sourceId ≠ .ok none) :
    Usable serde (storeAfter serde calls) sourceId := by
  -- by induction on the calls from the last one: it stores its schema for its own source, or
  -- nothing
  induction calls using List.reverseRecOn with
  | nil => exact absurd rfl hstored
  | append_singleton calls call ih =>
    have hearlier : AcceptedWellFormed serde calls := h.mono (List.prefix_append _ _)
    rw [storeAfter_concat] at hstored ⊢
    rcases @registerInMode_cases serde (storeAfter serde calls) call with
      ⟨haccepted, hcall⟩ | ⟨-, hcall⟩
    · rw [hcall] at hstored ⊢
      by_cases hsource : sourceId = call.sourceId
      · rw [hsource]
        exact usable_saveSchema_iff.mpr (h calls call [] rfl haccepted)
      · have hother := StateStore.getSchema_saveSchema_ne serde (storeAfter serde calls)
          call.newSchema hsource
        rw [hother] at hstored
        exact (usable_congr hother).mpr (ih hearlier hstored)
    · rw [hcall] at hstored ⊢
      exact ih hearlier hstored

/-- **Registered schemas accept some `Create` event exactly if every accepted one has a `fields` object
of supported type names and can be read from the store.** -/
theorem alwaysUsable_iff (serde : SerdeJson) (calls : List ModedRegistration) :
    AlwaysUsable serde calls ↔ AcceptedWellFormed serde calls := by
  constructor
  · intro h before call rest hcalls haccepted
    have hstore : storeAfter serde (before ++ [call]) =
        (storeAfter serde before).saveSchema serde call.sourceId call.newSchema := by
      rw [storeAfter_concat]
      exact ((registerInMode_cases _ call).resolve_right fun hnot => hnot.1 haccepted).2
    have hstored : (storeAfter serde (before ++ [call])).getSchema serde call.sourceId ≠ .ok none := by
      rw [hstore, ne_eq, StateStore.getSchema_saveSchema_eq_ok_iff]
      rintro ⟨schema, -, hnone⟩
      cases hnone
    have husable := h (before ++ [call]) ⟨rest, by simp [hcalls]⟩ call.sourceId hstored
    rw [hstore] at husable
    exact usable_saveSchema_iff.mp husable
  · intro h before hbefore sourceId hstored
    exact usable_storeAfter (h.mono hbefore) hstored

/-- The first registration of a source, in the strictest mode, of a schema without fields. -/
def emptySchemaCall : ModedRegistration where
  sourceId := "postgres_users"
  newSchema := Json.obj []
  mode := .full

/-- The first registration compares its schema with nothing, so an empty object is stored, and from
then on no `Create` of the source is valid. -/
theorem not_alwaysUsable_emptySchema : ¬AlwaysUsable .compact [emptySchemaCall] := by
  intro h
  have hread : SerdeJson.compact.ReadsBack (Json.obj []) := .of_plain (by decide)
  have hstored : (storeAfter .compact [emptySchemaCall]).getSchema .compact "postgres_users" =
      .ok (some (Json.obj [])) := StateStore.getSchema_saveSchema_of_readsBack _ _ hread
  have husable := h [emptySchemaCall] (List.prefix_refl _) "postgres_users" (by simp [hstored])
  obtain ⟨⟨fields, hfields, -⟩, -⟩ := usable_saveSchema_iff.mp husable
  cases hfields

end Caminus.SchemaRegistry

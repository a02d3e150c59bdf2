import Caminus.Common.Fallible
import Caminus.Source.Event
import Caminus.Storage.StateStore

/-!
# The schema registry

`SchemaRegistry` (`src/storage/schema.rs`): registration with a compatibility check against the
schema it replaces, and validation of event payloads against the registered schema.
-/

namespace Caminus

/-- The compatibility modes. `None` accepts every change, even to a schema without fields. -/
inductive SchemaCompatibility
  | none
  | backward
  | forward
  | full
deriving DecidableEq

/-- The errors of the schema registry; those of the store are passed on. -/
inductive SchemaError
  | storage (e : StorageError)
  | incompatibility (reason : String)
  | validation (reason : String)

/-- The text of an error, as `thiserror` writes it. -/
def SchemaError.message : SchemaError → String
  | .storage e => "Storage error: " ++ e.message
  | .incompatibility reason => "Incompatible schema change: " ++ reason
  | .validation reason => "Validation failed: " ++ reason

namespace SchemaRegistry

/-- The `fields` object of a schema; none if the member is missing or is not an object. -/
def fieldsOf (schema : Json) : Option (Map Json) := (schema.get? "fields").bind Json.asObject

variable (serde : SerdeJson)

/-! ## Compatibility -/

/-- A field present in both schemas keeps its type value; a field of the old one only is not looked
at. -/
def checkType (newFields : Map Json) (field : String × Json) : Except SchemaError Unit :=
  match newFields.get? field.1 with
  | some newType =>
      if field.2.eq newType then .ok ()
      else .error (.incompatibility ("Field '" ++ field.1 ++ "' type changed from " ++
        serde.debug field.2 ++ " to " ++ serde.debug newType))
  | none => .ok ()

/-- A field name is present in `fields`; `violation` is the text of the error otherwise. -/
def checkPresent (fields : Map Json) (violation : String → String) (name : String) :
    Except SchemaError Unit :=
  if fields.containsKey name then .ok () else .error (.incompatibility (violation name))

/-- The field-set rule of a compatibility mode, with its own texts; the loops follow the key order
of the map they run over. -/
def checkFieldSets (oldFields newFields : Map Json) : SchemaCompatibility → Except SchemaError Unit
  | .backward =>
      checkAll (checkPresent newFields fun name =>
        "Backward compatibility violation: Field '" ++ name ++ "' was deleted") oldFields.keys
  | .forward =>
      checkAll (checkPresent oldFields fun name =>
        "Forward compatibility violation: New field '" ++ name ++ "' added") newFields.keys
  | .full =>
      match checkAll (checkPresent newFields fun name =>
          "Full compatibility violation: Field '" ++ name ++ "' was deleted") oldFields.keys with
      | .error e => .error e
      | .ok () =>
          checkAll (checkPresent oldFields fun name =>
            "Full compatibility violation: Field '" ++ name ++ "' was added") newFields.keys
  | .none => .ok ()

/-- The check of a change: nothing in mode `None`, otherwise the `fields` objects, the types of
common fields and the field sets, in this order. -/
def checkCompatibility (oldSchema newSchema : Json) (mode : SchemaCompatibility) :
    Except SchemaError Unit :=
  if mode = .none then .ok ()
  else
    match fieldsOf oldSchema, fieldsOf newSchema with
    | none, _ => .error (.incompatibility "Old schema missing 'fields' object")
    | some _, none => .error (.incompatibility "New schema missing 'fields' object")
    | some oldFields, some newFields =>
        match checkAll (checkType serde newFields) oldFields.entries with
        | .error e => .error e
        | .ok () => checkFieldSets oldFields newFields mode

/-- The result of a registration, with the store it leaves behind. A source without a schema accepts
any value, also one without fields. -/
def registerSchema (store : StateStore) (sourceId : String) (newSchema : Json)
    (mode : SchemaCompatibility) : Except SchemaError StateStore :=
  match store.getSchema serde sourceId with
  | .error e => .error (.storage e)
  | .ok none => .ok (store.saveSchema serde sourceId newSchema)
  | .ok (some oldSchema) =>
      match checkCompatibility serde oldSchema newSchema mode with
      | .error e => .error e
      | .ok () => .ok (store.saveSchema serde sourceId newSchema)

/-- A registration that succeeds writes the schema and nothing else; one that fails writes nothing. -/
theorem registerSchema_eq_ok {serde : SerdeJson} {store store' : StateStore} {sourceId : String}
    {newSchema : Json} {mode : SchemaCompatibility}
    (h : registerSchema serde store sourceId newSchema mode = .ok store') :
    store' = store.saveSchema serde sourceId newSchema := by
  unfold registerSchema at h
  split at h
  · cases h
  · exact (Except.ok.inj h).symm
  · split at h
    · cases h
    · exact (Except.ok.inj h).symm

/-! ## Validation -/

/-- The value has the type that the schema names. An integer is a number without a fractional part,
so a float such as `2.0` is one, and any number is a float. -/
def checkValue (name expectedType : String) (val : Json) : Except SchemaError Unit :=
  let mismatch := SchemaError.validation
    ("Field '" ++ name ++ "' expected " ++ expectedType ++ ", found " ++ serde.debug val)
  if expectedType = "integer" then
    if !val.isNumber || !val.fractIsZero then .error mismatch else .ok ()
  else if expectedType = "string" then
    if !val.isString then .error mismatch else .ok ()
  else if expectedType = "boolean" then
    if !val.isBoolean then .error mismatch else .ok ()
  else if expectedType = "float" then
    if !val.isNumber then .error mismatch else .ok ()
  else .error (.validation ("Unsupported schema type: " ++ expectedType))

/-- A field of the schema is present in the payload with a value of its type; the type is looked at
first. -/
def checkField (payload : Map Json) (field : String × Json) : Except SchemaError Unit :=
  match field.2.asStr with
  | none => .error (.validation ("Schema type for '" ++ field.1 ++ "' is not a string"))
  | some expectedType =>
      match payload.get? field.1 with
      | none => .error (.validation ("Missing required field '" ++ field.1 ++ "'"))
      | some val => checkValue serde field.1 expectedType val

/-- Validation of an event against a schema. Only `Create` and `Update` payloads are inspected. -/
def validateAgainst (schema : Json) (event : ChangeEvent) : Except SchemaError Unit :=
  match fieldsOf schema with
  | none => .error (.validation "Registered schema missing 'fields' object")
  | some fields =>
      if event.operation ≠ .create ∧ event.operation ≠ .update then .ok ()
      else
        match event.after with
        | none => .error (.validation "Event payload 'after' is missing")
        | some payload =>
            match payload.asObject with
            | none => .error (.validation "Event payload is not a JSON object")
            | some payloadObj => checkAll (checkField serde payloadObj) fields.entries

/-- Validation of an event against the stored schema of its source. Without a schema every event is
valid; a schema that cannot be read fails every event. -/
def validateEvent (store : StateStore) (sourceId : String) (event : ChangeEvent) :
    Except SchemaError Unit :=
  match store.getSchema serde sourceId with
  | .error e => .error (.storage e)
  | .ok none => .ok ()
  | .ok (some schema) => validateAgainst serde schema event

end SchemaRegistry

end Caminus

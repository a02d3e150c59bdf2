import Caminus.Common.Bytes
import Caminus.Common.HashMap
import Caminus.Source.Event

/-!
# Payload security

`KmsProvider` (`src/security/kms.rs`) and `PayloadSecurityEngine` (`src/security/mod.rs`). A rule
rewrites the member of its name in the row before and the row after a change. The rules of an engine
have different names, so the order in which a hash map yields them makes no difference
(`transformValue_object`).
-/

namespace Caminus

/-! ## Keys -/

/-- The versions of the key that were installed, and the one in use. A version is never removed. -/
structure KmsProvider where
  currentVersion : UInt32
  keys : HashMap UInt32 (List UInt8)

namespace KmsProvider

def new (initialKey : List UInt8) : KmsProvider := ⟨1, (∅ : HashMap UInt32 (List UInt8)).insert 1 initialKey⟩

/-- The version in use and its key; a version without a key counts as an empty one. -/
def getActiveKey (kms : KmsProvider) : UInt32 × List UInt8 :=
  (kms.currentVersion, (kms.keys.lookup kms.currentVersion).getD [])

/-- The key of a version, if it was ever installed. -/
def getKeyByVersion (kms : KmsProvider) (version : UInt32) : Option (List UInt8) :=
  kms.keys.lookup version

/-- A new key under the next version, which is then in use. Old versions stay. -/
def rotateKey (kms : KmsProvider) (newKey : List UInt8) : UInt32 × KmsProvider :=
  let nextVersion := kms.currentVersion + 1
  (nextVersion, ⟨nextVersion, kms.keys.insert nextVersion newKey⟩)

theorem getActiveKey_rotateKey (kms : KmsProvider) (newKey : List UInt8) :
    (kms.rotateKey newKey).2.getActiveKey = ((kms.rotateKey newKey).1, newKey) := by
  simp [getActiveKey, rotateKey]

end KmsProvider

/-! ## The engine -/

/-- What may be done to a field: its value is replaced, hashed or encrypted. -/
inductive MaskingRule
  | redact
  | hash
  | encrypt
deriving DecidableEq, Repr

/-- The rules by field name, and the key management if there is one. A rule applies to the members
of both rows, not to those inside of them. -/
structure PayloadSecurityEngine where
  fieldRules : HashMap String MaskingRule
  kmsProvider : Option KmsProvider

namespace PayloadSecurityEngine

def new : PayloadSecurityEngine := ⟨∅, none⟩

def withKms (engine : PayloadSecurityEngine) (kms : KmsProvider) : PayloadSecurityEngine :=
  { engine with kmsProvider := some kms }

/-- A rule for a field, in place of an old one. -/
def addRule (engine : PayloadSecurityEngine) (fieldName : String) (rule : MaskingRule) :
    PayloadSecurityEngine :=
  { engine with fieldRules := engine.fieldRules.insert fieldName rule }

/-- The hash of a string, byte by byte; `<<` drops the bits above 64. -/
def hashBytes (s : String) : UInt64 :=
  (Bytes.ofString s).foldl (fun hash b => (hash <<< 5) + hash + b.toUInt64) 5381

/-- `{:016x}`: sixteen hexadecimal digits, filled up with zeros in front. -/
def hex16 (n : UInt64) : String :=
  let digits := Nat.toDigits 16 n.toNat
  String.ofList (List.replicate (16 - digits.length) '0' ++ digits)

variable (serde : SerdeJson)

/-- `ENC:v{version}:{key}:{data}`, with the key and the text of the value in hexadecimal digits. -/
def encrypted (kms : KmsProvider) (val : Json) : String :=
  let (version, key) := kms.getActiveKey
  let rawStr := serde.toText val
  let hexKey := Bytes.hex key
  let hexData := Bytes.hex (Bytes.ofString rawStr)
  String.ofList ("ENC:v".toList ++ Json.digits version.toNat ++ ':' :: hexKey ++ ':' :: hexData)

/-- What a rule puts in the place of a value. `Hash`, and `Encrypt` without a key provider, leave a
value that is not a string as it is. -/
def mask (engine : PayloadSecurityEngine) (rule : MaskingRule) (val : Json) : Json :=
  match rule with
  | .redact => .string "[REDACTED]"
  | .hash =>
      match val with
      | .string s => .string (hex16 (hashBytes s))
      | _ => val
  | .encrypt =>
      match engine.kmsProvider with
      | some kms => .string (encrypted serde kms val)
      -- without a provider only strings are replaced
      | none =>
          match val with
          | .string _ => .string "[ENCRYPTED_WITHOUT_KMS]"
          | _ => val

/-- Only the members of an object are rewritten, one for each rule. -/
def transformValue (engine : PayloadSecurityEngine) (value : Json) : Json :=
  engine.fieldRules.entries.foldl
    (fun value entry => value.modify entry.1 (engine.mask serde entry.2)) value

/-- `apply_security`: the two rows are rewritten, and nothing else of the event. -/
def applySecurity (engine : PayloadSecurityEngine) (event : ChangeEvent) : ChangeEvent :=
  -- the key of the event is not visited
  { event with
    after := event.after.map (engine.transformValue serde)
    before := event.before.map (engine.transformValue serde) }

/-! ## What becomes of a row -/

/-- What becomes of a member under the rule for its name, if there is one. -/
def maskField (engine : PayloadSecurityEngine) (name : String) (val : Json) : Json :=
  match engine.fieldRules.lookup name with
  | some rule => engine.mask serde rule val
  | none => val

/-- Rules of different names act on different members. -/
theorem foldl_modify (engine : PayloadSecurityEngine) {rules : List (Sigma fun _ : String => MaskingRule)}
    (hrules : rules.NodupKeys) (keys : Keys) (vals : Fin keys.names.length → Json) :
    rules.foldl (fun value entry => Json.modify entry.1 (engine.mask serde entry.2) value)
        (Json.object keys vals) =
      Json.object keys fun i =>
        match rules.dlookup (keys.names.get i) with
        | some rule => engine.mask serde rule (vals i)
        | none => vals i := by
  induction rules generalizing vals with
  | nil => rfl
  | cons entry rules ih =>
    obtain ⟨name, rule⟩ := entry
    rw [List.nodupKeys_cons] at hrules
    rw [List.foldl_cons, Json.modify, ih hrules.2]
    congr 1
    funext i
    by_cases hi : keys.names.get i = name
    · -- no later rule has this name
      have hnone : rules.dlookup name = none := List.dlookup_eq_none.mpr hrules.1
      rw [hi, List.dlookup_cons_eq, hnone, if_pos rfl]
    · rw [List.dlookup_cons_ne _ _ hi, if_neg hi]

/-- A row is rewritten member by member. Its members keep their names and their order, and nested
values are not looked into. -/
theorem transformValue_object (engine : PayloadSecurityEngine) (keys : Keys)
    (vals : Fin keys.names.length → Json) :
    engine.transformValue serde (.object keys vals) =
      .object keys fun i => engine.maskField serde (keys.names.get i) (vals i) :=
  engine.foldl_modify serde engine.fieldRules.nodupKeys keys vals

/-- No rule acts on a payload that is no object. -/
theorem foldl_modify_of_asObject_eq_none (engine : PayloadSecurityEngine) {value : Json}
    (h : value.asObject = none) (rules : List (Sigma fun _ : String => MaskingRule)) :
    rules.foldl (fun value entry => Json.modify entry.1 (engine.mask serde entry.2) value) value =
      value := by
  have hfixed : ∀ k f, value.modify k f = value := by
    intro k f
    cases value with
    | object keys vals => cases h
    | _ => rfl
  induction rules with
  | nil => rfl
  | cons entry rules ih => rw [List.foldl_cons, hfixed, ih]

/-- A payload that is no object is left alone. -/
theorem transformValue_of_asObject_eq_none (engine : PayloadSecurityEngine) {value : Json}
    (h : value.asObject = none) : engine.transformValue serde value = value :=
  engine.foldl_modify_of_asObject_eq_none serde h _

/-- The member of a row after the rules is the member before them, masked by the rule of its name. -/
theorem get?_transformValue (engine : PayloadSecurityEngine) (row : Json) (name : String) :
    (engine.transformValue serde row).get? name =
      (row.get? name).map (engine.maskField serde name) := by
  cases row with
  | object keys vals =>
    rw [transformValue_object]
    exact Json.get?_object_map (engine.maskField serde) keys vals name
  | _ => rw [transformValue_of_asObject_eq_none _ _ rfl]; rfl

end PayloadSecurityEngine

end Caminus

import Caminus.Security.Encryption

/-!
# What a redacted field tells

A rule `Redact` on a field is meant to keep the values of the field inside. The engine looks at the
members of the row before and the row after a change and not below them, and it leaves the key of the
event alone. Two events that differ in values of the field come out equal exactly if they differ in
redacted members of their rows alone (`applySecurity_eq_iff`).
-/

namespace Caminus

/-- Values that are equal except under the name `f`, at any depth. This is what an observer who may
not see `f` must not tell apart. -/
inductive Json.SameExcept (f : String) : Json → Json → Prop
  | refl (v : Json) : SameExcept f v v
  | array {n : ℕ} {xs ys : Fin n → Json} (h : ∀ i, SameExcept f (xs i) (ys i)) :
      SameExcept f (.array n xs) (.array n ys)
  | object {keys : Keys} {vs ws : Fin keys.names.length → Json}
      (h : ∀ i, keys.names.get i ≠ f → SameExcept f (vs i) (ws i)) :
      SameExcept f (.object keys vs) (.object keys ws)

/-- Events that are equal except for values stored under the name `f` in the key or in a row. -/
structure ChangeEvent.SameExcept (f : String) (e e' : ChangeEvent) : Prop where
  id : e.id = e'.id
  sourceDatabase : e.sourceDatabase = e'.sourceDatabase
  sourceTableOrCollection : e.sourceTableOrCollection = e'.sourceTableOrCollection
  operation : e.operation = e'.operation
  timestamp : e.timestamp = e'.timestamp
  key : e.key.SameExcept f e'.key
  before : Option.Rel (Json.SameExcept f) e.before e'.before
  after : Option.Rel (Json.SameExcept f) e.after e'.after
  transactionId : e.transactionId = e'.transactionId
  offset : e.offset = e'.offset

namespace PayloadSecurityEngine

/-- Rows that differ in redacted members alone. -/
inductive DifferRedacted (engine : PayloadSecurityEngine) : Json → Json → Prop
  | refl (v : Json) : DifferRedacted engine v v
  | object {keys : Keys} {vs ws : Fin keys.names.length → Json}
      (h : ∀ i, engine.fieldRules.lookup (keys.names.get i) ≠ some .redact → vs i = ws i) :
      DifferRedacted engine (.object keys vs) (.object keys ws)

/-- Events with the same key whose rows differ in redacted members alone: the pairs that the engine
makes equal. -/
structure OnlyRedactedDiffer (engine : PayloadSecurityEngine) (e e' : ChangeEvent) : Prop where
  key : e.key = e'.key
  before : Option.Rel (DifferRedacted engine) e.before e'.before
  after : Option.Rel (DifferRedacted engine) e.after e'.after

variable {serde : SerdeJson} {engine : PayloadSecurityEngine} {f : String}

/-! ## One member -/

/-- The same provider writes different values differently. -/
theorem encrypted_injective {kms : KmsProvider} {v w : Json}
    (h : encrypted serde kms v = encrypted serde kms w) : v = w := by
  rw [← readValue_encrypted serde kms v, h, readValue_encrypted]

/-- A rule other than `Redact` does not hide what differs below a member: strings that are related
are equal, and it leaves everything else as it is or encrypts it. -/
theorem eq_of_mask_eq {rule : MaskingRule} (hrule : rule ≠ .redact) {v w : Json}
    (hvw : v.SameExcept f w) (h : engine.mask serde rule v = engine.mask serde rule w) : v = w := by
  cases hvw with
  | refl => rfl
  | array | object =>
    cases rule with
    | redact => exact absurd rfl hrule
    | hash => exact h
    | encrypt =>
      simp only [mask] at h
      split at h
      · exact encrypted_injective (Json.string.inj h)
      · exact h

/-! ## Rows -/

/-- Members that are redacted come out equal, so a difference in them alone is hidden. -/
theorem transformValue_eq_of_differRedacted {v w : Json} (h : DifferRedacted engine v w) :
    engine.transformValue serde v = engine.transformValue serde w := by
  cases h with
  | refl => rfl
  | @object keys vs ws hvals =>
    rw [transformValue_object, transformValue_object]
    congr 1
    funext i
    by_cases hi : engine.fieldRules.lookup (keys.names.get i) = some .redact
    · rw [maskField, maskField, hi]
      rfl
    · rw [hvals i hi]

/-- If two such rows come out equal, they differ in redacted members alone: every other rule keeps a
difference. -/
theorem differRedacted_of_transformValue_eq (hf : engine.fieldRules.lookup f = some .redact)
    {v w : Json} (hvw : v.SameExcept f w)
    (h : engine.transformValue serde v = engine.transformValue serde w) :
    DifferRedacted engine v w := by
  cases hvw with
  | refl => exact .refl v
  | array hchildren =>
    rw [transformValue_of_asObject_eq_none _ _ rfl, transformValue_of_asObject_eq_none _ _ rfl] at h
    rw [h]
    exact .refl _
  | @object keys vs ws hchildren =>
    rw [transformValue_object, transformValue_object, Json.object.injEq, heq_eq_eq] at h
    refine .object fun i hi => ?_
    -- the members under `f` are redacted, so this one is related to its counterpart
    have hname : keys.names.get i ≠ f := by
      intro hname
      rw [hname] at hi
      exact hi hf
    have hmask := congrFun h.2 i
    simp only [maskField] at hmask
    cases hrule : engine.fieldRules.lookup (keys.names.get i) with
    | none =>
      rw [hrule] at hmask
      exact hmask
    | some rule =>
      rw [hrule] at hmask hi
      -- a rule that is not `Redact` is injective on what is related here
      refine eq_of_mask_eq (fun hr => hi (by rw [hr])) (hchildren i hname) hmask

/-- The same for rows that may be missing. -/
theorem map_transformValue_eq_iff (hf : engine.fieldRules.lookup f = some .redact)
    {v w : Option Json} (hvw : Option.Rel (Json.SameExcept f) v w) :
    v.map (engine.transformValue serde) = w.map (engine.transformValue serde) ↔
      Option.Rel (DifferRedacted engine) v w := by
  cases hvw with
  | none => exact iff_of_true rfl .none
  | some hvw =>
    rw [Option.map_some, Option.map_some, Option.some.injEq]
    constructor
    · intro h
      exact .some (differRedacted_of_transformValue_eq hf hvw h)
    · rintro ⟨h⟩
      exact transformValue_eq_of_differRedacted h

/-- **Redacted data stays inside exactly if it stands in redacted members of the rows**: events that
differ in values of a redacted field come out equal if and only if they have the same key and their
rows differ in redacted members alone. -/
theorem applySecurity_eq_iff (serde : SerdeJson) {engine : PayloadSecurityEngine} {f : String}
    (hf : engine.fieldRules.lookup f = some .redact) {e e' : ChangeEvent} (he : e.SameExcept f e') :
    engine.applySecurity serde e = engine.applySecurity serde e' ↔
      OnlyRedactedDiffer engine e e' := by
  have hbefore := @map_transformValue_eq_iff serde engine f hf _ _ he.before
  have hafter := @map_transformValue_eq_iff serde engine f hf _ _ he.after
  constructor
  · intro h
    have hkey : (engine.applySecurity serde e).key = (engine.applySecurity serde e').key := by rw [h]
    refine ⟨hkey, hbefore.mp ?_, hafter.mp ?_⟩
    · exact congrArg ChangeEvent.before h
    · exact congrArg ChangeEvent.after h
  · rintro ⟨hkey, hb, ha⟩
    rw [applySecurity, applySecurity, hbefore.mpr hb, hafter.mpr ha, he.id, he.sourceDatabase,
      he.sourceTableOrCollection, he.operation, he.timestamp, hkey, he.transactionId, he.offset]

/-! ## Accounts -/

/-- An engine that redacts social security numbers. -/
def ssnEngine : PayloadSecurityEngine := new.addRule "ssn" .redact

def ssnRow (ssn : String) : Json := .object ⟨["ssn"], by decide⟩ fun _ => .string ssn

/-- An account whose number stands in its row, and in its key if the table has it for a key. -/
def accountEvent (key : Json) (ssn : String) : ChangeEvent where
  id := "evt-sec-1"
  sourceDatabase := "finance_db"
  sourceTableOrCollection := "accounts"
  operation := .create
  timestamp := 0
  key := key
  before := none
  after := some (ssnRow ssn)
  transactionId := some "tx-1"
  offset := "offset-1"

theorem sameExcept_ssnRow (ssn ssn' : String) : (ssnRow ssn).SameExcept "ssn" (ssnRow ssn') := by
  refine .object fun i hi => absurd ?_ hi
  obtain rfl : i = 0 := Fin.eq_zero i
  rfl

theorem sameExcept_accountEvent {key key' : Json} (hkey : key.SameExcept "ssn" key')
    (ssn ssn' : String) : (accountEvent key ssn).SameExcept "ssn" (accountEvent key' ssn') where
  id := rfl
  sourceDatabase := rfl
  sourceTableOrCollection := rfl
  operation := rfl
  timestamp := rfl
  key := hkey
  before := .none
  after := .some (sameExcept_ssnRow ssn ssn')
  transactionId := rfl
  offset := rfl

/-- Two accounts with the same key come out equal. -/
theorem applySecurity_eq_accounts :
    ssnEngine.applySecurity .compact (accountEvent (.nat 1) "000-12-3456") =
      ssnEngine.applySecurity .compact (accountEvent (.nat 1) "123-45-6789") := by
  refine (applySecurity_eq_iff .compact rfl (sameExcept_accountEvent (.refl _) _ _)).mpr ?_
  refine ⟨rfl, .none, .some (.object fun i hi => absurd ?_ hi)⟩
  obtain rfl : i = 0 := Fin.eq_zero i
  rfl

/-- The number in the key of an account comes out as it is: rules are not applied to keys. -/
theorem not_applySecurity_eq_key :
    ssnEngine.fieldRules.lookup "ssn" = some .redact ∧
    (accountEvent (ssnRow "000-12-3456") "000-12-3456").SameExcept "ssn"
      (accountEvent (ssnRow "123-45-6789") "123-45-6789") ∧
    ssnEngine.applySecurity .compact (accountEvent (ssnRow "000-12-3456") "000-12-3456") ≠
      ssnEngine.applySecurity .compact (accountEvent (ssnRow "123-45-6789") "123-45-6789") := by
  refine ⟨rfl, sameExcept_accountEvent (sameExcept_ssnRow _ _) _ _, fun h => ?_⟩
  have hkey : ssnRow "000-12-3456" = ssnRow "123-45-6789" := congrArg ChangeEvent.key h
  exact absurd hkey (by decide)

end PayloadSecurityEngine

end Caminus

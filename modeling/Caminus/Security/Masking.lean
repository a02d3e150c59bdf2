import Caminus.Security.Redaction

/-!
# Masking field by field

What `apply_security` (`src/security/mod.rs`) does to the rows of an event. The loop of
`transform_value` runs over the rules in the order of a hash map and rewrites one object, and still
each member ends as a function of its old value, its rule and the active key (`fieldWise`). That
function puts a string of the rule's form in the place of every value, except that `Hash`, and `Encrypt`
without a provider, leave everything but strings as it is (`masksAll_iff`).
-/

namespace Caminus.PayloadSecurityEngine

/-! ## The hash of a string -/

/-- The hash in natural numbers, each step modulo `2 ^ 64`. -/
def hashNat (s : String) : ℕ :=
  (Bytes.ofString s).foldl (fun h b => (33 * h + b.toNat) % 2 ^ 64) 5381

/-- `<<` in a build that checks for overflow: `none` for a shift by the width or more. -/
def checkedShl (x shift : UInt64) : Option UInt64 := if shift < 64 then some (x <<< shift) else none

/-- `hashBytes` in a build that checks for overflow: `none` for a panic. Only the shifts are
checked; the additions are wrapping ones in the source. -/
def hashBytesChecked (s : String) : Option UInt64 :=
  (Bytes.ofString s).foldlM
    (fun hash b => (checkedShl hash 5).map fun shifted => shifted + hash + b.toUInt64) 5381

/-- One byte: shifting by five and adding once is multiplication by 33. -/
theorem toNat_hashStep (hash : UInt64) (b : UInt8) :
    ((hash <<< 5) + hash + b.toUInt64).toNat = (33 * hash.toNat + b.toNat) % 2 ^ 64 := by
  have hshift : (hash <<< 5).toNat = hash.toNat * 32 % 2 ^ 64 := by
    rw [UInt64.toNat_shiftLeft]
    show hash.toNat <<< 5 % 2 ^ 64 = _
    rw [Nat.shiftLeft_eq]
  rw [UInt64.toNat_add, UInt64.toNat_add, hshift, UInt8.toNat_toUInt64]
  omega

/-- The wrapping arithmetic computes the hash modulo `2 ^ 64`. -/
theorem toNat_hashBytes (s : String) : (hashBytes s).toNat = hashNat s := by
  have hfold : ∀ (bytes : List UInt8) (hash : UInt64),
      (bytes.foldl (fun (hash : UInt64) b => (hash <<< 5) + hash + b.toUInt64) hash).toNat =
        bytes.foldl (fun h b => (33 * h + b.toNat) % 2 ^ 64) hash.toNat := by
    intro bytes
    induction bytes with
    | nil => exact fun hash => rfl
    | cons b bytes ih =>
      intro hash
      rw [List.foldl_cons, List.foldl_cons, ih, toNat_hashStep]
  exact hfold _ 5381

/-- A shift by five never panics, so both builds compute the same. -/
theorem hashBytesChecked_eq (s : String) : hashBytesChecked s = some (hashBytes s) := by
  rw [hashBytesChecked, hashBytes]
  generalize (5381 : UInt64) = hash
  induction Bytes.ofString s generalizing hash with
  | nil => rfl
  | cons b bytes ih => exact ih _

/-- Sixteen lower case digits that stand for the hash of the string, computed without a panic. -/
structure HashedTo (s t : String) : Prop where
  length : t.toList.length = 16
  digits : ∀ c ∈ t.toList, c ∈ Bytes.hexDigits
  value : Bytes.hexNumber t.toList = hashNat s
  noPanic : ∃ hash, hashBytesChecked s = some hash ∧ t = hex16 hash

theorem toList_hex16 (n : UInt64) : (hex16 n).toList =
    List.replicate (16 - (Nat.toDigits 16 n.toNat).length) '0' ++ Nat.toDigits 16 n.toNat :=
  String.toList_ofList

/-- The sixteen digits stand for the hash: leading zeros fill up what the number does not need. -/
theorem hashedTo_hex16 (s : String) : HashedTo s (hex16 (hashBytes s)) where
  length := by
    have hlen : (Nat.toDigits 16 (hashBytes s).toNat).length ≤ 16 :=
      (Nat.length_toDigits_le_iff (by decide) (by decide)).mpr (hashBytes s).toNat_lt
    rw [toList_hex16, List.length_append, List.length_replicate]
    omega
  digits := by
    intro c hc
    rw [toList_hex16] at hc
    rcases List.mem_append.mp hc with hc | hc
    · rw [List.eq_of_mem_replicate hc]
      decide
    · exact Bytes.mem_hexDigits_of_mem_toDigits hc
  value := by
    rw [toList_hex16, Bytes.hexNumber_replicate_append, Bytes.hexNumber_toDigits, toNat_hashBytes]
  noPanic := ⟨hashBytes s, hashBytesChecked_eq s, rfl⟩

/-! ## Rows in any order of the rules -/

/-- The entries of the rules, in the order in which an iteration yields them. A hash map promises
none. -/
structure RuleOrder (rules : HashMap String MaskingRule) where
  entries : List (Sigma fun _ : String => MaskingRule)
  perm : entries.Perm rules.entries

variable (serde : SerdeJson)

/-- `transform_value`, with the rules in the given order. -/
def transformValueIn (engine : PayloadSecurityEngine) (order : RuleOrder engine.fieldRules)
    (value : Json) : Json :=
  order.entries.foldl (fun value entry => value.modify entry.1 (engine.mask serde entry.2)) value

/-- `apply_security`, with the rules in one order for each of its loops. -/
def applySecurityIn (engine : PayloadSecurityEngine) (afterOrder beforeOrder : RuleOrder engine.fieldRules)
    (event : ChangeEvent) : ChangeEvent :=
  { event with
    after := event.after.map (engine.transformValueIn serde afterOrder)
    before := event.before.map (engine.transformValueIn serde beforeOrder) }

/-- The order in which the rules are iterated makes no difference: each of them has a field of its
own. -/
theorem transformValueIn_eq (engine : PayloadSecurityEngine) (order : RuleOrder engine.fieldRules)
    (value : Json) : engine.transformValueIn serde order value = engine.transformValue serde value := by
  have hnodup : order.entries.NodupKeys :=
    (List.perm_nodupKeys order.perm).mpr engine.fieldRules.nodupKeys
  cases value with
  | object keys vals =>
    rw [transformValueIn, transformValue, foldl_modify _ _ hnodup,
      foldl_modify _ _ engine.fieldRules.nodupKeys]
    congr 1
    funext i
    rw [List.perm_dlookup _ hnodup order.perm]
  | _ =>
    rw [transformValue_of_asObject_eq_none _ _ rfl, transformValueIn,
      foldl_modify_of_asObject_eq_none _ _ rfl]

/-- The order of the rules makes no difference to the event, even if the two loops iterate in
different orders. -/
theorem applySecurityIn_eq (engine : PayloadSecurityEngine)
    (afterOrder beforeOrder : RuleOrder engine.fieldRules) (event : ChangeEvent) :
    engine.applySecurityIn serde afterOrder beforeOrder event = engine.applySecurity serde event := by
  have heq : ∀ order, engine.transformValueIn serde order = engine.transformValue serde :=
    fun order => funext (engine.transformValueIn_eq serde order)
  rw [applySecurityIn, heq, heq, applySecurity]

/-- What a rule puts in the place of a value, given the version and the key in use. -/
def maskUnder (activeKey : Option (UInt32 × List UInt8)) (rule : MaskingRule) (val : Json) : Json :=
  let kms := activeKey.map fun active =>
    (⟨active.1, (∅ : HashMap UInt32 (List UInt8)).insert active.1 active.2⟩ : KmsProvider)
  mask serde ⟨∅, kms⟩ rule val

/-- Of a provider only the version and the key in use matter. -/
theorem encrypted_congr {kms kms' : KmsProvider} (h : kms.getActiveKey = kms'.getActiveKey)
    (val : Json) : encrypted serde kms val = encrypted serde kms' val := by
  apply String.toList_inj.mp
  rw [toList_encrypted, toList_encrypted, h]

/-- A rule depends on the engine only through the key in use. -/
theorem mask_eq_maskUnder (engine : PayloadSecurityEngine) (rule : MaskingRule) (val : Json) :
    engine.mask serde rule val =
      maskUnder serde (engine.kmsProvider.map KmsProvider.getActiveKey) rule val := by
  obtain ⟨rules, kms⟩ := engine
  cases rule with
  | redact => rfl
  | hash => simp only [mask, maskUnder]
  | encrypt =>
    cases kms with
    | none => simp only [mask, maskUnder, Option.map_none]
    | some kms =>
      simp only [mask, maskUnder, Option.map_some]
      congr 1
      apply encrypted_congr
      rw [KmsProvider.getActiveKey, KmsProvider.getActiveKey, AList.lookup_insert]
      rfl

/-- A row whose members are rewritten one by one: `f` stands for what a rule makes of a value. -/
structure RowMapped (f : MaskingRule → Json → Json) (rules : HashMap String MaskingRule)
    (old new : Json) : Prop where
  nonObject : old.asObject = none → new = old
  keys : new.asObject.map Map.keys = old.asObject.map Map.keys
  unruled : ∀ name, rules.lookup name = none → new.get? name = old.get? name
  ruled : ∀ name rule, rules.lookup name = some rule →
    new.get? name = (old.get? name).map (f rule)

/-- An event of which only the rows are rewritten, and these member by member: no other field
changes, and a member depends on its own rule and value. -/
structure FieldWise (f : MaskingRule → Json → Json) (rules : HashMap String MaskingRule)
    (old new : ChangeEvent) : Prop where
  frame : new = { old with before := new.before, after := new.after }
  before : Option.Rel (RowMapped f rules) old.before new.before
  after : Option.Rel (RowMapped f rules) old.after new.after

theorem keys_transformValue (engine : PayloadSecurityEngine) (value : Json) :
    (engine.transformValue serde value).asObject.map Map.keys = value.asObject.map Map.keys := by
  cases value with
  | object keys vals =>
    rw [transformValue_object]
    simp [Json.asObject, Map.keys, List.map_ofFn, Function.comp_def]
  | _ => rw [transformValue_of_asObject_eq_none _ _ rfl]

/-- A row is rewritten member by member, each under the rule for its name. -/
theorem rowMapped_transformValue (engine : PayloadSecurityEngine) (value : Json) :
    RowMapped (maskUnder serde (engine.kmsProvider.map KmsProvider.getActiveKey)) engine.fieldRules
      value (engine.transformValue serde value) where
  nonObject := engine.transformValue_of_asObject_eq_none serde
  keys := engine.keys_transformValue serde value
  unruled := by
    intro name hrule
    have hid : engine.maskField serde name = id := by
      funext val
      rw [maskField, hrule]
      rfl
    rw [get?_transformValue, hid, Option.map_id, id]
  ruled := by
    intro name rule hrule
    have hmask : engine.maskField serde name =
        maskUnder serde (engine.kmsProvider.map KmsProvider.getActiveKey) rule := by
      funext val
      rw [maskField, hrule]
      exact engine.mask_eq_maskUnder serde rule val
    rw [get?_transformValue, hmask]

/-- The same for a row that may be missing. -/
theorem rel_map_transformValue (engine : PayloadSecurityEngine) (row : Option Json) :
    Option.Rel
      (RowMapped (maskUnder serde (engine.kmsProvider.map KmsProvider.getActiveKey)) engine.fieldRules)
      row (row.map (engine.transformValue serde)) := by
  cases row with
  | none => exact .none
  | some row => exact .some (engine.rowMapped_transformValue serde row)

/-- **Masking is a map over the fields, whatever the order of the rules**: there is one function of
the active key, the rule and the old value that gives the new value of every field with a rule, and
under `Hash` it gives the digits of a string's hash. -/
theorem fieldWise (serde : SerdeJson) :
    ∃ f : Option (UInt32 × List UInt8) → MaskingRule → Json → Json,
      (∀ activeKey s, ∃ t, f activeKey .hash (.string s) = .string t ∧ HashedTo s t) ∧
      ∀ (engine : PayloadSecurityEngine) (afterOrder beforeOrder : RuleOrder engine.fieldRules)
        (event : ChangeEvent),
        FieldWise (f (engine.kmsProvider.map KmsProvider.getActiveKey)) engine.fieldRules event
          (engine.applySecurityIn serde afterOrder beforeOrder event) := by
  refine ⟨maskUnder serde, fun activeKey s => ⟨_, rfl, hashedTo_hex16 s⟩, ?_⟩
  intro engine afterOrder beforeOrder event
  rw [applySecurityIn_eq]
  exact ⟨rfl, engine.rel_map_transformValue serde _, engine.rel_map_transformValue serde _⟩

/-! ## The form of masked values -/

/-- The strings that a rule puts in the place of values. -/
def HasForm (rule : MaskingRule) (val : Json) : Prop :=
  ∃ t, val = .string t ∧
    match rule with
    | .redact => t = "[REDACTED]"
    | .hash => t.toList.length = 16 ∧ ∀ c ∈ t.toList, c ∈ Bytes.hexDigits
    | .encrypt => "ENC:v".toList <+: t.toList ∨ t = "[ENCRYPTED_WITHOUT_KMS]"

/-- A value of the rule's form in the place of the old one, which stays only if it is of that form
already. -/
structure Masked (rule : MaskingRule) (old new : Json) : Prop where
  form : HasForm rule new
  replaced : ¬HasForm rule old → new ≠ old

/-- Every field with a rule leaves masked, in both rows of the event and whatever its value is. -/
def MasksAll (engine : PayloadSecurityEngine) (event : ChangeEvent) : Prop :=
  ∀ row row', (event.before = some row ∧ (engine.applySecurity serde event).before = some row') ∨
      (event.after = some row ∧ (engine.applySecurity serde event).after = some row') →
    ∀ name rule val, engine.fieldRules.lookup name = some rule → row.get? name = some val →
      ∃ val', row'.get? name = some val' ∧ Masked rule val val'

/-- The values that a rule of the engine replaces: `Redact` all of them, `Hash` strings, and
`Encrypt` strings unless there is a provider, with which it replaces all. -/
def Replaces (engine : PayloadSecurityEngine) (rule : MaskingRule) (val : Json) : Prop :=
  match rule with
  | .redact => True
  | .hash => val.isString = true
  | .encrypt => engine.kmsProvider.isSome = true ∨ val.isString = true

/-- What a rule puts in the place of a value is a string. -/
theorem not_hasForm_of_isString {rule : MaskingRule} {val : Json} (h : val.isString = false) :
    ¬HasForm rule val := by
  rintro ⟨t, rfl, -⟩
  cases h

/-- A value that its rule does not replace stays, and is no string. -/
theorem mask_of_not_replaces {engine : PayloadSecurityEngine} {rule : MaskingRule} {val : Json}
    (h : ¬engine.Replaces rule val) : engine.mask serde rule val = val ∧ val.isString = false := by
  cases rule with
  | redact => exact absurd trivial h
  | hash =>
    cases val with
    | string s => exact absurd rfl h
    | _ => exact ⟨rfl, rfl⟩
  | encrypt =>
    have hkms : engine.kmsProvider = none := by
      by_contra hsome
      exact h (Or.inl (Option.isSome_iff_ne_none.mpr hsome))
    cases val with
    | string s => exact absurd (Or.inr rfl) h
    | _ => exact ⟨by simp only [mask, hkms], rfl⟩

theorem hasForm_encrypted (kms : KmsProvider) (val : Json) :
    HasForm .encrypt (.string (encrypted serde kms val)) := by
  refine ⟨encrypted serde kms val, rfl, Or.inl ?_⟩
  rw [toList_encrypted, List.append_assoc, List.append_assoc]
  exact List.prefix_append _ _

/-- A value that its rule replaces gets the form of the rule. -/
theorem hasForm_mask {engine : PayloadSecurityEngine} {rule : MaskingRule} {val : Json}
    (h : engine.Replaces rule val) : HasForm rule (engine.mask serde rule val) := by
  cases rule with
  | redact => exact ⟨_, rfl, rfl⟩
  | hash =>
    cases val with
    | string s =>
      simp only [mask]
      exact ⟨_, rfl, (hashedTo_hex16 s).length, (hashedTo_hex16 s).digits⟩
    | _ => cases h
  | encrypt =>
    cases hkms : engine.kmsProvider with
    | some kms =>
      simp only [mask, hkms]
      exact hasForm_encrypted serde kms val
    | none =>
      have hstring : val.isString = true := by
        rcases h with hsome | hstring
        · rw [hkms] at hsome
          cases hsome
        · exact hstring
      cases val with
      | string s =>
        simp only [mask, hkms]
        exact ⟨_, rfl, Or.inr rfl⟩
      | _ => cases hstring

/-- A value leaves masked exactly if its rule replaces it: one that stays is no string and so has
not the form already. -/
theorem masked_mask_iff {engine : PayloadSecurityEngine} {rule : MaskingRule} {val : Json} :
    Masked rule val (engine.mask serde rule val) ↔ engine.Replaces rule val := by
  constructor
  · intro h
    by_contra hstays
    obtain ⟨hmask, hstring⟩ := mask_of_not_replaces serde hstays
    have hform := h.form
    rw [hmask] at hform
    exact not_hasForm_of_isString hstring hform
  · intro h
    refine ⟨hasForm_mask serde h, fun hold hnew => hold ?_⟩
    rw [← hnew]
    exact hasForm_mask serde h

/-- The value of a field with a rule, after the rules. -/
theorem get?_of_ruled {engine : PayloadSecurityEngine} {row val : Json} {name : String}
    {rule : MaskingRule} (hrule : engine.fieldRules.lookup name = some rule)
    (hval : row.get? name = some val) :
    (engine.transformValue serde row).get? name = some (engine.mask serde rule val) := by
  rw [get?_transformValue, hval, Option.map_some, maskField, hrule]

/-- **Fields leave masked exactly if their rules replace them**: every field under `Hash`, and every
field under `Encrypt` if there is no provider, has to hold a string. -/
theorem masksAll_iff (serde : SerdeJson) (engine : PayloadSecurityEngine) (event : ChangeEvent) :
    MasksAll serde engine event ↔
      ∀ row, event.before = some row ∨ event.after = some row →
        ∀ name rule val, engine.fieldRules.lookup name = some rule → row.get? name = some val →
          engine.Replaces rule val := by
  constructor
  · intro h row hrow name rule val hrule hval
    -- a row of the event comes out as the transformed row, in the same place
    have hrow' : (event.before = some row ∧ (engine.applySecurity serde event).before =
          some (engine.transformValue serde row)) ∨
        (event.after = some row ∧ (engine.applySecurity serde event).after =
          some (engine.transformValue serde row)) := by
      rcases hrow with hrow | hrow
      · exact Or.inl ⟨hrow, by rw [applySecurity, hrow]; rfl⟩
      · exact Or.inr ⟨hrow, by rw [applySecurity, hrow]; rfl⟩
    obtain ⟨val', hval', hmasked⟩ := h row _ hrow' name rule val hrule hval
    rw [get?_of_ruled serde hrule hval] at hval'
    rw [← Option.some.inj hval'] at hmasked
    exact (masked_mask_iff serde).mp hmasked
  · intro h row row' hrows name rule val hrule hval
    have hrow : (event.before = some row ∨ event.after = some row) ∧
        row' = engine.transformValue serde row := by
      rcases hrows with ⟨hrow, hrow'⟩ | ⟨hrow, hrow'⟩
      · rw [applySecurity, hrow] at hrow'
        exact ⟨Or.inl hrow, (Option.some.inj hrow').symm⟩
      · rw [applySecurity, hrow] at hrow'
        exact ⟨Or.inr hrow, (Option.some.inj hrow').symm⟩
    refine ⟨_, ?_, (masked_mask_iff serde).mpr (h row hrow.1 name rule val hrule hval)⟩
    rw [hrow.2]
    exact get?_of_ruled serde hrule hval

/-- A social security number that is stored as a number. -/
def numericRow : Json := .obj [("ssn", .nat 123456789)]

/-- The number stays as it is under `Hash`, which looks at strings only. -/
theorem not_masksAll_number : ¬MasksAll .compact (new.addRule "ssn" .hash)
    { accountEvent (.nat 1) "" with after := some numericRow } := by
  intro h
  have hrule : (new.addRule "ssn" .hash).fieldRules.lookup "ssn" = some .hash := rfl
  have hval : numericRow.get? "ssn" = some (.nat 123456789) := rfl
  obtain ⟨val', hval', hmasked⟩ :=
    h numericRow _ (Or.inr ⟨rfl, rfl⟩) "ssn" .hash (.nat 123456789) hrule hval
  rw [get?_of_ruled .compact hrule hval] at hval'
  rw [← Option.some.inj hval'] at hmasked
  have hstring := (masked_mask_iff .compact).mp hmasked
  cases hstring

end Caminus.PayloadSecurityEngine

import Caminus.Security.Payload

/-!
# What an encrypted field tells

The string that the engine writes for a field under `Encrypt` is the version, the key and the text of
the value, separated by colons that occur in none of them. Whoever can split a string and read
hexadecimal digits has the value and the key, without any key management (`encrypted_readable`).
-/

namespace Caminus.PayloadSecurityEngine

variable (serde : SerdeJson)

/-- The function finds the value of every encrypted field in what the engine writes for it. -/
def RecoversValue (read : String → Json) : Prop :=
  ∀ (engine : PayloadSecurityEngine) (kms : KmsProvider) (field : String) (row val : Json),
    engine.kmsProvider = some kms → engine.fieldRules.lookup field = some .encrypt →
    row.get? field = some val →
    ∃ s, (engine.transformValue serde row).get? field = some (.string s) ∧ read s = val

/-- The function finds the active key in what the engine writes for every encrypted field. -/
def RecoversKey (read : String → List UInt8) : Prop :=
  ∀ (engine : PayloadSecurityEngine) (kms : KmsProvider) (field : String) (row val : Json),
    engine.kmsProvider = some kms → engine.fieldRules.lookup field = some .encrypt →
    row.get? field = some val →
    ∃ s, (engine.transformValue serde row).get? field = some (.string s) ∧
      read s = kms.getActiveKey.2

/-- Neither the values nor the key can be read without the key management: no function finds either
of them in what the engine writes. -/
def Unreadable : Prop :=
  (¬∃ read, RecoversValue serde read) ∧ ¬∃ read, RecoversKey serde read

/-! ## Reading the fields of the string -/

/-- The parts of a string between colons. None of the parts that are written has a colon of its own. -/
def parts (s : String) : List (List Char) := s.toList.splitOn ':'

/-- The key is the third part, in hexadecimal digits: whoever has the value has the key. -/
def readKey (s : String) : List UInt8 := Bytes.unhex ((parts s).getD 2 [])

/-- The text of the value is the fourth part, in hexadecimal digits and otherwise as it was. -/
noncomputable def readValue (s : String) : Json :=
  Function.invFun serde.toText ((Bytes.toString? (Bytes.unhex ((parts s).getD 3 []))).getD "")

theorem colon_notMem_digits (n : ℕ) : ':' ∉ Json.digits n := fun h =>
  absurd (Json.digits_isDigit n _ h) (by decide)

/-- Four parts without colons, joined by colons. -/
theorem splitOn_joined {version key data : List Char} (hversion : ':' ∉ version) (hkey : ':' ∉ key)
    (hdata : ':' ∉ data) :
    ("ENC:v".toList ++ version ++ ':' :: key ++ ':' :: data).splitOn ':' =
      ["ENC".toList, 'v' :: version, key, data] := by
  have hjoin : "ENC:v".toList ++ version ++ ':' :: key ++ ':' :: data =
      [':'].intercalate ["ENC".toList, 'v' :: version, key, data] := by
    simp [List.intercalate]
  rw [hjoin, List.splitOn_intercalate]
  · intro part hpart
    simp only [List.mem_cons, List.not_mem_nil, or_false] at hpart
    rcases hpart with rfl | rfl | rfl | rfl
    · decide
    · rw [List.mem_cons, not_or]
      exact ⟨by decide, hversion⟩
    · exact hkey
    · exact hdata
  · exact List.cons_ne_nil _ _

theorem toList_encrypted (kms : KmsProvider) (val : Json) :
    (encrypted serde kms val).toList =
      "ENC:v".toList ++ Json.digits kms.getActiveKey.1.toNat ++ ':' :: Bytes.hex kms.getActiveKey.2 ++
        ':' :: Bytes.hex (Bytes.ofString (serde.toText val)) := String.toList_ofList

/-- What the engine writes comes apart at its colons: neither digits nor hexadecimal digits hold
one. -/
theorem parts_encrypted (kms : KmsProvider) (val : Json) :
    parts (encrypted serde kms val) =
      ["ENC".toList, 'v' :: Json.digits kms.getActiveKey.1.toNat, Bytes.hex kms.getActiveKey.2,
        Bytes.hex (Bytes.ofString (serde.toText val))] := by
  rw [parts, toList_encrypted]
  exact splitOn_joined (colon_notMem_digits _) (Bytes.colon_notMem_hex _) (Bytes.colon_notMem_hex _)

/-- The third part is the key itself. -/
theorem readKey_encrypted (kms : KmsProvider) (val : Json) :
    readKey (encrypted serde kms val) = kms.getActiveKey.2 := by
  rw [readKey, parts_encrypted]
  exact Bytes.unhex_hex _

/-- The fourth part is the text of the value, from which the value is found as the text determines
it. -/
theorem readValue_encrypted (kms : KmsProvider) (val : Json) :
    readValue serde (encrypted serde kms val) = val := by
  rw [readValue, parts_encrypted]
  show Function.invFun serde.toText
    ((Bytes.toString? (Bytes.unhex (Bytes.hex (Bytes.ofString (serde.toText val))))).getD "") = val
  rw [Bytes.unhex_hex, Bytes.toString?_ofString]
  exact Function.leftInverse_invFun serde.toText_injective val

/-- What the engine writes for a field under `Encrypt`. -/
theorem get?_transformValue_of_encrypt {engine : PayloadSecurityEngine} {kms : KmsProvider}
    {field : String} {row val : Json} (hkms : engine.kmsProvider = some kms)
    (hrule : engine.fieldRules.lookup field = some .encrypt) (hval : row.get? field = some val) :
    (engine.transformValue serde row).get? field = some (.string (encrypted serde kms val)) := by
  rw [get?_transformValue, hval, Option.map_some, maskField, hrule]
  simp only [mask, hkms]

/-- The reader of values works on every encrypted field. -/
theorem recoversValue_readValue : RecoversValue serde (readValue serde) := by
  intro engine kms field row val hkms hrule hval
  exact ⟨_, get?_transformValue_of_encrypt serde hkms hrule hval, readValue_encrypted serde kms val⟩

/-- The reader of keys works on every encrypted field. -/
theorem recoversKey_readKey : RecoversKey serde readKey := by
  intro engine kms field row val hkms hrule hval
  exact ⟨_, get?_transformValue_of_encrypt serde hkms hrule hval, readKey_encrypted serde kms val⟩

/-- **Both the value and the key can be read off every encrypted field.** The two readers are given
above and use no secret: what the engine calls encryption is a change of notation. -/
theorem encrypted_readable (serde : SerdeJson) :
    (∃ read, RecoversValue serde read) ∧ ∃ read, RecoversKey serde read :=
  ⟨⟨readValue serde, recoversValue_readValue serde⟩, readKey, recoversKey_readKey serde⟩

/-- The format of `serde_json` itself is no exception: the key and the value are read from what is
called encrypted. -/
theorem not_unreadable_compact : ¬Unreadable .compact := by
  rintro ⟨hvalue, -⟩
  exact hvalue ⟨readValue .compact, recoversValue_readValue .compact⟩

end Caminus.PayloadSecurityEngine

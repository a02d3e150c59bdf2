import Caminus.Common.Bytes
import Caminus.Common.HashMap
import Caminus.Common.Serde

/-!
# The state store

`StateStore` (`src/storage/mod.rs`) keeps offsets and schemas in one RocksDB key space, told apart by
a prefix of the key. RocksDB is a map from byte strings to byte strings whose operations succeed.
-/

namespace Caminus

/-! ## Errors -/

/-- `Utf8Error`: the index of the sequence of bytes at fault, and how many of its bytes are; none if
the bytes end within it. -/
structure Utf8Error where
  validUpTo : ℕ
  errorLen : Option ℕ
deriving DecidableEq

namespace Utf8Error

/-- The bounds of the bytes that follow the first one of a UTF-8 sequence; none if no sequence starts
with it. -/
def following (first : UInt8) : Option (List (UInt8 × UInt8)) :=
  if first < 0x80 then some []
  else if 0xc2 ≤ first ∧ first ≤ 0xdf then some [(0x80, 0xbf)]
  else if first = 0xe0 then some [(0xa0, 0xbf), (0x80, 0xbf)]
  else if first = 0xed then some [(0x80, 0x9f), (0x80, 0xbf)]
  else if 0xe1 ≤ first ∧ first ≤ 0xef then some [(0x80, 0xbf), (0x80, 0xbf)]
  else if first = 0xf0 then some [(0x90, 0xbf), (0x80, 0xbf), (0x80, 0xbf)]
  else if 0xf1 ≤ first ∧ first ≤ 0xf3 then some [(0x80, 0xbf), (0x80, 0xbf), (0x80, 0xbf)]
  else if first = 0xf4 then some [(0x80, 0x8f), (0x80, 0xbf), (0x80, 0xbf)]
  else none

/-- The first fault from a point on: `index` is where the present sequence starts, `read` how many of
its bytes were read, and `bounds` are those of its other bytes. -/
def find (index read : ℕ) (bounds : List (UInt8 × UInt8)) : List UInt8 → Utf8Error
  | [] => ⟨index, none⟩
  | b :: rest =>
      match bounds with
      | (low, high) :: bounds =>
          if low ≤ b ∧ b ≤ high then
            if bounds = [] then find (index + read + 1) 0 [] rest
            else find index (read + 1) bounds rest
          else ⟨index, some read⟩
      | [] =>
          match following b with
          | none => ⟨index, some 1⟩
          | some [] => find (index + 1) 0 [] rest
          | some bounds => find index 1 bounds rest

/-- The text of a `Utf8Error`. A sequence that the bytes end within has no length. -/
def message : Utf8Error → String
  | ⟨index, some len⟩ =>
      "invalid utf-8 sequence of " ++ len.repr ++ " bytes from index " ++ index.repr
  | ⟨index, none⟩ => "incomplete utf-8 byte sequence from index " ++ index.repr

end Utf8Error

/-- The errors of a store whose database does not fail. -/
inductive StorageError
  | serialization (reason : String)
  | utf8 (bytes : ByteArray)

/-- The text of an error. That of `FromUtf8Error` is about the first fault in its bytes. -/
def StorageError.message : StorageError → String
  | .serialization reason => "Serialization error: " ++ reason
  | .utf8 bytes => "Utf8 conversion error: " ++ (Utf8Error.find 0 0 [] bytes.data.toList).message

/-- Keys are compared as core Lean compares byte arrays, also where a library brings an instance of
its own. -/
instance decidableEqByteArray : DecidableEq ByteArray := ByteArray.instDecidableEq

/-! ## The store -/

/-- The database as a map of bytes. Writing it does not fail here, and what is read is what was
written last. -/
structure StateStore where
  db : HashMap ByteArray ByteArray

namespace StateStore

/-- The key of an offset; source ids are written after the prefix as they are. -/
def offsetKey (sourceId : String) : ByteArray := ("offset:" ++ sourceId).toByteArray

/-- The key of a schema, in the same key space as the offsets. -/
def schemaKey (sourceId : String) : ByteArray := ("schema:" ++ sourceId).toByteArray

/-- The store of a fresh directory, which has neither offsets nor schemas. -/
def new : StateStore := ⟨∅⟩

/-- The offset of a source is replaced, whatever it was before: nothing keeps it from going back. -/
def saveOffset (store : StateStore) (sourceId offset : String) : StateStore :=
  ⟨store.db.insert (offsetKey sourceId) offset.toByteArray⟩

/-- The offset of a source; bytes that are no UTF-8 are an error. -/
def getOffset (store : StateStore) (sourceId : String) : Except StorageError (Option String) :=
  match store.db.lookup (offsetKey sourceId) with
  | some val =>
      match String.fromUTF8? val with
      | some offset => .ok (some offset)
      | none => .error (.utf8 val)
  | none => .ok none

variable (serde : SerdeJson)

/-- The schema of a source is replaced by the bytes it is serialised to. -/
def saveSchema (store : StateStore) (sourceId : String) (schema : Json) : StateStore :=
  ⟨store.db.insert (schemaKey sourceId) (serde.toVec schema)⟩

/-- The schema of a source, read from its bytes, which may be refused. -/
def getSchema (store : StateStore) (sourceId : String) : Except StorageError (Option Json) :=
  match store.db.lookup (schemaKey sourceId) with
  | some val =>
      match serde.fromSlice val with
      | .ok schema => .ok (some schema)
      | .error reason => .error (.serialization reason)
  | none => .ok none

/-! ## The two families of keys do not meet -/

/-- Different sources have different offset keys. -/
theorem offsetKey_injective : Function.Injective offsetKey := fun _ _ h =>
  (String.append_right_inj "offset:").mp (String.toByteArray_inj.mp h)

/-- Different sources have different schema keys. -/
theorem schemaKey_injective : Function.Injective schemaKey := fun _ _ h =>
  (String.append_right_inj "schema:").mp (String.toByteArray_inj.mp h)

/-- An offset key is never a schema key, whatever the two source ids are: the first characters of
the prefixes differ. -/
theorem offsetKey_ne_schemaKey (s t : String) : offsetKey s ≠ schemaKey t := by
  intro h
  have hstr : "offset:" ++ s = "schema:" ++ t := String.toByteArray_inj.mp h
  have hlist := congrArg String.toList hstr
  rw [String.toList_append, String.toList_append] at hlist
  exact absurd (List.head_eq_of_cons_eq hlist) (by decide)

/-! ## Reading after writing -/

@[simp] theorem getOffset_new (s : String) : new.getOffset s = .ok none := rfl

@[simp] theorem getSchema_new (s : String) : new.getSchema serde s = .ok none := rfl

@[simp] theorem getOffset_saveOffset_self (store : StateStore) (s offset : String) :
    (store.saveOffset s offset).getOffset s = .ok (some offset) := by
  simp [getOffset, saveOffset, Bytes.fromUTF8?_toByteArray]

/-- Saving the offset of one source leaves that of another. -/
theorem getOffset_saveOffset_ne (store : StateStore) {s t : String} (offset : String)
    (h : t ≠ s) : (store.saveOffset s offset).getOffset t = store.getOffset t := by
  have hkey : offsetKey t ≠ offsetKey s := fun hk => h (offsetKey_injective hk)
  simp [getOffset, saveOffset, AList.lookup_insert_ne hkey]

@[simp] theorem getOffset_saveSchema (store : StateStore) (s t : String) (schema : Json) :
    (store.saveSchema serde s schema).getOffset t = store.getOffset t := by
  simp [getOffset, saveSchema, AList.lookup_insert_ne (offsetKey_ne_schemaKey t s)]

/-- A schema is found again as its bytes are read, which may be another value or an error. -/
theorem getSchema_saveSchema_self (store : StateStore) (s : String) (schema : Json) :
    (store.saveSchema serde s schema).getSchema serde s =
      match serde.reread schema with
      | .ok schema' => .ok (some schema')
      | .error reason => .error (.serialization reason) := by
  simp only [getSchema, saveSchema, AList.lookup_insert, SerdeJson.reread]

variable {serde} in
/-- A schema that reads back is found again as it was saved. -/
theorem getSchema_saveSchema_of_readsBack (store : StateStore) (s : String) {schema : Json}
    (h : serde.ReadsBack schema) :
    (store.saveSchema serde s schema).getSchema serde s = .ok (some schema) := by
  rw [getSchema_saveSchema_self, h]

variable {serde} in
/-- The schemas that are found after a write are those that its bytes are read as. -/
theorem getSchema_saveSchema_eq_ok_iff {store : StateStore} {s : String} {schema : Json}
    {stored : Option Json} :
    (store.saveSchema serde s schema).getSchema serde s = .ok stored ↔
      ∃ schema', serde.reread schema = .ok schema' ∧ stored = some schema' := by
  rw [getSchema_saveSchema_self]
  cases serde.reread schema with
  | error reason => simp
  | ok schema' => simp [eq_comm]

/-- Saving the schema of one source leaves that of another. -/
theorem getSchema_saveSchema_ne (store : StateStore) {s t : String} (schema : Json) (h : t ≠ s) :
    (store.saveSchema serde s schema).getSchema serde t = store.getSchema serde t := by
  have hkey : schemaKey t ≠ schemaKey s := fun hk => h (schemaKey_injective hk)
  simp [getSchema, saveSchema, AList.lookup_insert_ne hkey]

@[simp] theorem getSchema_saveOffset (store : StateStore) (s t offset : String) :
    (store.saveOffset s offset).getSchema serde t = store.getSchema serde t := by
  simp [getSchema, saveOffset, AList.lookup_insert_ne (offsetKey_ne_schemaKey s t).symm]

end StateStore

end Caminus

import Caminus.Common.LastWrite
import Caminus.Storage.StateStore

/-!
# The state store as two maps

`StateStore` (`src/storage/mod.rs`) is used as a map from sources to offsets and one from sources to
schemas, while both live under prefixes of one key space. After any calls it shows what these two maps
hold (`refines_run`), that is, what was saved last, and the calls for other sources and for the other
map can be left out (`independent`). Source ids are arbitrary strings, the prefixes included.
-/

namespace Caminus

/-- The abstract store: two maps by source id, which know nothing of each other or of keys and
bytes. -/
structure TwoMaps where
  offsets : String → Option String
  schemas : String → Option Json

/-- A call that changes the store. The calls that read it are what the results are stated with. -/
inductive StoreCall
  | saveOffset (sourceId offset : String)
  | saveSchema (sourceId : String) (schema : Json)

namespace StoreCall

/-- The schema of a call, if it has one, comes back from its bytes. -/
def ReadsBack (serde : SerdeJson) : StoreCall → Prop
  | .saveOffset _ _ => True
  | .saveSchema _ schema => serde.ReadsBack schema

/-- The offset that a call saves for a source. -/
def offsetFor (s : String) : StoreCall → Option String
  | .saveOffset sourceId offset => if sourceId = s then some offset else none
  | .saveSchema _ _ => none

/-- The schema that a call saves for a source. -/
def schemaFor (s : String) : StoreCall → Option Json
  | .saveOffset _ _ => none
  | .saveSchema sourceId schema => if sourceId = s then some schema else none

end StoreCall

namespace TwoMaps

/-- Neither map has an entry. -/
def empty : TwoMaps := ⟨fun _ => none, fun _ => none⟩

/-- A call on the maps changes one entry of one map. -/
def save (maps : TwoMaps) : StoreCall → TwoMaps
  | .saveOffset sourceId offset =>
      { maps with offsets := Function.update maps.offsets sourceId (some offset) }
  | .saveSchema sourceId schema =>
      { maps with schemas := Function.update maps.schemas sourceId (some schema) }

/-- The maps after a list of calls, from empty ones. -/
def run (calls : List StoreCall) : TwoMaps := calls.foldl save empty

/-- The offset of a source is a register: calls that save it set it, all others leave it. -/
theorem writes_offsets (s : String) :
    LastWrite.Writes save (fun maps => maps.offsets s) (StoreCall.offsetFor s) some := by
  intro maps call
  cases call with
  | saveOffset sourceId offset =>
    by_cases hs : sourceId = s
    · simp [save, StoreCall.offsetFor, hs]
    · simp [save, StoreCall.offsetFor, hs, Ne.symm hs]
  | saveSchema sourceId schema => rfl

/-- The schema of a source is a register in the same sense. -/
theorem writes_schemas (s : String) :
    LastWrite.Writes save (fun maps => maps.schemas s) (StoreCall.schemaFor s) some := by
  intro maps call
  cases call with
  | saveOffset sourceId offset => rfl
  | saveSchema sourceId schema =>
    by_cases hs : sourceId = s
    · simp [save, StoreCall.schemaFor, hs]
    · simp [save, StoreCall.schemaFor, hs, Ne.symm hs]

/-- A source has the offset that was saved last for it. -/
theorem offsets_run (calls : List StoreCall) (s : String) :
    (run calls).offsets s = (calls.filterMap (StoreCall.offsetFor s)).getLast? := by
  have hread := (writes_offsets s).read_foldl empty calls
  exact hread.trans (Option.elim_none_some id _)

/-- A source has the schema that was saved last for it. -/
theorem schemas_run (calls : List StoreCall) (s : String) :
    (run calls).schemas s = (calls.filterMap (StoreCall.schemaFor s)).getLast? := by
  have hread := (writes_schemas s).read_foldl empty calls
  exact hread.trans (Option.elim_none_some id _)

end TwoMaps

namespace StateStore

variable (serde : SerdeJson)

/-- A call on the store, as the code makes it. -/
def perform (store : StateStore) : StoreCall → StateStore
  | .saveOffset sourceId offset => store.saveOffset sourceId offset
  | .saveSchema sourceId schema => store.saveSchema serde sourceId schema

/-- A store after its calls. -/
def run (calls : List StoreCall) : StateStore := calls.foldl (perform serde) new

/-- What the store shows is what the two maps hold, and no read fails. -/
structure Refines (store : StateStore) (maps : TwoMaps) : Prop where
  offset : ∀ s, store.getOffset s = .ok (maps.offsets s)
  schema : ∀ s, store.getSchema serde s = .ok (maps.schemas s)

variable {serde}

/-- One call keeps the store and the maps together, if its schema comes back. -/
theorem Refines.perform {store : StateStore} {maps : TwoMaps} (h : Refines serde store maps)
    {call : StoreCall} (hread : call.ReadsBack serde) :
    Refines serde (store.perform serde call) (maps.save call) := by
  cases call with
  -- the saved entry shows the new value, an entry of another source or of the other map what it
  -- showed
  | saveOffset sourceId offset =>
    refine ⟨fun s => ?_, fun s => ?_⟩
    · show (store.saveOffset sourceId offset).getOffset s =
        .ok (Function.update maps.offsets sourceId (some offset) s)
      by_cases hs : s = sourceId
      · rw [hs, getOffset_saveOffset_self, Function.update_self]
      · rw [getOffset_saveOffset_ne _ _ hs, h.offset, Function.update_of_ne hs]
    · exact (getSchema_saveOffset serde store sourceId s offset).trans (h.schema s)
  | saveSchema sourceId schema =>
    refine ⟨fun s => ?_, fun s => ?_⟩
    · exact (getOffset_saveSchema serde store sourceId s schema).trans (h.offset s)
    · show (store.saveSchema serde sourceId schema).getSchema serde s =
        .ok (Function.update maps.schemas sourceId (some schema) s)
      by_cases hs : s = sourceId
      · rw [hs, getSchema_saveSchema_of_readsBack _ _ hread, Function.update_self]
      · rw [getSchema_saveSchema_ne _ _ _ hs, h.schema, Function.update_of_ne hs]

/-- After any calls the store shows what the two maps hold. -/
theorem refines_run {calls : List StoreCall} (hread : ∀ call ∈ calls, call.ReadsBack serde) :
    Refines serde (run serde calls) (TwoMaps.run calls) := by
  induction calls using List.reverseRecOn with
  | nil => exact ⟨getOffset_new, getSchema_new serde⟩
  | append_singleton calls call ih =>
    rw [List.forall_mem_append, List.forall_mem_singleton] at hread
    rw [run, TwoMaps.run, List.foldl_concat, List.foldl_concat]
    exact (ih hread.1).perform hread.2

/-- The same for a part of the calls, since each of its schemas comes back too. -/
theorem refines_run_filter {calls : List StoreCall} (hread : ∀ call ∈ calls, call.ReadsBack serde)
    (p : StoreCall → Bool) :
    Refines serde (run serde (calls.filter p)) (TwoMaps.run (calls.filter p)) :=
  refines_run fun call hcall => hread call (List.mem_of_mem_filter hcall)

/-- Two maps in one key space: each shows what was saved last, and no call is seen through the other
map or under another source. -/
structure Independent (serde : SerdeJson) (calls : List StoreCall) : Prop where
  refines : Refines serde (run serde calls) (TwoMaps.run calls)
  offset : ∀ s, (run serde calls).getOffset s =
    .ok (calls.filterMap (StoreCall.offsetFor s)).getLast?
  schema : ∀ s, (run serde calls).getSchema serde s =
    .ok (calls.filterMap (StoreCall.schemaFor s)).getLast?
  offsetAlone : ∀ s, (run serde (calls.filter fun call => (call.offsetFor s).isSome)).getOffset s =
    (run serde calls).getOffset s
  schemaAlone : ∀ s,
    (run serde (calls.filter fun call => (call.schemaFor s).isSome)).getSchema serde s =
      (run serde calls).getSchema serde s

/-- **The store refines two independent maps**, for all source ids and all calls whose schemas come
back from their bytes: no id can be chosen so that one key is mistaken for another. -/
theorem independent (serde : SerdeJson) (calls : List StoreCall)
    (hread : ∀ call ∈ calls, call.ReadsBack serde) : Independent serde calls where
  refines := refines_run hread
  offset s := by rw [(refines_run hread).offset, TwoMaps.offsets_run]
  schema s := by rw [(refines_run hread).schema, TwoMaps.schemas_run]
  offsetAlone s := by
    have halone := (TwoMaps.writes_offsets s).read_foldl_filter TwoMaps.empty calls
    rw [(refines_run_filter hread _).offset, (refines_run hread).offset]
    exact congrArg Except.ok halone
  schemaAlone s := by
    have halone := (TwoMaps.writes_schemas s).read_foldl_filter TwoMaps.empty calls
    rw [(refines_run_filter hread _).schema, (refines_run hread).schema]
    exact congrArg Except.ok halone

/-- A source whose id looks like the key of another one, with an offset and a schema for each. -/
def prefixedIds : List StoreCall :=
  [.saveOffset "users" "1", .saveSchema "users" (Json.obj [("fields", Json.obj [])]),
    .saveOffset "schema:users" "2", .saveSchema "offset:users" (.string "orders"),
    .saveOffset "users" "3"]

/-- Ids that contain the prefix of a key are kept apart as any others are. -/
theorem independent_prefixedIds : Independent .compact prefixedIds := by
  refine independent .compact prefixedIds fun call hcall => ?_
  simp only [prefixedIds, List.mem_cons, List.not_mem_nil, or_false] at hcall
  rcases hcall with rfl | rfl | rfl | rfl | rfl
  · trivial
  · exact SerdeJson.ReadsBack.of_plain (by decide)
  · trivial
  · exact SerdeJson.ReadsBack.of_plain (by decide)
  · trivial

end StateStore

end Caminus

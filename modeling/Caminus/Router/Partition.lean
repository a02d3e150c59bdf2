import Caminus.Common.JsonText
import Caminus.Common.SipHash
import Caminus.Source.Event

/-!
# The partition router

`PartitionRouter` (`src/router/mod.rs`) hashes the key, the tenant or the id of an event to a
partition. The tenant is looked for in `after` only, so the deletes of a row, which carry it in
`before`, go by the name of the database instead (`samePartition_iff`).
-/

namespace Caminus

/-- How the router picks a partition: by the hash of the row's key, of its tenant, or, despite the
name of the last strategy, of the id of the event. -/
inductive PartitionStrategy
  | keyHash
  | tenantPrefix
  | roundRobin
deriving DecidableEq, Repr

/-- The number of partitions and the strategy. The router has no state, so an event always goes the
same way. -/
structure PartitionRouter where
  numPartitions : UInt32
  strategy : PartitionStrategy

/-- The `tenant_id` of a row, if it is a string. -/
def tenantOf (row : Json) : Option String := (row.get? "tenant_id").bind Json.asStr

namespace PartitionRouter

/-- `DefaultHasher` on a string is the parameter `hash`. -/
def partitionOf (hash : String → UInt64) (numPartitions : UInt32) (s : String) : UInt32 :=
  (hash s % numPartitions.toUInt64).toUInt32

/-- The tenant of an event: that of its new row, or else its database. -/
def tenantId (event : ChangeEvent) : String := (event.after.bind tenantOf).getD event.sourceDatabase

/-- `resolve_partition`: with at most one partition nothing is hashed. -/
def resolvePartition (serde : SerdeJson) (hash : String → UInt64) (router : PartitionRouter)
    (event : ChangeEvent) : UInt32 :=
  if router.numPartitions ≤ 1 then 0
  else
    match router.strategy with
    | .keyHash => partitionOf hash router.numPartitions (serde.toText event.key)
    | .tenantPrefix => partitionOf hash router.numPartitions (tenantId event)
    | .roundRobin => partitionOf hash router.numPartitions event.id

/-- An event of one row whose tenant does not change. A delete has the row in `before` only. -/
structure RowEvent (database table : String) (key : Json) (tenant : String) (e : ChangeEvent) :
    Prop where
  database : e.sourceDatabase = database
  table : e.sourceTableOrCollection = table
  key : e.key = key
  isMutation : e.isMutation = true
  upsert : e.operation ≠ .delete → e.after.bind tenantOf = some tenant
  delete : e.operation = .delete → e.after = none ∧ e.before.bind tenantOf = some tenant

/-- All events go to one partition by their tenant. -/
def SamePartition (serde : SerdeJson) (hash : String → UInt64) (numPartitions : UInt32)
    (events : List ChangeEvent) : Prop :=
  ∀ e ∈ events, ∀ e' ∈ events, resolvePartition serde hash ⟨numPartitions, .tenantPrefix⟩ e =
    resolvePartition serde hash ⟨numPartitions, .tenantPrefix⟩ e'

variable {serde : SerdeJson} {hash : String → UInt64} {numPartitions : UInt32}
  {database table tenant : String} {key : Json} {e : ChangeEvent}

/-- A single partition takes everything, whatever the strategy; so does a router with none. -/
theorem resolvePartition_of_le_one (h : numPartitions ≤ 1) (e : ChangeEvent) :
    resolvePartition serde hash ⟨numPartitions, .tenantPrefix⟩ e = 0 :=
  if_pos h

/-- An event with a new row goes by its tenant. -/
theorem resolvePartition_of_upsert (h : ¬numPartitions ≤ 1)
    (he : RowEvent database table key tenant e) (hop : e.operation ≠ .delete) :
    resolvePartition serde hash ⟨numPartitions, .tenantPrefix⟩ e =
      partitionOf hash numPartitions tenant := by
  rw [resolvePartition, if_neg h]
  change partitionOf hash numPartitions (tenantId e) = _
  rw [tenantId, he.upsert hop]
  rfl

/-- A delete has no new row and goes by its database. -/
theorem resolvePartition_of_delete (h : ¬numPartitions ≤ 1)
    (he : RowEvent database table key tenant e) (hop : e.operation = .delete) :
    resolvePartition serde hash ⟨numPartitions, .tenantPrefix⟩ e =
      partitionOf hash numPartitions database := by
  rw [resolvePartition, if_neg h]
  change partitionOf hash numPartitions (tenantId e) = _
  rw [tenantId, (he.delete hop).1, ← he.database]
  rfl

/-- **The events of a row stay on one partition exactly if there is only one, or the row has no
delete, or nothing but deletes, or its tenant and its database fall on the same partition.** -/
theorem samePartition_iff (serde : SerdeJson) (hash : String → UInt64) (numPartitions : UInt32)
    {database table tenant : String} {key : Json} {events : List ChangeEvent}
    (hrow : ∀ e ∈ events, RowEvent database table key tenant e) :
    SamePartition serde hash numPartitions events ↔
      numPartitions ≤ 1 ∨ (∀ e ∈ events, e.operation ≠ .delete) ∨
        (∀ e ∈ events, e.operation = .delete) ∨
        partitionOf hash numPartitions tenant = partitionOf hash numPartitions database := by
  by_cases hone : numPartitions ≤ 1
  · refine iff_of_true (fun e _ e' _ => ?_) (Or.inl hone)
    rw [resolvePartition_of_le_one hone, resolvePartition_of_le_one hone]
  constructor
  · intro hsame
    by_contra hcond
    simp only [not_or, not_forall] at hcond
    -- otherwise there is a delete and another event, and the two are hashed by different strings
    obtain ⟨-, ⟨e, he, hdelete⟩, ⟨e', he', hupsert⟩, hdiffer⟩ := hcond
    rw [not_not] at hdelete
    have heq := hsame e' he' e he
    rw [resolvePartition_of_upsert hone (hrow e' he') hupsert,
      resolvePartition_of_delete hone (hrow e he) hdelete] at heq
    exact hdiffer heq
  · rintro (hle | hupserts | hdeletes | hequal) e he e' he'
    · exact absurd hle hone
    · rw [resolvePartition_of_upsert hone (hrow e he) (hupserts e he),
        resolvePartition_of_upsert hone (hrow e' he') (hupserts e' he')]
    · rw [resolvePartition_of_delete hone (hrow e he) (hdeletes e he),
        resolvePartition_of_delete hone (hrow e' he') (hdeletes e' he')]
    · have htenant : ∀ x ∈ events, resolvePartition serde hash ⟨numPartitions, .tenantPrefix⟩ x =
          partitionOf hash numPartitions tenant := by
        intro x hx
        by_cases hop : x.operation = .delete
        · rw [resolvePartition_of_delete hone (hrow x hx) hop, hequal]
        · rw [resolvePartition_of_upsert hone (hrow x hx) hop]
      rw [htenant e he, htenant e' he']

/-- A row of tenant `tenant-alpha`. -/
def alphaUser : Json := .obj [("tenant_id", .string "tenant-alpha"), ("user_id", .nat 100)]

/-- The same row under another name. -/
def alphaRenamed : Json :=
  .obj [("name", .string "Ada"), ("tenant_id", .string "tenant-alpha"), ("user_id", .nat 100)]

/-- A row of tenant `tenant-alpha`, created, changed and deleted. -/
def alphaEvent (operation : Operation) (before after : Option Json) : ChangeEvent where
  id := "e2"
  sourceDatabase := "db"
  sourceTableOrCollection := "users"
  operation := operation
  timestamp := 0
  key := .obj [("user_id", .nat 100)]
  before := before
  after := after
  transactionId := none
  offset := "2"

/-- The insert of that row. -/
def alphaCreate : ChangeEvent := alphaEvent .create none (some alphaUser)

/-- Its rename. -/
def alphaUpdate : ChangeEvent := alphaEvent .update (some alphaUser) (some alphaRenamed)

/-- Its deletion, which has the row in its old image only. -/
def alphaDelete : ChangeEvent := alphaEvent .delete (some alphaUser) none

/-- Each of the three is an event of the one row, beginning with the create. -/
theorem rowEvent_alphaCreate :
    RowEvent "db" "users" (.obj [("user_id", .nat 100)]) "tenant-alpha" alphaCreate :=
  ⟨rfl, rfl, rfl, rfl, fun _ => by decide, fun hop => by cases hop⟩

/-- The update has the tenant in both images. -/
theorem rowEvent_alphaUpdate :
    RowEvent "db" "users" (.obj [("user_id", .nat 100)]) "tenant-alpha" alphaUpdate :=
  ⟨rfl, rfl, rfl, rfl, fun _ => by decide, fun hop => by cases hop⟩

/-- The delete has the tenant in the old image only, where the router does not look for it. -/
theorem rowEvent_alphaDelete :
    RowEvent "db" "users" (.obj [("user_id", .nat 100)]) "tenant-alpha" alphaDelete :=
  ⟨rfl, rfl, rfl, rfl, fun hop => absurd rfl hop, fun _ => ⟨rfl, by decide⟩⟩

/-- The tenant of a row tells its partition as long as the row is there: the create and the update of the
row go the same way. -/
theorem samePartition_alphaUpdate :
    SamePartition SerdeJson.compact SipHash.hashStr 8 [alphaCreate, alphaUpdate] := by
  have hrow : ∀ e ∈ [alphaCreate, alphaUpdate],
      RowEvent "db" "users" (.obj [("user_id", .nat 100)]) "tenant-alpha" e := by
    simp [rowEvent_alphaCreate, rowEvent_alphaUpdate]
  refine (samePartition_iff _ _ 8 hrow).mpr (Or.inr (Or.inl fun e he => ?_))
  simp only [List.mem_cons, List.not_mem_nil, or_false] at he
  rcases he with rfl | rfl <;> decide

/-- The create goes to partition 1 by its tenant, the delete to partition 5 by its database: a
delete has no new image to take the tenant from. -/
theorem not_samePartition_alphaDelete :
    (∀ e ∈ [alphaCreate, alphaDelete],
      RowEvent "db" "users" (.obj [("user_id", .nat 100)]) "tenant-alpha" e) ∧
    ¬SamePartition SerdeJson.compact SipHash.hashStr 8 [alphaCreate, alphaDelete] := by
  refine ⟨by simp [rowEvent_alphaCreate, rowEvent_alphaDelete], fun hsame => ?_⟩
  have heq := hsame alphaCreate List.mem_cons_self alphaDelete
    (List.mem_cons_of_mem _ List.mem_cons_self)
  rw [resolvePartition_of_upsert (by decide) rowEvent_alphaCreate (by decide),
    resolvePartition_of_delete (by decide) rowEvent_alphaDelete rfl] at heq
  exact absurd heq (by decide)

end PartitionRouter

end Caminus

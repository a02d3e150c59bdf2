import Caminus.Buffer.TransactionBuffer
import Caminus.Common.JsonText
import Caminus.Snapshot.Window

/-!
# What else reaches a chunk

The snapshotter looks a log event up by the text of its key alone and applies it at once. It asks
neither for the table of the event nor whether its transaction commits, so two kinds of events can
reach the rows of a chunk that should not: events of other tables with an equal key, and mutations of
a transaction that is rolled back. For both, the flushed rows are compared with those of the window
without these events, and the windows where they agree are characterised row by row.
-/

namespace Caminus.WatermarkSnapshotter

variable {serde : SerdeJson}

/-! ## Two windows over one chunk -/

/-- The payload and timestamp a row ends with: those of the last `Create` or `Update`, else its own.
These are the two fields that `process_replication_event` overwrites. -/
def lastImage (row : ChangeEvent) (log : List ChangeEvent) : Option Json × ℤ :=
  match lastUpsert log with
  | none => (row.after, row.timestamp)
  | some e => (e.after, e.timestamp)

/-- The events of `all` leave a row as the selected ones `kept` do: a kept event deletes the row, or
none does and the last image is the same. -/
def SameOutcome (row : ChangeEvent) (all kept : List ChangeEvent) : Prop :=
  deletes kept = true ∨ deletes all = false ∧ lastImage row all = lastImage row kept

/-- Overwriting by the last `Create` or `Update` sets the two fields of the last image. -/
theorem overwrite_lastUpsert (row : ChangeEvent) (log : List ChangeEvent) :
    overwrite row (lastUpsert log) =
      { row with after := (lastImage row log).1, timestamp := (lastImage row log).2 } := by
  unfold lastImage
  cases lastUpsert log <;> rfl

/-- Two logs leave the same row exactly when they have the same last image. -/
theorem overwrite_lastUpsert_eq_iff {row : ChangeEvent} {l m : List ChangeEvent} :
    overwrite row (lastUpsert l) = overwrite row (lastUpsert m) ↔ lastImage row l = lastImage row m := by
  rw [overwrite_lastUpsert, overwrite_lastUpsert, Prod.ext_iff]
  simp [and_comm]

/-- Reconciling a row with a part of the log gives the same row exactly when the outcome is the
same. -/
theorem foldl_reconcile_eq_iff {row : ChangeEvent} {all kept : List ChangeEvent}
    (hsub : ∀ e ∈ kept, e ∈ all) :
    all.foldl reconcile (some row) = kept.foldl reconcile (some row) ↔ SameOutcome row all kept := by
  have hmono : deletes kept = true → deletes all = true := by
    intro h
    obtain ⟨e, he, hop⟩ := List.any_eq_true.mp h
    exact List.any_eq_true.mpr ⟨e, hsub e he, hop⟩
  rw [foldl_reconcile_some, foldl_reconcile_some, SameOutcome]
  by_cases hkept : deletes kept = true
  · simp [hkept, hmono hkept]
  · by_cases hall : deletes all = true
    · simp [hkept, hall]
    · simp [hkept, hall, overwrite_lastUpsert_eq_iff]

namespace SnapshotWindow

/-- The window with part of its log taken out; markers and chunk stay. -/
def withBody (w : SnapshotWindow) (body : List ChangeEvent) (hsub : ∀ e ∈ body, e ∈ w.body) :
    SnapshotWindow :=
  { w with body := body, body_open := fun e he => w.body_open e (hsub e he) }

/-- Taking events out of the log leaves the flushed rows unchanged exactly when it leaves the outcome
of every chunk row unchanged. -/
theorem flushed_withBody_perm_iff (w : SnapshotWindow) {body : List ChangeEvent}
    (hsub : ∀ e ∈ body, e ∈ w.body) :
    (w.flushed serde).Perm ((w.withBody body hsub).flushed serde) ↔
      ∀ k row, loadedRow serde w.chunk k = some row →
        SameOutcome row (w.body.filter (touches serde k)) (body.filter (touches serde k)) := by
  have hfilter : ∀ k, ∀ e ∈ body.filter (touches serde k), e ∈ w.body.filter (touches serde k) := by
    intro k e he
    rw [List.mem_filter] at he ⊢
    exact ⟨hsub e he.1, he.2⟩
  rw [flushed, flushed, flushChunk_perm_iff w.keyed_closed (w.withBody body hsub).keyed_closed]
  refine forall_congr' fun k => ?_
  rw [lookup_closed, lookup_closed]
  show _ = List.foldl reconcile (loadedRow serde w.chunk k) _ ↔ _
  cases hload : loadedRow serde w.chunk k with
  | none => simp [foldl_reconcile_none]
  | some row =>
    rw [withBody, foldl_reconcile_eq_iff (hfilter k)]
    simp

/-! ## Events of other tables -/

/-- The event belongs to the table of the chunk or is a watermark row. -/
def ofTable (w : SnapshotWindow) (e : ChangeEvent) : Bool :=
  e.sourceTableOrCollection == w.table || e.isWatermarkRow

/-- The window without the events of other tables: what the chunk of a table should depend on. -/
def withoutForeign (w : SnapshotWindow) : SnapshotWindow :=
  w.withBody (w.body.filter w.ofTable) fun _ he => (List.mem_filter.mp he).1

/-- **Tables are kept apart exactly when every foreign event is masked.** Events of other tables
leave the flushed rows unchanged exactly when, for each chunk row, the table's own events delete it,
or no event of its key deletes it and the last image written to its key is the one the table's own
events give. -/
theorem withoutForeign_flushed_iff (serde : SerdeJson) (w : SnapshotWindow) :
    (w.flushed serde).Perm (w.withoutForeign.flushed serde) ↔
      ∀ k row, loadedRow serde w.chunk k = some row →
        SameOutcome row (w.body.filter (touches serde k))
          ((w.body.filter w.ofTable).filter (touches serde k)) :=
  w.flushed_withBody_perm_iff _

/-- Row 1 of the users is loaded and row 1 of the orders is deleted. -/
def ordersDelete : SnapshotWindow :=
  usersWindow [rowEvent "users" .snapshot 1 (some (userRow 1 "John")) none]
    [rowEvent "orders" .delete 1 none none] (by decide) (by decide)

/-- The deleted order takes the user out of the chunk, since the chunk is looked up by the key alone
and the two rows have the same one. -/
theorem not_withoutForeign_ordersDelete :
    ¬ (ordersDelete.flushed SerdeJson.compact).Perm
      (ordersDelete.withoutForeign.flushed SerdeJson.compact) := by
  intro h
  have hlen := h.length_eq
  revert hlen
  decide

end SnapshotWindow

/-! ## Transactions that are rolled back -/

/-- The replication path of the ingestion loop: the snapshotter, then the transaction buffer for the
events it lets through. -/
def snapshotThenBuffer (serde : SerdeJson) (s : WatermarkSnapshotter × TransactionBuffer)
    (event : ChangeEvent) : List ChangeEvent × (WatermarkSnapshotter × TransactionBuffer) :=
  match s.1.processReplicationEvent serde event with
  | (some forwarded, ws) => ((s.2.process forwarded).1, (ws, (s.2.process forwarded).2))
  | (none, ws) => ([], (ws, s.2))

/-- The snapshotter moves on as if there were no buffer behind it. -/
theorem snapshotThenBuffer_fst (s : WatermarkSnapshotter × TransactionBuffer) (e : ChangeEvent) :
    (snapshotThenBuffer serde s e).2.1 = (s.1.processReplicationEvent serde e).2 := by
  unfold snapshotThenBuffer
  split <;> simp_all

/-- The buffer does not act back on the snapshotter, which has seen an event before its transaction
ends. -/
theorem final_snapshotThenBuffer_fst (s : WatermarkSnapshotter × TransactionBuffer)
    (evs : List ChangeEvent) :
    (Mealy.final (snapshotThenBuffer serde) s evs).1 =
      Mealy.final (processReplicationEvent serde) s.1 evs := by
  induction evs generalizing s with
  | nil => rfl
  | cons e evs ih => rw [Mealy.final_cons, Mealy.final_cons, ih, snapshotThenBuffer_fst]

/-- A window inside which transaction `tx` makes all its mutations and is rolled back. `before` is
the log up to the low watermark. -/
structure RolledBackWindow extends SnapshotWindow where
  before : List ChangeEvent
  tx : String
  earlier : List ChangeEvent
  during : List ChangeEvent
  rollback : ChangeEvent
  later : List ChangeEvent
  body_eq : body = earlier ++ during ++ rollback :: later
  starts : TransactionBuffer.pendingOf tx (before ++ earlier) = []
  during_open : ∀ e ∈ during, e.endsOf tx = false
  rollback_tx : rollback.transactionId = some tx
  rollback_operation : rollback.operation = .rollback

namespace RolledBackWindow

/-- The log of the window without the events of the transaction. -/
def keptBody (w : RolledBackWindow) : List ChangeEvent :=
  w.earlier ++ w.during.filter (·.transactionId ≠ some w.tx) ++ w.later

/-- Taking a transaction out leaves a part of the log. -/
theorem keptBody_subset (w : RolledBackWindow) : ∀ e ∈ w.keptBody, e ∈ w.body := by
  intro e he
  rw [w.body_eq]
  simp only [keptBody, List.mem_append, List.mem_filter] at he
  simp only [List.mem_append, List.mem_cons]
  rcases he with (he | he) | he
  · exact Or.inl (Or.inl he)
  · exact Or.inl (Or.inr he.1)
  · exact Or.inr (Or.inr he)

/-- The window as if the transaction had not been in the stream. -/
def withoutTx (w : RolledBackWindow) : SnapshotWindow :=
  w.toSnapshotWindow.withBody w.keptBody w.keptBody_subset

/-- The rows flushed after the high watermark when the ingestion loop has processed `v`, a version of
the window. -/
def flushedByLoop (serde : SerdeJson) (w : RolledBackWindow) (v : SnapshotWindow) :
    List ChangeEvent :=
  (Mealy.final (snapshotThenBuffer serde)
    (v.start.loadChunk serde v.chunk,
      TransactionBuffer.after (w.before.filter fun e => !e.isWatermarkRow)) v.stream).1.flushChunk.1

/-- What the loop flushes is what the snapshotter alone would flush, since the buffer comes behind
it. -/
theorem flushedByLoop_eq (w : RolledBackWindow) (v : SnapshotWindow) :
    w.flushedByLoop serde v = v.flushed serde := by
  rw [flushedByLoop, final_snapshotThenBuffer_fst]
  rfl

/-- **A rolled-back transaction leaves no trace exactly when its mutations are masked.** The flushed
rows are those of the stream without the transaction exactly when, for each chunk row, an event of
the remaining stream deletes it, or no event of its key deletes it and the last image written to its
key is the one the remaining stream gives. -/
theorem withoutTx_flushedByLoop_iff (serde : SerdeJson) (w : RolledBackWindow) :
    (w.flushedByLoop serde w.toSnapshotWindow).Perm (w.flushedByLoop serde w.withoutTx) ↔
      ∀ k row, loadedRow serde w.chunk k = some row →
        SameOutcome row (w.body.filter (touches serde k))
          (w.keptBody.filter (touches serde k)) := by
  rw [flushedByLoop_eq, flushedByLoop_eq]
  exact w.flushed_withBody_perm_iff _

/-- Row 1 is renamed by a transaction that is rolled back. -/
def renameRolledBack : RolledBackWindow where
  toSnapshotWindow :=
    usersWindow [rowEvent "users" .snapshot 1 (some (userRow 1 "John")) none]
      [rowEvent "users" .update 1 (some (userRow 1 "Jane")) (some "tx-1"),
        rowEvent "users" .rollback 1 none (some "tx-1")] (by decide) (by decide)
  before := []
  tx := "tx-1"
  earlier := []
  during := [rowEvent "users" .update 1 (some (userRow 1 "Jane")) (some "tx-1")]
  rollback := rowEvent "users" .rollback 1 none (some "tx-1")
  later := []
  body_eq := rfl
  starts := rfl
  during_open := by decide
  rollback_tx := rfl
  rollback_operation := rfl

/-- The name that was rolled back is flushed: the window takes the update before its transaction has
ended. -/
theorem not_withoutTx_renameRolledBack :
    ¬ (renameRolledBack.flushedByLoop SerdeJson.compact renameRolledBack.toSnapshotWindow).Perm
      (renameRolledBack.flushedByLoop SerdeJson.compact renameRolledBack.withoutTx) := by
  intro h
  have himages := h.map ChangeEvent.after
  revert himages
  decide

end RolledBackWindow

end Caminus.WatermarkSnapshotter

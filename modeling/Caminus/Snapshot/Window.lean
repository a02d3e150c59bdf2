import Caminus.Snapshot.Watermark

/-!
# Chunks across a watermark window

A chunk is loaded, the low watermark passes, a stretch of the log, the high watermark, and the chunk
is flushed. Each row of the chunk depends on the log events of its own key text alone
(`lookup_window`): a `Delete` removes it for good, otherwise it carries the payload and the timestamp
of the last `Create` or `Update`.
-/

namespace Caminus.WatermarkSnapshotter

variable {serde : SerdeJson}

/-! ## One row -/

/-- The event writes a row image: a `Create` or an `Update`. -/
def isUpsert (e : ChangeEvent) : Bool := e.operation == .create || e.operation == .update

/-- The last `Create` or `Update` of a list of events, whose image is the newest of the row. -/
def lastUpsert (log : List ChangeEvent) : Option ChangeEvent := (log.filter isUpsert).getLast?

/-- A chunk row with the payload and timestamp of a log event. -/
def overwrite (row : ChangeEvent) : Option ChangeEvent → ChangeEvent
  | none => row
  | some e => { row with after := e.after, timestamp := e.timestamp }

/-- Some event of the log is a `Delete`. -/
def deletes (log : List ChangeEvent) : Bool := log.any (·.operation == .delete)

/-- A row that is gone does not come back: the log never inserts into the chunk. -/
theorem foldl_reconcile_none (log : List ChangeEvent) : log.foldl reconcile none = none := by
  induction log with
  | nil => rfl
  | cons e log ih => exact ih

@[simp] theorem overwrite_key (row : ChangeEvent) (o : Option ChangeEvent) :
    (overwrite row o).key = row.key := by
  cases o <;> rfl

@[simp] theorem overwrite_overwrite (row e : ChangeEvent) (o : Option ChangeEvent) :
    overwrite (overwrite row o) (some e) = overwrite row (some e) := by
  cases o <;> rfl

/-- What an event does to a row, by kind: a `Delete` removes it, a `Create` or `Update` overwrites
it, anything else leaves it. -/
theorem reconcile_some (row e : ChangeEvent) :
    reconcile (some row) e = if e.operation = .delete then none
      else some (overwrite row (if isUpsert e then some e else none)) := by
  cases hop : e.operation <;> simp [reconcile, hop, isUpsert, overwrite]

@[simp] theorem deletes_concat (log : List ChangeEvent) (e : ChangeEvent) :
    deletes (log ++ [e]) = (deletes log || e.operation == .delete) := by
  simp [deletes]

/-- No event of the log is a `Delete`. -/
theorem deletes_eq_false_iff {log : List ChangeEvent} :
    deletes log = false ↔ ∀ e ∈ log, e.operation ≠ .delete := by
  simp [deletes]

/-- The last upsert of a longer log is its last event, if that is one. -/
theorem lastUpsert_concat (log : List ChangeEvent) (e : ChangeEvent) :
    lastUpsert (log ++ [e]) = if isUpsert e then some e else lastUpsert log := by
  by_cases he : isUpsert e = true
  · simp [lastUpsert, List.filter_append, he]
  · simp only [lastUpsert, List.filter_append, List.filter_cons, he, List.filter_nil]
    simp

/-- A row after the log events of its key: gone after a `Delete`, else overwritten by the last
`Create` or `Update`. -/
theorem foldl_reconcile_some (row : ChangeEvent) (log : List ChangeEvent) :
    log.foldl reconcile (some row) =
      if deletes log then none else some (overwrite row (lastUpsert log)) := by
  induction log using List.reverseRecOn with
  | nil => rfl
  | append_singleton log e ih =>
    rw [List.foldl_append, ih, List.foldl_cons, List.foldl_nil, deletes_concat, lastUpsert_concat]
    by_cases hdel : deletes log = true
    · simp [hdel, reconcile]
    · rw [if_neg hdel, reconcile_some]
      by_cases hop : e.operation = .delete
      · simp [hop]
      · by_cases he : isUpsert e = true
        · simp [hdel, hop, he]
        · simp [hdel, hop, he, overwrite]

/-! ## Loading and flushing -/

/-- The row of a chunk for a key text; a later row of the same key replaces an earlier one. -/
def loadedRow (serde : SerdeJson) (chunk : List ChangeEvent) (k : String) : Option ChangeEvent :=
  (chunk.filter fun r => serde.toText r.key == k).getLast?

/-- Loading forgets the chunk before, and holds for each key text the last row that has it. -/
theorem lookup_loadChunk (ws : WatermarkSnapshotter) (chunk : List ChangeEvent) (k : String) :
    (ws.loadChunk serde chunk).activeChunk.lookup k = loadedRow serde chunk k := by
  induction chunk using List.reverseRecOn with
  | nil => rfl
  | append_singleton chunk r ih =>
    simp only [loadChunk, List.foldl_append, List.foldl_cons, List.foldl_nil] at ih ⊢
    by_cases hk : serde.toText r.key = k
    · subst hk
      simp [loadedRow]
    · rw [AList.lookup_insert_ne (Ne.symm hk), ih]
      simp [loadedRow, hk]

/-- A loaded row is one of the query result and is held under its own key text. -/
theorem loadedRow_text {chunk : List ChangeEvent} {k : String} {r : ChangeEvent}
    (h : loadedRow serde chunk k = some r) : r ∈ chunk ∧ serde.toText r.key = k := by
  have hmem := List.mem_of_getLast? h
  simpa using hmem

/-- Every row is held under the text of its key, which is what makes the key of a row determine its
place. -/
def Keyed (serde : SerdeJson) (ws : WatermarkSnapshotter) : Prop :=
  ∀ k r, ws.activeChunk.lookup k = some r → serde.toText r.key = k

/-- The flushed rows are the values of the chunk. -/
theorem mem_flushChunk {ws : WatermarkSnapshotter} {r : ChangeEvent} :
    r ∈ ws.flushChunk.1 ↔ ∃ k, ws.activeChunk.lookup k = some r := by
  simp only [flushChunk, HashMap.values, List.mem_map]
  constructor
  · rintro ⟨⟨k, v⟩, hmem, rfl⟩
    exact ⟨k, AList.mem_lookup_iff.mpr hmem⟩
  · rintro ⟨k, hk⟩
    exact ⟨⟨k, r⟩, AList.mem_lookup_iff.mp hk, rfl⟩

/-- In a keyed chunk a row is flushed exactly if it is held under its own key text. -/
theorem Keyed.mem_flushChunk {ws : WatermarkSnapshotter} (hws : Keyed serde ws)
    {r : ChangeEvent} :
    r ∈ ws.flushChunk.1 ↔ ws.activeChunk.lookup (serde.toText r.key) = some r := by
  rw [WatermarkSnapshotter.mem_flushChunk]
  constructor
  · rintro ⟨k, hk⟩
    rw [hws k r hk]
    exact hk
  · intro h
    exact ⟨_, h⟩

/-- The flushed rows have different keys, as the chunk is a map by the text of the key. -/
theorem Keyed.nodup_flushChunk {ws : WatermarkSnapshotter} (hws : Keyed serde ws) :
    (ws.flushChunk.1.map ChangeEvent.key).Nodup := by
  have htexts : (ws.flushChunk.1.map ChangeEvent.key).map serde.toText = ws.activeChunk.keys := by
    simp only [flushChunk, HashMap.values, AList.keys, List.keys, List.map_map]
    refine List.map_congr_left fun p hp => ?_
    obtain ⟨k, v⟩ := p
    exact hws k v (AList.mem_lookup_iff.mpr hp)
  exact List.Nodup.of_map serde.toText (htexts ▸ ws.activeChunk.keys_nodup)

/-- Two chunks flush the same rows exactly when they hold the same row for every key text. The order
in which a hash map is drained is left open. -/
theorem flushChunk_perm_iff {ws ws' : WatermarkSnapshotter} (hws : Keyed serde ws)
    (hws' : Keyed serde ws') :
    ws.flushChunk.1.Perm ws'.flushChunk.1 ↔
      ∀ k, ws.activeChunk.lookup k = ws'.activeChunk.lookup k := by
  constructor
  · intro hperm k
    -- a row flushed by both is held under the same key text in both
    have hsub : ∀ {a b : WatermarkSnapshotter}, Keyed serde a → Keyed serde b →
        a.flushChunk.1.Perm b.flushChunk.1 →
        ∀ r, a.activeChunk.lookup k = some r → b.activeChunk.lookup k = some r := by
      intro a b ha hb hab r hr
      have hmem : r ∈ b.flushChunk.1 := hab.mem_iff.mp (WatermarkSnapshotter.mem_flushChunk.mpr ⟨k, hr⟩)
      obtain ⟨k', hk'⟩ := WatermarkSnapshotter.mem_flushChunk.mp hmem
      rw [← ha k r hr, hb k' r hk']
      exact hk'
    exact Option.ext fun r => ⟨hsub hws hws' hperm r, hsub hws' hws hperm.symm r⟩
  · intro h
    have hentries : ws.activeChunk.entries.Perm ws'.activeChunk.entries :=
      List.lookup_ext ws.activeChunk.nodupKeys ws'.activeChunk.nodupKeys fun k r => by
        have := h k
        simp only [AList.lookup] at this
        rw [this]
    exact hentries.map _

/-! ## The window -/

/-- The log event acts on the chunk row held under `k`, whatever data table the event is of. -/
def touches (serde : SerdeJson) (k : String) (e : ChangeEvent) : Bool :=
  !e.isWatermarkRow && serde.toText e.key == k

/-- Events that are no marker keep the window open and act on each row by `reconcile`, in the order
of the log. -/
theorem final_body {ws : WatermarkSnapshotter} (hopen : ws.inWatermarkWindow = true)
    {body : List ChangeEvent} (hbody : ∀ e ∈ body, e.isMarker = false) :
    (Mealy.final (processReplicationEvent serde) ws body).inWatermarkWindow = true ∧
    ∀ k, (Mealy.final (processReplicationEvent serde) ws body).activeChunk.lookup k =
      (body.filter (touches serde k)).foldl reconcile (ws.activeChunk.lookup k) := by
  induction body generalizing ws with
  | nil => exact ⟨hopen, fun _ => rfl⟩
  | cons e body ih =>
    rw [List.forall_mem_cons] at hbody
    have hstep : (ws.processReplicationEvent serde e).2.inWatermarkWindow = true := by
      rw [processReplicationEvent_inWindow, hopen, hbody.1]
      rfl
    obtain ⟨hwin, hrows⟩ := ih hstep hbody.2
    refine ⟨hwin, fun k => ?_⟩
    rw [Mealy.final_cons, hrows k, lookup_processReplicationEvent, List.filter_cons]
    -- an event of another key, or a watermark row, is filtered out and leaves the row alone
    by_cases ht : touches serde k e = true
    · have hcond : ws.inWatermarkWindow = true ∧ e.isWatermarkRow = false ∧
          serde.toText e.key = k := by simpa [touches, hopen] using ht
      rw [if_pos hcond, if_pos ht, List.foldl_cons]
    · have hcond : ¬ (ws.inWatermarkWindow = true ∧ e.isWatermarkRow = false ∧
          serde.toText e.key = k) := by simpa [touches, hopen] using ht
      rw [if_neg hcond, if_neg ht]

/-- A chunk of rows of one table, reconciled between two watermarks: the snapshotter before the
chunk is loaded, the chunk, the markers and the log between them. -/
structure SnapshotWindow where
  start : WatermarkSnapshotter
  table : String
  chunk : List ChangeEvent
  low : ChangeEvent
  body : List ChangeEvent
  high : ChangeEvent
  start_closed : start.inWatermarkWindow = false
  chunk_table : ∀ r ∈ chunk, r.sourceTableOrCollection = table
  low_marker : low.isMarker = true
  high_marker : high.isMarker = true
  body_open : ∀ e ∈ body, e.isMarker = false

namespace SnapshotWindow

/-- The events fed to the snapshotter after the chunk is loaded. -/
def stream (w : SnapshotWindow) : List ChangeEvent := w.low :: w.body ++ [w.high]

/-- The snapshotter right after the high watermark. -/
def closed (serde : SerdeJson) (w : SnapshotWindow) : WatermarkSnapshotter :=
  Mealy.final (processReplicationEvent serde) (w.start.loadChunk serde w.chunk) w.stream

/-- The rows flushed right after the high watermark. -/
def flushed (serde : SerdeJson) (w : SnapshotWindow) : List ChangeEvent :=
  (w.closed serde).flushChunk.1

/-- The events forwarded downstream, that is all but the rows of the metadata table. -/
def forwarded (serde : SerdeJson) (w : SnapshotWindow) : List ChangeEvent :=
  (Mealy.outputs (processReplicationEvent serde) (w.start.loadChunk serde w.chunk)
    w.stream).filterMap id

/-- A chunk row at the high watermark: the loaded row, reconciled with the log events of its key. -/
theorem lookup_closed (w : SnapshotWindow) (k : String) :
    (w.closed serde).activeChunk.lookup k =
      (w.body.filter (touches serde k)).foldl reconcile (loadedRow serde w.chunk k) := by
  have hrow : ∀ {e : ChangeEvent}, e.isMarker = true → e.isWatermarkRow = true := by
    intro e he
    simp only [ChangeEvent.isMarker, Bool.and_eq_true] at he
    exact he.1
  have hlow : ((w.start.loadChunk serde w.chunk).processReplicationEvent serde
      w.low).2.inWatermarkWindow = true := by
    rw [processReplicationEvent_inWindow, w.low_marker]
    simp [loadChunk, w.start_closed]
  obtain ⟨-, hbody⟩ := @final_body serde _ hlow _ w.body_open
  rw [closed, stream, List.cons_append, Mealy.final_cons, Mealy.final_append, Mealy.final_cons,
    Mealy.final_nil, lookup_processReplicationEvent, if_neg (by simp [hrow w.high_marker]), hbody,
    lookup_processReplicationEvent, if_neg (by simp [hrow w.low_marker]), lookup_loadChunk]

/-- At the high watermark every row is held under the text of its key, since the window changes
neither. -/
theorem keyed_closed (w : SnapshotWindow) : Keyed serde (w.closed serde) := by
  intro k r hr
  rw [lookup_closed] at hr
  cases hload : loadedRow serde w.chunk k with
  | none =>
    rw [hload, foldl_reconcile_none] at hr
    cases hr
  | some row =>
    rw [hload, foldl_reconcile_some] at hr
    split_ifs at hr
    obtain rfl := Option.some.inj hr
    rw [overwrite_key]
    exact (loadedRow_text hload).2

/-- Everything but the watermark rows is forwarded, in order. -/
theorem forwarded_eq (w : SnapshotWindow) :
    w.forwarded serde = w.stream.filter fun e => !e.isWatermarkRow := by
  have houts : ∀ (ws : WatermarkSnapshotter) (evs : List ChangeEvent),
      (Mealy.outputs (processReplicationEvent serde) ws evs).filterMap id =
        evs.filter fun e => !e.isWatermarkRow := by
    intro ws evs
    induction evs generalizing ws with
    | nil => rfl
    | cons e evs ih =>
      rw [Mealy.outputs_cons, processReplicationEvent_fst, List.filter_cons]
      by_cases he : e.isWatermarkRow = true
      · rw [if_pos he, List.filterMap_cons_none (show id (none : Option ChangeEvent) = none from rfl),
          ih, if_neg (by simp [he])]
      · rw [if_neg he, List.filterMap_cons_some (show id (some e) = some e from rfl), ih,
          if_pos (by simp [he])]
  exact houts _ _

end SnapshotWindow

/-! ## Sample events -/

/-- An event on row `id` of a table. -/
def rowEvent (table : String) (operation : Operation) (id : ℕ) (after : Option Json)
    (transactionId : Option String) : ChangeEvent where
  id := "evt"
  sourceDatabase := "db"
  sourceTableOrCollection := table
  operation := operation
  timestamp := 0
  key := Json.obj [("id", .nat id)]
  before := none
  after := after
  transactionId := transactionId
  offset := "1"

/-- The payload of a user. -/
def userRow (id : ℕ) (name : String) : Json := Json.obj [("id", .nat id), ("name", .string name)]

/-- A window over the users table with the given chunk and log. -/
def usersWindow (chunk body : List ChangeEvent)
    (hchunk : ∀ r ∈ chunk, r.sourceTableOrCollection = "users")
    (hbody : ∀ e ∈ body, e.isMarker = false) : SnapshotWindow where
  start := new
  table := "users"
  chunk := chunk
  low := rowEvent watermarkTable .create 0 none none
  body := body
  high := rowEvent watermarkTable .create 0 none none
  start_closed := rfl
  chunk_table := hchunk
  low_marker := rfl
  high_marker := rfl
  body_open := hbody

end Caminus.WatermarkSnapshotter

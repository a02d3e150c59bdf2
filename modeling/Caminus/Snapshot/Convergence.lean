import Caminus.Common.JsonText
import Caminus.Common.Replay
import Caminus.Snapshot.Window

/-!
# Watermark snapshots converge

The purpose of the window: a replica that applies the forwarded events and then upserts the flushed
rows agrees with the source on every key of the chunk, wherever between the watermarks the chunk was
read. A key with a `Delete` in the window leaves the chunk and is decided by the log; any other key of
the chunk is flushed with the image of its last change, which is the image the source ends with.
-/

namespace Caminus.WatermarkSnapshotter

/-- The change of a table that an event describes: `Create` and `Update` set the row to `after`,
`Delete` removes it. -/
def tableChange (e : ChangeEvent) : Change Json Json :=
  ⟨e.key, if e.operation = .delete then none else e.after⟩

/-- The upsert of a flushed row, which puts its payload under its key. -/
def rowUpsert (r : ChangeEvent) : Change Json Json := ⟨r.key, r.after⟩

/-- A table after a log of events, oldest first, as a replica that only follows the log would have
it. -/
def applyLog (t : Json → Option Json) (log : List ChangeEvent) : Json → Option Json :=
  Change.replay t (log.map tableChange)

/-- A replica that applies the forwarded events and then the flushed rows. -/
def replicate (t : Json → Option Json) (forwarded rows : List ChangeEvent) : Json → Option Json :=
  Change.replay (applyLog t forwarded) (rows.map rowUpsert)

/-- A row change of a table, with its new image unless it is a `Delete`. -/
def IsRowChange (table : String) (e : ChangeEvent) : Prop :=
  e.sourceTableOrCollection = table ∧
    (e.operation = .delete ∨ isUpsert e = true ∧ e.after.isSome = true)

variable {serde : SerdeJson}

/-- The events on one key, in their order. -/
def ofKey (k : Json) (log : List ChangeEvent) : List ChangeEvent := log.filter (·.key = k)

/-- Selecting a key's changes and reading events as changes commute. -/
theorem change_ofKey (k : Json) (log : List ChangeEvent) :
    Change.ofKey k (log.map tableChange) = (ofKey k log).map tableChange := by
  rw [Change.ofKey, List.filter_map]
  rfl

/-- A log without an event on a key leaves its row as it is. -/
theorem applyLog_of_ofKey_eq_nil {k : Json} {log : List ChangeEvent} (h : ofKey k log = [])
    (t : Json → Option Json) : applyLog t log k = t k :=
  Change.replay_of_ofKey_eq_nil (by rw [change_ofKey, h, List.map_nil]) t

/-- A log with an event on a key determines its row, whatever the table held before. -/
theorem applyLog_congr {k : Json} {log : List ChangeEvent} (h : ofKey k log ≠ [])
    (t u : Json → Option Json) : applyLog t log k = applyLog u log k :=
  Change.replay_congr (by rw [change_ofKey]; simpa using h) t u

/-- Without a `Delete`, the row of a key is the image of its last `Create` or `Update`. -/
theorem applyLog_lastUpsert {table : String} {k : Json} {log : List ChangeEvent}
    (hlog : ∀ e ∈ log, IsRowChange table e) (hdel : deletes (ofKey k log) = false)
    (t : Json → Option Json) :
    applyLog t log k = ((lastUpsert (ofKey k log)).map ChangeEvent.after).getD (t k) := by
  have hups : ∀ e ∈ ofKey k log, isUpsert e = true ∧ e.operation ≠ .delete := by
    intro e he
    have hnot : e.operation ≠ .delete := deletes_eq_false_iff.mp hdel e he
    rcases (hlog e (List.mem_filter.mp he).1).2 with hop | ⟨hup, -⟩
    · exact absurd hop hnot
    · exact ⟨hup, hnot⟩
  have hall : (ofKey k log).filter isUpsert = ofKey k log :=
    List.filter_eq_self.mpr fun e he => (hups e he).1
  rw [applyLog, Change.replay_apply, change_ofKey, lastUpsert, hall, List.getLast?_map,
    Option.map_map]
  cases hlast : (ofKey k log).getLast? with
  | none => rfl
  | some e =>
    have hne := (hups e (List.mem_of_getLast? hlast)).2
    simp [tableChange, hne]

/-- A key that the log neither deletes nor writes is not in it. -/
theorem ofKey_eq_nil {table : String} {log : List ChangeEvent} {k : Json}
    (hlog : ∀ e ∈ log, IsRowChange table e) (hdel : deletes (ofKey k log) = false)
    (hlast : lastUpsert (ofKey k log) = none) : ofKey k log = [] := by
  rw [lastUpsert, List.getLast?_eq_none_iff, List.filter_eq_nil_iff] at hlast
  rw [List.eq_nil_iff_forall_not_mem]
  intro e he
  rcases (hlog e (List.mem_filter.mp he).1).2 with hop | ⟨hup, -⟩
  · exact deletes_eq_false_iff.mp hdel e he hop
  · exact hlast e he hup

namespace SnapshotWindow

/-- In a window of row changes, the events that act on the chunk row of a key are those of the
key. -/
theorem filter_touches (w : SnapshotWindow) (htable : w.table ≠ watermarkTable)
    (hlog : ∀ e ∈ w.body, IsRowChange w.table e) (k : Json) :
    w.body.filter (touches serde (serde.toText k)) = ofKey k w.body := by
  refine List.filter_congr fun e he => ?_
  have hrow : e.isWatermarkRow = false := by
    simp [ChangeEvent.isWatermarkRow, (hlog e he).1, htable]
  have hkey : (serde.toText e.key == serde.toText k) = decide (e.key = k) := by
    rw [Bool.eq_iff_iff, beq_iff_eq, decide_eq_true_iff]
    exact serde.toText_injective.eq_iff
  rw [touches, hrow, hkey]
  rfl

/-- A chunk with distinct keys is loaded whole, as no row takes the place of another. -/
theorem loadedRow_of_mem {chunk : List ChangeEvent}
    (hkeys : (chunk.map ChangeEvent.key).Nodup) {r : ChangeEvent} (hr : r ∈ chunk) :
    loadedRow serde chunk (serde.toText r.key) = some r := by
  have hfilter : (chunk.filter fun c => serde.toText c.key == serde.toText r.key) = [r] := by
    induction chunk with
    | nil => cases hr
    | cons c chunk ih =>
      rw [List.map_cons, List.nodup_cons] at hkeys
      rcases List.mem_cons.mp hr with rfl | hmem
      · have hnone : (chunk.filter fun c => serde.toText c.key == serde.toText r.key) = [] := by
          refine List.filter_eq_nil_iff.mpr fun c hc htext => hkeys.1 ?_
          rw [← serde.toText_injective (beq_iff_eq.mp htext)]
          exact List.mem_map_of_mem hc
        simp [hnone]
      · have hne : serde.toText c.key ≠ serde.toText r.key := fun h =>
          hkeys.1 (serde.toText_injective h ▸ List.mem_map_of_mem hmem)
        simpa [hne] using ih hkeys.2 hmem
  rw [loadedRow, hfilter]
  rfl

/-- The flushed row of a chunk key: none after a `Delete` in the window, else the chunk row with the
image of the last `Create` or `Update`. -/
theorem lookup_closed_of_mem (w : SnapshotWindow) (htable : w.table ≠ watermarkTable)
    (hlog : ∀ e ∈ w.body, IsRowChange w.table e)
    (hkeys : (w.chunk.map ChangeEvent.key).Nodup) {r : ChangeEvent} (hr : r ∈ w.chunk) :
    (w.closed serde).activeChunk.lookup (serde.toText r.key) =
      if deletes (ofKey r.key w.body) then none
      else some (overwrite r (lastUpsert (ofKey r.key w.body))) := by
  rw [lookup_closed, w.filter_touches htable hlog, loadedRow_of_mem hkeys hr, foldl_reconcile_some]

/-- A flushed row has the key of a chunk row: the window adds no keys. -/
theorem key_of_mem_flushed (w : SnapshotWindow) {r : ChangeEvent} (hr : r ∈ w.flushed serde) :
    r.key ∈ w.chunk.map ChangeEvent.key := by
  have hlookup := w.keyed_closed.mem_flushChunk.mp hr
  rw [lookup_closed] at hlookup
  cases hload : loadedRow serde w.chunk (serde.toText r.key) with
  | none =>
    rw [hload, foldl_reconcile_none] at hlookup
    cases hlookup
  | some row =>
    obtain ⟨hmem, htext⟩ := loadedRow_text hload
    rw [← serde.toText_injective htext]
    exact List.mem_map_of_mem hmem

/-- A key without a chunk row is not flushed, so its row is decided by the log alone. -/
theorem key_notMem_flushed (w : SnapshotWindow) {k : Json}
    (hlookup : (w.closed serde).activeChunk.lookup (serde.toText k) = none) :
    k ∉ (w.flushed serde).map ChangeEvent.key := by
  intro hmem
  obtain ⟨c, hc, rfl⟩ := List.mem_map.mp hmem
  have hsome := w.keyed_closed.mem_flushChunk.mp hc
  rw [hlookup] at hsome
  cases hsome

/-- The markers are filtered out, and row changes are forwarded. -/
theorem forwarded_eq_body (w : SnapshotWindow) (htable : w.table ≠ watermarkTable)
    (hlog : ∀ e ∈ w.body, IsRowChange w.table e) : w.forwarded serde = w.body := by
  have hrow : ∀ e ∈ w.body, (!e.isWatermarkRow) = true := by
    intro e he
    simp [ChangeEvent.isWatermarkRow, (hlog e he).1, htable]
  have hmark : ∀ {e : ChangeEvent}, e.isMarker = true → e.isWatermarkRow = true := by
    intro e he
    simp only [ChangeEvent.isMarker, Bool.and_eq_true] at he
    exact he.1
  rw [forwarded_eq, stream, List.cons_append, List.filter_cons, List.filter_append,
    List.filter_eq_self.mpr hrow]
  simp [hmark w.low_marker, hmark w.high_marker]

/-- Rows of other keys leave a key as the log left it. -/
theorem replicate_of_notMem {t : Json → Option Json} {forwarded rows : List ChangeEvent} {k : Json}
    (hk : k ∉ rows.map ChangeEvent.key) : replicate t forwarded rows k = applyLog t forwarded k := by
  refine Change.replay_of_ofKey_eq_nil (List.filter_eq_nil_iff.mpr ?_) _
  intro c hc hkey
  obtain ⟨r, hr, rfl⟩ := List.mem_map.mp hc
  exact hk (of_decide_eq_true hkey ▸ List.mem_map_of_mem hr)

/-- A row with a key of its own is what the replica ends with. -/
theorem replicate_of_mem {t : Json → Option Json} {forwarded rows : List ChangeEvent}
    {r : ChangeEvent} (hrows : (rows.map ChangeEvent.key).Nodup) (hr : r ∈ rows) :
    replicate t forwarded rows r.key = r.after := by
  have hnd : ((rows.map rowUpsert).map Change.key).Nodup := by
    rw [List.map_map]
    exact hrows
  exact Change.replay_apply_of_mem hnd (List.mem_map_of_mem hr) _

/-- **Watermark snapshotting converges.** The chunk is read from the source after `l₁`; whatever the
replica held and in whatever order the flushed rows arrive, it ends with the source's row on every
key of the chunk, and with what the log alone gives on every other key. -/
theorem snapshot_converges (serde : SerdeJson) (w : SnapshotWindow) (l₁ l₂ : List ChangeEvent)
    (source replica : Json → Option Json) (rows : List ChangeEvent)
    (htable : w.table ≠ watermarkTable) (hbody : w.body = l₁ ++ l₂)
    (hlog : ∀ e ∈ w.body, IsRowChange w.table e) (hkeys : (w.chunk.map ChangeEvent.key).Nodup)
    (hread : ∀ r ∈ w.chunk, r.after.isSome = true ∧ applyLog source l₁ r.key = r.after)
    (hrows : rows.Perm (w.flushed serde)) :
    (∀ r ∈ w.chunk, replicate replica (w.forwarded serde) rows r.key =
      applyLog source (l₁ ++ l₂) r.key) ∧
    (∀ k, k ∉ w.chunk.map ChangeEvent.key → replicate replica (w.forwarded serde) rows k =
      applyLog replica (l₁ ++ l₂) k) := by
  have hnd : (rows.map ChangeEvent.key).Nodup :=
    (hrows.map _).nodup_iff.mpr w.keyed_closed.nodup_flushChunk
  rw [w.forwarded_eq_body htable hlog, ← hbody]
  refine ⟨fun r hr => ?_, fun k hk => ?_⟩
  · have hlookup := @lookup_closed_of_mem serde w htable hlog hkeys r hr
    cases hdel : deletes (ofKey r.key w.body) with
    | true =>
      -- deleted in the window: the row is not flushed and the log decides
      rw [hdel, if_pos rfl] at hlookup
      have hout : r.key ∉ rows.map ChangeEvent.key := by
        rw [(hrows.map _).mem_iff]
        exact w.key_notMem_flushed hlookup
      have hne : ofKey r.key w.body ≠ [] := by
        intro hnil
        rw [hnil] at hdel
        cases hdel
      rw [replicate_of_notMem hout, applyLog_congr hne replica source]
    | false =>
      -- otherwise the flushed row carries the source's last image
      rw [hdel] at hlookup
      have hmem : overwrite r (lastUpsert (ofKey r.key w.body)) ∈ rows := by
        refine hrows.mem_iff.mpr (w.keyed_closed.mem_flushChunk.mpr ?_)
        rw [overwrite_key]
        simpa using hlookup
      have hout := @replicate_of_mem replica w.body _ _ hnd hmem
      rw [overwrite_key] at hout
      rw [hout, applyLog_lastUpsert hlog hdel]
      cases hlast : lastUpsert (ofKey r.key w.body) with
      | some e => rfl
      | none =>
        -- no event on the key at all: the row is as it was read
        have hnil₁ : ofKey r.key l₁ = [] := by
          have hnil := ofKey_eq_nil hlog hdel hlast
          rw [hbody, ofKey, List.filter_append, List.append_eq_nil_iff] at hnil
          exact hnil.1
        have hsource := (hread r hr).2
        rw [applyLog_of_ofKey_eq_nil hnil₁] at hsource
        exact hsource.symm
  · have hout : k ∉ rows.map ChangeEvent.key := by
      intro hmem
      obtain ⟨c, hc, rfl⟩ := List.mem_map.mp hmem
      exact hk (w.key_of_mem_flushed (hrows.mem_iff.mp hc))
    exact replicate_of_notMem hout

/-- Row 1 is read after its first update and updated again, row 2 is read and then deleted. -/
def twoRows : SnapshotWindow :=
  usersWindow
    [rowEvent "users" .snapshot 1 (some (userRow 1 "John")) none,
      rowEvent "users" .snapshot 2 (some (userRow 2 "Ann")) none]
    [rowEvent "users" .update 1 (some (userRow 1 "John")) none,
      rowEvent "users" .update 1 (some (userRow 1 "Johnny")) none,
      rowEvent "users" .delete 2 none none]
    (by decide) (by decide)

/-- Both rows of the window at work: one is flushed with the name of its last update, the other is
not flushed and stays deleted. -/
theorem snapshot_converges_twoRows :
    (∀ r ∈ twoRows.chunk,
      replicate (fun _ => none) (twoRows.forwarded SerdeJson.compact)
        (twoRows.flushed SerdeJson.compact) r.key =
      applyLog (fun k => if k = Json.obj [("id", .nat 2)] then some (userRow 2 "Ann") else none)
        (twoRows.body.take 1 ++ twoRows.body.drop 1) r.key) ∧
    (∀ k, k ∉ twoRows.chunk.map ChangeEvent.key →
      replicate (fun _ => none) (twoRows.forwarded SerdeJson.compact)
        (twoRows.flushed SerdeJson.compact) k =
      applyLog (fun _ => none) (twoRows.body.take 1 ++ twoRows.body.drop 1) k) := by
  have hlog : ∀ e ∈ twoRows.body, IsRowChange twoRows.table e := by
    simp [twoRows, usersWindow, IsRowChange, rowEvent, isUpsert]
  have hread : ∀ r ∈ twoRows.chunk, r.after.isSome = true ∧
      applyLog (fun k => if k = Json.obj [("id", .nat 2)] then some (userRow 2 "Ann") else none)
        (twoRows.body.take 1) r.key = r.after := by decide
  exact snapshot_converges SerdeJson.compact twoRows (twoRows.body.take 1) (twoRows.body.drop 1)
    _ _ _ (by decide) rfl hlog (by decide) hread (List.Perm.refl _)

end SnapshotWindow

end Caminus.WatermarkSnapshotter

import Caminus.Common.Split
import Caminus.Snapshot.Convergence

/-!
# A backfill in many rounds

A table is copied chunk by chunk while its log goes on: each round lets some of the log pass, loads a
chunk, runs it through a window and flushes it. The consumer applies what the snapshotter hands on, in
the order in which it arrives. After any number of rounds it holds the source's row of every key that
was in a chunk or in the log, and no other key has changed on either side (`backfill_converges_iff`).
-/

namespace Caminus.WatermarkSnapshotter

/-- A call of the snapshotter, as the loop makes them in turn. -/
inductive Call
  | loadChunk (chunk : List ChangeEvent)
  | replication (event : ChangeEvent)
  | flushChunk

/-- A call, with the events it hands downstream. -/
def call (serde : SerdeJson) (ws : WatermarkSnapshotter) : Call → List ChangeEvent × WatermarkSnapshotter
  | .loadChunk chunk => ([], ws.loadChunk serde chunk)
  | .replication event =>
      ((ws.processReplicationEvent serde event).1.toList, (ws.processReplicationEvent serde event).2)
  | .flushChunk => ws.flushChunk

/-- A round of a backfill: the log before its window, the chunk, the markers, and the log between them
up to the moment the chunk is read and from there on. -/
structure Round where
  before : List ChangeEvent
  chunk : List ChangeEvent
  low : ChangeEvent
  unread : List ChangeEvent
  rest : List ChangeEvent
  high : ChangeEvent

namespace Round

/-- The log between the two markers. -/
def body (r : Round) : List ChangeEvent := r.unread ++ r.rest

/-- The changes of the table during the round. -/
def log (r : Round) : List ChangeEvent := r.before ++ r.body

/-- The keys of the chunk. -/
def keys (r : Round) : List Json := r.chunk.map ChangeEvent.key

/-- The calls of a round in their order: the log before the window, the chunk, the window, and the
flush. -/
def calls (r : Round) : List Call :=
  r.before.map .replication ++ .loadChunk r.chunk ::
    ((r.low :: r.body ++ [r.high]).map .replication ++ [.flushChunk])

/-- The chunk holds rows of the table as they are when it is read, and the log holds its row
changes. -/
structure Reads (table : String) (source : Json → Option Json) (r : Round) : Prop where
  low : r.low.isMarker = true
  high : r.high.isMarker = true
  log : ∀ e ∈ r.log, IsRowChange table e
  chunk : ∀ c ∈ r.chunk, c.sourceTableOrCollection = table ∧ c.operation = .snapshot
  distinct : r.keys.Nodup
  rows : ∀ c ∈ r.chunk, c.after.isSome = true ∧
    applyLog source (r.before ++ r.unread) c.key = c.after

end Round

/-- The rounds of a table follow one another: each reads the table as the logs of the rounds before
have left it. -/
def ReadInTurn (table : String) : (Json → Option Json) → List Round → Prop
  | _, [] => True
  | source, r :: rounds => r.Reads table source ∧ ReadInTurn table (applyLog source r.log) rounds

/-! ## What the calls hand on -/

variable {serde : SerdeJson} {ws : WatermarkSnapshotter}

/-- A replication event is handed on by itself, unless it is a watermark row. -/
theorem outputs_replication (ws : WatermarkSnapshotter) (evs : List ChangeEvent) :
    Mealy.outputs (call serde) ws (evs.map .replication) =
      evs.map fun e => if e.isWatermarkRow then [] else [e] := by
  induction evs generalizing ws with
  | nil => rfl
  | cons e evs ih =>
    rw [List.map_cons, Mealy.outputs_cons, List.map_cons, ih, call, processReplicationEvent_fst]
    split_ifs <;> rfl

/-- Calls of one kind move the snapshotter as the events themselves do. -/
theorem final_replication (ws : WatermarkSnapshotter) (evs : List ChangeEvent) :
    Mealy.final (call serde) ws (evs.map .replication) =
      Mealy.final (processReplicationEvent serde) ws evs := by
  induction evs generalizing ws with
  | nil => rfl
  | cons e evs ih => exact ih _

/-- A marker is a row of the metadata table. -/
theorem isWatermarkRow_of_isMarker {e : ChangeEvent} (h : e.isMarker = true) :
    e.isWatermarkRow = true := by
  simp only [ChangeEvent.isMarker, Bool.and_eq_true] at h
  exact h.1

section Logs

variable {table : String} {log : List ChangeEvent}

/-- A row change of the table is no watermark row, the table being another one. -/
theorem IsRowChange.not_isWatermarkRow (htable : table ≠ watermarkTable) {e : ChangeEvent}
    (h : IsRowChange table e) : e.isWatermarkRow = false := by
  simp [ChangeEvent.isWatermarkRow, h.1, htable]

/-- Nor does it open or close a window. -/
theorem IsRowChange.not_isMarker (htable : table ≠ watermarkTable) {e : ChangeEvent}
    (h : IsRowChange table e) : e.isMarker = false := by
  simp [ChangeEvent.isMarker, h.not_isWatermarkRow htable]

/-- Row changes are handed on one by one, inside a window and outside of it. -/
theorem outputs_log (htable : table ≠ watermarkTable) (hlog : ∀ e ∈ log, IsRowChange table e)
    (ws : WatermarkSnapshotter) :
    Mealy.outputs (call serde) ws (log.map .replication) = log.map fun e => [e] := by
  rw [outputs_replication]
  refine List.map_congr_left fun e he => ?_
  rw [(hlog e he).not_isWatermarkRow htable]
  rfl

/-- Row changes do not move the window, so it is as it was after any number of them. -/
theorem inWindow_log (htable : table ≠ watermarkTable) (hlog : ∀ e ∈ log, IsRowChange table e)
    (ws : WatermarkSnapshotter) :
    (Mealy.final (processReplicationEvent serde) ws log).inWatermarkWindow =
      ws.inWatermarkWindow := by
  induction log generalizing ws with
  | nil => rfl
  | cons e log ih =>
    rw [List.forall_mem_cons] at hlog
    rw [Mealy.final_cons, ih hlog.2, processReplicationEvent_inWindow,
      hlog.1.not_isMarker htable, Bool.xor_false]

end Logs

/-! ## One window -/

@[simp] theorem overwrite_operation (row : ChangeEvent) (o : Option ChangeEvent) :
    (overwrite row o).operation = row.operation := by
  cases o <;> rfl

namespace SnapshotWindow

variable {w : SnapshotWindow}

/-- The high watermark closes the window. -/
theorem inWindow_closed (w : SnapshotWindow) : (w.closed serde).inWatermarkWindow = false := by
  have hlow : ((w.start.loadChunk serde w.chunk).processReplicationEvent serde
      w.low).2.inWatermarkWindow = true := by
    rw [processReplicationEvent_inWindow, w.low_marker]
    simp [loadChunk, w.start_closed]
  obtain ⟨hbody, -⟩ := @final_body serde _ hlow _ w.body_open
  rw [closed, stream, List.cons_append, Mealy.final_cons, Mealy.final_concat,
    processReplicationEvent_inWindow, hbody, w.high_marker]
  rfl

/-- A flushed row is a chunk row that the window did not delete, with its last image. -/
theorem mem_flushed_iff (htable : w.table ≠ watermarkTable)
    (hlog : ∀ e ∈ w.body, IsRowChange w.table e) (hkeys : (w.chunk.map ChangeEvent.key).Nodup)
    {row : ChangeEvent} :
    row ∈ w.flushed serde ↔ ∃ c ∈ w.chunk, deletes (ofKey c.key w.body) = false ∧
      row = overwrite c (lastUpsert (ofKey c.key w.body)) := by
  constructor
  · intro hrow
    obtain ⟨c, hc, hkey⟩ := List.mem_map.mp (w.key_of_mem_flushed hrow)
    have hlookup := w.keyed_closed.mem_flushChunk.mp hrow
    rw [← hkey, w.lookup_closed_of_mem htable hlog hkeys hc] at hlookup
    split_ifs at hlookup with hdel
    exact ⟨c, hc, by simpa using hdel, (Option.some.inj hlookup).symm⟩
  · rintro ⟨c, hc, hdel, rfl⟩
    refine w.keyed_closed.mem_flushChunk.mpr ?_
    rw [overwrite_key, w.lookup_closed_of_mem htable hlog hkeys hc, hdel]
    simp

/-- A chunk row that is not flushed has changes in the log, which then decide its row. -/
theorem ofKey_ne_nil_of_notMem (htable : w.table ≠ watermarkTable)
    (hlog : ∀ e ∈ w.body, IsRowChange w.table e) (hkeys : (w.chunk.map ChangeEvent.key).Nodup)
    {c : ChangeEvent} (hc : c ∈ w.chunk) (hout : c.key ∉ (w.flushed serde).map ChangeEvent.key) :
    ofKey c.key w.body ≠ [] := by
  intro hnil
  refine hout (List.mem_map.mpr ⟨overwrite c none, ?_, overwrite_key c none⟩)
  exact (mem_flushed_iff htable hlog hkeys).mpr ⟨c, hc, by rw [hnil]; rfl, by rw [hnil]; rfl⟩

/-- **A flushed row carries the image the source ends with.** -/
theorem after_of_mem_flushed (htable : w.table ≠ watermarkTable)
    (hlog : ∀ e ∈ w.body, IsRowChange w.table e) (hkeys : (w.chunk.map ChangeEvent.key).Nodup)
    {source : Json → Option Json} {l₁ l₂ : List ChangeEvent} (hbody : w.body = l₁ ++ l₂)
    (hread : ∀ c ∈ w.chunk, applyLog source l₁ c.key = c.after) {row : ChangeEvent}
    (hrow : row ∈ w.flushed serde) : row.after = applyLog source w.body row.key := by
  obtain ⟨c, hc, hdel, rfl⟩ := (mem_flushed_iff htable hlog hkeys).mp hrow
  rw [overwrite_key, applyLog_lastUpsert hlog hdel]
  cases hlast : lastUpsert (ofKey c.key w.body) with
  | some e => rfl
  | none =>
    -- no event on the key at all: the row is as it was read
    have hnil := ofKey_eq_nil hlog hdel hlast
    rw [hbody, ofKey, List.filter_append, List.append_eq_nil_iff] at hnil
    have hsource := hread c hc
    rw [applyLog_of_ofKey_eq_nil hnil.1] at hsource
    exact hsource.symm

end SnapshotWindow

/-! ## One round -/

section Logs

variable {t : Json → Option Json} {k : Json}

/-- A log can be applied in two parts. -/
theorem applyLog_append (t : Json → Option Json) (log more : List ChangeEvent) :
    applyLog t (log ++ more) = applyLog (applyLog t log) more := by
  rw [applyLog, List.map_append, Change.replay, List.foldl_append]
  rfl

/-- So can the events on a key be selected. -/
theorem ofKey_append (k : Json) (log more : List ChangeEvent) :
    ofKey k (log ++ more) = ofKey k log ++ ofKey k more :=
  List.filter_append ..

/-- Rows that delete nothing are upserts, so flushing them is a log of its own. -/
theorem applyLog_eq_replicate {rows : List ChangeEvent} (h : ∀ r ∈ rows, r.operation ≠ .delete)
    (t : Json → Option Json) (log : List ChangeEvent) :
    applyLog t (log ++ rows) = replicate t log rows := by
  have hmap : rows.map tableChange = rows.map rowUpsert := by
    refine List.map_congr_left fun r hr => ?_
    rw [tableChange, if_neg (h r hr), rowUpsert]
  rw [applyLog_append, replicate, applyLog, hmap]

end Logs

namespace Round

variable {table : String} {source : Json → Option Json} {r : Round}

/-- The calls of a round hand on its log, and then the rows of its window. The round is one snapshot
window, to which the results on a single window apply. -/
theorem Reads.exists_window (h : r.Reads table source) (htable : table ≠ watermarkTable)
    (hclosed : ws.inWatermarkWindow = false) :
    ∃ (w : SnapshotWindow) (singles : List (List ChangeEvent)), w.table = table ∧
      w.chunk = r.chunk ∧ w.body = r.body ∧
      Mealy.outputs (call serde) ws r.calls = singles ++ [w.flushed serde] ∧
      singles.flatten = r.log ∧ (∀ l ∈ singles, l.length ≤ 1) ∧
      (Mealy.final (call serde) ws r.calls).inWatermarkWindow = false := by
  have hlog := h.log
  rw [Round.log, List.forall_mem_append] at hlog
  -- the snapshotter at the start of the window is the one that the log before it leaves, closed as
  -- no row change opens it
  obtain ⟨w, hstart, htab, hchunk, hlow, hbody, hhigh⟩ : ∃ w : SnapshotWindow,
      w.start = Mealy.final (processReplicationEvent serde) ws r.before ∧ w.table = table ∧
        w.chunk = r.chunk ∧ w.low = r.low ∧ w.body = r.body ∧ w.high = r.high :=
    ⟨{  start := Mealy.final (processReplicationEvent serde) ws r.before
        table := table
        chunk := r.chunk
        low := r.low
        body := r.body
        high := r.high
        start_closed := (inWindow_log htable hlog.1 ws).trans hclosed
        chunk_table := fun c hc => (h.chunk c hc).1
        low_marker := h.low
        high_marker := h.high
        body_open := fun e he => (hlog.2 e he).not_isMarker htable }, rfl, rfl, rfl, rfl, rfl, rfl⟩
  -- of the window the two markers alone are filtered out
  have hwindow : (r.low :: r.body ++ [r.high]).map (fun e => if e.isWatermarkRow then [] else [e]) =
      [] :: (r.body.map (fun e => [e]) ++ [[]]) := by
    have hbodyOut : r.body.map (fun e => if e.isWatermarkRow then [] else [e]) =
        r.body.map fun e => [e] := by
      refine List.map_congr_left fun e he => ?_
      rw [(hlog.2 e he).not_isWatermarkRow htable]
      rfl
    rw [List.cons_append, List.map_cons, List.map_append, hbodyOut, List.map_singleton,
      if_pos (isWatermarkRow_of_isMarker h.low), if_pos (isWatermarkRow_of_isMarker h.high)]
  refine ⟨w, r.before.map (fun e => [e]) ++ [] :: [] :: (r.body.map (fun e => [e]) ++ [[]]), htab,
    hchunk, hbody, ?_, ?_, ?_, ?_⟩
  · rw [calls, Mealy.outputs_append, outputs_log htable hlog.1, final_replication,
      Mealy.outputs_cons, Mealy.outputs_append, outputs_replication, final_replication, hwindow,
      SnapshotWindow.flushed, SnapshotWindow.closed, SnapshotWindow.stream, hstart, hchunk, hlow,
      hbody, hhigh, List.append_assoc]
    rfl
  · simp [Round.log, ← List.flatMap_def]
  · intro l hl
    simp only [List.mem_append, List.mem_map, List.mem_cons, List.not_mem_nil, or_false] at hl
    rcases hl with ⟨e, -, rfl⟩ | rfl | rfl | ⟨e, -, rfl⟩ | rfl <;> simp
  · have hlast : Mealy.final (call serde) ws r.calls = (w.closed serde).flushChunk.2 := by
      rw [calls, Mealy.final_append, Mealy.final_cons, Mealy.final_append, final_replication,
        final_replication, SnapshotWindow.closed, SnapshotWindow.stream, hstart, hchunk, hlow, hbody,
        hhigh]
      rfl
    rw [hlast]
    exact w.inWindow_closed

/-- The round decides the row of the key: it is in the chunk or in the log. -/
def Covers (r : Round) (k : Json) : Prop := k ∈ r.keys ∨ ofKey k r.log ≠ []

/-- Whatever arrives of a round, in whatever order the rows of its chunk come. -/
theorem Reads.flatten_outs (h : r.Reads table source) (htable : table ≠ watermarkTable)
    (hclosed : ws.inWatermarkWindow = false) {outs : List (List ChangeEvent)}
    (houts : List.Forall₂ List.Perm outs (Mealy.outputs (call serde) ws r.calls)) :
    ∃ (w : SnapshotWindow) (rows : List ChangeEvent), w.table = table ∧ w.chunk = r.chunk ∧
      w.body = r.body ∧ rows.Perm (w.flushed serde) ∧ outs.flatten = r.log ++ rows := by
  obtain ⟨w, singles, htab, hchunk, hbody, houtputs, hflat, hshort, -⟩ :=
    @exists_window serde ws table source r h htable hclosed
  rw [houtputs] at houts
  obtain ⟨outs₁, outs₂, rfl, hsingles, hrows⟩ := exists_append_of_forall₂ houts
  obtain ⟨rows, rest, hperm, hnil, rfl⟩ := List.forall₂_cons_right_iff.mp hrows
  obtain rfl := List.forall₂_nil_right_iff.mp hnil
  refine ⟨w, rows, htab, hchunk, hbody, hperm, ?_⟩
  rw [eq_of_forall₂_perm hsingles hshort, List.flatten_append, hflat, List.flatten_singleton]

/-- **A round brings the source's rows of the keys it covers**, and leaves every other key as it
was. -/
theorem Reads.applyLog_outs (h : r.Reads table source) (htable : table ≠ watermarkTable)
    (hclosed : ws.inWatermarkWindow = false) {outs : List (List ChangeEvent)}
    (houts : List.Forall₂ List.Perm outs (Mealy.outputs (call serde) ws r.calls))
    (replica : Json → Option Json) (k : Json) :
    (r.Covers k → applyLog replica outs.flatten k = applyLog source r.log k) ∧
      (¬r.Covers k → applyLog replica outs.flatten k = replica k) := by
  obtain ⟨w, rows, htab, hchunk, hbody, hperm, hflat⟩ := h.flatten_outs htable hclosed houts
  have hlog := h.log
  rw [Round.log, List.forall_mem_append, ← hbody, ← htab] at hlog
  have hkeys : (w.chunk.map ChangeEvent.key).Nodup := by
    rw [hchunk]
    exact h.distinct
  have htable' : w.table ≠ watermarkTable := by rwa [htab]
  -- a flushed row is an upsert of a chunk key, with the image that the source ends with
  have hrows : ∀ row ∈ rows, row.operation ≠ .delete ∧ row.key ∈ r.keys ∧
      row.after = applyLog source r.log row.key := by
    intro row hrow
    have hflushed := hperm.mem_iff.mp hrow
    refine ⟨?_, ?_, ?_⟩
    · obtain ⟨c, hc, -, rfl⟩ := (SnapshotWindow.mem_flushed_iff htable' hlog.2 hkeys).mp hflushed
      rw [overwrite_operation, (h.chunk c (hchunk ▸ hc)).2]
      decide
    · rw [keys, ← hchunk]
      exact w.key_of_mem_flushed hflushed
    · rw [Round.log, applyLog_append, ← hbody]
      refine SnapshotWindow.after_of_mem_flushed htable' hlog.2 hkeys hbody (fun c hc => ?_) hflushed
      rw [← applyLog_append]
      exact (h.rows c (hchunk ▸ hc)).2
  have hnodup : (rows.map ChangeEvent.key).Nodup :=
    (hperm.map _).nodup_iff.mpr w.keyed_closed.nodup_flushChunk
  rw [hflat, applyLog_eq_replicate fun row hrow => (hrows row hrow).1]
  by_cases hk : k ∈ rows.map ChangeEvent.key
  · obtain ⟨row, hrow, rfl⟩ := List.mem_map.mp hk
    rw [SnapshotWindow.replicate_of_mem hnodup hrow]
    exact ⟨fun _ => (hrows row hrow).2.2, fun hnot => absurd (Or.inl (hrows row hrow).2.1) hnot⟩
  · rw [SnapshotWindow.replicate_of_notMem hk]
    refine ⟨fun hcovers => applyLog_congr ?_ _ _, fun hnot => applyLog_of_ofKey_eq_nil ?_ _⟩
    -- a chunk row that was not flushed was deleted in the window, and so its key is in the log
    · rcases hcovers with hmem | hne
      · obtain ⟨c, hc, rfl⟩ := List.mem_map.mp hmem
        have hne := SnapshotWindow.ofKey_ne_nil_of_notMem htable' hlog.2 hkeys (hchunk ▸ hc)
          fun hmem => hk ((hperm.map _).mem_iff.mpr hmem)
        rw [Round.log, ofKey_append, ← hbody]
        exact fun hnil => hne (List.append_eq_nil_iff.mp hnil).2
      · exact hne
    · by_contra hne
      exact hnot (Or.inr hne)

end Round

/-! ## All rounds -/

/-- The calls of a backfill that is followed by more of the log. -/
def backfillCalls (rounds : List Round) (tail : List ChangeEvent) : List Call :=
  rounds.flatMap Round.calls ++ tail.map .replication

/-- The changes of the table from its start to the end of the tail. -/
def backfillLog (rounds : List Round) (tail : List ChangeEvent) : List ChangeEvent :=
  rounds.flatMap Round.log ++ tail

/-- The key was in a chunk or in the log, so that the replica has heard of it. -/
def Reached (rounds : List Round) (tail : List ChangeEvent) (k : Json) : Prop :=
  (∃ r ∈ rounds, r.Covers k) ∨ ofKey k tail ≠ []

section Backfill

variable {table : String} {tail : List ChangeEvent}

/-- A key that was not reached has no event in the whole log. -/
theorem ofKey_backfillLog {rounds : List Round} {k : Json} (h : ¬Reached rounds tail k) :
    ofKey k (backfillLog rounds tail) = [] := by
  rw [Reached, not_or, not_not] at h
  rw [backfillLog, ofKey_append, h.2, List.append_nil, ofKey, List.filter_flatMap,
    List.flatMap_eq_nil_iff]
  intro r hr
  by_contra hne
  exact h.1 ⟨r, hr, Or.inr hne⟩

/-- The consumer after a backfill: the source's rows of the keys that were reached, and its own old
rows. By induction on the rounds, with the source and the consumer as the earlier rounds left them. -/
theorem applyLog_backfill (htable : table ≠ watermarkTable) {rounds : List Round}
    {source : Json → Option Json} (hrounds : ReadInTurn table source rounds)
    (htail : ∀ e ∈ tail, IsRowChange table e) {ws : WatermarkSnapshotter}
    (hclosed : ws.inWatermarkWindow = false) {outs : List (List ChangeEvent)}
    (houts : List.Forall₂ List.Perm outs
      (Mealy.outputs (call serde) ws (backfillCalls rounds tail)))
    (replica : Json → Option Json) (k : Json) :
    (Reached rounds tail k →
      applyLog replica outs.flatten k = applyLog source (backfillLog rounds tail) k) ∧
    (¬Reached rounds tail k → applyLog replica outs.flatten k = replica k) := by
  induction rounds generalizing source replica ws outs with
  | nil =>
    have hflat : outs.flatten = tail := by
      rw [backfillCalls, List.flatMap_nil, List.nil_append, outputs_log htable htail] at houts
      rw [eq_of_forall₂_perm houts (by simp), ← List.flatMap_def, List.flatMap_singleton']
    rw [hflat, backfillLog, List.flatMap_nil, List.nil_append]
    constructor
    · rintro (⟨r, hr, -⟩ | hne)
      · cases hr
      · exact applyLog_congr hne _ _
    · intro hnot
      refine applyLog_of_ofKey_eq_nil ?_ _
      by_contra hne
      exact hnot (Or.inr hne)
  | cons r rounds ih =>
    obtain ⟨hreads, hrest⟩ := hrounds
    have hcalls : backfillCalls (r :: rounds) tail = r.calls ++ backfillCalls rounds tail := by
      rw [backfillCalls, List.flatMap_cons, List.append_assoc, backfillCalls]
    have hlog : backfillLog (r :: rounds) tail = r.log ++ backfillLog rounds tail := by
      rw [backfillLog, List.flatMap_cons, List.append_assoc, backfillLog]
    rw [hcalls, Mealy.outputs_append] at houts
    obtain ⟨outs₁, outs₂, rfl, houts₁, houts₂⟩ := exists_append_of_forall₂ houts
    obtain ⟨-, -, -, -, -, -, -, -, hclosed'⟩ :=
      @Round.Reads.exists_window serde ws table source r hreads htable hclosed
    have hround := hreads.applyLog_outs htable hclosed houts₁ replica k
    -- the rounds behind see the source after this round's log, and the consumer after its outputs
    have hlater := ih hrest hclosed' houts₂ (applyLog replica outs₁.flatten)
    rw [List.flatten_append, applyLog_append, hlog, applyLog_append]
    by_cases hk : Reached rounds tail k
    · refine ⟨fun _ => hlater.1 hk, fun hnot => absurd ?_ hnot⟩
      rcases hk with ⟨r', hr', hcovers⟩ | hne
      · exact Or.inl ⟨r', List.mem_cons_of_mem r hr', hcovers⟩
      · exact Or.inr hne
    -- a key that is not reached later keeps, on both sides, what this round made of it
    · rw [hlater.2 hk, applyLog_of_ofKey_eq_nil (ofKey_backfillLog hk)]
      constructor
      · rintro (⟨r', hr', hcovers⟩ | hne)
        · rcases List.mem_cons.mp hr' with rfl | hr'
          · exact hround.1 hcovers
          · exact absurd (Or.inl ⟨r', hr', hcovers⟩) hk
        · exact absurd (Or.inr hne) hk
      · intro hnot
        exact hround.2 fun hcovers => hnot (Or.inl ⟨r, List.mem_cons_self, hcovers⟩)

end Backfill

/-- **A backfill converges exactly if it reaches every key on which the two tables differ.** -/
theorem backfill_converges_iff (serde : SerdeJson) {table : String} (htable : table ≠ watermarkTable)
    (source replica : Json → Option Json) (rounds : List Round)
    (hrounds : ReadInTurn table source rounds) (tail : List ChangeEvent)
    (htail : ∀ e ∈ tail, IsRowChange table e) (outs : List (List ChangeEvent))
    (houts : List.Forall₂ List.Perm outs
      (Mealy.outputs (call serde) new (backfillCalls rounds tail))) :
    applyLog replica outs.flatten = applyLog source (backfillLog rounds tail) ↔
      ∀ k, source k ≠ replica k → Reached rounds tail k := by
  have hclosed : new.inWatermarkWindow = false := rfl
  have hkeys := applyLog_backfill htable hrounds htail hclosed houts replica
  constructor
  · intro heq k hne
    by_contra hk
    have hreplica := (hkeys k).2 hk
    rw [heq, applyLog_of_ofKey_eq_nil (ofKey_backfillLog hk)] at hreplica
    exact hne hreplica
  · intro hreached
    funext k
    by_cases hk : Reached rounds tail k
    · exact (hkeys k).1 hk
    · rw [(hkeys k).2 hk, applyLog_of_ofKey_eq_nil (ofKey_backfillLog hk)]
      by_contra hne
      exact hk (hreached k (Ne.symm hne))

/-- A round over one user, who is renamed in the window after the chunk is read. -/
def renamedUser (id : ℕ) : Round where
  before := []
  chunk := [rowEvent "users" .snapshot id (some (userRow id "John")) none]
  low := rowEvent watermarkTable .create 0 none none
  unread := []
  rest := [rowEvent "users" .update id (some (userRow id "Johnny")) none]
  high := rowEvent watermarkTable .create 0 none none

/-- A table with two users. -/
def twoUsers (k : Json) : Option Json :=
  if k = Json.obj [("id", .nat 1)] then some (userRow 1 "John")
  else if k = Json.obj [("id", .nat 2)] then some (userRow 2 "John")
  else none

/-- Two rounds over a table of two users bring both into an empty replica. -/
theorem backfill_converges_iff_twoUsers :
    applyLog (fun _ => none) (Mealy.outputs (call SerdeJson.compact) new
        (backfillCalls [renamedUser 1, renamedUser 2] [])).flatten =
      applyLog twoUsers (backfillLog [renamedUser 1, renamedUser 2] []) := by
  have hreads : ReadInTurn "users" twoUsers [renamedUser 1, renamedUser 2] := by
    have hround : ∀ (id : ℕ) (source : Json → Option Json),
        source (Json.obj [("id", .nat id)]) = some (userRow id "John") →
        (renamedUser id).Reads "users" source := by
      intro id source hsource
      refine ⟨rfl, rfl, ?_, ?_, ?_, ?_⟩
      · simp [renamedUser, Round.log, Round.body, IsRowChange, rowEvent, isUpsert]
      · simp [renamedUser, rowEvent]
      · simp [renamedUser, Round.keys]
      · intro c hc
        obtain rfl := List.mem_singleton.mp hc
        exact ⟨rfl, hsource⟩
    exact ⟨hround 1 _ (by decide), hround 2 _ (by decide), trivial⟩
  refine (backfill_converges_iff SerdeJson.compact (by decide) twoUsers (fun _ => none) _ hreads []
    (by simp) _ (List.forall₂_same.mpr fun _ _ => List.Perm.refl _)).mpr fun k hk => ?_
  rw [twoUsers] at hk
  split_ifs at hk with h1 h2
  · exact Or.inl ⟨renamedUser 1, by simp, Or.inl (by simp [renamedUser, Round.keys, rowEvent, h1])⟩
  · exact Or.inl ⟨renamedUser 2, by simp, Or.inl (by simp [renamedUser, Round.keys, rowEvent, h2])⟩
  · exact absurd rfl hk

end Caminus.WatermarkSnapshotter

import Caminus.Common.JsonText
import Caminus.Common.Split
import Caminus.Snapshot.Interference

/-!
# Where a window ends

A window ends at the next marker, whichever it is, and the chunk outlives it until it is flushed. Two
things follow. What the log changes after the window and before the flush does not reach the chunk, so
a flushed row can be older than what was forwarded (`neverStale_iff`). And the commit of the
transaction that wrote the low watermark is a marker of its own: it ends the window that its insert
has opened (`not_movesOnce`).
-/

namespace Caminus.WatermarkSnapshotter

variable {serde : SerdeJson}

/-! ## Windows of a stream -/

/-- Whether the window is open after a stream: every marker toggles it. -/
def windowAfter (window : Bool) (evs : List ChangeEvent) : Bool :=
  evs.foldl (fun w e => w ^^ e.isMarker) window

/-- The events that come while the window is open, watermark rows apart. -/
def inside : Bool → List ChangeEvent → List ChangeEvent
  | _, [] => []
  | window, e :: evs =>
      if window && !e.isWatermarkRow then e :: inside (window ^^ e.isMarker) evs
      else inside (window ^^ e.isMarker) evs

/-- Only rows of the metadata table are markers. -/
theorem isMarker_of_not_row {e : ChangeEvent} (h : e.isWatermarkRow = false) : e.isMarker = false := by
  rw [ChangeEvent.isMarker, h, Bool.false_and]

/-- The windows of a longer stream are those of its parts, the second part starting as the first one
ends. -/
theorem inside_append (window : Bool) (evs more : List ChangeEvent) :
    inside window (evs ++ more) = inside window evs ++ inside (windowAfter window evs) more := by
  induction evs generalizing window with
  | nil => rfl
  | cons e evs ih =>
    rw [List.cons_append, inside, inside, ih]
    split_ifs
    · rfl
    · rfl

/-- An event inside a window is an event of the stream, and no watermark row. -/
theorem mem_of_mem_inside {window : Bool} {evs : List ChangeEvent} {e : ChangeEvent}
    (h : e ∈ inside window evs) : e ∈ evs ∧ e.isWatermarkRow = false := by
  induction evs generalizing window with
  | nil => cases h
  | cons x evs ih =>
    rw [inside] at h
    split_ifs at h with hin
    · rcases List.mem_cons.mp h with rfl | h
      · simp only [Bool.and_eq_true, Bool.not_eq_true'] at hin
        exact ⟨List.mem_cons_self, hin.2⟩
      · exact ⟨List.mem_cons_of_mem _ (ih h).1, (ih h).2⟩
    · exact ⟨List.mem_cons_of_mem _ (ih h).1, (ih h).2⟩

/-- The flag of the snapshotter follows the markers of the stream. -/
theorem inWindow_final (ws : WatermarkSnapshotter) (evs : List ChangeEvent) :
    (Mealy.final (processReplicationEvent serde) ws evs).inWatermarkWindow =
      windowAfter ws.inWatermarkWindow evs := by
  induction evs generalizing ws with
  | nil => rfl
  | cons e evs ih =>
    rw [Mealy.final_cons, ih, processReplicationEvent_inWindow]
    rfl

/-- A row after a stream: the events inside the windows that touch it have been reconciled, in their
order. -/
theorem lookup_final (ws : WatermarkSnapshotter) (evs : List ChangeEvent) (k : String) :
    (Mealy.final (processReplicationEvent serde) ws evs).activeChunk.lookup k =
      ((inside ws.inWatermarkWindow evs).filter (touches serde k)).foldl reconcile
        (ws.activeChunk.lookup k) := by
  induction evs generalizing ws with
  | nil => rfl
  | cons e evs ih =>
    rw [Mealy.final_cons, ih, processReplicationEvent_inWindow, lookup_processReplicationEvent,
      inside]
    by_cases hin : (ws.inWatermarkWindow && !e.isWatermarkRow) = true
    · rw [if_pos hin, List.filter_cons]
      simp only [Bool.and_eq_true, Bool.not_eq_true'] at hin
      by_cases hk : serde.toText e.key = k
      · rw [if_pos ⟨hin.1, hin.2, hk⟩, if_pos (by simp [touches, hin.2, hk]), List.foldl_cons]
      · rw [if_neg (fun h => hk h.2.2), if_neg (by simp [touches, hk])]
    -- outside a window, and for a watermark row, nothing is reconciled
    · have hout : ¬(ws.inWatermarkWindow = true ∧ e.isWatermarkRow = false ∧
          serde.toText e.key = k) := by
        rintro ⟨hwindow, hrow, -⟩
        rw [hwindow, hrow] at hin
        exact hin rfl
      rw [if_neg hin, if_neg hout]

/-! ## Flushing later -/

/-- A chunk is loaded, a stream with a low and a later high watermark is processed, and the chunk is
flushed. -/
structure SnapshotRun where
  start : WatermarkSnapshotter
  chunk : List ChangeEvent
  before : List ChangeEvent
  low : ChangeEvent
  between : List ChangeEvent
  high : ChangeEvent
  later : List ChangeEvent
  low_marker : low.isMarker = true
  low_opens : windowAfter start.inWatermarkWindow before = false
  high_marker : high.isMarker = true
  high_closes : windowAfter start.inWatermarkWindow (before ++ low :: between) = true

/-- A `Create`, `Update` or `Delete` that is forwarded: what changes the row of a key downstream. -/
def changes (k : Json) (e : ChangeEvent) : Bool :=
  !e.isWatermarkRow && decide (e.key = k) && (isUpsert e || e.operation == .delete)

namespace SnapshotRun

/-- The events after the low watermark, with those after the high one up to the flush. -/
def afterLow (run : SnapshotRun) : List ChangeEvent := run.between ++ run.high :: run.later

/-- All events between the load and the flush. -/
def stream (run : SnapshotRun) : List ChangeEvent := run.before ++ run.low :: run.afterLow

/-- The snapshotter at the flush, which is some time after the high watermark. -/
def atFlush (serde : SerdeJson) (run : SnapshotRun) : WatermarkSnapshotter :=
  Mealy.final (processReplicationEvent serde) (run.start.loadChunk serde run.chunk) run.stream

/-- The rows that the flush returns: what is left of the chunk by then. -/
def flushed (serde : SerdeJson) (run : SnapshotRun) : List ChangeEvent :=
  (run.atFlush serde).flushChunk.1

/-- The events on a key that come while a window is open: the only ones that act on the chunk. -/
def reconciled (run : SnapshotRun) (k : Json) : List ChangeEvent :=
  (inside run.start.inWatermarkWindow run.stream).filter (·.key = k)

/-- A flushed row shows the last change of its key after the low watermark. -/
def NeverStale (serde : SerdeJson) (run : SnapshotRun) : Prop :=
  ∀ r ∈ run.flushed serde, ∀ last, (run.afterLow.filter (changes r.key)).getLast? = some last →
    last.operation ≠ .delete ∧ r.after = last.after

/-- The last change of a key after the low watermark comes while no window is open, so the chunk
keeps an older image of the row. -/
structure Missed (run : SnapshotRun) (k : Json) (pre : List ChangeEvent) (e : ChangeEvent)
    (post : List ChangeEvent) : Prop where
  split : run.afterLow = pre ++ e :: post
  change : changes k e = true
  last : ∀ x ∈ post, changes k x = false
  outside : windowAfter run.start.inWatermarkWindow (run.before ++ run.low :: pre) = false

/-- For every row that is still in the chunk: if the last change of its key is missed, it writes the
image that the chunk has, from the last `Create` or `Update` inside a window or from the query. -/
def NoneMissed (serde : SerdeJson) (run : SnapshotRun) : Prop :=
  ∀ k row, loadedRow serde run.chunk k = some row → deletes (run.reconciled row.key) = false →
    ∀ pre e post, run.Missed row.key pre e post →
      isUpsert e = true ∧ e.after = (lastImage row (run.reconciled row.key)).1

/-! ### Rows at the flush -/

/-- The key texts are injective, so that the events that touch the row of a key are those with the
key. -/
theorem filter_touches_inside (window : Bool) (evs : List ChangeEvent) (k : Json) :
    (inside window evs).filter (touches serde (serde.toText k)) =
      (inside window evs).filter (·.key = k) := by
  refine List.filter_congr fun e he => ?_
  have hrow : e.isWatermarkRow = false := (mem_of_mem_inside he).2
  rw [touches, hrow, Bool.eq_iff_iff, decide_eq_true_iff]
  simp [serde.toText_injective.eq_iff]

/-- A loaded row at the flush: gone if a window deleted it, else with the last image of the windows. -/
theorem lookup_atFlush (run : SnapshotRun) {k : String} {row : ChangeEvent}
    (hload : loadedRow serde run.chunk k = some row) :
    (run.atFlush serde).activeChunk.lookup k =
      if deletes (run.reconciled row.key) then none
      else some (overwrite row (lastUpsert (run.reconciled row.key))) := by
  obtain ⟨-, rfl⟩ := loadedRow_text hload
  rw [atFlush, lookup_final, lookup_loadChunk, hload, filter_touches_inside]
  exact foldl_reconcile_some row _

/-- A flushed row is a loaded one that no window has deleted, with the last image of the windows. -/
theorem mem_flushed_iff (run : SnapshotRun) {r : ChangeEvent} :
    r ∈ run.flushed serde ↔ ∃ k row, loadedRow serde run.chunk k = some row ∧
      deletes (run.reconciled row.key) = false ∧
      r = overwrite row (lastUpsert (run.reconciled row.key)) := by
  rw [flushed, WatermarkSnapshotter.mem_flushChunk]
  constructor
  · rintro ⟨k, hk⟩
    cases hload : loadedRow serde run.chunk k with
    | none =>
      rw [atFlush, lookup_final, lookup_loadChunk, hload, foldl_reconcile_none] at hk
      cases hk
    | some row =>
      rw [run.lookup_atFlush hload] at hk
      split_ifs at hk with hdel
      exact ⟨k, row, hload, by simpa using hdel, (Option.some.inj hk).symm⟩
  · rintro ⟨k, row, hload, hdel, rfl⟩
    refine ⟨k, ?_⟩
    rw [run.lookup_atFlush hload, hdel]
    rfl

/-- The payload of an overwritten row is that of the last image. -/
theorem overwrite_after (row : ChangeEvent) (log : List ChangeEvent) :
    (overwrite row (lastUpsert log)).after = (lastImage row log).1 := by
  rw [overwrite_lastUpsert]

/-- A change inside a window that none of its key follows is the last image of the windows: it
cannot be a `Delete`, as the row is kept. -/
theorem lastUpsert_reconciled (run : SnapshotRun) {k : Json} {pre post : List ChangeEvent}
    {e : ChangeEvent} (hsplit : run.afterLow = pre ++ e :: post) (hchange : changes k e = true)
    (hlast : ∀ x ∈ post, changes k x = false)
    (hopen : windowAfter run.start.inWatermarkWindow (run.before ++ run.low :: pre) = true)
    (hkept : deletes (run.reconciled k) = false) :
    isUpsert e = true ∧ lastUpsert (run.reconciled k) = some e := by
  simp only [changes, Bool.and_eq_true, Bool.not_eq_true', decide_eq_true_iff, Bool.or_eq_true,
    beq_iff_eq] at hchange
  obtain ⟨⟨hrow, hkey⟩, hop⟩ := hchange
  have hstream : run.stream = (run.before ++ run.low :: pre) ++ e :: post := by
    rw [stream, hsplit, List.append_assoc, List.cons_append]
  have hmarker := isMarker_of_not_row hrow
  -- the window is open at the change, so it is reconciled, and what follows starts with an open
  -- window
  have hreconciled : run.reconciled k =
      (inside run.start.inWatermarkWindow (run.before ++ run.low :: pre)).filter (·.key = k) ++
        e :: (inside true post).filter (·.key = k) := by
    rw [reconciled, hstream, inside_append, hopen, inside, if_pos (by simp [hrow]), hmarker,
      List.filter_append, List.filter_cons_of_pos (by simp [hkey])]
    rfl
  have hmem : e ∈ run.reconciled k := by
    rw [hreconciled]
    exact List.mem_append_right _ List.mem_cons_self
  have hupsert : isUpsert e = true := by
    rcases hop with hup | hdel
    · exact hup
    · exact absurd hdel (deletes_eq_false_iff.mp hkept e hmem)
  refine ⟨hupsert, ?_⟩
  -- the events of the key behind `e` are no changes
  have hrest : ((inside true post).filter (·.key = k)).filter isUpsert = [] := by
    refine List.filter_eq_nil_iff.mpr fun x hx hup => ?_
    obtain ⟨hin, hkeyx⟩ := List.mem_filter.mp hx
    obtain ⟨hmemx, hrowx⟩ := mem_of_mem_inside hin
    have hnone := hlast x hmemx
    rw [changes, hrowx, hkeyx, hup] at hnone
    cases hnone
  rw [lastUpsert, hreconciled, List.filter_append, List.filter_cons_of_pos hupsert, hrest,
    List.getLast?_concat]

/-- The last element with a property splits the list. -/
theorem exists_split_of_getLast?_filter {α : Type} {p : α → Bool} {l : List α} {x : α}
    (h : (l.filter p).getLast? = some x) :
    ∃ pre post, l = pre ++ x :: post ∧ p x = true ∧ ∀ y ∈ post, p y = false := by
  obtain ⟨front, hfront⟩ := List.getLast?_eq_some_iff.mp h
  obtain ⟨pre, post', rfl, -, hpost⟩ := List.filter_eq_append_iff.mp hfront
  obtain ⟨skip, post, rfl, -, hx, hlast⟩ := List.filter_eq_cons_iff.mp hpost
  refine ⟨pre ++ skip, post, by simp, hx, fun y hy => ?_⟩
  simpa using List.filter_eq_nil_iff.mp hlast y hy

/-- An element with a property that none behind it has is the last one with it. -/
theorem getLast?_filter_split {α : Type} {p : α → Bool} {pre post : List α} {x : α}
    (hx : p x = true) (hpost : ∀ y ∈ post, p y = false) :
    ((pre ++ x :: post).filter p).getLast? = some x := by
  have hnone : post.filter p = [] := List.filter_eq_nil_iff.mpr fun y hy => by simp [hpost y hy]
  rw [List.filter_append, List.filter_cons_of_pos hx, hnone, List.getLast?_concat]

/-- **Flushed rows are never older than what was forwarded exactly if no last change is missed**: a
change that comes after the window and is the last one of its key has to repeat the image that the
chunk has. -/
theorem neverStale_iff (serde : SerdeJson) (run : SnapshotRun) :
    run.NeverStale serde ↔ run.NoneMissed serde := by
  constructor
  · intro h k row hload hkept pre e post hmissed
    have hflushed : overwrite row (lastUpsert (run.reconciled row.key)) ∈ run.flushed serde :=
      run.mem_flushed_iff.mpr ⟨k, row, hload, hkept, rfl⟩
    have hlast : (run.afterLow.filter (changes row.key)).getLast? = some e := by
      rw [hmissed.split]
      exact getLast?_filter_split hmissed.change hmissed.last
    obtain ⟨hop, hafter⟩ := h _ hflushed e (by rwa [overwrite_key])
    have hchange := hmissed.change
    simp only [changes, Bool.and_eq_true, Bool.or_eq_true, beq_iff_eq] at hchange
    rw [overwrite_after] at hafter
    exact ⟨hchange.2.resolve_right hop, hafter.symm⟩
  · intro h r hr last hlast
    obtain ⟨k, row, hload, hkept, rfl⟩ := run.mem_flushed_iff.mp hr
    rw [overwrite_key] at hlast
    obtain ⟨pre, post, hsplit, hchange, hpost⟩ := exists_split_of_getLast?_filter hlast
    have hnotDelete : isUpsert last = true → last.operation ≠ .delete := by
      intro hup hdel
      simp [isUpsert, hdel] at hup
    rw [overwrite_after]
    -- a last change inside a window is what the chunk row was overwritten with; one outside is
    -- covered by the condition
    cases hwindow : windowAfter run.start.inWatermarkWindow (run.before ++ run.low :: pre) with
    | false =>
      obtain ⟨hup, hafter⟩ := h k row hload hkept pre last post ⟨hsplit, hchange, hpost, hwindow⟩
      exact ⟨hnotDelete hup, hafter.symm⟩
    | true =>
      obtain ⟨hup, himage⟩ := run.lastUpsert_reconciled hsplit hchange hpost hwindow hkept
      rw [lastImage, himage]
      exact ⟨hnotDelete hup, rfl⟩

/-- A `Create` on the metadata table is a marker. -/
theorem isMarker_create : (rowEvent watermarkTable .create 0 none none).isMarker = true := rfl

/-- Row 1 is read, the window closes, and row 1 is updated before the flush. -/
def lateUpdate : SnapshotRun where
  start := new
  chunk := [rowEvent "users" .snapshot 1 (some (userRow 1 "John")) none]
  before := []
  low := rowEvent watermarkTable .create 0 none none
  between := []
  high := rowEvent watermarkTable .create 0 none none
  later := [rowEvent "users" .update 1 (some (userRow 1 "Johnny")) none]
  low_marker := isMarker_create
  low_opens := rfl
  high_marker := isMarker_create
  high_closes := rfl

/-- The flush brings the old name back: the update has come after the high watermark, when the
window was closed and the chunk not yet flushed. -/
theorem not_neverStale_lateUpdate : ¬lateUpdate.NeverStale .compact := by
  intro h
  have hflushed : rowEvent "users" .snapshot 1 (some (userRow 1 "John")) none ∈
      lateUpdate.flushed .compact := by decide
  have hlast := h _ hflushed (rowEvent "users" .update 1 (some (userRow 1 "Johnny")) none) (by decide)
  revert hlast
  decide

end SnapshotRun

/-! ## The transaction of a watermark -/

/-- A transaction that writes a watermark row: its insert opens the window, its commit follows after
events of other tables. -/
structure WatermarkTransaction where
  start : WatermarkSnapshotter
  txId : String
  insert : ChangeEvent
  between : List ChangeEvent
  commit : ChangeEvent
  start_closed : start.inWatermarkWindow = false
  insert_row : insert.isWatermarkRow = true
  insert_create : insert.operation = .create
  insert_tx : insert.transactionId = some txId
  between_rows : ∀ e ∈ between, e.isWatermarkRow = false
  commit_row : commit.isWatermarkRow = true
  commit_commit : commit.operation = .commit
  commit_tx : commit.transactionId = some txId

namespace WatermarkTransaction

/-- The snapshotter after the transaction and the events between its insert and its commit. -/
def afterCommit (serde : SerdeJson) (tx : WatermarkTransaction) : WatermarkSnapshotter :=
  Mealy.final (processReplicationEvent serde) tx.start (tx.insert :: (tx.between ++ [tx.commit]))

/-- The commit leaves the window open, and the events behind it are reconciled: what a pair of
watermarks is for. -/
structure MovesOnce (serde : SerdeJson) (tx : WatermarkTransaction) : Prop where
  stillOpen : (tx.afterCommit serde).isInWindow = true
  reconciles : ∀ next : List ChangeEvent, (∀ e ∈ next, e.isWatermarkRow = false) → ∀ k,
    (Mealy.final (processReplicationEvent serde) (tx.afterCommit serde) next).activeChunk.lookup k =
      (next.filter (touches serde k)).foldl reconcile ((tx.afterCommit serde).activeChunk.lookup k)

/-- Events of other tables do not move the window. -/
theorem windowAfter_of_rows (window : Bool) {evs : List ChangeEvent}
    (h : ∀ e ∈ evs, e.isWatermarkRow = false) : windowAfter window evs = window := by
  induction evs generalizing window with
  | nil => rfl
  | cons e evs ih =>
    rw [List.forall_mem_cons] at h
    have hmarker := isMarker_of_not_row h.1
    rw [windowAfter, List.foldl_cons, hmarker, Bool.xor_false]
    exact ih window h.2

/-- Both rows of the transaction are markers, so the second one closes what the first one opens. -/
theorem isInWindow_afterCommit (serde : SerdeJson) (tx : WatermarkTransaction) :
    (tx.afterCommit serde).isInWindow = false := by
  have hinsert : tx.insert.isMarker = true := by
    simp [ChangeEvent.isMarker, tx.insert_row, tx.insert_create]
  have hcommit : tx.commit.isMarker = true := by
    simp [ChangeEvent.isMarker, tx.commit_row, tx.commit_commit]
  have hbetween := windowAfter_of_rows true tx.between_rows
  rw [isInWindow, afterCommit, inWindow_final, tx.start_closed, windowAfter, List.foldl_cons,
    hinsert, List.foldl_append]
  show (windowAfter true tx.between ^^ tx.commit.isMarker) = false
  rw [hbetween, hcommit]
  rfl

/-- **A watermark transaction always moves the window twice**: its commit closes the window, and the
events behind it leave the chunk as it is. -/
theorem not_movesOnce (serde : SerdeJson) (tx : WatermarkTransaction) :
    ¬tx.MovesOnce serde ∧
      ∀ next : List ChangeEvent, (∀ e ∈ next, e.isWatermarkRow = false) → ∀ k,
        (Mealy.final (processReplicationEvent serde) (tx.afterCommit serde) next).activeChunk.lookup k =
          (tx.afterCommit serde).activeChunk.lookup k := by
  have hclosed : (tx.afterCommit serde).inWatermarkWindow = false := tx.isInWindow_afterCommit serde
  constructor
  · intro h
    exact Bool.noConfusion (h.stillOpen.symm.trans hclosed)
  · intro next hnext k
    have hnone : inside false next = [] := by
      induction next with
      | nil => rfl
      | cons e next ih =>
        rw [List.forall_mem_cons] at hnext
        have hmarker := isMarker_of_not_row hnext.1
        rw [inside, if_neg (by simp), hmarker]
        exact ih hnext.2
    rw [lookup_final, hclosed, hnone]
    rfl

/-- A fresh snapshotter is outside any window. -/
theorem not_inWindow_new : new.inWatermarkWindow = false := rfl

/-- The low watermark of the snapshotter's own test, followed by its commit. -/
def lowWatermark : WatermarkTransaction where
  start := new
  txId := "tx-watermark"
  insert := rowEvent watermarkTable .create 0 none (some "tx-watermark")
  between := []
  commit := rowEvent watermarkTable .commit 0 none (some "tx-watermark")
  start_closed := not_inWindow_new
  insert_row := rfl
  insert_create := rfl
  insert_tx := rfl
  between_rows := by simp
  commit_row := rfl
  commit_commit := rfl
  commit_tx := rfl

/-- The snapshotter's own test stream: the low watermark's commit has closed the window again. -/
theorem not_movesOnce_lowWatermark : ¬lowWatermark.MovesOnce .compact := by
  intro h
  exact absurd h.stillOpen (by decide)

end WatermarkTransaction

end Caminus.WatermarkSnapshotter

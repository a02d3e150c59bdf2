import Caminus.Common.HashMap
import Caminus.Common.Mealy
import Caminus.Common.Serde
import Caminus.Source.Event

/-!
# Watermark snapshots

`WatermarkSnapshotter` (`src/snapshot/watermark.rs`) holds the rows of a snapshot chunk while the
replication log runs past it. Between the low and the high watermark it rewrites the chunk with the
changes of the log; what remains is flushed downstream.
-/

namespace Caminus

/-- The metadata table whose rows are watermarks. -/
def watermarkTable : String := "caminus_watermarks"

/-- The event is of the metadata table, whose rows mark the windows and are not handed on. -/
def ChangeEvent.isWatermarkRow (e : ChangeEvent) : Bool :=
  e.sourceTableOrCollection == watermarkTable

/-- A row of the metadata table that opens or closes a window. -/
def ChangeEvent.isMarker (e : ChangeEvent) : Bool :=
  e.isWatermarkRow && (e.operation == .create || e.operation == .commit)

/-- The chunk that is being reconciled, keyed by the texts of its keys, and whether a window is
open. `activeTx` only feeds a log line; it is not compared with anything. -/
structure WatermarkSnapshotter where
  activeChunk : HashMap String ChangeEvent
  inWatermarkWindow : Bool
  activeTx : Option String

namespace WatermarkSnapshotter

variable (serde : SerdeJson)

/-- A snapshotter without a chunk, its window closed. -/
def new : WatermarkSnapshotter := ⟨∅, false, none⟩

/-- Replaces the chunk by the rows of a query result; of rows with one key the last stays. -/
def loadChunk (ws : WatermarkSnapshotter) (chunkEvents : List ChangeEvent) :
    WatermarkSnapshotter :=
  { ws with
    activeChunk := chunkEvents.foldl (fun chunk event => chunk.insert (serde.toText event.key) event) ∅ }

/-- Consumes a replication event; watermark rows are filtered out. -/
def processReplicationEvent (ws : WatermarkSnapshotter) (event : ChangeEvent) :
    Option ChangeEvent × WatermarkSnapshotter :=
  if event.isWatermarkRow then
    if event.operation = .create ∨ event.operation = .commit then
      if !ws.inWatermarkWindow then
        -- low watermark
        (none, { ws with inWatermarkWindow := true, activeTx := event.transactionId })
      else
        -- high watermark
        (none, { ws with inWatermarkWindow := false, activeTx := none })
    else (none, ws)
  else if ws.inWatermarkWindow then
    let keyStr := serde.toText event.key
    match ws.activeChunk.lookup keyStr with
    | none => (some event, ws)
    | some chunkEvent =>
        match event.operation with
        | .delete => (some event, { ws with activeChunk := ws.activeChunk.erase keyStr })
        | .update | .create =>
            (some event,
              { ws with
                activeChunk := ws.activeChunk.insert keyStr
                  { chunkEvent with after := event.after, timestamp := event.timestamp } })
        | _ => (some event, ws)
  else (some event, ws)

/-- The remaining rows, in iteration order; the chunk is emptied. -/
def flushChunk (ws : WatermarkSnapshotter) : List ChangeEvent × WatermarkSnapshotter :=
  (ws.activeChunk.values, { ws with activeChunk := ∅ })

/-- The accessor of the window flag. -/
def isInWindow (ws : WatermarkSnapshotter) : Bool := ws.inWatermarkWindow

/-! ## One row of the chunk -/

/-- What a log event inside the window does to the chunk row of its key. -/
def reconcile (row : Option ChangeEvent) (event : ChangeEvent) : Option ChangeEvent :=
  match row with
  | none => none
  | some chunkEvent =>
      match event.operation with
      | .delete => none
      | .update | .create =>
          some { chunkEvent with after := event.after, timestamp := event.timestamp }
      | _ => some chunkEvent

variable {serde}

/-- Everything but the watermark rows is handed on unchanged, inside and outside the window. -/
theorem processReplicationEvent_fst (ws : WatermarkSnapshotter) (e : ChangeEvent) :
    (ws.processReplicationEvent serde e).1 = if e.isWatermarkRow then none else some e := by
  unfold processReplicationEvent
  split_ifs <;> try rfl
  simp only
  split
  · rfl
  · split <;> rfl

/-- Exactly the markers move the window, and each of them flips it whatever it is meant to mark. -/
theorem processReplicationEvent_inWindow (ws : WatermarkSnapshotter) (e : ChangeEvent) :
    (ws.processReplicationEvent serde e).2.inWatermarkWindow =
      (ws.inWatermarkWindow ^^ e.isMarker) := by
  have hmarker : e.isMarker = (e.isWatermarkRow &&
      decide (e.operation = .create ∨ e.operation = .commit)) := by
    simp [ChangeEvent.isMarker, Bool.decide_or]
    rfl
  unfold processReplicationEvent
  rw [hmarker]
  split_ifs with hrow hop hwin hwin
  · simp_all
  · simp_all
  · simp [hop]
  · simp only
    split
    · simp [hrow]
    · split <;> simp [hrow]
  · simp [hrow]

/-- Inside the window a log event acts on the row of its key alone, by `reconcile`; watermark rows
and events outside the window leave the chunk as it is. -/
theorem lookup_processReplicationEvent (ws : WatermarkSnapshotter) (e : ChangeEvent) (k : String) :
    (ws.processReplicationEvent serde e).2.activeChunk.lookup k =
      if ws.inWatermarkWindow = true ∧ e.isWatermarkRow = false ∧ serde.toText e.key = k then
        reconcile (ws.activeChunk.lookup k) e
      else ws.activeChunk.lookup k := by
  by_cases hrow : e.isWatermarkRow = true
  · have hchunk : (ws.processReplicationEvent serde e).2.activeChunk = ws.activeChunk := by
      unfold processReplicationEvent
      rw [if_pos hrow]
      split_ifs <;> rfl
    simp [hchunk, hrow]
  · by_cases hwin : ws.inWatermarkWindow = true
    · unfold processReplicationEvent
      rw [if_neg hrow, if_pos hwin]
      -- the row under the event's own key text, and the rows under all others
      by_cases hk : serde.toText e.key = k
      · subst hk
        have hrow : e.isWatermarkRow = false := by simpa using hrow
        simp only [hwin, hrow, and_self, if_true]
        cases hl : ws.activeChunk.lookup (serde.toText e.key) with
        | none => simp [reconcile, hl]
        | some c => cases hop : e.operation <;> simp [reconcile, hop, hl]
      · simp only [hk, and_false, if_false]
        cases hl : ws.activeChunk.lookup (serde.toText e.key) with
        | none => rfl
        | some c =>
          cases hop : e.operation <;>
            simp [AList.lookup_insert_ne (Ne.symm hk), AList.lookup_erase_ne (Ne.symm hk)]
    · have hwin : ws.inWatermarkWindow = false := by simpa using hwin
      unfold processReplicationEvent
      simp [hrow, hwin]

end WatermarkSnapshotter

end Caminus

import Caminus.Common.JsonText
import Caminus.Common.Split
import Caminus.Pipeline.Ingest

/-!
# Watermarks in the PostgreSQL loop

The loop validates every event against the schema of the users before the snapshotter sees it. A row
of the watermark table is held to the same schema, and one that fails it is dead-lettered: the
snapshotter misses a watermark. All watermarks reach it exactly if all of them pass the schema of the
users (`markersReach_iff`).
-/

namespace Caminus.Pipeline

/-- The iterations over the results of a stream while the node leads. -/
def led (results : List (Except String ChangeEvent)) : List Item := results.map fun r => ⟨true, r⟩

/-- The PostgreSQL loop after a stream, with the node as the leader throughout. -/
def pgLoop (env : Env) (store : StateStore) (results : List (Except String ChangeEvent)) :
    Loop PgTask :=
  Mealy.final (ingest (pgEvent env)) (pgStart store) (led results)

/-- The loop goes on, and the event is no duplicate, so that this iteration handles it. -/
def TakesNew (loop : Loop PgTask) (event : ChangeEvent) : Prop :=
  loop.running = true ∧ (loop.task.dedupFilter.checkAndTrack event.id).1 = false

/-- The iteration of an event hands it to the snapshotter and does nothing else: nothing is
dead-lettered and nothing forwarded. -/
def PassedToEngine (env : Env) (loop : Loop PgTask) (event : ChangeEvent) : Prop :=
  ingest (pgEvent env) loop ⟨true, .ok event⟩ =
    ([], { loop with
      task := { loop.task with
        dedupFilter := (loop.task.dedupFilter.checkAndTrack event.id).2
        watermarkEngine :=
          (loop.task.watermarkEngine.processReplicationEvent env.serde event).2 } })

/-- Every watermark row reaches the snapshotter, and the window is open after an odd number of
markers. -/
structure MarkersReach (env : Env) (store : StateStore) (results : List (Except String ChangeEvent)) :
    Prop where
  passed : ∀ before event rest, results = before ++ .ok event :: rest →
    TakesNew (pgLoop env store before) event → event.isWatermarkRow = true →
    PassedToEngine env (pgLoop env store before) event
  parity : ∀ before, before <+: results →
    (pgLoop env store before).task.watermarkEngine.isInWindow =
      decide ((admitted (led before)).countP ChangeEvent.isMarker % 2 = 1)

variable {env : Env} {store : StateStore}

/-- The validation that the loop makes of an event, before it looks at the table of the event. -/
def isValid (env : Env) (store : StateStore) (e : ChangeEvent) : Bool :=
  (SchemaRegistry.validateEvent env.serde store "postgres_users" e).isOk

/-! ## One iteration -/

/-- The flag and the answer of the registry say the same. -/
theorem isValid_iff {e : ChangeEvent} : isValid env store e = true ↔
    SchemaRegistry.validateEvent env.serde store "postgres_users" e = .ok () := by
  rw [isValid]
  cases SchemaRegistry.validateEvent env.serde store "postgres_users" e with
  | error err => simp [Except.isOk, Except.toBool]
  | ok u => simp [Except.isOk, Except.toBool]

/-- No call of the loop changes what is valid, as calls write offsets and no schemas. -/
theorem isValid_runEffects (effs : List Effect) (e : ChangeEvent) :
    isValid env (runEffects store effs) e = isValid env store e := by
  rw [isValid, SchemaRegistry.validateEvent, getSchema_runEffects, ← SchemaRegistry.validateEvent,
    ← isValid]

/-- What the loop does with a new watermark row: the snapshotter sees it if it is valid, and the
dead letter queue otherwise. -/
theorem pgEvent_of_watermarkRow (env : Env) (store : StateStore) {task : PgTask} {e : ChangeEvent}
    (hnew : (task.dedupFilter.checkAndTrack e.id).1 = false) (hrow : e.isWatermarkRow = true) :
    (isValid env store e = true → pgEvent env store task e =
      ([], { task with
        dedupFilter := (task.dedupFilter.checkAndTrack e.id).2
        watermarkEngine := (task.watermarkEngine.processReplicationEvent env.serde e).2 })) ∧
    (isValid env store e = false → (pgEvent env store task e).1 ≠ []) := by
  have hpair : task.dedupFilter.checkAndTrack e.id =
      (false, (task.dedupFilter.checkAndTrack e.id).2) := Prod.ext hnew rfl
  have hengine : task.watermarkEngine.processReplicationEvent env.serde e =
      (none, (task.watermarkEngine.processReplicationEvent env.serde e).2) := by
    refine Prod.ext ?_ rfl
    rw [WatermarkSnapshotter.processReplicationEvent_fst, if_pos hrow]
  rw [isValid, pgEvent, hpair]
  cases hvalid : SchemaRegistry.validateEvent env.serde store "postgres_users" e with
  | error err => exact ⟨fun h => Bool.noConfusion h, fun _ => List.cons_ne_nil _ _⟩
  | ok u =>
    refine ⟨fun _ => ?_, fun h => Bool.noConfusion h⟩
    simp only
    rw [hengine]

/-- The window moves with every new marker that is valid; the filter tracks every event. -/
theorem pgEvent_task (env : Env) (store : StateStore) (task : PgTask) (e : ChangeEvent) :
    (pgEvent env store task e).2.dedupFilter = (task.dedupFilter.checkAndTrack e.id).2 ∧
    (pgEvent env store task e).2.watermarkEngine.inWatermarkWindow =
      (task.watermarkEngine.inWatermarkWindow ^^
        (!(task.dedupFilter.checkAndTrack e.id).1 && (isValid env store e && e.isMarker))) := by
  cases hdup : (task.dedupFilter.checkAndTrack e.id).1 with
  | true =>
    have hpair : task.dedupFilter.checkAndTrack e.id =
        (true, (task.dedupFilter.checkAndTrack e.id).2) := Prod.ext hdup rfl
    rw [pgEvent, hpair]
    simp
  | false =>
    have hpair : task.dedupFilter.checkAndTrack e.id =
        (false, (task.dedupFilter.checkAndTrack e.id).2) := Prod.ext hdup rfl
    have hwindow := @WatermarkSnapshotter.processReplicationEvent_inWindow env.serde
      task.watermarkEngine e
    rw [pgEvent, hpair, isValid]
    -- an event that fails validation does not get to the snapshotter
    cases hvalid : SchemaRegistry.validateEvent env.serde store "postgres_users" e with
    | error err => simp [Except.isOk, Except.toBool]
    | ok u =>
      cases hengine : task.watermarkEngine.processReplicationEvent env.serde e with
      | mk processed engine =>
        rw [hengine] at hwindow
        cases processed <;> simpa [Except.isOk, Except.toBool] using hwindow

/-! ## Whole streams -/

/-- One more marker flips the parity, as it opens or closes the window. -/
theorem odd_succ (n : ℕ) : decide ((n + 1) % 2 = 1) = !decide (n % 2 = 1) := by
  by_cases h : n % 2 = 1
  · have hsucc : ¬(n + 1) % 2 = 1 := by omega
    rw [decide_eq_false hsucc, decide_eq_true h]
    rfl
  · have hsucc : (n + 1) % 2 = 1 := by omega
    rw [decide_eq_true hsucc, decide_eq_false h]
    rfl

/-- An error of the source ends the loop; what comes after it is never read. -/
theorem final_cons_error (env : Env) (task : PgTask) (store : StateStore) (err : String)
    (items : List Item) :
    Mealy.final (ingest (pgEvent env)) ⟨task, store, true⟩ (⟨true, .error err⟩ :: items) =
      ⟨task, store, false⟩ :=
  (outputs_final_of_stopped _ items _ rfl).2

/-- An event moves the loop on by the body of the loop. -/
theorem final_cons_ok (env : Env) (task : PgTask) (store : StateStore) (e : ChangeEvent)
    (items : List Item) :
    Mealy.final (ingest (pgEvent env)) ⟨task, store, true⟩ (⟨true, .ok e⟩ :: items) =
      Mealy.final (ingest (pgEvent env)) ⟨(pgEvent env store task e).2,
        runEffects store (pgEvent env store task e).1, true⟩ items :=
  rfl

/-- The window after a list of iterations: it has moved once for every valid marker among the events
that are no duplicates. -/
theorem window_final (env : Env) (items : List Item) (task : PgTask) (store : StateStore) :
    (Mealy.final (ingest (pgEvent env)) ⟨task, store, true⟩ items).task.watermarkEngine.inWatermarkWindow =
      (task.watermarkEngine.inWatermarkWindow ^^
        decide ((task.dedupFilter.fresh (consumed items)).countP
          (fun e => isValid env store e && e.isMarker) % 2 = 1)) := by
  induction items generalizing task store with
  | nil => simp [consumed]
  | cons item items ih =>
    obtain ⟨isLeader, result⟩ := item
    cases isLeader with
    | false => exact ih task store
    | true =>
      cases result with
      | error err =>
        -- no event is consumed from here on
        rw [final_cons_error]
        simp [consumed]
      | ok e =>
        obtain ⟨hfilter, hwindow⟩ := pgEvent_task env store task e
        have hnext := ih (pgEvent env store task e).2 (runEffects store (pgEvent env store task e).1)
        -- no effect of the loop registers a schema
        simp only [isValid_runEffects, hfilter, hwindow] at hnext
        rw [final_cons_ok, hnext]
        show _ = (_ ^^ decide ((task.dedupFilter.fresh (e :: consumed items)).countP _ % 2 = 1))
        cases hdup : (task.dedupFilter.checkAndTrack e.id).1 with
        | true =>
          rw [DeduplicationFilter.fresh_cons_of_duplicate _ hdup]
          simp
        | false =>
          rw [DeduplicationFilter.fresh_cons_of_new _ hdup, List.countP_cons]
          cases hmarker : (isValid env store e && e.isMarker) with
          | true =>
            rw [if_pos rfl, odd_succ]
            simp
          | false => simp

/-- The events that a loop handles are those it takes as new in the state that the results before
them leave behind. This turns a condition on the input into one on positions. -/
theorem forall_fresh_iff (env : Env) {P : ChangeEvent → Prop} (results : List (Except String ChangeEvent))
    (task : PgTask) (store : StateStore) :
    (∀ e ∈ task.dedupFilter.fresh (consumed (led results)), P e) ↔
      ∀ before r rest, results = before ++ r :: rest → ∀ e, r = .ok e →
        TakesNew (Mealy.final (ingest (pgEvent env)) ⟨task, store, true⟩ (led before)) e → P e := by
  induction results generalizing task store with
  | nil =>
    refine iff_of_true (fun e he => by cases he) fun before r rest hsplit => ?_
    exact absurd hsplit.symm (by simp)
  | cons result results ih =>
    rw [forall_cons_occurrence]
    cases result with
    | error err =>
      refine iff_of_true (fun e he => by cases he) ⟨(fun e he => by cases he), ?_⟩
      rintro before r rest - e - ⟨hrunning, -⟩
      rw [led, List.map_cons, final_cons_error] at hrunning
      cases hrunning
    | ok e =>
      have hfilter := (pgEvent_task env store task e).1
      have hlater := ih (pgEvent env store task e).2 (runEffects store (pgEvent env store task e).1)
      rw [hfilter] at hlater
      show (∀ e' ∈ task.dedupFilter.fresh (e :: consumed (led results)), P e') ↔ _
      -- the first event counts only if it is new; the others are seen by the filter that it leaves
      cases hdup : (task.dedupFilter.checkAndTrack e.id).1 with
      | true =>
        rw [DeduplicationFilter.fresh_cons_of_duplicate _ hdup]
        refine ⟨fun h => ⟨?_, hlater.mp h⟩, fun h => hlater.mpr h.2⟩
        rintro _ ⟨⟩ ⟨-, hnew⟩
        rw [show (task.dedupFilter.checkAndTrack e.id).1 = false from hnew] at hdup
        cases hdup
      | false =>
        rw [DeduplicationFilter.fresh_cons_of_new _ hdup, List.forall_mem_cons]
        refine and_congr ⟨?_, fun h => h e rfl ⟨rfl, hdup⟩⟩ hlater
        rintro he _ ⟨⟩ -
        exact he

/-- A watermark row that the loop takes as new is handed to the snapshotter exactly if it is valid. -/
theorem passedToEngine_iff {loop : Loop PgTask} {e : ChangeEvent} (hnew : TakesNew loop e)
    (hrow : e.isWatermarkRow = true) :
    PassedToEngine env loop e ↔ isValid env loop.store e = true := by
  obtain ⟨task, store, running⟩ := loop
  obtain ⟨hrunning, hfresh⟩ := hnew
  obtain rfl : running = true := hrunning
  obtain ⟨hvalid, hinvalid⟩ := pgEvent_of_watermarkRow env store hfresh hrow
  have hingest : ingest (pgEvent env) ⟨task, store, true⟩ ⟨true, .ok e⟩ =
      ((pgEvent env store task e).1,
        ⟨(pgEvent env store task e).2, runEffects store (pgEvent env store task e).1, true⟩) := rfl
  rw [PassedToEngine, hingest]
  constructor
  · intro h
    by_contra hnot
    exact hinvalid (by simpa using hnot) (congrArg Prod.fst h)
  · intro h
    rw [hvalid h]
    rfl

/-- The loop validates against the schema that the store had at its start. -/
theorem isValid_pgLoop (results : List (Except String ChangeEvent)) (e : ChangeEvent) :
    isValid env (pgLoop env store results).store e = isValid env store e := by
  refine @Mealy.final_invariant _ _ _ (ingest (pgEvent env))
    (fun _ loop => isValid env loop.store e = isValid env store e) (pgStart store) rfl ?_ (led results)
  rintro - ⟨task, store', running⟩ ⟨isLeader, result⟩ hsame
  cases running with
  | false => exact hsame
  | true =>
    cases isLeader with
    | false => exact hsame
    | true =>
      cases result with
      | error err => exact hsame
      | ok event => exact (isValid_runEffects _ _).trans hsame

/-- **Every watermark reaches the snapshotter exactly if every watermark row that is no duplicate
passes the schema registered for the users.** Validation comes before the look at the table. -/
theorem markersReach_iff (env : Env) (store : StateStore)
    (results : List (Except String ChangeEvent)) :
    MarkersReach env store results ↔
      ∀ e ∈ admitted (led results), e.isWatermarkRow = true →
        SchemaRegistry.validateEvent env.serde store "postgres_users" e = .ok () := by
  have hpositions := fun rs => @forall_fresh_iff env (fun e => e.isWatermarkRow = true →
    SchemaRegistry.validateEvent env.serde store "postgres_users" e = .ok ()) rs .new store
  constructor
  · intro h
    refine (hpositions results).mpr ?_
    rintro before _ rest hsplit e rfl (hnew : TakesNew (pgLoop env store before) e) hrow
    have hpassed := h.passed before e rest hsplit hnew hrow
    rw [passedToEngine_iff hnew hrow, isValid_pgLoop] at hpassed
    exact isValid_iff.mp hpassed
  · intro h
    refine ⟨?_, ?_⟩
    · intro before e rest hsplit hnew hrow
      rw [passedToEngine_iff hnew hrow, isValid_pgLoop]
      exact isValid_iff.mpr ((hpositions results).mp h before _ rest hsplit e rfl hnew hrow)
    · intro before hbefore
      have hvalid := (hpositions before).mpr
        (forall_occurrence_mono hbefore ((hpositions results).mp h))
      have hwindow := window_final env (led before) .new store
      -- if all of them are valid, the valid markers are the markers
      have hcount : (admitted (led before)).countP (fun e => isValid env store e && e.isMarker) =
          (admitted (led before)).countP ChangeEvent.isMarker := by
        refine List.countP_congr fun e he => ?_
        rw [Bool.and_eq_true]
        refine ⟨And.right, fun hmarker => ⟨isValid_iff.mpr (hvalid e he ?_), hmarker⟩⟩
        exact (Bool.and_eq_true _ _ ▸ hmarker).1
      rw [← hcount]
      exact hwindow.trans (Bool.false_xor _)

/-- A low watermark: an insert without a row image. -/
def lowWatermark : ChangeEvent where
  id := "wm-low"
  sourceDatabase := "db"
  sourceTableOrCollection := "caminus_watermarks"
  operation := .create
  timestamp := 0
  key := .obj [("wm_id", .string "low-123")]
  before := none
  after := none
  transactionId := some "tx-watermark"
  offset := "1"

/-- On a fresh engine the low watermark goes to the dead letter queue: it is an insert without a
payload, and the schema of the users asks for one. -/
theorem not_markersReach_lowWatermark :
    ¬MarkersReach (.passthrough .compact) (startup .compact .new) [.ok lowWatermark] := by
  intro h
  have hnew : TakesNew (pgLoop (.passthrough .compact) (startup .compact .new) []) lowWatermark :=
    ⟨rfl, rfl⟩
  have hpassed := h.passed [] lowWatermark [] rfl hnew rfl
  rw [passedToEngine_iff hnew rfl, isValid_pgLoop, isValid_iff] at hpassed
  rw [show (Env.passthrough .compact).serde = SerdeJson.compact from rfl, validateEvent_startup] at hpassed
  cases hpassed

end Caminus.Pipeline

import Caminus.Common.Interleave
import Caminus.Source.Event
import Caminus.Storage.StateStore

/-!
# The parallel snapshotter

`ParallelSnapshotter` (`src/snapshot/parallel.rs`) cuts a table into chunks of keys, which a pool of
workers takes from a shared list. A worker takes a turn at each of its atomic steps: it claims a
chunk under the lock, runs `process_fn` on it, and marks it completed under the lock.
-/

namespace Caminus

/-- Where a chunk stands. The source moves it from `Pending` over `InProgress` to `Completed`, and
no code path moves it back. -/
inductive ChunkStatus
  | pending
  | inProgress
  | completed
deriving DecidableEq, Repr

/-- A range of keys, both ends included, with its id and its status. Ids are given out from zero in
the order of the ranges. -/
structure ChunkRange where
  chunkId : UInt32
  minKey : UInt64
  maxKey : UInt64
  status : ChunkStatus
deriving DecidableEq, Repr

/-- The assignment `chunk.status = status`, which leaves the range and the id as they are. -/
def ChunkRange.setStatus (c : ChunkRange) (status : ChunkStatus) : ChunkRange :=
  { c with status := status }

@[simp] theorem ChunkRange.setStatus_chunkId (c : ChunkRange) (status : ChunkStatus) :
    (c.setStatus status).chunkId = c.chunkId := rfl

@[simp] theorem ChunkRange.setStatus_status (c : ChunkRange) (status : ChunkStatus) :
    (c.setStatus status).status = status := rfl

@[simp] theorem ChunkRange.setStatus_setStatus (c : ChunkRange) (status status' : ChunkStatus) :
    (c.setStatus status).setStatus status' = c.setStatus status' := rfl

/-- Writing the status that a chunk already has changes nothing. -/
theorem ChunkRange.setStatus_eq_self {c : ChunkRange} {status : ChunkStatus}
    (h : c.status = status) : c.setStatus status = c := by
  subst h
  rfl

/-- The table that is cut up, with its chunks. The list is shared by the workers behind one lock. -/
structure ParallelSnapshotter where
  tableName : String
  chunks : List ChunkRange

namespace ParallelSnapshotter

/-! ## Chunking -/

/-- The variables of the loop of `new`: the chunks so far, the first key that is not covered and the
next id. -/
structure Chunking where
  chunks : List ChunkRange
  minKey : UInt64
  chunkId : UInt32

/-- One pass of the loop. The arithmetic wraps around, as it does in a release build. -/
def chunkPass (totalRows chunkSize : UInt64) (s : Chunking) : Chunking :=
  let maxKey := min (s.minKey + chunkSize - 1) totalRows
  { chunks := s.chunks ++ [⟨s.chunkId, s.minKey, maxKey, .pending⟩]
    chunkId := s.chunkId + 1
    minKey := maxKey + 1 }

/-- The loop, for fewer than `fuel` passes; `none` stands for a loop that has not ended by then,
which it may never do if the keys wrap around. -/
def chunkLoop (totalRows chunkSize : UInt64) : ℕ → Chunking → Option (List ChunkRange)
  | 0, _ => none
  | fuel + 1, s =>
      if s.minKey ≤ totalRows then chunkLoop totalRows chunkSize fuel (chunkPass totalRows chunkSize s)
      else some s.chunks

/-- The constructor, with `none` for a loop that is not over after `fuel` passes. -/
def new (tableName : String) (totalRows chunkSize : UInt64) (fuel : ℕ) :
    Option ParallelSnapshotter :=
  (chunkLoop totalRows chunkSize fuel ⟨[], 1, 0⟩).map fun chunks => ⟨tableName, chunks⟩

/-- Every chunk that the loop appends is pending, so the loop keeps that all of them are. -/
theorem pending_of_chunkLoop {totalRows chunkSize : UInt64} {fuel : ℕ} {s : Chunking}
    {chunks : List ChunkRange} (hs : ∀ c ∈ s.chunks, c.status = .pending)
    (h : chunkLoop totalRows chunkSize fuel s = some chunks) : ∀ c ∈ chunks, c.status = .pending := by
  induction fuel generalizing s with
  | zero => cases h
  | succ fuel ih =>
    rw [chunkLoop] at h
    split_ifs at h with hmore
    · refine ih (fun c hc => ?_) h
      rcases List.mem_append.mp hc with hc | hc
      · exact hs c hc
      · rw [List.mem_singleton.mp hc]
    · rw [← Option.some.inj h]
      exact hs

/-- A fresh snapshotter has only pending chunks. -/
theorem pending_of_new {tableName : String} {totalRows chunkSize : UInt64} {fuel : ℕ}
    {p : ParallelSnapshotter} (h : new tableName totalRows chunkSize fuel = some p) :
    ∀ c ∈ p.chunks, c.status = .pending := by
  obtain ⟨chunks, hloop, rfl⟩ := Option.map_eq_some_iff.mp h
  exact pending_of_chunkLoop (fun c hc => by cases hc) hloop

/-! ## The two critical sections -/

/-- The first pending chunk is marked and cloned, under one lock, so no two workers get the same
one. -/
def claim : List ChunkRange → Option (ChunkRange × List ChunkRange)
  | [] => none
  | chunk :: chunks =>
      if chunk.status = .pending then
        some (chunk.setStatus .inProgress, chunk.setStatus .inProgress :: chunks)
      else (claim chunks).map fun found => (found.1, chunk :: found.2)

/-- The first chunk with the id is marked, as `iter_mut().find` finds it. -/
def complete (chunkId : UInt32) : List ChunkRange → List ChunkRange
  | [] => []
  | c :: chunks =>
      if c.chunkId = chunkId then c.setStatus .completed :: chunks
      else c :: complete chunkId chunks

/-- Claiming finds nothing exactly when no chunk is pending; otherwise it marks one pending chunk in
place and returns a copy of it. -/
theorem claim_cases (chunks : List ChunkRange) :
    (claim chunks = none ∧ ∀ c ∈ chunks, c.status ≠ .pending) ∨
    ∃ (i : ℕ) (c : ChunkRange), chunks[i]? = some c ∧ c.status = .pending ∧
      claim chunks = some (c.setStatus .inProgress, chunks.set i (c.setStatus .inProgress)) := by
  induction chunks with
  | nil => exact Or.inl ⟨rfl, fun c hc => by cases hc⟩
  | cons chunk chunks ih =>
    rw [claim]
    by_cases hpending : chunk.status = .pending
    · rw [if_pos hpending]
      exact Or.inr ⟨0, chunk, rfl, hpending, rfl⟩
    · rw [if_neg hpending]
      rcases ih with ⟨hnone, hall⟩ | ⟨i, c, hi, hc, hsome⟩
      · rw [hnone]
        exact Or.inl ⟨rfl, List.forall_mem_cons.mpr ⟨hpending, hall⟩⟩
      · rw [hsome]
        exact Or.inr ⟨i + 1, c, hi, hc, rfl⟩

/-- Completing leaves the list alone when no chunk has the id; otherwise it marks the first one that
has it, in place. -/
theorem complete_cases (chunkId : UInt32) (chunks : List ChunkRange) :
    complete chunkId chunks = chunks ∧ (∀ c ∈ chunks, c.chunkId ≠ chunkId) ∨
    ∃ (i : ℕ) (c : ChunkRange), chunks[i]? = some c ∧ c.chunkId = chunkId ∧
      (∀ j < i, ∀ d, chunks[j]? = some d → d.chunkId ≠ chunkId) ∧
      complete chunkId chunks = chunks.set i (c.setStatus .completed) := by
  induction chunks with
  | nil => exact Or.inl ⟨rfl, fun c hc => by cases hc⟩
  | cons chunk chunks ih =>
    rw [complete]
    by_cases hid : chunk.chunkId = chunkId
    · rw [if_pos hid]
      exact Or.inr ⟨0, chunk, rfl, hid, fun j hj => absurd hj (Nat.not_lt_zero j), rfl⟩
    · rw [if_neg hid]
      rcases ih with ⟨hnone, hall⟩ | ⟨i, c, hi, hc, hfirst, hset⟩
      · rw [hnone]
        exact Or.inl ⟨rfl, List.forall_mem_cons.mpr ⟨hid, hall⟩⟩
      · rw [hset]
        -- the head has another id, so the index found in the tail is still that of the first match
        refine Or.inr ⟨i + 1, c, hi, hc, fun j hj d hd => ?_, rfl⟩
        cases j with
        | zero =>
          rw [← Option.some.inj hd]
          exact hid
        | succ j => exact hfirst j (Nat.lt_of_succ_lt_succ hj) d hd

/-! ## The workers -/

/-- Where a worker's task stands. A task whose `process_fn` panics is over, and the chunk it had
claimed goes with it. -/
inductive Worker
  | idle
  | claimed (c : ChunkRange)
  | processed (c : ChunkRange)
  | exited
  | panicked (c : ChunkRange)

/-- The chunk a worker holds or ended with; a worker that panicked keeps its own. -/
def Worker.chunk? : Worker → Option ChunkRange
  | claimed c => some c
  | processed c => some c
  | panicked c => some c
  | idle => none
  | exited => none

/-- The task has ended, either because no chunk was pending or because of a panic. -/
def Worker.Over : Worker → Prop
  | exited => True
  | panicked _ => True
  | _ => False

/-- The two ways in which a task can have ended. -/
theorem Worker.Over.cases {worker : Worker} (h : worker.Over) :
    worker = .exited ∨ ∃ c, worker = .panicked c := by
  cases worker with
  | exited => exact Or.inl rfl
  | panicked c => exact Or.inr ⟨c, rfl⟩
  | idle => exact h.elim
  | claimed c => exact h.elim
  | processed c => exact h.elim

/-- A call of `process_chunks` with `n` workers. The two logs record the chunks in the order in which
they were handed out and passed to `process_fn`. -/
structure Backfill (n : ℕ) where
  chunks : List ChunkRange
  workers : Fin n → Worker
  handed : List ChunkRange
  calls : List ChunkRange

/-- `process_fn`, with `none` for a panic. It is called without the lock on the chunks. -/
abbrev ProcessFn := ChunkRange → Option (List ChangeEvent)

/-- The task after `process_fn` on a chunk. The events are dropped. -/
def afterCall (processFn : ProcessFn) (c : ChunkRange) : Worker :=
  match processFn c with
  | some _events => .processed c
  | none => .panicked c

namespace Backfill

variable {n : ℕ}

/-- All workers are spawned on the chunks as they stand. -/
def start (chunks : List ChunkRange) (n : ℕ) : Backfill n :=
  ⟨chunks, fun _ => .idle, [], []⟩

/-- Only worker `w` moves on; the list and the two logs stay. -/
def setWorker (s : Backfill n) (w : Fin n) (worker : Worker) : Backfill n :=
  { s with workers := Function.update s.workers w worker }

/-- The next atomic step of worker `w`: it claims a chunk under the lock, calls `process_fn` on it,
and marks it under the lock again; it ends when no chunk is pending. -/
def step (processFn : ProcessFn) (w : Fin n) (s : Backfill n) : Backfill n :=
  match s.workers w with
  | .idle =>
      match claim s.chunks with
      | some (c, chunks) =>
          { s with chunks := chunks, handed := s.handed ++ [c] }.setWorker w (.claimed c)
      | none => s.setWorker w .exited
  | .claimed c => { s with calls := s.calls ++ [c] }.setWorker w (afterCall processFn c)
  | .processed c => { s with chunks := complete c.chunkId s.chunks }.setWorker w .idle
  | .exited => s
  | .panicked _ => s

/-- The workers take their turns in the order of the schedule. -/
abbrev run (processFn : ProcessFn) (s : Backfill n) (sched : List (Fin n)) : Backfill n :=
  Interleave.run (step processFn) s sched

/-- All tasks are over, so the handles are joined and the call returns. -/
def Finished (s : Backfill n) : Prop :=
  ∀ w, (s.workers w).Over

variable {processFn : ProcessFn} {s s' : Backfill n} {w : Fin n}

@[simp] theorem setWorker_chunks (s : Backfill n) (w : Fin n) (worker : Worker) :
    (s.setWorker w worker).chunks = s.chunks := rfl

@[simp] theorem setWorker_handed (s : Backfill n) (w : Fin n) (worker : Worker) :
    (s.setWorker w worker).handed = s.handed := rfl

@[simp] theorem setWorker_calls (s : Backfill n) (w : Fin n) (worker : Worker) :
    (s.setWorker w worker).calls = s.calls := rfl

@[simp] theorem setWorker_workers_self (s : Backfill n) (w : Fin n) (worker : Worker) :
    (s.setWorker w worker).workers w = worker := Function.update_self _ _ _

/-- The other workers stay where they are. -/
theorem setWorker_workers_of_ne (s : Backfill n) {w v : Fin n} (worker : Worker) (h : v ≠ w) :
    (s.setWorker w worker).workers v = s.workers v := Function.update_of_ne h _ _

/-- What holds of every worker, and of where worker `w` goes, holds of every worker afterwards. -/
theorem forall_setWorker {P : Worker → Prop} {worker : Worker} (hw : P worker)
    (h : ∀ v, P (s.workers v)) (v : Fin n) : P ((s.setWorker w worker).workers v) := by
  by_cases hv : v = w
  · rwa [hv, setWorker_workers_self]
  · rw [setWorker_workers_of_ne _ _ hv]
    exact h v

/-- What a turn of worker `w` can do, with everything that it changes. Results about runs go through
these cases instead of the definition of `step`. -/
inductive Turn (processFn : ProcessFn) (w : Fin n) (s : Backfill n) : Backfill n → Prop
  | claims (i : ℕ) (c : ChunkRange) : s.workers w = .idle → s.chunks[i]? = some c →
      c.status = .pending → Turn processFn w s
        ({ s with
            chunks := s.chunks.set i (c.setStatus .inProgress)
            handed := s.handed ++ [c.setStatus .inProgress] }.setWorker w
          (.claimed (c.setStatus .inProgress)))
  | exits : s.workers w = .idle → (∀ c ∈ s.chunks, c.status ≠ .pending) →
      Turn processFn w s (s.setWorker w .exited)
  | calls (c : ChunkRange) : s.workers w = .claimed c → Turn processFn w s
      ({ s with calls := s.calls ++ [c] }.setWorker w (afterCall processFn c))
  | completes (c : ChunkRange) : s.workers w = .processed c → Turn processFn w s
      ({ s with chunks := complete c.chunkId s.chunks }.setWorker w .idle)
  | rests : (s.workers w).Over → Turn processFn w s s

/-- A turn does nothing but what `Turn` lists, so that later proofs never unfold `step`. -/
theorem turn_step (processFn : ProcessFn) (w : Fin n) (s : Backfill n) :
    Turn processFn w s (step processFn w s) := by
  rw [step]
  cases hw : s.workers w with
  | idle =>
    rcases claim_cases s.chunks with ⟨hnone, hall⟩ | ⟨i, c, hi, hc, hsome⟩
    · rw [hnone]
      exact .exits hw hall
    · rw [hsome]
      exact .claims i c hw hi hc
  | claimed c => exact .calls c hw
  | processed c => exact .completes c hw
  | exited => exact .rests (by rw [hw]; trivial)
  | panicked c => exact .rests (by rw [hw]; trivial)

/-! ## Every call ends -/

/-- The number of chunks that nobody has claimed, which decreases with every claim. -/
def pendingCount (chunks : List ChunkRange) : ℕ :=
  chunks.countP fun c => c.status = .pending

/-- Claiming a pending chunk leaves one pending chunk fewer. -/
theorem pendingCount_set_succ {chunks : List ChunkRange} {i : ℕ} {c d : ChunkRange}
    (hi : chunks[i]? = some c) (hc : c.status = .pending) (hd : d.status ≠ .pending) :
    pendingCount (chunks.set i d) + 1 = pendingCount chunks := by
  obtain ⟨hlt, hget⟩ := List.getElem?_eq_some_iff.mp hi
  have hpos : 0 < pendingCount chunks :=
    List.countP_pos_iff.mpr ⟨c, List.mem_of_getElem? hi, decide_eq_true hc⟩
  rw [pendingCount, List.countP_set hlt, hget, if_pos (decide_eq_true hc), if_neg (by simpa using hd)]
  exact Nat.sub_add_cancel hpos

/-- Completing a chunk makes no chunk pending. -/
theorem pendingCount_complete_le (chunkId : UInt32) (chunks : List ChunkRange) :
    pendingCount (complete chunkId chunks) ≤ pendingCount chunks := by
  rcases complete_cases chunkId chunks with ⟨hsame, -⟩ | ⟨i, c, hi, -, -, hset⟩
  · rw [hsame]
  · obtain ⟨hlt, -⟩ := List.getElem?_eq_some_iff.mp hi
    have hdone : decide ((c.setStatus .completed).status = .pending) = false := rfl
    rw [hset, pendingCount, List.countP_set hlt, hdone]
    exact Nat.sub_le _ _

/-- A bound on the turns that a worker still takes: three for each pending chunk, one to see that
none is left, and what remains of the chunk it holds. -/
def turnsLeft (pending : ℕ) : Worker → ℕ
  | .idle => 3 * pending + 1
  | .claimed _ => 3 * pending + 3
  | .processed _ => 3 * pending + 2
  | .exited => 0
  | .panicked _ => 0

/-- Fewer pending chunks leave fewer turns, for the bound on how long the workers run. -/
theorem turnsLeft_mono {pending pending' : ℕ} (h : pending' ≤ pending) (worker : Worker) :
    turnsLeft pending' worker ≤ turnsLeft pending worker := by
  cases worker <;> simp only [turnsLeft] <;> omega

/-- No turns are left exactly when the task is over, so the measure decides termination. -/
theorem turnsLeft_eq_zero_iff {pending : ℕ} {worker : Worker} :
    turnsLeft pending worker = 0 ↔ worker.Over := by
  cases worker <;> simp [turnsLeft, Worker.Over]

/-- No turn makes a chunk pending, so the work that is left only shrinks. -/
theorem Turn.pendingCount_le (h : Turn processFn w s s') :
    pendingCount s'.chunks ≤ pendingCount s.chunks := by
  cases h with
  | claims i c _ hi hc => exact Nat.le_of_succ_le (pendingCount_set_succ hi hc (by simp)).le
  | exits _ _ => exact le_rfl
  | calls c _ => exact le_rfl
  | completes c _ => exact pendingCount_complete_le _ _
  | rests _ => exact le_rfl

/-- A turn of one worker leaves the others where they are. -/
theorem Turn.workers_of_ne (h : Turn processFn w s s') {v : Fin n} (hv : v ≠ w) :
    s'.workers v = s.workers v := by
  cases h with
  | claims i c _ _ _ => exact setWorker_workers_of_ne _ _ hv
  | exits _ _ => exact setWorker_workers_of_ne _ _ hv
  | calls c _ => exact setWorker_workers_of_ne _ _ hv
  | completes c _ => exact setWorker_workers_of_ne _ _ hv
  | rests _ => rfl

/-- A worker's own turn takes one off its bound, as long as it is not over. -/
theorem Turn.turnsLeft_le (h : Turn processFn w s s') :
    turnsLeft (pendingCount s'.chunks) (s'.workers w) ≤
      turnsLeft (pendingCount s.chunks) (s.workers w) - 1 := by
  cases h with
  | claims i c hw hi hc =>
    -- the chunk it claims is no longer pending, which pays for the turns that the claim adds
    have hless := @pendingCount_set_succ _ _ _ (c.setStatus .inProgress) hi hc (by simp)
    rw [setWorker_workers_self, hw, setWorker_chunks]
    simp only [turnsLeft]
    omega
  | exits hw _ =>
    rw [setWorker_workers_self]
    exact Nat.zero_le _
  | calls c hw =>
    rw [setWorker_workers_self, hw, setWorker_chunks, afterCall]
    cases processFn c <;> simp only [turnsLeft] <;> omega
  | completes c hw =>
    have hless := pendingCount_complete_le c.chunkId s.chunks
    rw [setWorker_workers_self, hw, setWorker_chunks]
    simp only [turnsLeft]
    omega
  | rests hover =>
    rw [turnsLeft_eq_zero_iff.mpr hover]

/-- Three turns for each chunk and one more are enough for every worker. -/
theorem finished_of_turns {chunks : List ChunkRange} {sched : List (Fin n)}
    (hturns : ∀ w, 3 * chunks.length + 1 ≤ sched.count w) :
    (run processFn (start chunks n) sched).Finished := by
  intro w
  apply turnsLeft_eq_zero_iff.mp
  refine @Interleave.run_measure_eq_zero _ _ (step processFn) _
    (fun s => turnsLeft (pendingCount s.chunks) (s.workers w)) w
    (fun s => (turn_step processFn w s).turnsLeft_le) (fun v s => ?_) _ _ ?_
  · have hturn := turn_step processFn v s
    by_cases hv : w = v
    · subst hv
      exact hturn.turnsLeft_le.trans (Nat.sub_le _ _)
    · rw [hturn.workers_of_ne hv]
      exact turnsLeft_mono hturn.pendingCount_le _
  · have hpending : pendingCount chunks ≤ chunks.length := List.countP_le_length
    have hw := hturns w
    change 3 * pendingCount chunks + 1 ≤ sched.count w
    omega

end Backfill

/-- The key of the progress in the state store. -/
def progressKey (p : ParallelSnapshotter) : String := p.tableName ++ "_snapshot_progress"

/-- The progress that is stored once the workers are joined. -/
def progress (chunks : List ChunkRange) : String :=
  toString (chunks.countP fun c => c.status = .completed) ++ "/" ++ toString chunks.length

/-- The progress is stored as an offset under the table's key. -/
def saveProgress (p : ParallelSnapshotter) (chunks : List ChunkRange) (store : StateStore) :
    StateStore :=
  store.saveOffset p.progressKey (progress chunks)

end ParallelSnapshotter

end Caminus

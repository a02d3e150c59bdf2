import Caminus.Common.Split
import Caminus.Snapshot.Parallel

/-!
# The chunks that workers hold

The chunk a worker holds is in progress in the shared list, and nobody else holds it. This ties the
list to the workers in every state of every schedule (`Consistent`), a panicked task included.
-/

namespace Caminus

namespace ParallelSnapshotter

/-- A chunk that repeats an earlier id is completed. A chunk is looked up by its id, so this is what
makes the first match the right one. -/
def RepeatsCompleted (chunks : List ChunkRange) : Prop :=
  chunks.Pairwise fun c d => c.chunkId = d.chunkId → d.status = .completed

/-- Two pending chunks with the same id are at the same position. -/
theorem RepeatsCompleted.index_inj {chunks : List ChunkRange} (h : RepeatsCompleted chunks)
    {i j : ℕ} {c d : ChunkRange} (hi : chunks[i]? = some c) (hj : chunks[j]? = some d)
    (hid : c.chunkId = d.chunkId) (hc : c.status = .pending) (hd : d.status = .pending) :
    i = j := by
  obtain ⟨hilt, rfl⟩ := List.getElem?_eq_some_iff.mp hi
  obtain ⟨hjlt, rfl⟩ := List.getElem?_eq_some_iff.mp hj
  have hall := List.pairwise_iff_getElem.mp h
  rcases Nat.lt_trichotomy i j with hlt | heq | hgt
  · have hdone := hall i j hilt hjlt hlt hid
    rw [hd] at hdone
    cases hdone
  · exact heq
  · have hdone := hall j i hjlt hilt hgt hid.symm
    rw [hc] at hdone
    cases hdone

/-- Distinct ids leave nothing to repeat, so the chunks of `new` are covered as long as their ids do
not wrap around. -/
theorem repeatsCompleted_of_nodup {chunks : List ChunkRange}
    (h : (chunks.map ChunkRange.chunkId).Nodup) : RepeatsCompleted chunks :=
  (List.pairwise_map.mp h).imp fun hne heq => absurd heq hne

namespace Backfill

variable {n : ℕ} {processFn : ProcessFn} {init : List ChunkRange} {s s' : Backfill n} {w : Fin n}

/-- What a call can have made of a chunk: nothing, or of a pending one a claimed or a completed one. -/
inductive Moved (processFn : ProcessFn) (c : ChunkRange) : ChunkRange → Prop
  | same : Moved processFn c c
  | claimed : c.status = .pending → Moved processFn c (c.setStatus .inProgress)
  | completed : c.status = .pending → (processFn (c.setStatus .inProgress)).isSome →
      Moved processFn c (c.setStatus .completed)

/-- A chunk keeps its id: workers change its status only. -/
theorem Moved.chunkId_eq {c d : ChunkRange} (h : Moved processFn c d) : d.chunkId = c.chunkId := by
  cases h <;> rfl

/-- A chunk that is pending has not been moved, since nothing makes a chunk pending again. -/
theorem Moved.eq_of_pending {c d : ChunkRange} (h : Moved processFn c d) (hd : d.status = .pending) :
    d = c := by
  cases h with
  | same => rfl
  | claimed _ => cases hd
  | completed _ _ => cases hd

/-- What a task knows: whether `process_fn` returned on its chunk, or that no chunk is pending. -/
def TaskOk (processFn : ProcessFn) (chunks : List ChunkRange) : Worker → Prop
  | .processed d => (processFn d).isSome
  | .panicked d => processFn d = none
  | .exited => ∀ d ∈ chunks, d.status ≠ .pending
  | .idle => True
  | .claimed _ => True

/-- What a task knows stays true while no chunk becomes pending. -/
theorem taskOk_set {chunks : List ChunkRange} {worker : Worker} {i : ℕ} {d : ChunkRange}
    (h : TaskOk processFn chunks worker) (hd : d.status ≠ .pending) :
    TaskOk processFn (chunks.set i d) worker := by
  cases worker with
  | exited =>
    intro e he
    rcases List.mem_or_eq_of_mem_set he with he | rfl
    · exact h e he
    · exact hd
  | processed e => exact h
  | panicked e => exact h
  | idle => trivial
  | claimed e => trivial

/-- After `process_fn` a task knows whether it returned. -/
theorem taskOk_afterCall (processFn : ProcessFn) (chunks : List ChunkRange) (d : ChunkRange) :
    TaskOk processFn chunks (afterCall processFn d) := by
  rw [afterCall]
  cases hfn : processFn d with
  | none => exact hfn
  | some events => exact Option.isSome_iff_exists.mpr ⟨events, hfn⟩

/-- The list and the workers fit together, `init` being the list before the call: every chunk is as
before or moved on, a held chunk is in progress at one position and held by one worker, and every
chunk that the call put in progress is held. -/
structure Consistent (processFn : ProcessFn) (init : List ChunkRange) (s : Backfill n) : Prop where
  length_eq : s.chunks.length = init.length
  moved : ∀ (i : ℕ) c d, init[i]? = some c → s.chunks[i]? = some d → Moved processFn c d
  held : ∀ w d, (s.workers w).chunk? = some d → ∃ (i : ℕ) (c : ChunkRange), init[i]? = some c ∧
    c.status = .pending ∧ d = c.setStatus .inProgress ∧ s.chunks[i]? = some d
  exclusive : ∀ w v d, (s.workers w).chunk? = some d → (s.workers v).chunk? = some d → w = v
  covered : ∀ (i : ℕ) c d, init[i]? = some c → c.status = .pending → s.chunks[i]? = some d →
    d.status = .inProgress → ∃ w, (s.workers w).chunk? = some d
  tasks : ∀ w, TaskOk processFn s.chunks (s.workers w)

/-- Before the first turn no worker holds a chunk. -/
theorem consistent_start (processFn : ProcessFn) (init : List ChunkRange) (n : ℕ) :
    Consistent processFn init (start init n) where
  length_eq := rfl
  moved i c d hc hd := by
    rw [Option.some.inj (hc.symm.trans hd)]
    exact .same
  held w d h := by cases h
  exclusive w v d h := by cases h
  covered i c d hc hpending hd hprogress := by
    rw [Option.some.inj (hc.symm.trans hd)] at hpending
    rw [hpending] at hprogress
    cases hprogress
  tasks _ := trivial

/-- The chunk at a position comes from the one that was there before the call. -/
theorem Consistent.exists_init (h : Consistent processFn init s) {i : ℕ} {d : ChunkRange}
    (hd : s.chunks[i]? = some d) : ∃ c, init[i]? = some c ∧ Moved processFn c d := by
  have hlt : i < init.length := by
    rw [← h.length_eq]
    exact (List.getElem?_eq_some_iff.mp hd).1
  have hc := List.getElem?_eq_getElem hlt
  exact ⟨init[i], hc, h.moved i _ d hc hd⟩

/-- The chunk at a position is still there, moved by what the workers did to it. -/
theorem Consistent.exists_moved (h : Consistent processFn init s) {i : ℕ} {c : ChunkRange}
    (hc : init[i]? = some c) : ∃ d, s.chunks[i]? = some d ∧ Moved processFn c d := by
  have hlt : i < s.chunks.length := by
    rw [h.length_eq]
    exact (List.getElem?_eq_some_iff.mp hc).1
  have hd := List.getElem?_eq_getElem hlt
  exact ⟨s.chunks[i], hd, h.moved i c _ hc hd⟩

/-- A pending chunk was pending before the call. -/
theorem Consistent.init_of_pending (h : Consistent processFn init s) {i : ℕ} {d : ChunkRange}
    (hd : s.chunks[i]? = some d) (hpending : d.status = .pending) : init[i]? = some d := by
  obtain ⟨c, hc, hmoved⟩ := h.exists_init hd
  rw [hc, hmoved.eq_of_pending hpending]

/-- Marking a chunk as completed finds the chunk that the worker holds. -/
theorem Consistent.complete_eq (h : Consistent processFn init s) (hinit : RepeatsCompleted init)
    {d : ChunkRange} (hd : (s.workers w).chunk? = some d) :
    ∃ (i : ℕ) (c : ChunkRange), init[i]? = some c ∧ c.status = .pending ∧
      d = c.setStatus .inProgress ∧ s.chunks[i]? = some d ∧
      complete d.chunkId s.chunks = s.chunks.set i (c.setStatus .completed) := by
  obtain ⟨i, c, hc, hpending, rfl, hi⟩ := h.held w d hd
  refine ⟨i, c, hc, hpending, rfl, hi, ?_⟩
  rcases complete_cases (c.setStatus .inProgress).chunkId s.chunks with
    ⟨-, hnone⟩ | ⟨j, e, hj, hid, hfirst, hset⟩
  · exact absurd rfl (hnone _ (List.mem_of_getElem? hi))
  · -- No earlier chunk has the id, so the first one is not after `i`; a pending chunk at `i` does
    -- not repeat it.
    have hji : j = i := by
      rcases Nat.lt_trichotomy j i with hlt | heq | hgt
      · obtain ⟨b, hb, hmoved⟩ := h.exists_init hj
        obtain ⟨hjlt, rfl⟩ := List.getElem?_eq_some_iff.mp hb
        obtain ⟨hilt, rfl⟩ := List.getElem?_eq_some_iff.mp hc
        have hdone := List.pairwise_iff_getElem.mp hinit j i hjlt hilt hlt
          (hmoved.chunkId_eq.symm.trans hid)
        rw [hpending] at hdone
        cases hdone
      · exact heq
      · exact absurd rfl (hfirst i hgt _ hi)
    subst hji
    rw [hset, Option.some.inj (hj.symm.trans hi), ChunkRange.setStatus_setStatus]

@[simp] theorem chunk?_afterCall (processFn : ProcessFn) (c : ChunkRange) :
    (afterCall processFn c).chunk? = some c := by
  rw [afterCall]
  cases processFn c <;> rfl

/-- Who holds a chunk after a worker has moved: that worker, or another one as before. -/
theorem chunk?_setWorker {v : Fin n} {worker : Worker} {d : ChunkRange}
    (h : ((s.setWorker w worker).workers v).chunk? = some d) :
    v = w ∧ worker.chunk? = some d ∨ v ≠ w ∧ (s.workers v).chunk? = some d := by
  by_cases hv : v = w
  · rw [hv, setWorker_workers_self] at h
    exact Or.inl ⟨hv, h⟩
  · rw [setWorker_workers_of_ne _ _ hv] at h
    exact Or.inr ⟨hv, h⟩

/-- A turn that leaves the list and every held chunk alone. -/
theorem Consistent.setWorker (h : Consistent processFn init s) (calls : List ChunkRange)
    {worker : Worker} (hsame : worker.chunk? = (s.workers w).chunk?)
    (htask : TaskOk processFn s.chunks worker) :
    Consistent processFn init ({ s with calls := calls }.setWorker w worker) := by
  have hchunk (v : Fin n) : (({ s with calls := calls }.setWorker w worker).workers v).chunk? =
      (s.workers v).chunk? := by
    by_cases hv : v = w
    · rw [hv, setWorker_workers_self, hsame]
    · rw [setWorker_workers_of_ne _ _ hv]
  refine ⟨h.length_eq, h.moved, fun v d hd => ?_, fun v u d hd he => ?_,
    fun i c d hc hpending hi hprogress => ?_, forall_setWorker htask h.tasks⟩
  · rw [hchunk] at hd
    exact h.held v d hd
  · rw [hchunk] at hd he
    exact h.exclusive v u d hd he
  · obtain ⟨v, hv⟩ := h.covered i c d hc hpending hi hprogress
    exact ⟨v, (hchunk v).trans hv⟩

/-- A claim puts a pending chunk in progress that nobody holds, and its worker holds it. -/
theorem Consistent.claims (h : Consistent processFn init s) (hinit : RepeatsCompleted init)
    {i : ℕ} {d : ChunkRange} (hw : s.workers w = .idle) (hi : s.chunks[i]? = some d)
    (hpending : d.status = .pending) (handed : List ChunkRange) :
    Consistent processFn init ({ s with
      chunks := s.chunks.set i (d.setStatus .inProgress)
      handed := handed }.setWorker w (.claimed (d.setStatus .inProgress))) := by
  have hlt := (List.getElem?_eq_some_iff.mp hi).1
  have hd := h.init_of_pending hi hpending
  have hother {j : ℕ} {c : ChunkRange} (hj : s.chunks[j]? = some (c.setStatus .inProgress)) :
      i ≠ j := by
    rintro rfl
    rw [Option.some.inj (hi.symm.trans hj)] at hpending
    cases hpending
  -- Nobody holds the chunk yet: its position is pending in the list.
  have hfree : ∀ v, (s.workers v).chunk? ≠ some (d.setStatus .inProgress) := by
    intro v hv
    obtain ⟨j, c, hc, hcpending, heq, hj⟩ := h.held v _ hv
    have hid : d.chunkId = c.chunkId := by simpa using congrArg ChunkRange.chunkId heq
    exact hother hj (hinit.index_inj hd hc hid hpending hcpending)
  -- the parts in the order of the fields: what moved, what is held, by one worker only, and that
  -- every chunk in progress is covered
  refine ⟨by rw [setWorker_chunks, List.length_set, h.length_eq], fun j c e hc he => ?_,
    fun v e he => ?_, fun v u e hv hu => ?_, fun j c e hc hcpending he hprogress => ?_,
    forall_setWorker trivial fun v => taskOk_set (h.tasks v) (by simp)⟩
  · rcases getElem?_set_eq_some he with ⟨rfl, rfl⟩ | ⟨-, he⟩
    · rw [Option.some.inj (hc.symm.trans hd)]
      exact .claimed hpending
    · exact h.moved j c e hc he
  · rcases chunk?_setWorker he with ⟨-, he⟩ | ⟨-, he⟩
    · rw [← Option.some.inj he]
      exact ⟨i, d, hd, hpending, rfl, List.getElem?_set_self hlt⟩
    · obtain ⟨j, c, hc, hcpending, rfl, hj⟩ := h.held v e he
      refine ⟨j, c, hc, hcpending, rfl, ?_⟩
      rw [setWorker_chunks, List.getElem?_set_ne (hother hj), hj]
  · rcases chunk?_setWorker hv with ⟨hvw, hv⟩ | ⟨-, hv⟩
    · rcases chunk?_setWorker hu with ⟨huw, -⟩ | ⟨-, hu⟩
      · rw [hvw, huw]
      · exact absurd (hu.trans hv.symm) (hfree u)
    · rcases chunk?_setWorker hu with ⟨-, hu⟩ | ⟨-, hu⟩
      · exact absurd (hv.trans hu.symm) (hfree v)
      · exact h.exclusive v u e hv hu
  · rcases getElem?_set_eq_some he with ⟨rfl, rfl⟩ | ⟨-, he⟩
    · exact ⟨w, by rw [setWorker_workers_self]; rfl⟩
    · obtain ⟨v, hv⟩ := h.covered j c e hc hcpending he hprogress
      refine ⟨v, ?_⟩
      rw [setWorker_workers_of_ne, hv]
      rintro rfl
      rw [hw] at hv
      cases hv

/-- Completing ends the hold on a chunk on which `process_fn` has returned. -/
theorem Consistent.completes (h : Consistent processFn init s) (hinit : RepeatsCompleted init)
    {d : ChunkRange} (hw : s.workers w = .processed d) : Consistent processFn init
      ({ s with chunks := complete d.chunkId s.chunks }.setWorker w .idle) := by
  have hwd : (s.workers w).chunk? = some d := by rw [hw]; rfl
  have hreturned : (processFn d).isSome := by
    have htask := h.tasks w
    rwa [hw] at htask
  -- the chunk that is marked is the one that the worker holds
  obtain ⟨i, c, hc, hpending, hdc, hi, hset⟩ := h.complete_eq hinit hwd
  rw [hset]
  refine ⟨by rw [setWorker_chunks, List.length_set, h.length_eq], fun j b e hb he => ?_,
    fun v e he => ?_, fun v u e hv hu => ?_, fun j b e hb hbpending he hprogress => ?_,
    forall_setWorker trivial fun v => taskOk_set (h.tasks v) (by simp)⟩
  · rcases getElem?_set_eq_some he with ⟨rfl, rfl⟩ | ⟨-, he⟩
    · rw [Option.some.inj (hb.symm.trans hc)]
      exact .completed hpending (hdc ▸ hreturned)
    · exact h.moved j b e hb he
  · rcases chunk?_setWorker he with ⟨-, he⟩ | ⟨hv, he⟩
    · cases he
    · obtain ⟨j, b, hb, hbpending, rfl, hj⟩ := h.held v e he
      refine ⟨j, b, hb, hbpending, rfl, ?_⟩
      rw [setWorker_chunks, List.getElem?_set_ne ?_, hj]
      rintro rfl
      rw [← Option.some.inj (hi.symm.trans hj)] at he
      exact hv (h.exclusive v w d he hwd)
  · rcases chunk?_setWorker hv with ⟨-, hv⟩ | ⟨-, hv⟩
    · cases hv
    · rcases chunk?_setWorker hu with ⟨-, hu⟩ | ⟨-, hu⟩
      · cases hu
      · exact h.exclusive v u e hv hu
  · rcases getElem?_set_eq_some he with ⟨rfl, rfl⟩ | ⟨hji, hj⟩
    · cases hprogress
    · obtain ⟨v, hv⟩ := h.covered j b e hb hbpending hj hprogress
      refine ⟨v, ?_⟩
      rw [setWorker_workers_of_ne, hv]
      rintro rfl
      -- The same chunk at two positions would repeat an id that is not completed.
      have hed : e = d := Option.some.inj (hv.symm.trans hwd)
      have hid : b.chunkId = c.chunkId := by
        rw [← (h.moved j b e hb hj).chunkId_eq, hed, hdc, ChunkRange.setStatus_chunkId]
      exact hji (hinit.index_inj hb hc hid hbpending hpending)

/-- Every turn keeps the list and the workers consistent, by the cases of `Turn`. -/
theorem Consistent.turn (h : Consistent processFn init s) (hinit : RepeatsCompleted init)
    (hturn : Turn processFn w s s') : Consistent processFn init s' := by
  cases hturn with
  | claims i d hw hi hd => exact h.claims hinit hw hi hd _
  | exits hw hnone =>
    refine h.setWorker s.calls ?_ hnone
    rw [hw]
    rfl
  | calls d hw =>
    refine h.setWorker (s.calls ++ [d]) ?_ (taskOk_afterCall processFn s.chunks d)
    rw [hw, chunk?_afterCall]
    rfl
  | completes d hw => exact h.completes hinit hw
  | rests _ => exact h

/-- The list and the workers are consistent after every schedule. -/
theorem consistent_run (hinit : RepeatsCompleted init) (processFn : ProcessFn)
    (sched : List (Fin n)) : Consistent processFn init (run processFn (start init n) sched) :=
  Interleave.run_invariant (fun w s h => h.turn hinit (turn_step processFn w s))
    (consistent_start processFn init n) sched

/-! ## What one turn does to a status -/

/-- The ways in which a step moves the status of a chunk: forward by one, or not at all. -/
inductive StatusMove : ChunkStatus → ChunkStatus → Prop
  | stays (status : ChunkStatus) : StatusMove status status
  | claims : StatusMove .pending .inProgress
  | completes : StatusMove .inProgress .completed

/-- A turn moves the status of each chunk along `StatusMove`, and nothing else of it. -/
theorem Consistent.statusMove (h : Consistent processFn init s) (hinit : RepeatsCompleted init)
    (hturn : Turn processFn w s s') {i : ℕ} {c : ChunkRange} (hc : s.chunks[i]? = some c) :
    ∃ status, StatusMove c.status status ∧ s'.chunks[i]? = some (c.setStatus status) := by
  have hlt := (List.getElem?_eq_some_iff.mp hc).1
  -- all turns but the claim and the completion of this very chunk
  have hstays : s'.chunks[i]? = s.chunks[i]? → ∃ status, StatusMove c.status status ∧
      s'.chunks[i]? = some (c.setStatus status) := by
    intro heq
    rw [heq, hc]
    exact ⟨c.status, .stays _, by rw [ChunkRange.setStatus_eq_self rfl]⟩
  cases hturn with
  | claims j d hw hj hd =>
    by_cases hji : j = i
    · subst hji
      rw [Option.some.inj (hj.symm.trans hc)] at hd ⊢
      refine ⟨.inProgress, ?_, List.getElem?_set_self hlt⟩
      rw [hd]
      exact .claims
    · exact hstays (List.getElem?_set_ne hji)
  | exits _ _ => exact hstays rfl
  | calls d _ => exact hstays rfl
  | completes d hw =>
    have hwd : (s.workers w).chunk? = some d := by rw [hw]; rfl
    obtain ⟨j, b, hb, hpending, hdb, hj, hset⟩ := h.complete_eq hinit hwd
    rw [setWorker_chunks, hset] at hstays ⊢
    by_cases hji : j = i
    · subst hji
      obtain rfl := Option.some.inj (hj.symm.trans hc)
      refine ⟨.completed, ?_, ?_⟩
      · rw [hdb]
        exact .completes
      · rw [List.getElem?_set_self hlt, hdb, ChunkRange.setStatus_setStatus]
    · exact hstays (List.getElem?_set_ne hji)
  | rests _ => exact hstays rfl

/-! ## The end of a call -/

/-- Without a panic, a task that is over has exited. -/
theorem Consistent.exited_of_over (h : Consistent processFn init s)
    (hfn : ∀ c ∈ init, c.status = .pending → (processFn (c.setStatus .inProgress)).isSome)
    (hw : (s.workers w).Over) : s.workers w = .exited := by
  rcases hw.cases with hexited | ⟨d, hpanicked⟩
  · exact hexited
  · obtain ⟨i, c, hc, hpending, rfl, -⟩ := h.held w d (by rw [hpanicked]; rfl)
    have hsome := hfn c (List.mem_of_getElem? hc) hpending
    have hnone := h.tasks w
    rw [hpanicked] at hnone
    rw [show processFn (c.setStatus .inProgress) = none from hnone] at hsome
    cases hsome

/-- After a task has exited no chunk is pending: it has looked through all of them. -/
theorem Consistent.not_pending (h : Consistent processFn init s) (hw : s.workers w = .exited) :
    ∀ d ∈ s.chunks, d.status ≠ .pending := by
  have htask := h.tasks w
  rwa [hw] at htask

/-- When all workers have exited, every chunk is completed. -/
theorem Consistent.chunks_eq (h : Consistent processFn init s)
    (hinit : ∀ c ∈ init, c.status ≠ .inProgress) (hn : 0 < n)
    (hexited : ∀ w, s.workers w = .exited) : s.chunks = init.map (·.setStatus .completed) := by
  apply List.ext_getElem?
  intro i
  rw [List.getElem?_map]
  cases hd : s.chunks[i]? with
  | none =>
    have hle := List.getElem?_eq_none_iff.mp hd
    rw [h.length_eq] at hle
    rw [List.getElem?_eq_none hle]
    rfl
  | some d =>
    obtain ⟨c, hc, hmoved⟩ := h.exists_init hd
    rw [hc, Option.map_some]
    have hpending := h.not_pending (hexited ⟨0, hn⟩) d (List.mem_of_getElem? hd)
    cases hmoved with
    | same =>
      have hdone : d.status = .completed := by
        cases hstatus : d.status with
        | pending => exact absurd hstatus hpending
        | inProgress => exact absurd hstatus (hinit d (List.mem_of_getElem? hc))
        | completed => rfl
      rw [ChunkRange.setStatus_eq_self hdone]
    -- a chunk that is still in progress is held by a worker, but all of them have exited
    | claimed hcpending =>
      obtain ⟨w, hw⟩ := h.covered i c _ hc hcpending hd rfl
      rw [hexited w] at hw
      cases hw
    | completed _ _ => rfl

end Backfill

end ParallelSnapshotter

end Caminus

import Caminus.Snapshot.Workers

/-!
# A second call after a panic

A task that panics leaves its chunk in progress, and no later call claims such a chunk. So a second
call recovers what a first one left exactly if the first one loses no chunk (`recovers_iff`).
-/

namespace Caminus

namespace ParallelSnapshotter

/-- What any call with `m` workers whose `process_fn` returns makes of a list of chunks: it ends, all
chunks are completed, and the unfinished ones were processed. -/
structure Recovered (chunks : List ChunkRange) (m : ℕ) : Prop where
  ends : ∀ (processFn : ProcessFn) (sched : List (Fin m)), (∀ c, (processFn c).isSome) →
    (∀ w, 3 * chunks.length + 1 ≤ sched.count w) →
    (Backfill.run processFn (.start chunks m) sched).Finished
  completed : ∀ (processFn : ProcessFn) (sched : List (Fin m)), (∀ c, (processFn c).isSome) →
    (Backfill.run processFn (.start chunks m) sched).Finished →
    ∀ c ∈ (Backfill.run processFn (.start chunks m) sched).chunks, c.status = .completed
  processed : ∀ (processFn : ProcessFn) (sched : List (Fin m)), (∀ c, (processFn c).isSome) →
    (Backfill.run processFn (.start chunks m) sched).Finished →
    ∀ c ∈ chunks, c.status ≠ .completed →
      c.setStatus .inProgress ∈ (Backfill.run processFn (.start chunks m) sched).calls

/-- A second call recovers what a first one left behind, however the workers of both were scheduled. -/
def Recovers (p : ParallelSnapshotter) (processFn : ProcessFn) (n m : ℕ) : Prop :=
  ∀ sched : List (Fin n), (Backfill.run processFn (.start p.chunks n) sched).Finished →
    Recovered (Backfill.run processFn (.start p.chunks n) sched).chunks m

/-- No chunk can be lost: ids are not shared by unfinished chunks, no chunk is in progress, and
`process_fn` returns on the pending ones. It is a condition on the chunks and on `process_fn` before
the first call. -/
structure NothingLost (chunks : List ChunkRange) (processFn : ProcessFn) : Prop where
  repeatsCompleted : RepeatsCompleted chunks
  notInProgress : ∀ c ∈ chunks, c.status ≠ .inProgress
  returns : ∀ c ∈ chunks, c.status = .pending → (processFn (c.setStatus .inProgress)).isSome

/-! ## Shared ids -/

/-- Shared ids do no harm when every chunk is completed. -/
theorem repeatsCompleted_of_completed {chunks : List ChunkRange}
    (h : ∀ c ∈ chunks, c.status = .completed) : RepeatsCompleted chunks :=
  List.pairwise_iff_getElem.mpr fun _ _ _ hj _ _ => h _ (List.getElem_mem hj)

/-- A status moves without an effect on shared ids, unless a repeated id becomes completed. -/
theorem repeatsCompleted_of_set {chunks : List ChunkRange} {i : ℕ} {c : ChunkRange}
    {status : ChunkStatus} (hi : chunks[i]? = some c)
    (hfirst : status = .completed → ∀ j < i, ∀ d, chunks[j]? = some d → d.chunkId ≠ c.chunkId)
    (h : RepeatsCompleted (chunks.set i (c.setStatus status))) : RepeatsCompleted chunks := by
  obtain ⟨hlt, rfl⟩ := List.getElem?_eq_some_iff.mp hi
  refine List.pairwise_iff_getElem.mpr fun j k hj hk hjk hid => ?_
  have hset := List.pairwise_iff_getElem.mp h j k (by simpa using hj) (by simpa using hk) hjk
  rw [List.getElem_set, List.getElem_set] at hset
  by_cases hki : i = k
  · subst hki
    rw [if_neg (Nat.ne_of_gt hjk), if_pos rfl] at hset
    have hdone := hset hid
    exact absurd hid (hfirst hdone j hjk _ (List.getElem?_eq_getElem hj))
  · rw [if_neg hki] at hset
    refine hset ?_
    split_ifs with hji
    · subst hji
      exact hid
    · exact hid

namespace Backfill

variable {n : ℕ} {processFn : ProcessFn} {s s' : Backfill n} {w : Fin n}

/-- If only completed chunks repeat an id after a turn, it was so before: no turn gets rid of a
shared id. -/
theorem Turn.repeatsCompleted (hturn : Turn processFn w s s') (h : RepeatsCompleted s'.chunks) :
    RepeatsCompleted s.chunks := by
  cases hturn with
  | claims i c _ hi _ => exact repeatsCompleted_of_set hi (fun hdone => by cases hdone) h
  | exits _ _ => exact h
  | calls c _ => exact h
  | completes d _ =>
    rw [setWorker_chunks] at h
    rcases complete_cases d.chunkId s.chunks with ⟨hsame, -⟩ | ⟨i, c, hi, hid, hfirst, hset⟩
    · rwa [hsame] at h
    · rw [hset] at h
      -- only the first chunk with the id is marked, so a repeated one stays as it was
      refine repeatsCompleted_of_set hi (fun _ j hj e he => ?_) h
      rw [hid]
      exact hfirst j hj e he
  | rests _ => exact h

/-- The same for a whole run, from its end back to its start. -/
theorem repeatsCompleted_of_run {chunks : List ChunkRange} {sched : List (Fin n)}
    (h : RepeatsCompleted (run processFn (start chunks n) sched).chunks) :
    RepeatsCompleted chunks := by
  have hstep : ∀ (w : Fin n) (s : Backfill n),
      (RepeatsCompleted s.chunks → RepeatsCompleted chunks) →
      RepeatsCompleted (step processFn w s).chunks → RepeatsCompleted chunks :=
    fun w s hs h => hs ((turn_step processFn w s).repeatsCompleted h)
  exact Interleave.run_invariant hstep id sched h

/-- A chunk that is in progress before a call is in progress after it. -/
theorem mem_run_of_inProgress {chunks : List ChunkRange} (hchunks : RepeatsCompleted chunks)
    {c : ChunkRange} (hc : c ∈ chunks) (hprogress : c.status = .inProgress)
    (sched : List (Fin n)) : c ∈ (run processFn (start chunks n) sched).chunks := by
  have h := consistent_run hchunks processFn sched
  obtain ⟨i, hi⟩ := List.getElem?_of_mem hc
  obtain ⟨d, hd, hmoved⟩ := h.exists_moved hi
  cases hmoved with
  | same => exact List.mem_of_getElem? hd
  | claimed hpending =>
    rw [hprogress] at hpending
    cases hpending
  | completed hpending _ =>
    rw [hprogress] at hpending
    cases hpending

end Backfill

/-! ## The second call -/

variable {n m : ℕ} {processFn : ProcessFn} {chunks : List ChunkRange}

/-- When every chunk is completed, a further call only looks at the list and ends. -/
theorem recovered_of_completed (h : ∀ c ∈ chunks, c.status = .completed) : Recovered chunks m where
  ends _ _ _ hturns := Backfill.finished_of_turns hturns
  completed processFn sched _ _ d hd := by
    have hrun := Backfill.consistent_run (repeatsCompleted_of_completed h) processFn sched
    obtain ⟨i, hi⟩ := List.getElem?_of_mem hd
    obtain ⟨c, hc, hmoved⟩ := hrun.exists_init hi
    have hdone := h c (List.mem_of_getElem? hc)
    cases hmoved with
    | same => exact hdone
    | claimed hpending =>
      rw [hdone] at hpending
      cases hpending
    | completed _ _ => rfl
  processed _ _ _ _ c hc hne := absurd (h c hc) hne

/-- A list that every call recovers shares no unfinished id and has no chunk in progress. -/
theorem Recovered.notInProgress (h : Recovered chunks m) :
    RepeatsCompleted chunks ∧ ∀ c ∈ chunks, c.status ≠ .inProgress := by
  obtain ⟨sched, hturns⟩ := Interleave.exists_turns (ι := Fin m) (3 * chunks.length + 1)
  have htotal : ∀ c, ((fun _ => some [] : ProcessFn) c).isSome := fun _ => rfl
  have hdone := h.completed _ sched htotal (h.ends _ sched htotal hturns)
  have hrepeats := Backfill.repeatsCompleted_of_run (repeatsCompleted_of_completed hdone)
  refine ⟨hrepeats, fun c hc hprogress => ?_⟩
  have hstuck := hdone c (Backfill.mem_run_of_inProgress hrepeats hc hprogress sched)
  rw [hprogress] at hstuck
  cases hstuck

/-- A first call that may panic on a pending chunk leaves a chunk in progress. -/
theorem exists_inProgress (hn : 0 < n) (hchunks : RepeatsCompleted chunks) {c : ChunkRange}
    (hc : c ∈ chunks) (hpending : c.status = .pending)
    (hpanics : processFn (c.setStatus .inProgress) = none) {sched : List (Fin n)}
    (hfinished : (Backfill.run processFn (.start chunks n) sched).Finished) :
    ∃ d ∈ (Backfill.run processFn (.start chunks n) sched).chunks, d.status = .inProgress := by
  have h := Backfill.consistent_run hchunks processFn sched
  obtain ⟨i, hi⟩ := List.getElem?_of_mem hc
  obtain ⟨d, hd, hmoved⟩ := h.exists_moved hi
  cases hmoved with
  | same =>
    -- The chunk was never claimed, so no task has exited and the first one has panicked.
    rcases (hfinished ⟨0, hn⟩).cases with hexited | ⟨e, hpanicked⟩
    · exact absurd hpending (h.not_pending hexited c (List.mem_of_getElem? hd))
    · obtain ⟨j, b, -, -, rfl, hj⟩ := h.held _ e (by rw [hpanicked]; rfl)
      exact ⟨_, List.mem_of_getElem? hj, rfl⟩
  | claimed _ => exact ⟨_, List.mem_of_getElem? hd, rfl⟩
  | completed _ hreturns =>
    rw [hpanics] at hreturns
    cases hreturns

/-- If no chunk can be lost, the first call already completes every chunk. -/
theorem recovers_of_nothingLost {p : ParallelSnapshotter} (hn : 0 < n)
    (h : NothingLost p.chunks processFn) : Recovers p processFn n m := by
  intro sched hfinished
  have hrun := Backfill.consistent_run h.repeatsCompleted processFn sched
  have hexited (w : Fin n) := hrun.exited_of_over h.returns (hfinished w)
  refine recovered_of_completed fun c hc => ?_
  rw [hrun.chunks_eq h.notInProgress hn hexited, List.mem_map] at hc
  obtain ⟨b, -, rfl⟩ := hc
  rfl

/-- One first call that is run to its end is enough: what it leaves has no shared unfinished id and
no chunk in progress, and a call gets rid of neither. -/
theorem nothingLost_of_recovers {p : ParallelSnapshotter} (hn : 0 < n)
    (h : Recovers p processFn n m) : NothingLost p.chunks processFn := by
  obtain ⟨sched, hturns⟩ := Interleave.exists_turns (ι := Fin n) (3 * p.chunks.length + 1)
  have hfinished : (Backfill.run processFn (.start p.chunks n) sched).Finished :=
    Backfill.finished_of_turns hturns
  obtain ⟨hrepeats, hnone⟩ := (h sched hfinished).notInProgress
  have hchunks := Backfill.repeatsCompleted_of_run hrepeats
  refine ⟨hchunks, fun c hc hprogress => ?_, fun c hc hpending => ?_⟩
  · exact hnone c (Backfill.mem_run_of_inProgress hchunks hc hprogress sched) hprogress
  · rw [Option.isSome_iff_ne_none]
    intro hpanics
    obtain ⟨d, hd, hprogress⟩ := exists_inProgress hn hchunks hc hpending hpanics hfinished
    exact hnone d hd hprogress

/-- **A second call recovers a first one exactly if no chunk can be lost.** A chunk whose
`process_fn` panics is never processed again, since it stays in progress and only pending chunks are
claimed. -/
theorem recovers_iff (p : ParallelSnapshotter) (processFn : ProcessFn) {n : ℕ} (hn : 0 < n)
    (m : ℕ) : Recovers p processFn n m ↔ NothingLost p.chunks processFn :=
  ⟨nothingLost_of_recovers hn, recovers_of_nothingLost hn⟩

/-- One chunk, one worker, and a `process_fn` that returns. -/
theorem recovers_oneChunk : Recovers ⟨"users", [⟨0, 1, 1, .pending⟩]⟩ (fun _ => some []) 1 1 := by
  refine (recovers_iff _ _ Nat.one_pos 1).mpr ⟨List.pairwise_singleton _ _, ?_, fun _ _ _ => rfl⟩
  intro c hc
  rw [List.mem_singleton.mp hc]
  decide

/-- One chunk, one worker, and a panic: the chunk stays in progress and the second call does not
touch it. -/
theorem not_recovers_panic : ∃ p, new "users" 1 1 2 = some p ∧ ¬Recovers p (fun _ => none) 1 1 := by
  refine ⟨⟨"users", [⟨0, 1, 1, .pending⟩]⟩, rfl, fun h => ?_⟩
  have hfirst := h [0, 0] (fun w => by rw [Subsingleton.elim w 0]; trivial)
  have hdone := hfirst.completed (fun _ => some []) [0] (fun _ => rfl)
    (fun w => by rw [Subsingleton.elim w 0]; trivial)
  have hchunk := hdone ⟨0, 1, 1, .inProgress⟩ List.mem_cons_self
  cases hchunk

end ParallelSnapshotter

end Caminus

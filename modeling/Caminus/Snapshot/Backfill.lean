import Caminus.Snapshot.Workers

/-!
# Parallel backfill

The logs of the chunks handed out and processed are read off the list and the workers (`Logged`), so
at the end of a call every chunk was processed exactly once (`exactlyOnce`).
-/

namespace Caminus

namespace ParallelSnapshotter

namespace Backfill

variable {n : ℕ} {processFn : ProcessFn} {init : List ChunkRange} {s s' : Backfill n} {w : Fin n}

/-- The chunks handed out are those that left the pending ones, and `process_fn` was called on those
of them that no worker is about to call it on. -/
structure Logged (init : List ChunkRange) (s : Backfill n) : Prop where
  handed_nodup : s.handed.Nodup
  mem_handed : ∀ d, d ∈ s.handed ↔ ∃ (i : ℕ) (c e : ChunkRange), init[i]? = some c ∧
    c.status = .pending ∧ d = c.setStatus .inProgress ∧ s.chunks[i]? = some e ∧ e.status ≠ .pending
  calls_nodup : s.calls.Nodup
  mem_calls : ∀ d, d ∈ s.calls ↔ d ∈ s.handed ∧ ∀ w, s.workers w ≠ .claimed d

/-- Before the first turn nothing has been handed out, and no chunk has left the pending ones. -/
theorem logged_start (init : List ChunkRange) (n : ℕ) : Logged init (start init n) where
  handed_nodup := List.nodup_nil
  mem_handed d := by
    refine iff_of_false List.not_mem_nil ?_
    rintro ⟨i, c, e, hc, hpending, -, he, hne⟩
    rw [Option.some.inj (hc.symm.trans he)] at hpending
    exact hne hpending
  calls_nodup := List.nodup_nil
  mem_calls d := iff_of_false List.not_mem_nil fun h => List.not_mem_nil h.1

/-- No worker is about to call `process_fn` on a chunk exactly when neither the worker that moved
nor any of the others is. -/
theorem forall_ne_claimed_setWorker {worker : Worker} {d : ChunkRange} :
    (∀ v, (s.setWorker w worker).workers v ≠ .claimed d) ↔
      worker ≠ .claimed d ∧ ∀ v, v ≠ w → s.workers v ≠ .claimed d := by
  constructor
  · intro h
    refine ⟨fun hd => h w (by rw [setWorker_workers_self, hd]), fun v hv hd => h v ?_⟩
    rw [setWorker_workers_of_ne _ _ hv, hd]
  · rintro ⟨hw, hothers⟩ v hv
    by_cases hvw : v = w
    · rw [hvw, setWorker_workers_self] at hv
      exact hw hv
    · rw [setWorker_workers_of_ne _ _ hvw] at hv
      exact hothers v hvw hv

/-- A worker that is not about to call `process_fn`, before and after, does not matter. -/
theorem forall_ne_claimed_of_ne {worker : Worker} (hw : ∀ d, s.workers w ≠ .claimed d)
    (hworker : ∀ d, worker ≠ .claimed d) (d : ChunkRange) :
    (∀ v, (s.setWorker w worker).workers v ≠ .claimed d) ↔ ∀ v, s.workers v ≠ .claimed d := by
  rw [forall_ne_claimed_setWorker]
  refine ⟨fun h v => ?_, fun h => ⟨hworker d, fun v _ => h v⟩⟩
  by_cases hvw : v = w
  · exact hvw ▸ hw d
  · exact h.2 v hvw

/-- A claim hands out a chunk that was never handed out before, and its worker is about to call
`process_fn` on it. -/
theorem Logged.claims (hlog : Logged init s) (h : Consistent processFn init s)
    (hinit : RepeatsCompleted init) {i : ℕ} {d : ChunkRange} (hw : s.workers w = .idle)
    (hi : s.chunks[i]? = some d) (hpending : d.status = .pending) :
    Logged init ({ s with
      chunks := s.chunks.set i (d.setStatus .inProgress)
      handed := s.handed ++ [d.setStatus .inProgress] }.setWorker w
        (.claimed (d.setStatus .inProgress))) := by
  have hlt := (List.getElem?_eq_some_iff.mp hi).1
  have hd := h.init_of_pending hi hpending
  -- a second hand-out would be of a chunk with the same id, hence of the same index, which has left
  -- the pending ones
  have hfresh : d.setStatus .inProgress ∉ s.handed := by
    intro hmem
    obtain ⟨j, c, e, hc, hcpending, heq, he, hne⟩ := (hlog.mem_handed _).mp hmem
    have hid : d.chunkId = c.chunkId := by simpa using congrArg ChunkRange.chunkId heq
    have hij : i = j := hinit.index_inj hd hc hid hpending hcpending
    subst hij
    rw [Option.some.inj (hi.symm.trans he)] at hpending
    exact hne hpending
  have hnodup : (s.handed ++ [d.setStatus .inProgress]).Nodup := by
    rw [← List.concat_eq_append]
    exact List.Nodup.concat hfresh hlog.handed_nodup
  refine ⟨hnodup, fun x => ?_, hlog.calls_nodup, fun x => ?_⟩
  · rw [setWorker_handed, setWorker_chunks, List.mem_append, List.mem_singleton, hlog.mem_handed]
    constructor
    -- a chunk handed out earlier is at another index, which the claim does not touch
    · rintro (⟨j, c, e, hc, hcpending, hx, he, hne⟩ | rfl)
      · refine ⟨j, c, e, hc, hcpending, hx, ?_, hne⟩
        rw [List.getElem?_set_ne ?_, he]
        rintro rfl
        rw [Option.some.inj (hi.symm.trans he)] at hpending
        exact hne hpending
      · exact ⟨i, d, _, hd, hpending, rfl, List.getElem?_set_self hlt, by simp⟩
    · rintro ⟨j, c, e, hc, hcpending, hx, he, hne⟩
      rcases getElem?_set_eq_some he with ⟨rfl, rfl⟩ | ⟨-, he⟩
      · rw [Option.some.inj (hc.symm.trans hd)] at hx
        exact Or.inr hx
      · exact Or.inl ⟨j, c, e, hc, hcpending, hx, he, hne⟩
  · rw [setWorker_handed, setWorker_calls, forall_ne_claimed_setWorker, List.mem_append,
      List.mem_singleton, hlog.mem_calls]
    constructor
    · rintro ⟨hmem, hothers⟩
      -- the claimed chunk itself is not called yet, being fresh
      refine ⟨Or.inl hmem, fun hx => ?_, fun v _ => hothers v⟩
      rw [Worker.claimed.injEq] at hx
      exact hfresh (hx ▸ hmem)
    · rintro ⟨hmem | rfl, hx, hothers⟩
      · refine ⟨hmem, fun v hv => ?_⟩
        by_cases hvw : v = w
        · rw [hvw, hw] at hv
          cases hv
        · exact hothers v hvw hv
      · exact absurd rfl hx

/-- A call is of a chunk that was handed out and that no other worker holds, so that it is the first
on it. -/
theorem Logged.calls (hlog : Logged init s) (h : Consistent processFn init s) {d : ChunkRange}
    (hw : s.workers w = .claimed d) :
    Logged init ({ s with calls := s.calls ++ [d] }.setWorker w (afterCall processFn d)) := by
  have hwd : (s.workers w).chunk? = some d := by rw [hw]; rfl
  have hhanded : d ∈ s.handed := by
    obtain ⟨i, c, hc, hpending, hdc, hi⟩ := h.held w d hwd
    exact (hlog.mem_handed d).mpr ⟨i, c, d, hc, hpending, hdc, hi, by simp [hdc]⟩
  -- a chunk is not in the log of calls while some worker is about to call `process_fn` on it
  have hnew : d ∉ s.calls := fun hmem => ((hlog.mem_calls d).mp hmem).2 w hw
  have hcalled (x : ChunkRange) : afterCall processFn d ≠ .claimed x := by
    rw [afterCall]
    cases processFn d <;> simp
  have hnodup : (s.calls ++ [d]).Nodup := by
    rw [← List.concat_eq_append]
    exact List.Nodup.concat hnew hlog.calls_nodup
  refine ⟨hlog.handed_nodup, hlog.mem_handed, hnodup, fun x => ?_⟩
  rw [setWorker_handed, setWorker_calls, forall_ne_claimed_setWorker, List.mem_append,
    List.mem_singleton, hlog.mem_calls]
  constructor
  · rintro (⟨hmem, hothers⟩ | rfl)
    · exact ⟨hmem, hcalled x, fun v _ => hothers v⟩
    -- two workers never hold the same chunk
    · refine ⟨hhanded, hcalled x, fun v hvw hv => hvw (h.exclusive v w x ?_ hwd)⟩
      rw [hv]
      rfl
  · rintro ⟨hmem, -, hothers⟩
    by_cases hxd : x = d
    · exact Or.inr hxd
    · refine Or.inl ⟨hmem, fun v hv => ?_⟩
      by_cases hvw : v = w
      · rw [hvw, hw, Worker.claimed.injEq] at hv
        exact hxd hv.symm
      · exact hothers v hvw hv

/-- Completing a chunk keeps it out of the pending ones and touches neither log. -/
theorem Logged.completes (hlog : Logged init s) (h : Consistent processFn init s)
    (hinit : RepeatsCompleted init) {d : ChunkRange} (hw : s.workers w = .processed d) :
    Logged init ({ s with chunks := complete d.chunkId s.chunks }.setWorker w .idle) := by
  have hwd : (s.workers w).chunk? = some d := by rw [hw]; rfl
  obtain ⟨i, c, hc, hpending, hdc, hi, hset⟩ := h.complete_eq hinit hwd
  have hlt := (List.getElem?_eq_some_iff.mp hi).1
  -- the id is that of one chunk only, so the chunk marked is the one that the worker holds
  rw [hset]
  refine ⟨hlog.handed_nodup, fun x => ?_, hlog.calls_nodup, fun x => ?_⟩
  · rw [setWorker_handed, setWorker_chunks, hlog.mem_handed]
    constructor
    · rintro ⟨j, b, e, hb, hbpending, hx, he, hne⟩
      by_cases hij : i = j
      · subst hij
        exact ⟨i, b, _, hb, hbpending, hx, List.getElem?_set_self hlt, by simp⟩
      · exact ⟨j, b, e, hb, hbpending, hx, by rw [List.getElem?_set_ne hij, he], hne⟩
    · rintro ⟨j, b, e, hb, hbpending, hx, he, hne⟩
      rcases getElem?_set_eq_some he with ⟨rfl, rfl⟩ | ⟨-, he⟩
      · exact ⟨j, b, d, hb, hbpending, hx, hi, by simp [hdc]⟩
      · exact ⟨j, b, e, hb, hbpending, hx, he, hne⟩
  · rw [setWorker_handed, setWorker_calls, hlog.mem_calls,
      forall_ne_claimed_of_ne (fun e => by simp [hw]) (fun e => by simp)]

/-- Every turn keeps the logs right, with the consistency of the chunks and the workers as side
condition. -/
theorem Logged.turn (hlog : Logged init s) (h : Consistent processFn init s)
    (hinit : RepeatsCompleted init) (hturn : Turn processFn w s s') : Logged init s' := by
  cases hturn with
  | claims i d hw hi hd => exact hlog.claims h hinit hw hi hd
  | exits hw hnone =>
    refine ⟨hlog.handed_nodup, hlog.mem_handed, hlog.calls_nodup, fun x => ?_⟩
    rw [setWorker_handed, setWorker_calls, hlog.mem_calls,
      forall_ne_claimed_of_ne (fun e => by simp [hw]) (fun e => by simp)]
  | calls d hw => exact hlog.calls h hw
  | completes d hw => exact hlog.completes h hinit hw
  | rests _ => exact hlog

/-- The logs are right after every schedule, by induction over the turns of the workers. -/
theorem logged_run (hinit : RepeatsCompleted init) (processFn : ProcessFn) (sched : List (Fin n)) :
    Logged init (run processFn (start init n) sched) := by
  have hstep : ∀ (w : Fin n) (s : Backfill n), Consistent processFn init s ∧ Logged init s →
      Consistent processFn init (step processFn w s) ∧ Logged init (step processFn w s) := by
    rintro w s ⟨h, hlog⟩
    have hturn := turn_step processFn w s
    exact ⟨h.turn hinit hturn, hlog.turn h hinit hturn⟩
  exact (Interleave.run_invariant hstep
    ⟨consistent_start processFn init n, logged_start init n⟩ sched).2

/-- No chunk id is handed out twice, since a chunk that was handed out is never pending again. -/
theorem Logged.nodup_chunkId (h : Logged init s) (hinit : RepeatsCompleted init) :
    (s.handed.map ChunkRange.chunkId).Nodup := by
  refine List.Nodup.map_on (fun x hx y hy hid => ?_) h.handed_nodup
  obtain ⟨i, c, -, hc, hcpending, rfl, -⟩ := (h.mem_handed x).mp hx
  obtain ⟨j, d, -, hd, hdpending, rfl, -⟩ := (h.mem_handed y).mp hy
  have hij := hinit.index_inj hc hd hid hcpending hdpending
  subst hij
  rw [Option.some.inj (hc.symm.trans hd)]

/-- At the end `process_fn` was called on the chunks that were pending. -/
theorem Logged.mem_calls_iff (h : Logged init s) (hexited : ∀ w, s.workers w = .exited)
    (hchunks : s.chunks = init.map (·.setStatus .completed)) (d : ChunkRange) :
    d ∈ s.calls ↔ ∃ c ∈ init, c.status = .pending ∧ d = c.setStatus .inProgress := by
  rw [h.mem_calls, h.mem_handed]
  constructor
  · rintro ⟨⟨i, c, -, hc, hpending, hd, -⟩, -⟩
    exact ⟨c, List.mem_of_getElem? hc, hpending, hd⟩
  · rintro ⟨c, hmem, hpending, hd⟩
    obtain ⟨i, hi⟩ := List.getElem?_of_mem hmem
    refine ⟨⟨i, c, c.setStatus .completed, hi, hpending, hd, ?_, by simp⟩, fun w => ?_⟩
    · rw [hchunks, List.getElem?_map, hi, Option.map_some]
    · rw [hexited w]
      exact fun hw => by cases hw

end Backfill

/-! ## Exactly once -/

/-- A call processes every chunk exactly once, whatever the schedule: each status moves forward
only, no chunk is handed to two workers, and the progress ends at all chunks of all. -/
structure ExactlyOnce (p : ParallelSnapshotter) (processFn : ProcessFn) (n : ℕ) (store : StateStore) :
    Prop where
  handed : ∀ sched : List (Fin n),
    ((Backfill.run processFn (.start p.chunks n) sched).handed.map ChunkRange.chunkId).Nodup
  moves : ∀ (sched : List (Fin n)) (w : Fin n) (i : ℕ) (c : ChunkRange),
    (Backfill.run processFn (.start p.chunks n) sched).chunks[i]? = some c →
    ∃ status, Backfill.StatusMove c.status status ∧
      (Backfill.run processFn (.start p.chunks n) (sched ++ [w])).chunks[i]? =
        some (c.setStatus status)
  ends : ∀ sched : List (Fin n), (∀ w, 3 * p.chunks.length + 1 ≤ sched.count w) →
    (Backfill.run processFn (.start p.chunks n) sched).Finished
  calls : ∀ sched : List (Fin n), (Backfill.run processFn (.start p.chunks n) sched).Finished →
    (Backfill.run processFn (.start p.chunks n) sched).calls.Perm
      (p.chunks.map (·.setStatus .inProgress))
  completed : ∀ sched : List (Fin n), (Backfill.run processFn (.start p.chunks n) sched).Finished →
    (Backfill.run processFn (.start p.chunks n) sched).chunks =
      p.chunks.map (·.setStatus .completed)
  stored : ∀ sched : List (Fin n), (Backfill.run processFn (.start p.chunks n) sched).Finished →
    (p.saveProgress (Backfill.run processFn (.start p.chunks n) sched).chunks store).getOffset
      p.progressKey = .ok (some (toString p.chunks.length ++ "/" ++ toString p.chunks.length))

/-- Once all chunks are completed, the progress reads `n/n`. -/
theorem progress_completed (chunks : List ChunkRange) :
    progress (chunks.map (·.setStatus .completed)) =
      toString chunks.length ++ "/" ++ toString chunks.length := by
  have hcount : (chunks.map (·.setStatus .completed)).countP (fun c => c.status = .completed) =
      chunks.length := by
    rw [List.countP_map]
    exact List.countP_eq_length.mpr fun c _ => rfl
  rw [progress, hcount, List.length_map]

/-- **Parallel backfill processes every chunk exactly once under any schedule**, for every pool of
workers and every `process_fn` that returns. The two invariants are kept by each turn; at the end
all workers have exited, so that all chunks are completed and the log of calls is a permutation of
them. -/
theorem exactlyOnce {tableName : String} {totalRows chunkSize : UInt64} {fuel : ℕ}
    {p : ParallelSnapshotter} (hnew : new tableName totalRows chunkSize fuel = some p)
    (hids : (p.chunks.map ChunkRange.chunkId).Nodup) {n : ℕ} (hn : 0 < n) {processFn : ProcessFn}
    (hfn : ∀ c, (processFn c).isSome) (store : StateStore) : ExactlyOnce p processFn n store := by
  have hpending := pending_of_new hnew
  have hrepeats := repeatsCompleted_of_nodup hids
  have hconsistent := @Backfill.consistent_run n _ hrepeats processFn
  have hlogged := @Backfill.logged_run n _ hrepeats processFn
  -- a worker whose `process_fn` returns ends only by finding nothing pending
  have hexited (sched : List (Fin n))
      (h : (Backfill.run processFn (.start p.chunks n) sched).Finished) (w : Fin n) :
      (Backfill.run processFn (.start p.chunks n) sched).workers w = .exited :=
    (hconsistent sched).exited_of_over (fun c _ _ => hfn _) (h w)
  have hchunks (sched : List (Fin n))
      (h : (Backfill.run processFn (.start p.chunks n) sched).Finished) :
      (Backfill.run processFn (.start p.chunks n) sched).chunks =
        p.chunks.map (·.setStatus .completed) :=
    (hconsistent sched).chunks_eq (fun c hc => by simp [hpending c hc]) hn (hexited sched h)
  refine ⟨fun sched => (hlogged sched).nodup_chunkId hrepeats, fun sched w i c hc => ?_,
    fun sched h => Backfill.finished_of_turns h, fun sched h => ?_, hchunks, fun sched h => ?_⟩
  · rw [Backfill.run, Interleave.run_concat]
    exact (hconsistent sched).statusMove hrepeats (Backfill.turn_step processFn w _) hc
  · have hnodup : (p.chunks.map (·.setStatus .inProgress)).Nodup := by
      refine List.Nodup.of_map ChunkRange.chunkId ?_
      rw [List.map_map]
      exact hids
    -- both lists are without repetition, so that membership decides
    refine (List.perm_ext_iff_of_nodup (hlogged sched).calls_nodup hnodup).mpr fun d => ?_
    rw [(hlogged sched).mem_calls_iff (hexited sched h) (hchunks sched h), List.mem_map]
    constructor
    · rintro ⟨c, hc, -, rfl⟩
      exact ⟨c, hc, rfl⟩
    · rintro ⟨c, hc, rfl⟩
      exact ⟨c, hc, hpending c hc, rfl⟩
  · rw [hchunks sched h, saveProgress, progress_completed, StateStore.getOffset_saveOffset_self]

/-- Two workers on the four chunks of a table of 200 rows. -/
theorem exactlyOnce_users : ∃ p, new "users" 200 50 6 = some p ∧
    ExactlyOnce p (fun _ => some []) 2 .new := by
  refine ⟨_, rfl, ?_⟩
  exact @exactlyOnce "users" 200 50 6 _ rfl (by decide) 2 (by decide) _ (fun _ => rfl) _

end ParallelSnapshotter

end Caminus

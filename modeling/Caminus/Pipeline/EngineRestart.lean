import Caminus.Common.Takeover
import Caminus.Pipeline.Engine
import Caminus.Pipeline.Restart

/-!
# Crashes and restarts of the whole engine

An engine process runs its election loop and both tasks on the sources of the repository, in any order
of steps, and is stopped at any of them; the next process starts on the store that is left. A task
reads its source also before its node leads, and what it reads then is passed by. Over any number of
processes nothing else is lost, for either source (`engineRestarts_ledger`).
-/

namespace Caminus.Pipeline

open TransactionBuffer Resumption

/-- What the sources and the order of steps are in one process: the clocks its sources read, how
many events each of them yields, and the schedule until the process is stopped. -/
structure EngineProcess where
  surroundings : Feed → Surroundings
  events : Feed → ℕ
  sched : List Engine.Actor

/-- The transform lets a mutation through, under its offset: it returns `Ok`, and the offset is the
one it was given. -/
def Env.Keeps (env : Env) (m : ChangeEvent) : Prop :=
  ∃ t, env.transform m = .ok t ∧ t.offset = m.offset

/-- The transform lets the events of the sources through and keeps their offsets. What else it makes of
them does not matter: the module of `main`, for one, may change the digits of their floats. -/
def Env.Passes (env : Env) : Prop := ∀ s feed q, env.Keeps (sourceEvent s feed q)

namespace EngineProcess

variable (env : Env) (p : EngineProcess) (store : StateStore) (feed : Feed)

/-- The process as a setup of the engine. A source that cannot connect yields nothing. -/
def setup : Setup where
  env := env
  stream := fun feed offset =>
    match (startStream feed.outage 0 offset).1 with
    | .ok start =>
        (unfoldFrom (sourceEvent (p.surroundings feed) feed) start (p.events feed)).map .ok
    | .error _ => []

/-- The engine when the process is stopped, which may be after any prefix of its steps. -/
def after : Engine := (Engine.start (p.setup env) store).run (p.setup env) p.sched

/-- What the process did for a source: the offset it started from, the events it read without
leadership, and the offsets of the mutations it sent. -/
def lateRun : LateRun where
  checkpoint := storedSeq feed store
  missed := ((p.after env store).handled feed).countP fun item => !item.isLeader
  visited := ((p.after env store).made feed).filterMap Effect.sentAt

end EngineProcess

/-- The stores after any number of engine processes, each started on what the one before it left, with
what each of them did. Sequence numbers stay in `u64`. -/
inductive EngineRestarts (env : Env) : StateStore → (Feed → List LateRun) → Prop
  | fresh : EngineRestarts env .new fun _ => []
  | process {store : StateStore} {runs : Feed → List LateRun} (h : EngineRestarts env store runs)
      (p : EngineProcess) (hbound : ∀ feed, storedSeq feed store + p.events feed < 2 ^ 64) :
      EngineRestarts env (p.after env store).crew.store
        fun feed => runs feed ++ [p.lateRun env store feed]

/-! ## What a task takes from its source -/

section Items

variable {s : Surroundings} {feed : Feed} {p n : ℕ}

/-- The events of a source come one after the other, so that `k + n` of them are the first `k` and
the `n` after these. -/
theorem eventsAfter_append (s : Surroundings) (feed : Feed) (p k n : ℕ) :
    eventsAfter s feed p (k + n) = eventsAfter s feed p k ++ eventsAfter s feed (p + k) n := by
  have hstart : p + 1 + k = p + k + 1 := by omega
  rw [eventsAfter, eventsAfter, eventsAfter, ← List.map_append, ← hstart]
  congr 1
  simp

/-- The items that are dropped do not matter: a loop consumes what it reads as leader. -/
theorem consumed_standby {standby : List Item} (h : ∀ item ∈ standby, item.isLeader = false)
    (items : List Item) : consumed (standby ++ items) = consumed items := by
  induction standby with
  | nil => rfl
  | cons item standby ih =>
    rw [List.forall_mem_cons] at h
    rw [List.cons_append, consumed, h.1]
    exact ih h.2

/-- Of items read as leader every event is consumed, so a node that leads misses nothing. -/
theorem consumed_led {led : List Item} (h : ∀ item ∈ led, item.isLeader = true)
    {evs : List ChangeEvent} (hevs : led.map Item.result = evs.map .ok) : consumed led = evs := by
  induction led generalizing evs with
  | nil => rw [List.map_eq_nil_iff.mp hevs.symm, consumed]
  | cons item led ih =>
    rw [List.forall_mem_cons] at h
    cases evs with
    | nil => cases hevs
    | cons e evs =>
      rw [List.map_cons, List.map_cons, List.cons.injEq] at hevs
      rw [consumed, h.1, hevs.1, ← ih h.2 hevs.2]
      rfl

/-- A task that took over after `k` items handles the events from there on. Those before were read
from the stream and dropped. -/
theorem consumed_takeover {items standby led : List Item} (hsplit : items = standby ++ led)
    (hstandby : ∀ item ∈ standby, item.isLeader = false) (hled : ∀ item ∈ led, item.isLeader = true)
    (hread : items.map Item.result <+: (eventsAfter s feed p n).map .ok) :
    standby.length + led.length ≤ n ∧
      consumed items = eventsAfter s feed (p + standby.length) led.length := by
  have hlen : standby.length + led.length ≤ n := by
    have := hread.length_le
    rw [hsplit, List.length_map, List.length_map, List.length_append, eventsAfter, List.length_map,
      List.length_range'] at this
    exact this
  refine ⟨hlen, ?_⟩
  obtain ⟨rest, hrest⟩ := Nat.exists_eq_add_of_le hlen
  -- the stream in three parts: what was dropped, what was handled, and what was not read
  have hevents : eventsAfter s feed p n = eventsAfter s feed p standby.length ++
      (eventsAfter s feed (p + standby.length) led.length ++
        eventsAfter s feed (p + standby.length + led.length) rest) := by
    rw [hrest, Nat.add_assoc, eventsAfter_append, eventsAfter_append]
  have hlength : ∀ p k, (eventsAfter s feed p k).length = k := by
    intro p k
    rw [eventsAfter, List.length_map, List.length_range']
  rw [hsplit, consumed_standby hstandby]
  refine consumed_led hled ?_
  rw [hsplit, hevents, List.map_append, List.map_append, List.map_append] at hread
  obtain ⟨more, hmore⟩ := hread
  rw [List.append_assoc] at hmore
  have hafter := (List.append_inj hmore (by rw [List.length_map, List.length_map, hlength])).2
  exact (List.append_inj hafter (by rw [List.length_map, List.length_map, hlength])).1

end Items

/-! ## What it delivers -/

section Deliveries

variable {env : Env} {store : StateStore} {feed : Feed} {s : Surroundings} {p n : ℕ}

/-- Validation and the snapshotter do not depend on the transform or the sinks. -/
theorem screen_passthrough (env : Env) (store : StateStore) (feed : Feed) (e : ChangeEvent) :
    screen env store feed e = screen (.passthrough env.serde) store feed e := by
  cases feed with
  | postgres => rfl
  | cassandra => rfl

/-- On the events of its source a task delivers what leaves the buffer: the generated events are
valid and have distinct ids. -/
theorem trace_eventsAfter {items : List Item} (hitems : consumed items = eventsAfter s feed p n)
    (hschema : store.getSchema env.serde "postgres_users" = .ok (some userSchema)) :
    trace env store items feed =
      ((flushes (eventsAfter s feed p n)).flatten.map Job.delivery).flatMap
        (Job.steps env feed.sourceId) := by
  have hforwarded : ∀ e ∈ eventsAfter s feed p n, screen env store feed e = .forwarded := by
    intro e he
    obtain ⟨q, -, rfl⟩ := List.mem_map.mp he
    rw [screen_passthrough]
    exact screen_sourceEvent hschema _ _ _
  -- sequence numbers make the ids distinct, so that the filter drops nothing
  have hids : ((eventsAfter s feed p n).map ChangeEvent.id).Nodup := by
    rw [eventsAfter, List.map_map]
    exact List.Nodup.map (id_sourceEvent_injective _ _) (List.nodup_range' _)
  have hadmitted : admitted items = eventsAfter s feed p n := by
    rw [admitted, hitems, DeduplicationFilter.fresh_new hids]
  have hreaching : reaching env store feed (eventsAfter s feed p n) = eventsAfter s feed p n := by
    refine List.filter_eq_self.mpr fun e he => ?_
    rw [reaches, hforwarded e he]
  rw [trace_of_valid, hadmitted, hreaching]
  intro e he record
  rw [hadmitted] at he
  rw [hforwarded e he]
  exact Screening.noConfusion

/-- Every mutation that leaves the buffer is an event of the source. -/
theorem transform_flushed (hpass : env.Passes) :
    ∀ m ∈ (flushes (eventsAfter s feed p n)).flatten, env.Keeps m := by
  intro m hm
  obtain ⟨q, -, rfl⟩ :=
    List.mem_map.mp (List.mem_of_mem_filter ((flushes_inOrder s feed p n).subset hm))
  exact hpass _ _ _

variable {ms : List ChangeEvent} {sourceId : String}

/-- A delivery sends one mutation, under the offset that it came with. -/
theorem sentAt_delivery {m : ChangeEvent} (h : env.Keeps m) :
    ((Job.delivery m).steps env sourceId).filterMap Effect.sentAt = [m.position] := by
  obtain ⟨t, ht, -⟩ := h
  simp only [Job.steps, deliver, ht]
  rfl

/-- Deliveries that are done have sent their mutations in order. -/
theorem sentAt_deliveries (h : ∀ m ∈ ms, env.Keeps m) :
    ((ms.map Job.delivery).flatMap (Job.steps env sourceId)).filterMap Effect.sentAt =
      ms.map ChangeEvent.position := by
  induction ms with
  | nil => rfl
  | cons m ms ih =>
    rw [List.forall_mem_cons] at h
    rw [List.map_cons, List.flatMap_cons, List.filterMap_append, ih h.2, sentAt_delivery h.1]
    rfl

/-- A delivery that is only begun may have sent its mutation. -/
theorem sentAt_begun_le {begun : List Effect} (h : ∀ m ∈ ms, env.Keeps m)
    (hbegun : Begun (Job.steps env sourceId) (ms.map Job.delivery) begun) :
    ∃ k ≤ 1, begun.filterMap Effect.sentAt = (ms.map ChangeEvent.position).take k := by
  obtain rfl | ⟨job, rest', hjobs, hlm, -⟩ := hbegun
  · exact ⟨0, Nat.zero_le 1, rfl⟩
  · cases ms with
    | nil => cases hjobs
    | cons m ms =>
      obtain ⟨rfl, -⟩ := List.cons.inj hjobs
      have hsent := hlm.filterMap Effect.sentAt
      rw [sentAt_delivery (h m List.mem_cons_self)] at hsent
      rcases List.prefix_cons_iff.mp hsent with hnil | ⟨l, hl, hl'⟩
      · exact ⟨0, Nat.zero_le 1, hnil⟩
      · obtain rfl := List.prefix_nil.mp hl'
        exact ⟨1, Nat.le_refl 1, hl⟩

/-- And each of them has saved the offset of its mutation. -/
theorem saved_deliveries (h : ∀ m ∈ ms, env.Keeps m) :
    (ms.map Job.delivery).filterMap (Job.saved env) = ms.map ChangeEvent.offset := by
  rw [List.filterMap_map, ← List.filterMap_eq_map]
  refine List.filterMap_congr fun m hm => ?_
  obtain ⟨t, ht, hoffset⟩ := h m hm
  simp [Job.saved, ht, hoffset]

/-- **Wherever a task is stopped, it has visited mutations of its source one after the other**, and
has stored the last of them or the one before it. -/
theorem leaves_of_isPrefix (hpass : env.Passes) {effs : List Effect} {missed : ℕ}
    (hschema : store.getSchema env.serde "postgres_users" = .ok (some userSchema)) {items : List Item}
    (hitems : consumed items = eventsAfter s feed (storedSeq feed store + missed) n)
    (hbound : storedSeq feed store + missed + n < 2 ^ 64)
    (heffs : effs <+: trace env store items feed) :
    LateRun.Leaves (IsMutationSeq feed)
      ⟨storedSeq feed store, missed, effs.filterMap Effect.sentAt⟩
      (storedSeq feed (runEffects store effs)) := by
  obtain ⟨done, rest, begun, hjobs, htake, hbegun⟩ :=
    exists_take_flatMap (Job.steps env feed.sourceId)
      ((flushes (eventsAfter s feed (storedSeq feed store + missed) n)).flatten.map Job.delivery)
      effs.length
  have htransform := @transform_flushed env feed s (storedSeq feed store + missed) n hpass
  rw [trace_eventsAfter hitems hschema] at heffs
  rw [← List.prefix_iff_eq_take.mp heffs] at htake
  -- the deliveries that are done, and those that are at most begun
  obtain ⟨ms, ms', hms, rfl, rfl⟩ := List.map_eq_append_iff.mp hjobs
  rw [hms, List.forall_mem_append] at htransform
  obtain ⟨k, hk, hsent⟩ := sentAt_begun_le htransform.2 hbegun
  -- a delivery that is begun may have sent its mutation and not stored its offset
  have hvisited : effs.filterMap Effect.sentAt =
      ms.map ChangeEvent.position ++ (ms'.map ChangeEvent.position).take k := by
    rw [htake, List.filterMap_append, sentAt_deliveries htransform.1, hsent]
  have hchain := isChain_flushes s feed hbound
  rw [hms, List.map_append] at hchain
  refine ⟨_, _, hvisited, (List.length_take_le _ _).trans hk, ?_, ?_⟩
  · rw [hvisited]
    refine hchain.infix (List.IsPrefix.isInfix ?_)
    exact (List.prefix_cons_inj _).mpr ((List.prefix_append_right_inj _).mpr (List.take_prefix _ _))
  · have hoffset := @getOffset_cut env feed.sourceId (ms.map Job.delivery) _ _ hbegun store
    rw [saved_deliveries htransform.1] at hoffset
    rw [storedSeq, htake, lastOffset_eq, hoffset]
    rcases List.eq_nil_or_concat ms with rfl | ⟨ms, m, rfl⟩
    · simp only [List.map_nil, List.getLast?_nil, Option.elim_none, List.getLastD_nil]
      rw [storedSeq, lastOffset_eq]
    · simp [ChangeEvent.position]

end Deliveries

/-! ## Over all processes -/

/-- No step of the engine writes a schema, so validation is the same in every process. -/
theorem Engine.getSchema_step (setup : Setup) (actor : Engine.Actor) (s : Engine)
    (serde : SerdeJson) (sourceId : String) :
    (step setup actor s).crew.store.getSchema serde sourceId =
      s.crew.store.getSchema serde sourceId := by
  cases actor with
  | electionLoop => rfl
  | task feed =>
    rw [step, taskStep]
    cases s.upcoming feed with
    | none => rfl
    | some results =>
      rcases Crew.turn_cases (fun feed : Feed => iteration (feed.event setup.env)) Effect.perform
        feed (s.nextItem feed results) s.crew with
        ⟨eff, rest, -, hturn⟩ | ⟨item, -, -, hturn⟩ | ⟨-, -, hturn⟩
      · simp only [hturn]
        exact getSchema_runEffects serde s.crew.store [eff] sourceId
      · simp only [hturn]
      · simp only [hturn]

/-- No run of the engine writes a schema: tasks save offsets only. -/
theorem Engine.getSchema_run (setup : Setup) (s : Engine) (sched : List Engine.Actor)
    (serde : SerdeJson) (sourceId : String) :
    (s.run setup sched).crew.store.getSchema serde sourceId =
      s.crew.store.getSchema serde sourceId := by
  induction sched generalizing s with
  | nil => rfl
  | cons actor sched ih => rw [run, Interleave.run_cons, ih, getSchema_step]

namespace EngineProcess

variable {env : Env} {p : EngineProcess} {store : StateStore}

/-- The stream of a source starts right after the offset that it is given. -/
theorem stream_setup (feed : Feed) (offset : Option String) :
    (p.setup env).stream feed offset =
      (eventsAfter (p.surroundings feed) feed (startPosition offset) (p.events feed)).map .ok := by
  rw [setup]
  simp only [startStream_fst, unfoldFrom_eq_map]
  rfl

theorem storedSeq_startup (serde : SerdeJson) (feed : Feed) (store : StateStore) :
    storedSeq feed (startup serde store) = storedSeq feed store := by
  rw [storedSeq, storedSeq, lastOffset_eq, lastOffset_eq, getOffset_startup]

/-- What one process leaves behind for a source, whatever the order of its steps: the task alone
decides, by the result that tasks do not disturb each other. -/
theorem leaves (hpass : env.Passes) (hstore : Process.Startable env.serde store) {feed : Feed}
    (hbound : storedSeq feed store + p.events feed < 2 ^ 64) :
    (p.lateRun env store feed).Leaves (IsMutationSeq feed)
      (storedSeq feed (p.after env store).crew.store) := by
  have halone : (p.after env store).Undisturbed (p.setup env) store feed :=
    (Engine.inv_run (p.setup env) store p.sched).undisturbed feed
  obtain ⟨standby, led, hsplit, hstandby, hled⟩ := halone.takeover
  have hread := halone.read
  rw [stream_setup] at hread
  obtain ⟨hlen, hconsumed⟩ := consumed_takeover hsplit hstandby hled hread
  -- what the process has missed is what was read before its node took the lead
  have hmissed : ((p.after env store).handled feed).countP (fun item => !item.isLeader) =
      standby.length := by
    have hzero : led.countP (fun item => !item.isLeader) = 0 :=
      List.countP_eq_zero.mpr fun item hitem => by simp [hled item hitem]
    rw [hsplit, List.countP_append, hzero, Nat.add_zero]
    exact List.countP_eq_length.mpr fun item hitem => by simp [hstandby item hitem]
  -- the other task does not write under the source's key
  have hstored : storedSeq feed (p.after env store).crew.store =
      storedSeq feed (runEffects (startup env.serde store) ((p.after env store).made feed)) := by
    rw [storedSeq, storedSeq, lastOffset_eq, lastOffset_eq, halone.offset]
    rfl
  have hitems : consumed ((p.after env store).handled feed) =
      eventsAfter (p.surroundings feed) feed
        (storedSeq feed (startup env.serde store) + standby.length) led.length := by
    rw [storedSeq_startup]
    exact hconsumed
  have hsmall : storedSeq feed (startup env.serde store) + standby.length + led.length < 2 ^ 64 := by
    rw [storedSeq_startup]
    omega
  have hleaves :=
    leaves_of_isPrefix hpass (getSchema_startup hstore) hitems hsmall halone.calls
  rw [storedSeq_startup] at hleaves
  rw [lateRun, hmissed, hstored]
  exact hleaves

/-- The store that a process leaves can be started on again. -/
theorem startable_after (hstore : Process.Startable env.serde store) :
    Process.Startable env.serde (p.after env store).crew.store := by
  refine Or.inr ?_
  rw [after, Engine.getSchema_run]
  exact getSchema_startup hstore

end EngineProcess

/-- By induction on the processes: each is a late run that continues the ledger of those before it. -/
theorem EngineRestarts.ledger {env : Env} (hpass : env.Passes) {store : StateStore}
    {runs : Feed → List LateRun} (h : EngineRestarts env store runs) :
    Process.Startable env.serde store ∧
      ∀ feed, Ledger (IsMutationSeq feed) (storedSeq feed store) (runs feed) := by
  induction h with
  | fresh =>
    exact ⟨Or.inl (StateStore.getSchema_new _ _), fun feed => ledger_nil fun _ hq => hq.1⟩
  | process _ p hbound ih =>
    obtain ⟨hstore, hledger⟩ := ih
    refine ⟨EngineProcess.startable_after hstore, fun feed => ?_⟩
    exact (hledger feed).attempt rfl (EngineProcess.leaves hpass hstore (hbound feed))

/-- A process whose Cassandra task reads one event before its node leads, and is stopped after the send
of the second. -/
def stoppedAfterTakeover : EngineProcess where
  surroundings := fun _ => quiet
  events := fun _ => 4
  sched := List.replicate 3 (.task .cassandra) ++ List.replicate 6 .electionLoop ++
    List.replicate 4 (.task .cassandra)

end Caminus.Pipeline

import Caminus.Buffer.Committed
import Caminus.Common.Crash
import Caminus.Common.LastWrite
import Caminus.Pipeline.Ingest

/-!
# Jobs of a loop

The calls of a loop come in jobs: the dead letter of an event that fails validation, and the delivery
of a flushed mutation, which ends with the save of its offset. In whatever call a loop is stopped, the
stored offset is that of the last delivery that is done (`getOffset_cut`).
-/

namespace Caminus.Pipeline

/-- What a loop does for an event in one piece: a dead letter, or the delivery of a mutation. -/
inductive Job
  | deadLetter (record : DlqRecord)
  | delivery (mutEvent : ChangeEvent)

/-- The calls of a job, in order. -/
def Job.steps (env : Env) (sourceId : String) : Job → List Effect
  | .deadLetter record => [.routeToDlq record]
  | .delivery m => deliver env sourceId m

/-- The offset a job saves in the end, which is that of the transformed event; a failed transform
saves none. -/
def Job.saved (env : Env) : Job → Option String
  | .deadLetter _ => none
  | .delivery m =>
      match env.transform m with
      | .ok transformed => some transformed.offset
      | .error _ => none

/-- The jobs of an event after the events `hist` have reached the buffer. -/
def jobsOf (env : Env) (store : StateStore) (feed : Feed) (hist : List ChangeEvent)
    (e : ChangeEvent) : List Job :=
  match screen env store feed e with
  | .deadLetter record => [.deadLetter record]
  | .filtered => []
  | .forwarded => (TransactionBuffer.flushOf hist e).map .delivery

/-- The jobs of a loop, the history of what has reached the buffer being passed along. -/
def jobs (env : Env) (store : StateStore) (feed : Feed) :
    List ChangeEvent → List ChangeEvent → List Job
  | _, [] => []
  | hist, e :: evs =>
      jobsOf env store feed hist e ++ jobs env store feed (advance env store feed hist e) evs

variable {env : Env} {store : StateStore} {feed : Feed}

/-- The calls for an event are the steps of its jobs. -/
theorem effectsOf_eq_flatMap (hist : List ChangeEvent) (e : ChangeEvent) :
    effectsOf env store feed hist e =
      (jobsOf env store feed hist e).flatMap (Job.steps env feed.sourceId) := by
  cases h : screen env store feed e with
  | deadLetter record =>
    simp only [effectsOf, jobsOf, h]
    rfl
  | filtered =>
    simp only [effectsOf, jobsOf, h]
    rfl
  | forwarded =>
    simp only [effectsOf, jobsOf, h, List.flatMap_map]
    rfl

/-- The calls of a loop are the steps of its jobs. -/
theorem run_eq_flatMap (hist evs : List ChangeEvent) :
    run env store feed hist evs =
      (jobs env store feed hist evs).flatMap (Job.steps env feed.sourceId) := by
  induction evs generalizing hist with
  | nil => rfl
  | cons e evs ih => rw [run, jobs, List.flatMap_append, effectsOf_eq_flatMap, ih]

/-- The calls of a whole run of a loop are the steps of its jobs on the events that it admits. -/
theorem trace_eq_flatMap (items : List Item) :
    trace env store items feed =
      (jobs env store feed [] (admitted items)).flatMap (Job.steps env feed.sourceId) := by
  rw [trace_eq_run, run_eq_flatMap]

/-- The jobs of a longer stream are those of its parts, the second part with the history that the
first one leaves. -/
theorem jobs_append (hist evs rest : List ChangeEvent) :
    jobs env store feed hist (evs ++ rest) =
      jobs env store feed hist evs ++
        jobs env store feed (hist ++ reaching env store feed evs) rest := by
  induction evs generalizing hist with
  | nil => simp [jobs, reaching]
  | cons e evs ih => rw [List.cons_append, jobs, jobs, ih, advance_append_reaching, List.append_assoc]

/-! ## Deliveries and sends -/

/-- The mutations delivered by a list of jobs, in order, whether or not the transform fails on them. -/
def delivered (js : List Job) : List ChangeEvent :=
  js.filterMap fun
    | .delivery m => some m
    | .deadLetter _ => none

@[simp] theorem delivered_append (js ks : List Job) :
    delivered (js ++ ks) = delivered js ++ delivered ks :=
  List.filterMap_append

@[simp] theorem delivered_map_delivery (ms : List ChangeEvent) :
    delivered (ms.map .delivery) = ms := by
  induction ms with
  | nil => rfl
  | cons m ms ih => exact congrArg (m :: ·) ih

/-- A mutation is delivered exactly if one of the jobs is its delivery. -/
theorem mem_delivered {js : List Job} {m : ChangeEvent} : m ∈ delivered js ↔ .delivery m ∈ js := by
  unfold delivered
  rw [List.mem_filterMap]
  constructor
  · rintro ⟨job, hjob, h⟩
    cases job with
    | deadLetter record => cases h
    | delivery m' =>
      obtain rfl := Option.some.inj h
      exact hjob
  · intro h
    exact ⟨_, h, rfl⟩

/-- A loop delivers what the buffer flushes, in the order of the flushes. -/
theorem delivered_jobs (hist evs : List ChangeEvent) :
    delivered (jobs env store feed hist evs) =
      (Mealy.outputs TransactionBuffer.process (TransactionBuffer.after hist)
        (reaching env store feed evs)).flatten := by
  induction evs generalizing hist with
  | nil => rfl
  | cons e evs ih =>
    rw [jobs, delivered_append, ih, reaching, reaching, List.filter_cons]
    cases h : screen env store feed e with
    | forwarded =>
      have hreach : reaches env store feed e = true := by simp [reaches, h]
      have hafter : TransactionBuffer.after (hist ++ [e]) =
          ((TransactionBuffer.after hist).process e).2 :=
        Mealy.final_concat _ _ _ _
      rw [advance, if_pos hreach, if_pos hreach, Mealy.outputs_cons, List.flatten_cons, hafter,
        (TransactionBuffer.holds_after hist).process_fst]
      simp [jobsOf, h]
    | _ =>
      have hreach : reaches env store feed e = false := by simp [reaches, h]
      simp [jobsOf, h, delivered, advance, hreach]

/-- What a loop delivers is what is committed among the events that reach the buffer. -/
theorem delivery_mem_jobs_iff {evs : List ChangeEvent} {m : ChangeEvent} :
    .delivery m ∈ jobs env store feed [] evs ↔
      TransactionBuffer.Committed (reaching env store feed evs) m := by
  rw [← mem_delivered, delivered_jobs, ← TransactionBuffer.mem_flatten_flushes_iff]
  rfl

/-- Without invalid events every job is a delivery, so the jobs are determined by their mutations. -/
theorem jobs_of_valid {hist evs : List ChangeEvent}
    (h : ∀ e ∈ evs, ∀ record, screen env store feed e ≠ .deadLetter record) :
    jobs env store feed hist evs = (delivered (jobs env store feed hist evs)).map .delivery := by
  induction evs generalizing hist with
  | nil => rfl
  | cons e evs ih =>
    rw [List.forall_mem_cons] at h
    have hfirst : jobsOf env store feed hist e =
        (delivered (jobsOf env store feed hist e)).map .delivery := by
      cases hs : screen env store feed e with
      | deadLetter record => exact absurd hs (h.1 record)
      | filtered => simp [jobsOf, hs, delivered]
      | forwarded => simp [jobsOf, hs]
    rw [jobs, delivered_append, List.map_append, ← ih h.2, ← hfirst]

/-- A leading node admits every event of a stream with distinct ids. -/
theorem admitted_leading {evs : List ChangeEvent} (hids : (evs.map ChangeEvent.id).Nodup) :
    admitted (leading evs) = evs := by
  rw [admitted, consumed_leading, DeduplicationFilter.fresh_new hids]

/-- The calls on a list of iterations without invalid events: what the buffer flushes is delivered. -/
theorem trace_of_valid {items : List Item}
    (h : ∀ e ∈ admitted items, ∀ record, screen env store feed e ≠ .deadLetter record) :
    trace env store items feed =
      ((TransactionBuffer.flushes (reaching env store feed (admitted items))).flatten.map
        Job.delivery).flatMap (Job.steps env feed.sourceId) := by
  rw [trace_eq_flatMap, jobs_of_valid h, delivered_jobs]
  rfl

/-- The same for a leading node and a stream with distinct ids. -/
theorem trace_leading_of_valid {evs : List ChangeEvent} (hids : (evs.map ChangeEvent.id).Nodup)
    (h : ∀ e ∈ evs, ∀ record, screen env store feed e ≠ .deadLetter record) :
    trace env store (leading evs) feed =
      ((TransactionBuffer.flushes (reaching env store feed evs)).flatten.map
        Job.delivery).flatMap (Job.steps env feed.sourceId) := by
  have hadmitted := admitted_leading hids
  rw [trace_of_valid, hadmitted]
  rw [hadmitted]
  exact h

/-- The mutation was sent to Kafka, whatever the transform made of it and whatever the broker
answered. -/
def Sent (m : ChangeEvent) (effs : List Effect) : Prop :=
  ∃ transformed result, Effect.kafkaSend m transformed result ∈ effs

/-- A call to Kafka belongs to the delivery of its mutation, after the transform has returned. -/
theorem kafkaSend_mem_steps {sourceId : String} {job : Job} {m t : ChangeEvent}
    {result : Except String Unit} :
    Effect.kafkaSend m t result ∈ job.steps env sourceId ↔
      job = .delivery m ∧ env.transform m = .ok t ∧ result = env.kafkaSend t := by
  cases job with
  | deadLetter record => simp [Job.steps]
  | delivery m' =>
    simp only [Job.steps, deliver]
    cases htr : env.transform m' with
    | error err =>
      simp only [List.mem_cons, List.not_mem_nil, reduceCtorEq, or_self, Job.delivery.injEq,
        false_iff, not_and]
      rintro rfl hok
      rw [htr] at hok
      cases hok
    | ok t' =>
      simp only [List.mem_cons, reduceCtorEq, Effect.kafkaSend.injEq, List.not_mem_nil, or_false,
        false_or, Job.delivery.injEq]
      constructor
      · rintro ⟨rfl, rfl, rfl⟩
        exact ⟨rfl, htr, rfl⟩
      · rintro ⟨rfl, hok, rfl⟩
        rw [htr] at hok
        obtain rfl := Except.ok.inj hok
        exact ⟨rfl, rfl, rfl⟩

/-- The same for the calls of a list of jobs. -/
theorem kafkaSend_mem_flatMap {sourceId : String} {js : List Job} {m t : ChangeEvent}
    {result : Except String Unit} :
    Effect.kafkaSend m t result ∈ js.flatMap (Job.steps env sourceId) ↔
      m ∈ delivered js ∧ env.transform m = .ok t ∧ result = env.kafkaSend t := by
  rw [List.mem_flatMap, mem_delivered]
  constructor
  · rintro ⟨job, hjob, hmem⟩
    obtain ⟨rfl, h⟩ := kafkaSend_mem_steps.mp hmem
    exact ⟨hjob, h⟩
  · rintro ⟨hjob, h⟩
    exact ⟨_, hjob, kafkaSend_mem_steps.mpr ⟨rfl, h⟩⟩

/-- The mutation is in the dead letter queue, for one of the two reasons there are. -/
def DeadLettered (m : ChangeEvent) (effs : List Effect) : Prop :=
  ∃ record, Effect.routeToDlq record ∈ effs ∧ record.failedEvent = m

/-- A dead letter is a job of its own, or what a delivery comes to when the transform fails. -/
theorem routeToDlq_mem_steps {sourceId : String} {job : Job} {record : DlqRecord} :
    Effect.routeToDlq record ∈ job.steps env sourceId ↔ job = .deadLetter record ∨
      ∃ m err, job = .delivery m ∧ env.transform m = .error err ∧
        record = ⟨m, err, "WasmTransform", 1⟩ := by
  cases job with
  | deadLetter record' => simp [Job.steps, eq_comm]
  | delivery m =>
    cases htr : env.transform m with
    | ok t => simp [Job.steps, deliver, htr]
    | error err => simp [Job.steps, deliver, htr]

/-! ## The stored offset -/

/-- The offset an effect saves for a source. -/
def Effect.savedFor (sourceId : String) : Effect → Option String
  | .saveOffset s offset => if s = sourceId then some offset else none
  | _ => none

/-- An effect writes the offset that it saves, so the stored one is that of the last effect that
saves. -/
theorem writes_getOffset (sourceId : String) :
    LastWrite.Writes Effect.perform (fun store => store.getOffset sourceId)
      (Effect.savedFor sourceId) fun offset => .ok (some offset) := by
  intro store eff
  cases eff with
  | saveOffset s offset =>
    by_cases hs : s = sourceId
    · subst hs
      simp [Effect.perform, Effect.savedFor]
    · simp [Effect.perform, Effect.savedFor, hs, StateStore.getOffset_saveOffset_ne _ _ (Ne.symm hs)]
  | _ => rfl

/-- The store holds the last offset that was saved, or the one it started with. -/
theorem getOffset_runEffects (store : StateStore) (sourceId : String) (effs : List Effect) :
    (runEffects store effs).getOffset sourceId =
      ((effs.filterMap (Effect.savedFor sourceId)).getLast?).elim (store.getOffset sourceId)
        fun offset => .ok (some offset) :=
  (writes_getOffset sourceId).read_foldl store effs

/-- A job saves at most one offset, in its last call, so a crash within a job leaves the one before
it. -/
theorem filterMap_savedFor_steps (sourceId : String) (job : Job) :
    (job.steps env sourceId).filterMap (Effect.savedFor sourceId) = (job.saved env).toList := by
  cases job with
  | deadLetter record => rfl
  | delivery m =>
    simp only [Job.steps, Job.saved, deliver]
    cases env.transform m <;> simp [List.filterMap_cons, Effect.savedFor]

/-- A job that is only begun has saved nothing, since the offset is saved last. -/
theorem filterMap_savedFor_begun {sourceId : String} {rest : List Job} {begun : List Effect}
    (h : Begun (Job.steps env sourceId) rest begun) :
    begun.filterMap (Effect.savedFor sourceId) = [] := by
  obtain rfl | ⟨job, rest', -, hlm, hne⟩ := h
  · rfl
  · have hnone : ∀ eff ∈ begun, eff.savedFor sourceId = none := by
      cases job with
      | deadLetter record =>
        intro eff heff
        obtain rfl : eff = .routeToDlq record := by
          simpa [Job.steps] using hlm.subset heff
        rfl
      | delivery m =>
        simp only [Job.steps, deliver] at hlm hne
        cases htr : env.transform m with
        | error err =>
          rw [htr] at hlm
          intro eff heff
          have hmem := hlm.subset heff
          simp only [List.mem_cons, List.not_mem_nil, or_false] at hmem
          rcases hmem with rfl | rfl <;> rfl
        | ok t =>
          -- without its last call the delivery saves nothing
          rw [htr] at hlm hne
          have hinit : begun <+: [.transform m, .kafkaSend m t (env.kafkaSend t), .stdoutSend t] :=
            ((@List.prefix_concat_iff _ begun [_, _, _] _).mp hlm).resolve_left hne
          intro eff heff
          have hmem := hinit.subset heff
          simp only [List.mem_cons, List.not_mem_nil, or_false] at hmem
          rcases hmem with rfl | rfl | rfl <;> rfl
    exact List.filterMap_eq_nil_iff.mpr hnone

/-- **The stored offset is that of the last delivery that is done.** -/
theorem getOffset_cut {sourceId : String} {done rest : List Job} {begun : List Effect}
    (h : Begun (Job.steps env sourceId) rest begun) (store : StateStore) :
    (runEffects store (done.flatMap (Job.steps env sourceId) ++ begun)).getOffset sourceId =
      ((done.filterMap (Job.saved env)).getLast?).elim (store.getOffset sourceId)
        fun offset => .ok (some offset) := by
  have hsaved : (done.flatMap (Job.steps env sourceId)).filterMap (Effect.savedFor sourceId) =
      done.filterMap (Job.saved env) := by
    induction done with
    | nil => rfl
    | cons job done ih =>
      rw [List.flatMap_cons, List.filterMap_append, ih, filterMap_savedFor_steps,
        List.filterMap_cons]
      cases job.saved env <;> rfl
  rw [getOffset_runEffects, List.filterMap_append, filterMap_savedFor_begun h, List.append_nil,
    hsaved]

/-- The offset that a task starts from, with an error of the store read as no offset. -/
theorem lastOffset_eq (store : StateStore) (sourceId : String) :
    lastOffset store sourceId =
      match store.getOffset sourceId with
      | .ok offset => offset
      | .error _ => none := by
  unfold lastOffset resumeCheckpointOffset
  cases store.getOffset sourceId with
  | error err => rfl
  | ok o => cases o <;> rfl

/-- A loop can be stopped right after the checkpoint of any delivery. -/
theorem exists_take_delivery {sourceId : String} {js before after : List Job} {m t : ChangeEvent}
    (hjs : js = before ++ .delivery m :: after) (htr : env.transform m = .ok t)
    (store : StateStore) :
    ∃ n, (js.flatMap (Job.steps env sourceId)).take n =
        (before ++ [Job.delivery m]).flatMap (Job.steps env sourceId) ∧
      lastOffset (runEffects store ((js.flatMap (Job.steps env sourceId)).take n)) sourceId =
        some t.offset := by
  have htake : (js.flatMap (Job.steps env sourceId)).take
      ((before ++ [Job.delivery m]).flatMap (Job.steps env sourceId)).length =
        (before ++ [Job.delivery m]).flatMap (Job.steps env sourceId) := by
    rw [hjs, List.append_cons before _ after, take_length_flatMap]
  have hsaved : Job.saved env (.delivery m) = some t.offset := by simp only [Job.saved, htr]
  have hcut := @getOffset_cut env sourceId (before ++ [.delivery m]) [] [] (Or.inl rfl) store
  rw [List.append_nil, List.filterMap_append, List.filterMap_cons_some hsaved, List.filterMap_nil,
    List.getLast?_concat] at hcut
  refine ⟨_, htake, ?_⟩
  rw [htake, lastOffset_eq, hcut]
  rfl

/-- Wherever a loop is stopped, some of its jobs are done, and a stored offset is the one it started
with or that of a delivery that is done. -/
theorem exists_done_of_take (sourceId : String) (js : List Job) (n : ℕ) (store : StateStore) :
    ∃ done rest, js = done ++ rest ∧
      done.flatMap (Job.steps env sourceId) ⊆ (js.flatMap (Job.steps env sourceId)).take n ∧
      ∀ offset,
        lastOffset (runEffects store ((js.flatMap (Job.steps env sourceId)).take n)) sourceId =
          some offset →
        lastOffset store sourceId = some offset ∨
          ∃ w t, .delivery w ∈ done ∧ env.transform w = .ok t ∧ t.offset = offset := by
  obtain ⟨done, rest, begun, hjs, htake, hbegun⟩ :=
    exists_take_flatMap (Job.steps env sourceId) js n
  refine ⟨done, rest, hjs, ?_, fun offset hoffset => ?_⟩
  · rw [htake]
    exact List.subset_append_left _ _
  · rw [htake, lastOffset_eq, getOffset_cut hbegun] at hoffset
    -- either nothing was saved, or the last saved offset is that of a delivery
    cases hlast : (done.filterMap (Job.saved env)).getLast? with
    | none =>
      rw [hlast, Option.elim_none, ← lastOffset_eq] at hoffset
      exact Or.inl hoffset
    | some o =>
      rw [hlast] at hoffset
      obtain ⟨job, hjob, hsaved⟩ := List.mem_filterMap.mp (List.mem_of_getLast? hlast)
      obtain rfl : o = offset := by simpa using hoffset
      cases job with
      | deadLetter record => cases hsaved
      | delivery w =>
        cases htr : env.transform w with
        | error err => simp [Job.saved, htr] at hsaved
        | ok t =>
          refine Or.inr ⟨w, t, hjob, htr, ?_⟩
          simpa [Job.saved, htr] using hsaved

end Caminus.Pipeline

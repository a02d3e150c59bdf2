import Caminus.Buffer.Committed
import Caminus.Common.JsonText
import Caminus.Pipeline.Delivery

/-!
# The checkpoint and failing sinks

A loop saves the offset of a mutation whether or not Kafka took it. With transactions that do not
overlap the jobs of a loop follow the stream, so nothing else can be passed by the checkpoint: it
stays behind every undelivered mutation exactly when Kafka takes every mutation it is sent
(`checkpointSafe_iff`).
-/

namespace Caminus.Pipeline

open TransactionBuffer

/-- A stream of events without a transaction and of whole transactions: mutations directly followed
by their commit. The last transaction may still be open. -/
inductive NonOverlapping : List ChangeEvent → Prop
  | nil : NonOverlapping []
  | single {e : ChangeEvent} {rest : List ChangeEvent} (hnone : e.transactionId = none)
      (hrest : NonOverlapping rest) : NonOverlapping (e :: rest)
  | transaction {t : String} {ms : List ChangeEvent} {c : ChangeEvent} {rest : List ChangeEvent}
      (hms : ∀ m ∈ ms, m.transactionId = some t ∧ m.isMutation = true)
      (htx : c.transactionId = some t) (hop : c.operation = .commit)
      (hrest : NonOverlapping rest) : NonOverlapping (ms ++ c :: rest)
  | unfinished {t : String} {ms : List ChangeEvent}
      (hms : ∀ m ∈ ms, m.transactionId = some t ∧ m.isMutation = true) : NonOverlapping ms

variable {env : Env} {store : StateStore} {feed : Feed}

/-! ## The jobs follow the stream -/

/-- One of the jobs is about `m`: its delivery or its dead letter. -/
def HasJob (m : ChangeEvent) (js : List Job) : Prop :=
  .delivery m ∈ js ∨ ∃ record, .deadLetter record ∈ js ∧ record.failedEvent = m

/-- More jobs in front do no harm. -/
theorem HasJob.append_left {m : ChangeEvent} {js : List Job} (h : HasJob m js) (ks : List Job) :
    HasJob m (ks ++ js) := by
  obtain h | ⟨record, h, hm⟩ := h
  · exact Or.inl (List.mem_append_right _ h)
  · exact Or.inr ⟨record, List.mem_append_right _ h, hm⟩

/-- Nor do more jobs behind. -/
theorem HasJob.append_right {m : ChangeEvent} {js : List Job} (h : HasJob m js) (ks : List Job) :
    HasJob m (js ++ ks) := by
  obtain h | ⟨record, h, hm⟩ := h
  · exact Or.inl (List.mem_append_left _ h)
  · exact Or.inr ⟨record, List.mem_append_left _ h, hm⟩

/-- No transaction is open after a history, so that nothing is held in memory only. -/
def Closed (hist : List ChangeEvent) : Prop := ∀ t, pendingOf t hist = []

/-- A commit fails validation only when nothing can be validated. -/
theorem screen_of_commit_deadLetter {c : ChangeEvent} {record : DlqRecord}
    (hop : c.operation = .commit) (hc : screen env store feed c = .deadLetter record)
    (e : ChangeEvent) : ∃ record', screen env store feed e = .deadLetter record' := by
  cases feed with
  | cassandra => cases hc
  | postgres =>
    have herr : ∀ x : ChangeEvent, ∀ err,
        SchemaRegistry.validateEvent env.serde store "postgres_users" x = .error err →
        ∃ record', screen env store .postgres x = .deadLetter record' := by
      intro x err hx
      exact ⟨_, by simp only [screen, hx]; rfl⟩
    cases hschema : store.getSchema env.serde "postgres_users" with
    | error err => exact herr e _ (by simp only [SchemaRegistry.validateEvent, hschema]; rfl)
    | ok o =>
      cases o with
      | none =>
        simp only [screen, SchemaRegistry.validateEvent, hschema] at hc
        split_ifs at hc
      | some schema =>
        cases hfields : SchemaRegistry.fieldsOf schema with
        | none =>
          exact herr e _ (by
            simp only [SchemaRegistry.validateEvent, hschema, SchemaRegistry.validateAgainst, hfields]
            rfl)
        | some fields =>
          simp [screen, SchemaRegistry.validateEvent, hschema, SchemaRegistry.validateAgainst,
            hfields, hop] at hc
          split_ifs at hc

/-- The mutations of one transaction only cause dead letters, one for each that fails validation. -/
theorem jobs_mutations {t : String} {ms : List ChangeEvent}
    (hms : ∀ m ∈ ms, m.transactionId = some t ∧ m.isMutation = true)
    (hkept : ∀ m ∈ ms, screen env store feed m ≠ .filtered) (hist : List ChangeEvent) :
    (∀ m, .delivery m ∉ jobs env store feed hist ms) ∧
    ∀ m ∈ ms, reaches env store feed m = false → HasJob m (jobs env store feed hist ms) := by
  induction ms generalizing hist with
  | nil => exact ⟨fun _ => by simp [jobs], by simp⟩
  | cons x ms ih =>
    rw [List.forall_mem_cons] at hms hkept
    obtain ⟨hnone, hletters⟩ := ih hms.2 hkept.2 (advance env store feed hist x)
    have hflush : flushOf hist x = [] := by
      have hop : x.operation ≠ .commit := by
        intro hop
        simpa [ChangeEvent.isMutation, Operation.endsTransaction, hop] using hms.1.2
      simp [flushOf, hms.1.1, hop]
    rw [jobs]
    rcases screen_cases env store feed x with hs | hs | ⟨reason, hs⟩
    · have hjobs : jobsOf env store feed hist x = [] := by simp [jobsOf, hs, hflush]
      rw [hjobs, List.nil_append]
      refine ⟨hnone, fun m hm hreach => ?_⟩
      rcases List.mem_cons.mp hm with rfl | hm
      · simp [reaches, hs] at hreach
      · exact hletters m hm hreach
    · exact absurd hs hkept.1
    · have hjobs : jobsOf env store feed hist x =
          [.deadLetter ⟨x, reason, "SchemaValidation", 1⟩] := by simp [jobsOf, hs]
      rw [hjobs]
      refine ⟨fun m => by simpa using hnone m, fun m hm hreach => ?_⟩
      rcases List.mem_cons.mp hm with rfl | hm
      · exact Or.inr ⟨⟨m, reason, "SchemaValidation", 1⟩, by simp, rfl⟩
      · exact (hletters m hm hreach).append_left _

/-- What is pending after the mutations of one transaction, from a closed history. -/
theorem pendingOf_append_mutations {t : String} {ms : List ChangeEvent}
    (hms : ∀ m ∈ ms, m.transactionId = some t ∧ m.isMutation = true) {hist : List ChangeEvent}
    (hclosed : Closed hist) : pendingOf t (hist ++ ms) = ms := by
  induction ms using List.reverseRecOn with
  | nil => simpa using hclosed t
  | append_singleton ms x ih =>
    have hx := hms x (by simp)
    rw [← List.append_assoc, pendingOf_concat_of_mutation _ hx.1 hx.2,
      ih fun m hm => hms m (List.mem_append_left _ hm)]

/-- Where a delivered mutation stands among those of its transaction. -/
theorem exists_eq_of_deliveries {ms : List ChangeEvent} {js ks : List Job} {w : ChangeEvent}
    (h : (reaching env store feed ms).map .delivery = js ++ .delivery w :: ks) :
    ∃ before after, ms = before ++ w :: after ∧
      (reaching env store feed before).map .delivery = js := by
  obtain ⟨p, q, hpq, rfl, hq⟩ := List.map_eq_append_iff.mp h
  obtain ⟨w', q', rfl, hw, -⟩ := List.map_eq_cons_iff.mp hq
  obtain rfl := Job.delivery.inj hw
  obtain ⟨l₁, l₂, rfl, hp, hl₂⟩ := List.filter_eq_append_iff.mp hpq
  obtain ⟨a, b, rfl, ha, -, -⟩ := List.filter_eq_cons_iff.mp hl₂
  refine ⟨l₁ ++ a, b, by simp, ?_⟩
  rw [reaching, List.filter_append, hp, List.filter_eq_nil_iff.mpr ha, List.append_nil]

/-- A commit delivers the valid mutations of its transaction and leaves none open. If it fails
validation itself, no mutation was valid. -/
theorem jobsOf_commit {t : String} {ms hist : List ChangeEvent} {c : ChangeEvent}
    (hms : ∀ m ∈ ms, m.transactionId = some t ∧ m.isMutation = true)
    (htx : c.transactionId = some t) (hop : c.operation = .commit)
    (hkept : screen env store feed c ≠ .filtered) (hclosed : Closed hist) :
    Closed (advance env store feed (hist ++ reaching env store feed ms) c) ∧
    (jobsOf env store feed (hist ++ reaching env store feed ms) c =
        (reaching env store feed ms).map .delivery ∨
      reaching env store feed ms = [] ∧
        ∀ w, .delivery w ∉ jobsOf env store feed (hist ++ reaching env store feed ms) c) := by
  have hvalid : ∀ m ∈ reaching env store feed ms,
      m.transactionId = some t ∧ m.isMutation = true := fun m hm => hms m (List.mem_filter.mp hm).1
  rcases screen_cases env store feed c with hs | hs | ⟨reason, hs⟩
  · have hreach : reaches env store feed c = true := by simp [reaches, hs]
    have hpending := pendingOf_append_mutations hvalid hclosed
    refine ⟨fun u => ?_, Or.inl (by simp [jobsOf, hs, flushOf, htx, hop, hpending])⟩
    rw [advance, if_pos hreach]
    by_cases hu : u = t
    · rw [hu, pendingOf_concat_of_end _ htx
        (by simp [ChangeEvent.isMutation, Operation.endsTransaction, hop])]
    · have hne : (some t : Option String) ≠ some u := fun h => hu (Option.some.inj h).symm
      rw [pendingOf_concat_of_ne _ (htx ▸ hne),
        pendingOf_append_of_ne hist fun m hm => (hvalid m hm).1 ▸ hne]
      exact hclosed u
  · exact absurd hs hkept
  · have hreach : reaches env store feed c = false := by simp [reaches, hs]
    have hnil : reaching env store feed ms = [] := by
      refine List.filter_eq_nil_iff.mpr fun m _ hm => ?_
      obtain ⟨record, hscreen⟩ := screen_of_commit_deadLetter hop hs m
      simp [reaches, hscreen] at hm
    refine ⟨fun u => ?_, Or.inr ⟨hnil, fun w => by simp [jobsOf, hs]⟩⟩
    rw [advance, if_neg (by simp [hreach]), hnil, List.append_nil]
    exact hclosed u

/-- Once a transaction is committed, each of its mutations had its job. -/
theorem hasJob_of_mem_transaction {t : String} {ms hist : List ChangeEvent} {c : ChangeEvent}
    (hms : ∀ m ∈ ms, m.transactionId = some t ∧ m.isMutation = true)
    (htx : c.transactionId = some t) (hop : c.operation = .commit)
    (hkeptms : ∀ m ∈ ms, screen env store feed m ≠ .filtered)
    (hkept : screen env store feed c ≠ .filtered) (hclosed : Closed hist) {m : ChangeEvent}
    (hm : m ∈ ms) :
    HasJob m (jobs env store feed hist ms ++
      jobsOf env store feed (hist ++ reaching env store feed ms) c) := by
  cases hreach : reaches env store feed m with
  | false => exact ((jobs_mutations hms hkeptms hist).2 m hm hreach).append_right _
  | true =>
    have hmem : m ∈ reaching env store feed ms := List.mem_filter.mpr ⟨hm, hreach⟩
    obtain ⟨-, hdeliv | ⟨hnil, -⟩⟩ := jobsOf_commit hms htx hop hkept hclosed
    · rw [hdeliv]
      exact Or.inl (by simp [hmem])
    · rw [hnil] at hmem
      cases hmem

/-- An event outside any transaction has one job, about itself. -/
theorem jobsOf_single {e : ChangeEvent} (hnone : e.transactionId = none)
    (hkept : screen env store feed e ≠ .filtered) (hist : List ChangeEvent) :
    ∃ job, jobsOf env store feed hist e = [job] ∧ HasJob e [job] ∧ ∀ w, job = .delivery w → w = e := by
  rcases screen_cases env store feed e with hs | hs | ⟨reason, hs⟩
  · refine ⟨.delivery e, by simp [jobsOf, hs, flushOf, hnone], Or.inl (by simp), ?_⟩
    intro w hw
    exact (Job.delivery.inj hw).symm
  · exact absurd hs hkept
  · refine ⟨.deadLetter ⟨e, reason, "SchemaValidation", 1⟩, by simp [jobsOf, hs],
      Or.inr ⟨_, List.mem_singleton.mpr rfl, rfl⟩, ?_⟩
    intro w hw
    cases hw

theorem Closed.advance_single {hist : List ChangeEvent} (h : Closed hist) {e : ChangeEvent}
    (hnone : e.transactionId = none) : Closed (advance env store feed hist e) := by
  intro t
  unfold advance
  split_ifs
  · rw [pendingOf_concat_of_ne hist (by simp [hnone])]
    exact h t
  · exact h t

/-- When transactions do not overlap, a mutation is delivered only after every earlier mutation had
its job. -/
theorem jobs_follow {evs : List ChangeEvent} (hevs : NonOverlapping evs)
    (hkept : ∀ e ∈ evs, screen env store feed e ≠ .filtered) {hist : List ChangeEvent}
    (hclosed : Closed hist) {js ks : List Job} {w : ChangeEvent}
    (hjobs : jobs env store feed hist evs = js ++ .delivery w :: ks) :
    ∃ before after, evs = before ++ w :: after ∧
      ∀ m ∈ before, m.isMutation = true → HasJob m js := by
  induction hevs generalizing hist js with
  | nil => simp [jobs] at hjobs
  | @single e rest hnone _ ih =>
    rw [List.forall_mem_cons] at hkept
    obtain ⟨job, hone, hhas, hdel⟩ := jobsOf_single hnone hkept.1 hist
    rw [jobs, hone] at hjobs
    rcases append_eq_append_cons hjobs with ⟨after', hl⟩ | ⟨js', rfl, hrest⟩
    · -- the job of `e` itself
      cases js with
      | nil =>
        obtain rfl := hdel w (List.cons.inj hl).1
        exact ⟨[], rest, rfl, by simp⟩
      | cons j js => simp at hl
    · obtain ⟨before, after, rfl, hbefore⟩ := ih hkept.2 (hclosed.advance_single hnone) hrest
      refine ⟨e :: before, after, rfl, fun m hm hmut => ?_⟩
      rcases List.mem_cons.mp hm with rfl | hm
      · exact hhas.append_right _
      · exact (hbefore m hm hmut).append_left _
  | @transaction t ms c rest hms htx hop _ ih =>
    have hkeptms : ∀ m ∈ ms, screen env store feed m ≠ .filtered :=
      fun m hm => hkept m (List.mem_append_left _ hm)
    obtain ⟨hnone, hletters⟩ := jobs_mutations hms hkeptms hist
    obtain ⟨hclosed', hcommit⟩ := jobsOf_commit hms htx hop (hkept c (by simp)) hclosed
    rw [jobs_append, jobs] at hjobs
    rcases append_eq_append_cons hjobs with ⟨after', hl⟩ | ⟨js', rfl, htail⟩
    · exact absurd (by rw [hl]; simp) (hnone w)
    · rcases append_eq_append_cons htail with ⟨after', hatc⟩ | ⟨js'', rfl, hrest⟩
      · -- delivered by this commit
        rcases hcommit with hdeliv | ⟨-, hno⟩
        · rw [hdeliv] at hatc
          obtain ⟨before, after, rfl, rfl⟩ := exists_eq_of_deliveries hatc
          refine ⟨before, after ++ c :: rest, by simp, fun m hm hmut => ?_⟩
          cases hreach : reaches env store feed m with
          | false => exact (hletters m (List.mem_append_left _ hm) hreach).append_right _
          | true =>
            have hmem : m ∈ reaching env store feed before := List.mem_filter.mpr ⟨hm, hreach⟩
            exact Or.inl (List.mem_append_right _ (List.mem_map_of_mem hmem))
        · exact absurd (by rw [hatc]; simp) (hno w)
      · -- delivered later
        obtain ⟨before, after, rfl, hbefore⟩ := ih (fun e he => hkept e (by simp [he])) hclosed' hrest
        refine ⟨ms ++ c :: before, after, by simp, fun m hm hmut => ?_⟩
        rcases List.mem_append.mp hm with hm | hm
        · rw [← List.append_assoc]
          exact (hasJob_of_mem_transaction hms htx hop hkeptms (hkept c (by simp)) hclosed
            hm).append_right _
        · rcases List.mem_cons.mp hm with rfl | hm
          · simp [ChangeEvent.isMutation, Operation.endsTransaction, hop] at hmut
          · exact ((hbefore m hm hmut).append_left _).append_left _
  | @unfinished t ms hms =>
    exact absurd (by rw [hjobs]; simp) ((jobs_mutations hms hkept hist).1 w)

/-! ## Runs with failing sinks -/

/-- Kafka has taken the mutation: it was sent and the broker has answered with `Ok`. -/
def Accepted (m : ChangeEvent) (effs : List Effect) : Prop :=
  ∃ transformed, Effect.kafkaSend m transformed (.ok ()) ∈ effs

/-- A dead letter among the jobs is that of an event that failed validation. -/
theorem exists_of_deadLetter_mem_jobs {hist evs : List ChangeEvent} {record : DlqRecord}
    (h : .deadLetter record ∈ jobs env store feed hist evs) :
    ∃ e ∈ evs, screen env store feed e = .deadLetter record := by
  induction evs generalizing hist with
  | nil => simp [jobs] at h
  | cons e evs ih =>
    rw [jobs] at h
    rcases List.mem_append.mp h with h | h
    · refine ⟨e, List.mem_cons_self, ?_⟩
      rcases screen_cases env store feed e with hs | hs | ⟨reason, hs⟩ <;> simp [jobsOf, hs] at h
      rw [hs, h]
    · obtain ⟨e', he', hs⟩ := ih h
      exact ⟨e', List.mem_cons_of_mem _ he', hs⟩

/-- A job about `m` has led to Kafka, if it takes `m`, or to the dead letter queue. -/
theorem HasJob.accepted_or_deadLettered {m : ChangeEvent} {js : List Job} {sourceId : String}
    (h : HasJob m js)
    (hsend : .delivery m ∈ js → ∀ t, env.transform m = .ok t → env.kafkaSend t = .ok ()) :
    Accepted m (js.flatMap (Job.steps env sourceId)) ∨
      DeadLettered m (js.flatMap (Job.steps env sourceId)) := by
  obtain hjob | ⟨record, hjob, hrecord⟩ := h
  · cases htr : env.transform m with
    | ok t =>
      refine Or.inl ⟨t, kafkaSend_mem_flatMap.mpr ⟨mem_delivered.mpr hjob, htr, ?_⟩⟩
      exact (hsend hjob t htr).symm
    | error err =>
      refine Or.inr ⟨⟨m, err, "WasmTransform", 1⟩, List.mem_flatMap.mpr ⟨_, hjob, ?_⟩, rfl⟩
      exact routeToDlq_mem_steps.mpr (Or.inr ⟨m, err, rfl, htr, rfl⟩)
  · refine Or.inr ⟨record, List.mem_flatMap.mpr ⟨_, hjob, ?_⟩, hrecord⟩
    exact routeToDlq_mem_steps.mpr (Or.inl rfl)

variable (env store feed) in
/-- The event is not a watermark row that the snapshotter filters out. -/
def isKept (e : ChangeEvent) : Bool :=
  match screen env store feed e with
  | .filtered => false
  | _ => true

/-- Filtered events cause no calls, so the loop may be read as one over the kept events. -/
theorem jobs_filter_isKept (hist evs : List ChangeEvent) :
    jobs env store feed hist (evs.filter (isKept env store feed)) =
      jobs env store feed hist evs := by
  induction evs generalizing hist with
  | nil => rfl
  | cons e evs ih =>
    rw [List.filter_cons]
    cases hs : screen env store feed e with
    | filtered => simp [isKept, hs, ih, jobs, jobsOf, advance, reaches]
    | _ => simp [isKept, hs, ih, jobs]

/-- A run of a loop on a leading node. The sink and the transformer answer as they like, except that
a transformed event keeps its offset; the events that the loop handles have increasing offsets above
the checkpoint it starts from, and their transactions do not overlap. Events that the filter reports
as duplicates and watermark rows are not handled. -/
structure SinkRun (feed : Feed) where
  env : Env
  store : StateStore
  results : List (Except String ChangeEvent)
  keepsOffset : ∀ m t, env.transform m = .ok t → t.offset = m.offset
  increasing : ((admitted (results.map (⟨true, ·⟩))).filter (isKept env store feed)).Pairwise
    (·.position < ·.position)
  nonOverlapping : NonOverlapping
    ((admitted (results.map (⟨true, ·⟩))).filter (isKept env store feed))
  ahead : ∀ e ∈ (admitted (results.map (⟨true, ·⟩))).filter (isKept env store feed), ∀ offset,
    lastOffset store feed.sourceId = some offset → startPosition (some offset) < e.position

namespace SinkRun

variable (r : SinkRun feed)

/-- The events that the loop handles: those before the first error of the source, without duplicates
and without the watermark rows that the loop filters out. -/
def events : List ChangeEvent :=
  (admitted (r.results.map (⟨true, ·⟩))).filter (isKept r.env r.store feed)

/-- The calls of the run, all of it under one leader. -/
def calls : List Effect := trace r.env r.store (r.results.map (⟨true, ·⟩)) feed

/-- In every state of the run, each mutation up to the stored offset was taken by Kafka or is in the
dead letter queue. -/
def CheckpointSafe : Prop :=
  ∀ n m offset, m ∈ r.events → m.isMutation = true →
    lastOffset (runEffects r.store (r.calls.take n)) feed.sourceId = some offset →
    m.position ≤ startPosition (some offset) →
    Accepted m (r.calls.take n) ∨ DeadLettered m (r.calls.take n)

/-- Kafka takes every mutation it is sent: every valid mutation that is outside a transaction or
committed, once it is transformed. -/
def SendsSucceed : Prop :=
  ∀ m t, m.isMutation = true → Committed (reaching r.env r.store feed r.events) m →
    r.env.transform m = .ok t → r.env.kafkaSend t = .ok ()

/-- The calls of the run are the steps of its jobs. -/
theorem calls_eq : r.calls =
    (jobs r.env r.store feed [] r.events).flatMap (Job.steps r.env feed.sourceId) := by
  rw [calls, trace_eq_flatMap, events, jobs_filter_isKept]

/-- The run is stopped right after the checkpoint of a delivery: its mutation must have been taken,
as it is not in the dead letter queue. -/
theorem sendsSucceed_of_checkpointSafe (hsafe : r.CheckpointSafe) : r.SendsSucceed := by
  intro m t hmut hm htr
  have hreach : m ∈ r.events ∧ reaches r.env r.store feed m = true := List.mem_filter.mp hm.mem
  obtain ⟨js, ks, hjobs⟩ := List.append_of_mem (delivery_mem_jobs_iff.mpr hm)
  obtain ⟨n, htake, hoffset⟩ := exists_take_delivery hjobs htr r.store
  rw [← calls_eq] at htake hoffset
  rw [r.keepsOffset m t htr] at hoffset
  rcases hsafe n m m.offset hreach.1 hmut hoffset (Nat.le_refl _) with ⟨t', hsend⟩ | ⟨record, hdlq, hm'⟩
  · rw [htake] at hsend
    obtain ⟨-, htr', hresult⟩ := kafkaSend_mem_flatMap.mp hsend
    obtain rfl : t = t' := by simpa [htr] using htr'
    exact hresult.symm
  · -- `m` is valid and is transformed, so it has no dead letter
    rw [htake] at hdlq
    obtain ⟨job, hjob, hmem⟩ := List.mem_flatMap.mp hdlq
    rcases routeToDlq_mem_steps.mp hmem with rfl | ⟨m', err, rfl, herr, rfl⟩
    · have hin : .deadLetter record ∈ jobs r.env r.store feed [] r.events := by
        rw [hjobs]
        rcases List.mem_append.mp hjob with hjob | hjob
        · exact List.mem_append_left _ hjob
        · simp at hjob
      obtain ⟨e, -, hs⟩ := exists_of_deadLetter_mem_jobs hin
      rcases screen_cases r.env r.store feed e with h | h | ⟨reason, h⟩
      · simp [hs] at h
      · simp [hs] at h
      · obtain rfl := Screening.deadLetter.inj (hs.symm.trans h)
        obtain rfl : e = m := hm'
        simp [reaches, hs] at hreach
    · obtain rfl : m' = m := hm'
      simp [htr] at herr

/-- A stored offset is that of a delivery that is done. With transactions that do not overlap, every
earlier mutation has its job before that one. -/
theorem checkpointSafe_of_sendsSucceed (hsend : r.SendsSucceed) : r.CheckpointSafe := by
  intro n m offset hm hmut hoffset hle
  obtain ⟨done, rest, hjobs, hdone, hstored⟩ := @exists_done_of_take r.env feed.sourceId
    (jobs r.env r.store feed [] r.events) n r.store
  rw [← calls_eq] at hdone hstored
  -- the checkpoint is that of a delivery that is done
  obtain hstart | ⟨w, t, hw, htr, hwoffset⟩ := hstored offset hoffset
  · exact absurd hle (Nat.not_le.mpr (r.ahead m hm offset hstart))
  rw [r.keepsOffset w t htr] at hwoffset
  obtain ⟨js, ks, rfl⟩ := List.append_of_mem hw
  have hwm : m.position ≤ w.position := by rwa [← hwoffset] at hle
  have hkept : ∀ e ∈ r.events, screen r.env r.store feed e ≠ .filtered := by
    intro e he hs
    have := (List.mem_filter.mp he).2
    simp [isKept, hs] at this
  have hclosed : Closed [] := fun _ => rfl
  rw [List.append_assoc, List.cons_append] at hjobs
  -- the jobs come in the order of the stream
  obtain ⟨before, after, hevents, hbefore⟩ := jobs_follow r.nonOverlapping hkept hclosed hjobs
  have hhas : HasJob m (js ++ .delivery w :: ks) := by
    change r.events = _ at hevents
    have hsorted : (before ++ w :: after).Pairwise (·.position < ·.position) := hevents ▸ r.increasing
    rw [hevents] at hm
    rcases List.mem_append.mp hm with hm | hm
    · exact (hbefore m hm hmut).append_right _
    · rcases List.mem_cons.mp hm with rfl | hm
      · exact Or.inl (by simp)
      · have hlt := (List.pairwise_cons.mp (List.pairwise_append.mp hsorted).2.1).1 m hm
        omega
  -- what a job that is done has led to
  have hled := @HasJob.accepted_or_deadLettered r.env m _ feed.sourceId hhas fun hjob t htr => by
    refine hsend m t hmut (delivery_mem_jobs_iff.mp ?_) htr
    change jobs r.env r.store feed [] r.events = _ at hjobs
    rw [hjobs]
    rcases List.mem_append.mp hjob with h | h
    · exact List.mem_append_left _ h
    · refine List.mem_append_right _ ?_
      rcases List.mem_cons.mp h with h | h
      · rw [h]
        exact List.mem_cons_self
      · exact List.mem_cons_of_mem _ (List.mem_append_left _ h)
  rcases hled with ⟨t, h⟩ | ⟨record, h, hrecord⟩
  · exact Or.inl ⟨t, hdone h⟩
  · exact Or.inr ⟨record, hdone h, hrecord⟩

/-- One event, and a sink that does not reach its broker: it answers every `send` with an error. -/
def brokerDown (serde : SerdeJson) : SinkRun .postgres where
  env := ⟨serde, .ok, fun _ => .error "Broker connection error: timed out"⟩
  store := startup serde .new
  results := [.ok (userEvent 1 .create none)]
  keepsOffset := by
    rintro m t h
    rw [Except.ok.inj h]
  increasing := List.Pairwise.sublist List.filter_sublist (List.pairwise_singleton _ _)
  nonOverlapping := by
    have hsub : ∀ p : ChangeEvent → Bool,
        NonOverlapping ([userEvent 1 .create none].filter p) := by
      intro p
      rw [List.filter_singleton]
      cases p (userEvent 1 .create none)
      · exact .nil
      · exact .single rfl .nil
    exact hsub _
  ahead := by
    intro e _ offset h
    rw [lastOffset_eq, getOffset_startup] at h
    cases h

end SinkRun

end Caminus.Pipeline

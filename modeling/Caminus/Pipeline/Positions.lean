import Caminus.Pipeline.Delivery

/-!
# Checkpoints and positions of the source

The loops of `src/main.rs` keep the mutation they transform, send its transformed form and store the
offset of that form. A transform rewrites whole events, so this is a position of the source exactly if
the transform leaves the offsets of the delivered mutations alone (`sourcePositions_iff`). The string
that is stored is what the next `start_stream` parses.
-/

namespace Caminus.Pipeline

/-- After every iteration: what was stored is the offset of the mutation just sent, and a restart
resumes at the offset of an event of the stream, or where this run has started. -/
structure SourcePositions (env : Env) (store : StateStore) (feed : Feed) (items : List Item) :
    Prop where
  saved : ∀ sofar, sofar <+: items → ∀ before sourceId offset after,
    trace env store sofar feed = before ++ .saveOffset sourceId offset :: after →
    sourceId = feed.sourceId ∧
      ∃ m transformed result, m ∈ consumed sofar ∧ env.transform m = .ok transformed ∧
        [.kafkaSend m transformed result, .stdoutSend transformed] <:+ before ∧ offset = m.offset
  resumes : ∀ sofar, sofar <+: items → ∀ n offset,
    lastOffset (runEffects store ((trace env store sofar feed).take n)) feed.sourceId = some offset →
    lastOffset store feed.sourceId = some offset ∨ ∃ m ∈ consumed sofar, m.offset = offset

variable {env : Env} {store : StateStore} {feed : Feed}

/-- The calls of the first iterations come first. -/
theorem trace_isPrefix {sofar items : List Item} (h : sofar <+: items) :
    trace env store sofar feed <+: trace env store items feed := by
  obtain ⟨rest, rfl⟩ := h
  cases feed with
  | postgres =>
    rw [trace, trace, Mealy.outputs_append, List.flatten_append]
    exact List.prefix_append _ _
  | cassandra =>
    rw [trace, trace, Mealy.outputs_append, List.flatten_append]
    exact List.prefix_append _ _

/-- What is delivered was consumed from the stream. -/
theorem mem_consumed_of_committed {items : List Item} {m : ChangeEvent}
    (h : TransactionBuffer.Committed (reaching env store feed (admitted items)) m) :
    m ∈ consumed items :=
  (DeduplicationFilter.fresh_sublist _ _).subset (List.mem_of_mem_filter h.mem)

/-- An offset is only stored at the end of a delivery, right after the transformed mutation was
sent. -/
theorem steps_eq_append_saveOffset {sourceId : String} {job : Job} {begun left : List Effect}
    {s offset : String}
    (h : job.steps env sourceId = begun ++ .saveOffset s offset :: left) :
    s = sourceId ∧ ∃ m transformed, job = .delivery m ∧ env.transform m = .ok transformed ∧
      offset = transformed.offset ∧
      begun = [.transform m, .kafkaSend m transformed (env.kafkaSend transformed),
        .stdoutSend transformed] := by
  cases job with
  | deadLetter record =>
    have hmem : Effect.saveOffset s offset ∈ Job.steps env sourceId (.deadLetter record) := by
      rw [h]
      simp
    simp [Job.steps] at hmem
  | delivery m =>
    cases htr : env.transform m with
    | error err =>
      have hmem : Effect.saveOffset s offset ∈ Job.steps env sourceId (.delivery m) := by
        rw [h]
        simp
      simp [Job.steps, deliver, htr] at hmem
    | ok transformed =>
      have hsteps : Job.steps env sourceId (.delivery m) =
          [.transform m, .kafkaSend m transformed (env.kafkaSend transformed),
            .stdoutSend transformed] ++ [.saveOffset sourceId transformed.offset] := by
        simp only [Job.steps, deliver, htr]
        rfl
      rw [hsteps] at h
      -- only the last call stores an offset
      rcases concat_eq_append_cons h with ⟨-, rfl, heff⟩ | ⟨left', -, hinit⟩
      · obtain ⟨rfl, rfl⟩ := Effect.saveOffset.inj heff
        exact ⟨rfl, m, transformed, rfl, htr, rfl, rfl⟩
      · have hmem : Effect.saveOffset s offset ∈ begun ++ .saveOffset s offset :: left' := by simp
        rw [← hinit] at hmem
        simp at hmem

/-- A stored offset is that of the transformed form that was sent right before. -/
theorem exists_of_saveOffset {items : List Item} {before after : List Effect}
    {sourceId offset : String}
    (h : trace env store items feed = before ++ .saveOffset sourceId offset :: after) :
    sourceId = feed.sourceId ∧ ∃ m transformed,
      TransactionBuffer.Committed (reaching env store feed (admitted items)) m ∧
      env.transform m = .ok transformed ∧ offset = transformed.offset ∧
      [.kafkaSend m transformed (env.kafkaSend transformed), .stdoutSend transformed] <:+ before := by
  rw [trace_eq_flatMap] at h
  obtain ⟨done, job, rest, begun, left, hjobs, hsteps, rfl⟩ := flatMap_eq_append_cons h
  obtain ⟨hsource, m, transformed, rfl, htr, hoffset, rfl⟩ := steps_eq_append_saveOffset hsteps
  refine ⟨hsource, m, transformed, ?_, htr, hoffset, ?_⟩
  · rw [← delivery_mem_jobs_iff, hjobs]
    simp
  · exact ⟨done.flatMap (Job.steps env feed.sourceId) ++ [.transform m], by simp⟩

/-- What is delivered in the first iterations is delivered. -/
theorem committed_of_isPrefix {sofar items : List Item} (h : sofar <+: items)
    {m transformed : ChangeEvent} (htr : env.transform m = .ok transformed)
    (hm : TransactionBuffer.Committed (reaching env store feed (admitted sofar)) m) :
    TransactionBuffer.Committed (reaching env store feed (admitted items)) m := by
  have hsent : Effect.kafkaSend m transformed (env.kafkaSend transformed) ∈
      trace env store sofar feed := by
    rw [trace_eq_flatMap, kafkaSend_mem_flatMap, mem_delivered, delivery_mem_jobs_iff]
    exact ⟨hm, htr, rfl⟩
  have hlater := (trace_isPrefix h).subset hsent
  rw [trace_eq_flatMap, kafkaSend_mem_flatMap, mem_delivered, delivery_mem_jobs_iff] at hlater
  exact hlater.1

/-- A mutation that is delivered is sent, and then the offset of its transformed form is stored. -/
theorem exists_trace_eq_of_committed {items : List Item} {m transformed : ChangeEvent}
    (htr : env.transform m = .ok transformed)
    (hm : TransactionBuffer.Committed (reaching env store feed (admitted items)) m) :
    ∃ before after, trace env store items feed =
        before ++ .saveOffset feed.sourceId transformed.offset :: after ∧
      [.kafkaSend m transformed (env.kafkaSend transformed), .stdoutSend transformed] <:+ before := by
  obtain ⟨done, rest, hjobs⟩ := List.append_of_mem (delivery_mem_jobs_iff.mpr hm)
  refine ⟨done.flatMap (Job.steps env feed.sourceId) ++ [.transform m] ++
      [.kafkaSend m transformed (env.kafkaSend transformed), .stdoutSend transformed],
    rest.flatMap (Job.steps env feed.sourceId), ?_, List.suffix_append _ _⟩
  rw [trace_eq_flatMap, hjobs, List.flatMap_append, List.flatMap_cons]
  simp [Job.steps, deliver, htr]

/-- **The checkpoint is a position of the source exactly if the transform keeps the offset** of
every mutation that is delivered: what is saved is the offset of the transformed event. -/
theorem sourcePositions_iff (env : Env) (store : StateStore) (feed : Feed) (items : List Item) :
    SourcePositions env store feed items ↔
      ∀ m, TransactionBuffer.Committed (reaching env store feed (admitted items)) m →
        ∀ transformed, env.transform m = .ok transformed → transformed.offset = m.offset := by
  constructor
  · intro h m hm transformed htr
    obtain ⟨before, after, htrace, hsent⟩ := exists_trace_eq_of_committed htr hm
    obtain ⟨-, m', transformed', result, -, -, hsent', hoffset⟩ :=
      h.saved items (List.prefix_refl _) before _ _ after htrace
    -- what was sent last is this mutation
    have heq := (List.suffix_of_suffix_length_le hsent' hsent (Nat.le_refl _)).eq_of_length rfl
    obtain ⟨rfl, -⟩ := Effect.kafkaSend.inj (List.head_eq_of_cons_eq heq)
    exact hoffset
  · intro h
    refine ⟨fun sofar hsofar before sourceId offset after htrace => ?_,
      fun sofar hsofar n offset hlast => ?_⟩
    · obtain ⟨hsource, m, transformed, hm, htr, rfl, hsent⟩ := exists_of_saveOffset htrace
      refine ⟨hsource, m, transformed, _, mem_consumed_of_committed hm, htr, hsent, ?_⟩
      exact h m (committed_of_isPrefix hsofar htr hm) transformed htr
    · rw [trace_eq_flatMap] at hlast
      -- wherever the process stops, the stored offset is that of a delivery that is done, or the
      -- one at the start
      obtain ⟨done, rest, hjobs, -, hdone⟩ := exists_done_of_take feed.sourceId _ n store
      rcases hdone offset hlast with hstart | ⟨m, transformed, hmem, htr, rfl⟩
      · exact Or.inl hstart
      · have hm : TransactionBuffer.Committed (reaching env store feed (admitted sofar)) m := by
          rw [← delivery_mem_jobs_iff, hjobs]
          exact List.mem_append_left _ hmem
        refine Or.inr ⟨m, mem_consumed_of_committed hm, ?_⟩
        exact (h m (committed_of_isPrefix hsofar htr hm) transformed htr).symm

/-- A transform that rewrites the offset of every event. -/
def rewritingOffsets (serde : SerdeJson) : Env :=
  { Env.passthrough serde with transform := fun event => .ok { event with offset := "rewritten" } }

/-- The checkpoint of one Cassandra event is an offset that the source has never emitted, and from
which it would not resume where it was. -/
theorem not_sourcePositions_rewritten :
    ¬SourcePositions (rewritingOffsets .compact) .new .cassandra
      (leading [userEvent 1 .create none]) := by
  intro h
  obtain ⟨-, m, transformed, result, hm, -, -, hoffset⟩ :=
    h.saved _ (List.prefix_refl _) [_, _, _] "cassandra_sensors" "rewritten" [] rfl
  rw [consumed_leading, List.mem_singleton] at hm
  subst hm
  exact absurd hoffset (by decide)

end Caminus.Pipeline

import Caminus.Common.JsonText
import Caminus.Common.Resumption
import Caminus.Pipeline.Delivery
import Caminus.Source.Streams

/-!
# Crashes and restarts over the engine's own sources

The sources of the repository number their events, and a transaction of the PostgreSQL source is four
consecutive numbers. Whatever offset a process starts from, it delivers the mutations after it in
order, so a process is an attempt in the sense of `Caminus.Resumption`: over any number of crashes no
mutation is skipped, and each restart repeats at most one (`restarts_gapFree`).
-/

namespace Caminus.Pipeline

open TransactionBuffer Resumption

/-! ## Processes -/

/-- The event of a source with a sequence number. -/
def sourceEvent (s : Surroundings) : Feed → ℕ → ChangeEvent
  | .postgres => PostgresSource.event s
  | .cassandra => CassandraSource.event s

/-- The error of a source that cannot connect. -/
def Feed.outage : Feed → String
  | .postgres => "Postgres connection failed: Simulated Postgres database outage"
  | .cassandra => "CDC directory access error: Simulated Cassandra CommitLog folder lock error"

/-- A sequence number at which a source generates a mutation. -/
def IsMutationSeq (feed : Feed) (q : ℕ) : Prop :=
  0 < q ∧ ∀ s, (sourceEvent s feed q).isMutation = true

/-- A process: what its source reads, how many events it yields and how many calls are made before
the process is stopped. -/
structure Process where
  surroundings : Surroundings
  events : ℕ
  steps : ℕ

/-- The offset of the mutation that an effect sends. -/
def Effect.sentAt : Effect → Option ℕ
  | .kafkaSend m _ _ => some m.position
  | _ => none

variable (serde : SerdeJson) (feed : Feed)

/-- The sequence number stored for the source. -/
def storedSeq (store : StateStore) : ℕ := startPosition (lastOffset store feed.sourceId)

namespace Process

variable (p : Process) (store : StateStore)

/-- The events of the stream that the process opens; none if it cannot connect. -/
def stream : List ChangeEvent :=
  match (startStream feed.outage 0 (lastOffset (startup serde store) feed.sourceId)).1 with
  | .ok start => unfoldFrom (sourceEvent p.surroundings feed) start p.events
  | .error _ => []

/-- The calls of the process until it is stopped, from a store. -/
def calls : List Effect :=
  (trace (.passthrough serde) (startup serde store) (leading (p.stream serde feed store)) feed).take
    p.steps

/-- The store the process leaves behind, which the next one starts from. -/
def storeAfter : StateStore := runEffects (startup serde store) (p.calls serde feed store)

/-- The offsets of the mutations it sends, in order. -/
def sends : List ℕ := (p.calls serde feed store).filterMap Effect.sentAt

end Process

/-- The stores after any number of processes, each started on what the one before it left, with the
offsets that each of them sent. Sequence numbers stay in `u64`. -/
inductive Restarts : StateStore → List (List ℕ) → Prop
  | fresh : Restarts .new []
  | process {store : StateStore} {runs : List (List ℕ)} (h : Restarts store runs) (p : Process)
      (hbound : storedSeq feed store + p.events < 2 ^ 64) :
      Restarts (p.storeAfter serde feed store) (runs ++ [p.sends serde feed store])

variable {serde feed}

/-! ## The events of the sources -/

/-- Surroundings without a clock. -/
def quiet : Surroundings := ⟨fun _ => 0, fun _ => "", fun _ => .posInt 0⟩

/-- Every fourth event of the PostgreSQL source is a commit. -/
theorem isMutation_postgres (s : Surroundings) (q : ℕ) :
    (PostgresSource.event s q).isMutation = true ↔ q % 4 ≠ 0 := by
  by_cases h0 : q % 4 = 0
  · simp [PostgresSource.event, ChangeEvent.isMutation, Operation.endsTransaction, h0]
  · by_cases h1 : q % 4 = 1 <;>
      simp [PostgresSource.event, ChangeEvent.isMutation, Operation.endsTransaction, h0, h1]

/-- Whether a sequence number is that of a mutation does not depend on the surroundings. -/
theorem isMutationSeq_iff (s : Surroundings) {feed : Feed} {q : ℕ} :
    IsMutationSeq feed q ↔ 0 < q ∧ (sourceEvent s feed q).isMutation = true := by
  constructor
  · intro h
    exact ⟨h.1, h.2 s⟩
  · intro h
    refine ⟨h.1, fun s' => ?_⟩
    cases feed with
    | postgres => exact (isMutation_postgres s' q).mpr ((isMutation_postgres s q).mp h.2)
    | cassandra => rfl

instance : DecidablePred (IsMutationSeq feed) := fun _ =>
  decidable_of_iff _ (isMutationSeq_iff quiet).symm

/-- The offset of an event is its sequence number, in digits. -/
theorem offset_sourceEvent (s : Surroundings) (feed : Feed) (q : ℕ) :
    (sourceEvent s feed q).offset = q.repr := by
  cases feed <;> rfl

/-- The offset is read back as the sequence number, as long as it stays in `u64`. -/
theorem position_sourceEvent (s : Surroundings) (feed : Feed) {q : ℕ} (hq : q < 2 ^ 64) :
    (sourceEvent s feed q).position = q := by
  rw [ChangeEvent.position, offset_sourceEvent, startPosition_repr hq]

/-- Events with different sequence numbers have different ids. -/
theorem id_sourceEvent_injective (s : Surroundings) (feed : Feed) :
    Function.Injective fun q => (sourceEvent s feed q).id := by
  intro q q' h
  cases feed with
  | postgres => exact eq_of_repr_eq ((String.append_right_inj "pg-evt-").mp h)
  | cassandra => exact eq_of_repr_eq ((String.append_right_inj "cas-evt-").mp h)

/-- The generated users pass the schema of `main`. -/
theorem validateAgainst_postgres (s : Surroundings) (q : ℕ) :
    SchemaRegistry.validateAgainst serde userSchema (PostgresSource.event s q) = .ok () := by
  by_cases hcommit : q % 4 = 0
  · have hop : (PostgresSource.event s q).operation = .commit := by
      simp [PostgresSource.event, hcommit]
    simp [SchemaRegistry.validateAgainst, fieldsOf_userSchema, hop]
  · have hafter : (PostgresSource.event s q).after =
        some (Json.obj [("id", .nat q), ("name", .string ("User " ++ q.repr)),
          ("email", .string ("user" ++ q.repr ++ "@caminus.io"))]) := by
      simp [PostgresSource.event, hcommit]
    refine validateAgainst_userSchema q ("User " ++ q.repr)
      ((congrArg (Option.bind · Json.asObject) hafter).trans (Json.asObject_ofMap _)) ?_ ?_
    · simp [Map.ofList]
    · simp [Map.ofList]

/-- Every event of a source reaches the buffer of its loop. -/
theorem screen_sourceEvent {store : StateStore}
    (hschema : store.getSchema serde "postgres_users" = .ok (some userSchema)) (s : Surroundings)
    (feed : Feed) (q : ℕ) :
    screen (.passthrough serde) store feed (sourceEvent s feed q) = .forwarded := by
  cases feed with
  | cassandra => rfl
  | postgres =>
    have hvalid : SchemaRegistry.validateEvent serde store "postgres_users"
        (PostgresSource.event s q) = .ok () := by
      rw [SchemaRegistry.validateEvent, hschema]
      exact validateAgainst_postgres s q
    have hrow : (PostgresSource.event s q).isWatermarkRow = false := rfl
    simp [screen, sourceEvent, Env.passthrough, hvalid, hrow]

/-! ## What leaves the buffer -/

/-- The events of a source after `p`, of which a process gets to read `n`. -/
def eventsAfter (s : Surroundings) (feed : Feed) (p n : ℕ) : List ChangeEvent :=
  (List.range' (p + 1) n).map (sourceEvent s feed)

/-- One more event comes at the end. -/
theorem eventsAfter_succ (s : Surroundings) (feed : Feed) (p n : ℕ) :
    eventsAfter s feed p (n + 1) = eventsAfter s feed p n ++ [sourceEvent s feed (p + n + 1)] := by
  have hlast : p + 1 + n = p + n + 1 := by omega
  rw [eventsAfter, List.range'_concat, List.map_append, Nat.one_mul, hlast]
  rfl

/-- The transaction of the PostgreSQL event with a sequence number. -/
def txOf (q : ℕ) : String := "tx-" ++ ((q - 1) / 4 + 1000).repr

/-- Two events of one transaction are in the same group of four. -/
theorem txOf_injective {q q' : ℕ} (h : txOf q = txOf q') : (q - 1) / 4 = (q' - 1) / 4 := by
  have := eq_of_repr_eq ((String.append_right_inj "tx-").mp h)
  omega

/-- Only the current transaction of the PostgreSQL source is open, and what was flushed before it is
complete. By induction on the number of events, with what is pending for the transaction of the next
one. -/
theorem flushes_postgres (s : Surroundings) (p n : ℕ) :
    (flushes (eventsAfter s .postgres p n)).flatten ++
        pendingOf (txOf (p + n + 1)) (eventsAfter s .postgres p n) =
      (eventsAfter s .postgres p n).filter ChangeEvent.isMutation := by
  induction n with
  | zero => rfl
  | succ n ih =>
    have htx : (sourceEvent s .postgres (p + n + 1)).transactionId = some (txOf (p + n + 1)) := rfl
    rw [eventsAfter_succ, flushes_concat, List.flatten_append, List.filter_append, ← ih]
    by_cases hcommit : (p + n + 1) % 4 = 0
    · have hop : (sourceEvent s .postgres (p + n + 1)).operation = .commit := by
        simp [sourceEvent, PostgresSource.event, hcommit]
      have hmut : (sourceEvent s .postgres (p + n + 1)).isMutation = false := by
        simp [ChangeEvent.isMutation, hop, Operation.endsTransaction]
      -- the next transaction has no event yet
      have hnew : pendingOf (txOf (p + (n + 1) + 1))
          ([] ++ (eventsAfter s .postgres p n ++ [sourceEvent s .postgres (p + n + 1)])) = [] := by
        refine pendingOf_append_of_ne [] fun e he => ?_
        rw [← eventsAfter_succ] at he
        obtain ⟨q, hq, rfl⟩ := List.mem_map.mp he
        rw [List.mem_range'_1] at hq
        intro hsame
        have := txOf_injective (Option.some.inj hsame)
        omega
      rw [List.nil_append] at hnew
      rw [hnew]
      simp [flushOf, htx, hop, hmut]
    · have hmut : (sourceEvent s .postgres (p + n + 1)).isMutation = true :=
        (isMutation_postgres s (p + n + 1)).mpr hcommit
      have hop : (sourceEvent s .postgres (p + n + 1)).operation ≠ .commit := by
        intro hop
        simp [ChangeEvent.isMutation, hop, Operation.endsTransaction] at hmut
      -- a mutation and the event behind it are of the same transaction
      have hsame : txOf (p + (n + 1) + 1) = txOf (p + n + 1) := by
        have : (p + (n + 1) + 1 - 1) / 4 = (p + n + 1 - 1) / 4 := by omega
        rw [txOf, txOf, this]
      rw [hsame, pendingOf_concat_of_mutation _ htx hmut]
      simp [flushOf, htx, hop, hmut]

/-- The events of the Cassandra source are outside transactions, and leave the buffer at once. -/
theorem flushes_cassandra (s : Surroundings) (p n : ℕ) :
    (flushes (eventsAfter s .cassandra p n)).flatten =
      (eventsAfter s .cassandra p n).filter ChangeEvent.isMutation := by
  induction n with
  | zero => rfl
  | succ n ih =>
    rw [eventsAfter_succ, flushes_concat, List.flatten_append, List.filter_append, ih]
    rfl

/-- A source's mutations leave the buffer in order. -/
theorem flushes_inOrder (s : Surroundings) (feed : Feed) (p n : ℕ) :
    (flushes (eventsAfter s feed p n)).flatten <+:
      (eventsAfter s feed p n).filter ChangeEvent.isMutation := by
  cases feed with
  | postgres => exact ⟨_, flushes_postgres s p n⟩
  | cassandra => exact ⟨[], by rw [flushes_cassandra, List.append_nil]⟩

/-- The offsets of the mutations that leave the buffer, from the start of a stream on: each is the
next mutation of the source. -/
theorem isChain_flushes (s : Surroundings) (feed : Feed) {p n : ℕ} (hbound : p + n < 2 ^ 64) :
    (p :: (flushes (eventsAfter s feed p n)).flatten.map ChangeEvent.position).IsChain
      (Next (IsMutationSeq feed)) := by
  have hpositions : ((eventsAfter s feed p n).filter ChangeEvent.isMutation).map
      ChangeEvent.position = (List.range' (p + 1) n).filter (IsMutationSeq feed ·) := by
    rw [eventsAfter, List.filter_map, List.map_map]
    -- the generated events and the sequence numbers have the same mutations
    have hmap : ∀ q ∈ List.range' (p + 1) n,
        (ChangeEvent.isMutation ∘ sourceEvent s feed) q = decide (IsMutationSeq feed q) := by
      intro q hq
      rw [List.mem_range'_1] at hq
      rw [Bool.eq_iff_iff, decide_eq_true_iff, isMutationSeq_iff s]
      exact ⟨fun h => ⟨by omega, h⟩, And.right⟩
    rw [List.filter_congr hmap]
    refine (List.map_congr_left fun q hq => ?_).trans (List.map_id _)
    have hq := List.mem_range'_1.mp (List.mem_of_mem_filter hq)
    exact position_sourceEvent s feed (by omega)
  have hchain := isChain_filter_range' (P := IsMutationSeq feed) p n
  rw [← hpositions] at hchain
  refine hchain.infix (List.IsPrefix.isInfix ?_)
  exact (List.prefix_cons_inj p).mpr ((flushes_inOrder s feed p n).map _)

/-! ## A process is an attempt -/

/-- Deliveries that are done have sent their mutations in order. -/
theorem sentAt_done (sourceId : String) (ms : List ChangeEvent) :
    ((ms.map Job.delivery).flatMap (Job.steps (.passthrough serde) sourceId)).filterMap
      Effect.sentAt = ms.map ChangeEvent.position := by
  induction ms with
  | nil => rfl
  | cons m ms ih =>
    rw [List.map_cons, List.flatMap_cons, List.filterMap_append, ih]
    rfl

/-- A delivery that is only begun may have sent its mutation. -/
theorem sentAt_begun {sourceId : String} {ms : List ChangeEvent} {begun : List Effect}
    (h : Begun (Job.steps (.passthrough serde) sourceId) (ms.map Job.delivery) begun) :
    ∃ k ≤ 1, begun.filterMap Effect.sentAt = (ms.map ChangeEvent.position).take k := by
  obtain rfl | ⟨job, rest', hjobs, hlm, -⟩ := h
  · exact ⟨0, Nat.zero_le 1, rfl⟩
  · cases ms with
    | nil => cases hjobs
    | cons m ms =>
      obtain ⟨rfl, -⟩ := List.cons.inj hjobs
      have hsent := hlm.filterMap Effect.sentAt
      have hone : ((Job.delivery m).steps (.passthrough serde) sourceId).filterMap Effect.sentAt =
          [m.position] := rfl
      rw [hone] at hsent
      rcases List.prefix_cons_iff.mp hsent with hnil | ⟨l, hl, hl'⟩
      · exact ⟨0, Nat.zero_le 1, hnil⟩
      · obtain rfl := List.prefix_nil.mp hl'
        exact ⟨1, Nat.le_refl 1, hl⟩

namespace Process

variable {p : Process} {store : StateStore}

/-- The stream of a process starts right after the stored sequence number. -/
theorem stream_eq : p.stream serde feed store =
    eventsAfter p.surroundings feed (storedSeq feed store) p.events := by
  have hstored : lastOffset (startup serde store) feed.sourceId =
      lastOffset store feed.sourceId := by
    rw [lastOffset_eq, lastOffset_eq, getOffset_startup]
  rw [stream, startStream_fst, hstored]
  exact unfoldFrom_eq_map _ _ _

/-- What the store must hold when the engine starts: no schema for the users, or its own. -/
def Startable (serde : SerdeJson) (store : StateStore) : Prop :=
  store.getSchema serde "postgres_users" = .ok none ∨
    store.getSchema serde "postgres_users" = .ok (some userSchema)

/-- A process delivers what leaves the buffer, until it is stopped. -/
theorem calls_eq_take (hstore : Startable serde store) :
    p.calls serde feed store =
      (((flushes (p.stream serde feed store)).flatten.map Job.delivery).flatMap
        (Job.steps (.passthrough serde) feed.sourceId)).take p.steps := by
  have hforwarded : ∀ e ∈ p.stream serde feed store,
      screen (.passthrough serde) (startup serde store) feed e = .forwarded := by
    intro e he
    rw [stream_eq] at he
    obtain ⟨q, -, rfl⟩ := List.mem_map.mp he
    exact screen_sourceEvent (getSchema_startup hstore) _ _ _
  -- sequence numbers make the ids distinct, so that the filter drops nothing
  have hids : ((p.stream serde feed store).map ChangeEvent.id).Nodup := by
    rw [stream_eq, eventsAfter, List.map_map]
    exact List.Nodup.map (id_sourceEvent_injective _ _) (List.nodup_range' _)
  have hreaching : reaching (.passthrough serde) (startup serde store) feed
      (p.stream serde feed store) = p.stream serde feed store := by
    refine List.filter_eq_self.mpr fun e he => ?_
    rw [reaches, hforwarded e he]
  rw [calls, trace_leading_of_valid hids, hreaching]
  intro e he record
  rw [hforwarded e he]
  exact Screening.noConfusion

/-- **A process visits the mutations after the stored offset, one after the other.** It stores the
last one that it has visited, or the one before. -/
theorem attempt (hstore : Startable serde store) (hbound : storedSeq feed store + p.events < 2 ^ 64) :
    Attempt (IsMutationSeq feed) (storedSeq feed store) (p.sends serde feed store)
      (storedSeq feed (p.storeAfter serde feed store)) := by
  obtain ⟨done, rest, begun, hjobs, htake, hbegun⟩ :=
    exists_take_flatMap (Job.steps (.passthrough serde) feed.sourceId)
      ((flushes (p.stream serde feed store)).flatten.map Job.delivery) p.steps
  obtain ⟨ms, ms', hms, rfl, rfl⟩ := List.map_eq_append_iff.mp hjobs
  rw [← calls_eq_take hstore] at htake
  -- the delivery under way has sent its mutation, or has not
  obtain ⟨k, hk, hsent⟩ := sentAt_begun hbegun
  have hsends : p.sends serde feed store =
      ms.map ChangeEvent.position ++ (ms'.map ChangeEvent.position).take k := by
    rw [sends, htake, List.filterMap_append, sentAt_done, hsent]
  have hchain := isChain_flushes p.surroundings feed hbound
  rw [← stream_eq, hms, List.map_append] at hchain
  refine ⟨_, _, hsends, ?_, ?_, ?_⟩
  · exact (List.length_take_le _ _).trans hk
  · rw [hsends]
    refine hchain.infix (List.IsPrefix.isInfix ?_)
    exact (List.prefix_cons_inj _).mpr ((List.prefix_append_right_inj _).mpr (List.take_prefix _ _))
  · have hsaved : (ms.map Job.delivery).filterMap (Job.saved (.passthrough serde)) =
        ms.map ChangeEvent.offset := by
      rw [List.filterMap_map, ← List.filterMap_eq_map]
      rfl
    have hoffset := @getOffset_cut (.passthrough serde) feed.sourceId (ms.map Job.delivery) _ _ hbegun
      (startup serde store)
    rw [storedSeq, storeAfter, htake, lastOffset_eq, hoffset, hsaved, getOffset_startup]
    rcases List.eq_nil_or_concat ms with rfl | ⟨ms, m, rfl⟩
    · rw [storedSeq, lastOffset_eq]
      rfl
    · simp [ChangeEvent.position]

/-- The store that a process leaves can be started on again. -/
theorem startable_storeAfter (hstore : Startable serde store) :
    Startable serde (p.storeAfter serde feed store) := by
  refine Or.inr ?_
  rw [storeAfter, getSchema_runEffects]
  exact getSchema_startup hstore

end Process

/-- By induction on the processes: each starts at the frontier of those before it. -/
theorem Restarts.frontier {store : StateStore} {runs : List (List ℕ)}
    (h : Restarts serde feed store runs) :
    Process.Startable serde store ∧ Frontier (IsMutationSeq feed) (storedSeq feed store) runs := by
  induction h with
  | fresh => exact ⟨Or.inl (StateStore.getSchema_new _ _), frontier_nil fun _ hq => hq.1⟩
  | process _ p hbound ih =>
    obtain ⟨hstore, hfrontier⟩ := ih
    exact ⟨Process.startable_storeAfter hstore, hfrontier.attempt (Process.attempt hstore hbound)⟩

/-- **Crashes and restarts leave no gap.** At every moment every mutation up to the stored offset has
been sent, sends are in order without skipping a mutation, and each restart repeats at most one. -/
theorem restarts_gapFree {store : StateStore} {runs : List (List ℕ)}
    (h : Restarts serde feed store runs) :
    GapFree (IsMutationSeq feed) (storedSeq feed store) runs :=
  h.frontier.2.toGapFree

/-- A process that is stopped after the second send of a transaction, before its save. -/
def stoppedMidFlush : Process := ⟨quiet, 8, 6⟩

/-- The second mutation of the transaction has been sent and not stored; the next process would send
it again. -/
theorem restarts_gapFree_midFlush :
    stoppedMidFlush.sends .compact .postgres .new = [1, 2] ∧
      GapFree (IsMutationSeq .postgres)
        (storedSeq .postgres (stoppedMidFlush.storeAfter .compact .postgres .new))
        [stoppedMidFlush.sends .compact .postgres .new] := by
  refine ⟨?_, restarts_gapFree (.process .fresh stoppedMidFlush (by decide))⟩
  rw [Process.sends, Process.calls_eq_take (Or.inl (StateStore.getSchema_new _ _)),
    Process.stream_eq]
  rfl

end Caminus.Pipeline

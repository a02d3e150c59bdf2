import Caminus.Buffer.Committed
import Caminus.Common.JsonText
import Caminus.Pipeline.Delivery

/-!
# Standby periods

A loop reads its stream also while another node leads, and drops what it reads. A mutation that it
drops, or whose commit it drops, is missed; it is lost as soon as the checkpoint moves past it. No
mutation is lost exactly when every mutation that is flushed lies below every missed one
(`noneLost_iff`).
-/

namespace Caminus.Pipeline

open TransactionBuffer

/-- A run over a stream of valid events with distinct ids, each with the leadership its iteration
sees. The stream starts after the checkpoint of the store. -/
structure StandbyRun (feed : Feed) where
  env : Env
  store : StateStore
  iterations : List (Bool × ChangeEvent)
  valid : ∀ i ∈ iterations, ∀ record, screen env store feed i.2 ≠ .deadLetter record
  distinctIds : (iterations.map fun i => i.2.id).Nodup
  ahead : ∀ i ∈ iterations, ∀ offset, lastOffset store feed.sourceId = some offset →
    startPosition (some offset) < i.2.position

namespace StandbyRun

variable {feed : Feed} (r : StandbyRun feed)

/-- The calls of the run, in which the leadership may change at every item. -/
def calls : List Effect :=
  trace r.env r.store (r.iterations.map fun i => ⟨i.1, .ok i.2⟩) feed

/-- The events of the stream, without the watermark rows that the loop filters out. -/
def rows : List ChangeEvent := reaching r.env r.store feed (r.iterations.map Prod.snd)

/-- The rows that are read while the node leads. -/
def led : List ChangeEvent :=
  reaching r.env r.store feed ((r.iterations.filter Prod.fst).map Prod.snd)

/-- Every mutation that is outside a transaction or committed in the stream is sent or dead-lettered,
or the stored offset stays below it. -/
def NoneLost : Prop :=
  ∀ m, m.isMutation = true → Committed r.rows m →
    Sent m r.calls ∨ DeadLettered m r.calls ∨
      ∀ n offset, lastOffset (runEffects r.store (r.calls.take n)) feed.sourceId = some offset →
        startPosition (some offset) < m.position

/-- The checkpoint of every mutation that is read together with its commit while the node leads lies
below every mutation that is not. -/
def MissedLast : Prop :=
  ∀ m, m.isMutation = true → Committed r.rows m → ¬ Committed r.led m →
    ∀ w t, Committed r.led w → r.env.transform w = .ok t → t.position < m.position

/-- The loop consumes the events that it reads as leader. -/
theorem consumed_iterations (iterations : List (Bool × ChangeEvent)) :
    consumed (iterations.map fun i => ⟨i.1, .ok i.2⟩) =
      (iterations.filter Prod.fst).map Prod.snd := by
  induction iterations with
  | nil => rfl
  | cons i iterations ih =>
    obtain ⟨isLeader, e⟩ := i
    cases isLeader with
    | false => exact ih
    | true => exact congrArg (e :: ·) ih

/-- The loop delivers what is committed under its lead: an event that is read on standby never
reaches the buffer. -/
theorem calls_eq : r.calls =
    ((flushes r.led).flatten.map Job.delivery).flatMap (Job.steps r.env feed.sourceId) := by
  have hsub : ((r.iterations.filter Prod.fst).map Prod.snd).Sublist (r.iterations.map Prod.snd) :=
    List.filter_sublist.map _
  have hadmitted : admitted (r.iterations.map fun i => ⟨i.1, .ok i.2⟩) =
      (r.iterations.filter Prod.fst).map Prod.snd := by
    have hids : ((r.iterations.map Prod.snd).map ChangeEvent.id).Nodup := by
      rw [List.map_map]
      exact r.distinctIds
    rw [admitted, consumed_iterations, DeduplicationFilter.fresh_new (hids.sublist (hsub.map _))]
  rw [calls, trace_of_valid, hadmitted]
  · rfl
  · intro e he
    rw [hadmitted] at he
    obtain ⟨i, hi, rfl⟩ := List.mem_map.mp (hsub.subset he)
    exact r.valid i hi

/-- What the loop delivers is sent or dead-lettered, and nothing else is. -/
theorem sent_or_deadLettered_iff {m : ChangeEvent} :
    Sent m r.calls ∨ DeadLettered m r.calls ↔ Committed r.led m := by
  rw [← mem_flatten_flushes_iff, calls_eq]
  constructor
  · rintro (⟨t, result, hmem⟩ | ⟨record, hmem, rfl⟩)
    · have hdelivered := (kafkaSend_mem_flatMap.mp hmem).1
      rwa [delivered_map_delivery] at hdelivered
    · obtain ⟨job, hjob, hstep⟩ := List.mem_flatMap.mp hmem
      obtain ⟨w, hw, rfl⟩ := List.mem_map.mp hjob
      rcases routeToDlq_mem_steps.mp hstep with h | ⟨w', err, h, -, rfl⟩
      · cases h
      · obtain rfl := Job.delivery.inj h
        exact hw
  · intro hm
    have hjob := List.mem_map_of_mem (f := Job.delivery) hm
    cases htr : r.env.transform m with
    | ok t =>
      exact Or.inl ⟨t, _, kafkaSend_mem_flatMap.mpr ⟨mem_delivered.mpr hjob, htr, rfl⟩⟩
    | error err =>
      refine Or.inr ⟨⟨m, err, "WasmTransform", 1⟩, List.mem_flatMap.mpr ⟨_, hjob, ?_⟩, rfl⟩
      exact routeToDlq_mem_steps.mpr (Or.inr ⟨m, err, rfl, htr, rfl⟩)

/-- The stored offset stays below a mutation exactly when every checkpoint does. -/
theorem lastOffset_lt_iff {m : ChangeEvent} (hm : m ∈ r.rows) :
    (∀ n offset, lastOffset (runEffects r.store (r.calls.take n)) feed.sourceId = some offset →
      startPosition (some offset) < m.position) ↔
    ∀ w t, Committed r.led w → r.env.transform w = .ok t → t.position < m.position := by
  rw [calls_eq]
  constructor
  · intro h w t hw htr
    obtain ⟨before, after, hsplit⟩ := List.append_of_mem
      (List.mem_map_of_mem (f := Job.delivery) (mem_flatten_flushes_iff.mpr hw))
    -- the run may be stopped right after any checkpoint
    obtain ⟨n, -, hoffset⟩ := exists_take_delivery hsplit htr r.store
    exact h n t.offset hoffset
  · intro h n offset hoffset
    obtain ⟨done, rest, hjs, -, hstored⟩ := @exists_done_of_take r.env feed.sourceId
      ((flushes r.led).flatten.map Job.delivery) n r.store
    obtain hstart | ⟨w, t, hw, htr, rfl⟩ := hstored offset hoffset
    · obtain ⟨i, hi, rfl⟩ := List.mem_map.mp (List.mem_filter.mp hm).1
      exact r.ahead i hi offset hstart
    · refine h w t (mem_flatten_flushes_iff.mp ?_) htr
      have hmem : Job.delivery w ∈ (flushes r.led).flatten.map Job.delivery := by
        rw [hjs]
        exact List.mem_append_left _ hw
      obtain ⟨w', hw', heq⟩ := List.mem_map.mp hmem
      rwa [← Job.delivery.inj heq]

/-- The first event is read on standby, the second one as the leader. -/
def promoted (serde : SerdeJson) : StandbyRun .postgres where
  env := .passthrough serde
  store := startup serde .new
  iterations := [(false, userEvent 1 .create none), (true, userEvent 2 .create none)]
  valid := by
    intro i hi record h
    have hforwarded : screen (.passthrough serde) (startup serde .new) .postgres i.2 =
        .forwarded := by
      simp only [List.mem_cons, List.not_mem_nil, or_false] at hi
      rcases hi with rfl | rfl <;> exact screen_userEvent (.passthrough serde) _ _ _ _
    exact Screening.noConfusion (h.symm.trans hforwarded)
  distinctIds := by decide
  ahead := by
    intro i _ offset h
    rw [lastOffset_eq, getOffset_startup] at h
    cases h

end StandbyRun

end Caminus.Pipeline

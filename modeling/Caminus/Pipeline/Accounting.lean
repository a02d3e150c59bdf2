import Caminus.Common.JsonText
import Caminus.Pipeline.Delivery

/-!
# Every row event is accounted for

Between the stream and the sinks an event can end in five places: the dead letter queue after a
failed validation, the buffer, a rollback, the Kafka sink, and the dead letter queue after a failed
transform. The counts of an event over these places are a conserved quantity of the PostgreSQL loop:
each event of the stream adds itself once, and commits and rollbacks only move events between places
(`total_concat`).
-/

namespace Caminus.Pipeline

open TransactionBuffer

/-! ## The five places -/

/-- How often a mutation was sent to Kafka, whatever the broker answered. -/
def countSends (e : ChangeEvent) (effs : List Effect) : ℕ :=
  effs.countP fun
    | .kafkaSend m _ _ => m == e
    | _ => false

/-- How often an event was dead-lettered with a step, which tells validation from the transform. -/
def countLetters (step : String) (e : ChangeEvent) (effs : List Effect) : ℕ :=
  effs.countP fun
    | .routeToDlq record => record.failedStep == step && record.failedEvent == e
    | _ => false

variable (env : Env) (store : StateStore) (evs : List ChangeEvent)

/-- How often an event is in the buffer after the stream, read from the memory of the task itself. -/
def countBuffered (e : ChangeEvent) : ℕ :=
  (pgFinal env store (leading evs)).txBuffer.buffer.values.flatten.count e

/-- What a `Rollback` at position `k` takes out of the buffer: the events of its transaction that
were in it before and are not after. -/
def discardedAt (k : ℕ) : List ChangeEvent :=
  match evs[k]? with
  | none => []
  | some r =>
      match r.transactionId with
      | none => []
      | some t =>
          if r.operation = .rollback then
            ((pgFinal env store (leading (evs.take k))).txBuffer.held t).filter
              (· ∉ (pgFinal env store (leading (evs.take (k + 1)))).txBuffer.held t)
          else []

/-- How often an event was discarded by a `Rollback` of its transaction. -/
def countDiscarded (e : ChangeEvent) : ℕ :=
  ((List.range evs.length).flatMap (discardedAt env store evs)).count e

/-- The calls in the iteration over the event at position `k`. -/
def stepEffects (k : ℕ) : List Effect :=
  (Mealy.outputs (ingest (pgEvent env)) (pgStart store) (leading evs))[k]?.getD []

/-- The events handed to the transformer, in order; these are the ones that were flushed. -/
def transformInputs (effs : List Effect) : List ChangeEvent :=
  effs.filterMap fun
    | .transform m => some m
    | _ => none

/-- A change of a row of a data table: the events that have to be accounted for. -/
def IsRowEvent (e : ChangeEvent) : Prop := e.isMutation = true ∧ e.isWatermarkRow = false

/-- Every row event is in one place, once; and the validated events of a transaction reach the
transformer in source order, in the iteration over its commit and no other. -/
structure Accounted : Prop where
  once : ∀ e ∈ evs, IsRowEvent e →
    countLetters "SchemaValidation" e (trace env store (leading evs) .postgres) +
      countBuffered env store evs e + countDiscarded env store evs e +
      countSends e (trace env store (leading evs) .postgres) +
      countLetters "WasmTransform" e (trace env store (leading evs) .postgres) = 1
  transformed : ∀ m t result,
    Effect.kafkaSend m t result ∈ trace env store (leading evs) .postgres → env.transform m = .ok t
  atCommit : ∀ k x t, evs[k]? = some x → x.transactionId = some t →
    transformInputs (stepEffects env store evs k) =
      if x.operation = .commit ∧ reaches env store .postgres x = true then
        pendingOf t (reaching env store .postgres (evs.take k))
      else []

/-! ## The places in terms of the stream -/

variable {env store evs}

/-- The calls of a longer stream are those before and those for its last event. -/
theorem run_concat (feed : Feed) (hist evs : List ChangeEvent) (e : ChangeEvent) :
    run env store feed hist (evs ++ [e]) = run env store feed hist evs ++
      effectsOf env store feed (hist ++ reaching env store feed evs) e := by
  induction evs generalizing hist with
  | nil => simp [run, reaching]
  | cons x evs ih =>
    rw [List.cons_append, run, run, ih, advance_append_reaching, List.append_assoc]

/-- What has reached the buffer after a longer stream. -/
theorem reaching_concat (feed : Feed) (evs : List ChangeEvent) (e : ChangeEvent) :
    reaching env store feed (evs ++ [e]) =
      advance env store feed (reaching env store feed evs) e := by
  rw [reaching, List.filter_append, advance]
  by_cases h : reaches env store feed e = true
  · simp [h, reaching]
  · simp [h, reaching]

/-- The buffer of the loop holds what is pending in the history of the events that reached it. -/
theorem held_pgFinal (hids : (evs.map ChangeEvent.id).Nodup) (t : String) :
    (pgFinal env store (leading evs)).txBuffer.held t =
      pendingOf t (reaching env store .postgres evs) := by
  have h := holds_pgFinal env store (leading evs) t
  rwa [admitted_leading hids] at h

/-- Pending mutations of a transaction carry its id. -/
theorem transactionId_of_mem_pendingOf {t : String} {hist : List ChangeEvent} {e : ChangeEvent}
    (h : e ∈ pendingOf t hist) : e.transactionId = some t := by
  have hmem := List.rtakeWhile_suffix _ _ |>.subset h
  simpa using (List.mem_filter.mp hmem).2

/-- The lists of a map that files each event under its transaction hold an event as often as the
list of its transaction does. -/
theorem count_values_flatten {es : List (Sigma fun _ : String => List ChangeEvent)}
    (hkeys : es.NodupKeys) (hfiled : ∀ p ∈ es, ∀ x ∈ p.2, x.transactionId = some p.1)
    (e : ChangeEvent) :
    (es.map Sigma.snd).flatten.count e =
      match e.transactionId with
      | none => 0
      | some t => ((es.dlookup t).getD []).count e := by
  induction es with
  | nil => cases e.transactionId <;> rfl
  | cons p es ih =>
    obtain ⟨k, l⟩ := p
    rw [List.forall_mem_cons] at hfiled
    rw [List.nodupKeys_cons] at hkeys
    rw [List.map_cons, List.flatten_cons, List.count_append, ih hkeys.2 hfiled.2]
    cases htx : e.transactionId with
    | none =>
      have hl : e ∉ l := fun he => by simpa [htx] using hfiled.1 e he
      simp [List.count_eq_zero_of_not_mem hl]
    | some t =>
      -- an event is in the list of its own transaction or in none
      by_cases hkt : k = t
      · subst hkt
        have hnone : es.dlookup k = none := List.dlookup_eq_none.mpr hkeys.1
        simp [hnone]
      · have hl : e ∉ l := fun he => hkt (by simpa [htx, eq_comm] using hfiled.1 e he)
        have hlookup := List.dlookup_cons_ne es (⟨k, l⟩ : Sigma fun _ : String => List ChangeEvent)
          (Ne.symm hkt)
        simp only [List.count_eq_zero_of_not_mem hl, Nat.zero_add, hlookup]

/-- How often an event is pending in a history, by its own transaction; an event without one never
is. -/
def pendingCount (hist : List ChangeEvent) (e : ChangeEvent) : ℕ :=
  match e.transactionId with
  | none => 0
  | some t => (pendingOf t hist).count e

/-- Counting in the buffer is counting what is pending in the history. -/
theorem countBuffered_eq (hids : (evs.map ChangeEvent.id).Nodup) (e : ChangeEvent) :
    countBuffered env store evs e = pendingCount (reaching env store .postgres evs) e := by
  set tb := (pgFinal env store (leading evs)).txBuffer with htb
  have hfiled : ∀ p ∈ tb.buffer.entries, ∀ x ∈ p.2, x.transactionId = some p.1 := by
    intro p hp x hx
    have hlookup : tb.buffer.lookup p.1 = some p.2 := AList.mem_lookup_iff.mpr hp
    have hheld : tb.held p.1 = p.2 := by simp [held, hlookup]
    rw [← hheld, htb, held_pgFinal hids] at hx
    exact transactionId_of_mem_pendingOf hx
  rw [countBuffered, HashMap.values, count_values_flatten tb.buffer.nodupKeys hfiled, pendingCount]
  cases e.transactionId with
  | none => rfl
  | some t => exact congrArg (List.count e) (held_pgFinal hids t)

variable (env store) in
/-- What an event discards after the events `hist` have reached the buffer. -/
def discardOf (hist : List ChangeEvent) (x : ChangeEvent) : List ChangeEvent :=
  match x.transactionId with
  | none => []
  | some t =>
      if x.operation = .rollback ∧ reaches env store .postgres x = true then pendingOf t hist else []

/-- What the last event of a stream discards, in terms of the history before it. -/
theorem discardedAt_length {x : ChangeEvent} (hids : ((evs ++ [x]).map ChangeEvent.id).Nodup) :
    discardedAt env store (evs ++ [x]) evs.length =
      discardOf env store (reaching env store .postgres evs) x := by
  have hids' : (evs.map ChangeEvent.id).Nodup := hids.sublist ((List.sublist_append_left _ _).map _)
  have hget : (evs ++ [x])[evs.length]? = some x := List.getElem?_concat_length
  have htake : (evs ++ [x]).take (evs.length + 1) = evs ++ [x] := by simp
  simp only [discardedAt, discardOf, hget, htake, List.take_left']
  cases htx : x.transactionId with
  | none => rfl
  | some t =>
    simp only [held_pgFinal hids, held_pgFinal hids', reaching_concat, advance]
    by_cases hop : x.operation = .rollback
    -- a `Rollback` that fails validation does not reach the buffer and discards nothing
    · by_cases hreach : reaches env store .postgres x = true
      · have hm : x.isMutation = false := by
          simp [ChangeEvent.isMutation, Operation.endsTransaction, hop]
        simp [hop, hreach, pendingOf_concat_of_end _ htx hm]
      · simp [hop, hreach]
    · simp [hop]

/-- A later event does not change what an earlier one has discarded. -/
theorem discardedAt_append {x : ChangeEvent} {k : ℕ} (hk : k < evs.length) :
    discardedAt env store (evs ++ [x]) k = discardedAt env store evs k := by
  have hget : (evs ++ [x])[k]? = evs[k]? := List.getElem?_append_left hk
  simp only [discardedAt, hget, List.take_append_of_le_length hk.le,
    List.take_append_of_le_length (Nat.succ_le_of_lt hk)]

/-- One more event adds what it discards itself, which is something for a rollback only. -/
theorem countDiscarded_concat {x : ChangeEvent} (hids : ((evs ++ [x]).map ChangeEvent.id).Nodup)
    (e : ChangeEvent) :
    countDiscarded env store (evs ++ [x]) e = countDiscarded env store evs e +
      (discardOf env store (reaching env store .postgres evs) x).count e := by
  rw [countDiscarded, List.length_append, List.length_singleton, List.range_succ,
    List.flatMap_append, List.count_append, List.flatMap_singleton, discardedAt_length hids,
    countDiscarded]
  congr 2
  refine List.flatMap_congr fun k hk => ?_
  exact discardedAt_append (List.mem_range.mp hk)

/-! ## One more event -/

@[simp] theorem countSends_append (e : ChangeEvent) (effs effs' : List Effect) :
    countSends e (effs ++ effs') = countSends e effs + countSends e effs' :=
  List.countP_append

@[simp] theorem countLetters_append (step : String) (e : ChangeEvent) (effs effs' : List Effect) :
    countLetters step e (effs ++ effs') = countLetters step e effs + countLetters step e effs' :=
  List.countP_append

/-- A delivery either sends its mutation or dead-letters it with the transform's step, and concerns
no other event. -/
theorem count_deliver (sourceId : String) (m e : ChangeEvent) :
    countLetters "SchemaValidation" e (deliver env sourceId m) = 0 ∧
    countSends e (deliver env sourceId m) + countLetters "WasmTransform" e (deliver env sourceId m) =
      if m = e then 1 else 0 := by
  unfold deliver countSends countLetters
  by_cases hme : m = e
  · cases env.transform m <;> simp [hme]
  · cases env.transform m <;> simp [hme]

/-- Delivered events are sent or dead-lettered by the transform, each once. -/
theorem count_flatMap_deliver (sourceId : String) (ms : List ChangeEvent) (e : ChangeEvent) :
    countLetters "SchemaValidation" e (ms.flatMap (deliver env sourceId)) = 0 ∧
    countSends e (ms.flatMap (deliver env sourceId)) +
      countLetters "WasmTransform" e (ms.flatMap (deliver env sourceId)) = ms.count e := by
  induction ms with
  | nil => exact ⟨rfl, rfl⟩
  | cons m ms ih =>
    obtain ⟨hschema, hsum⟩ := ih
    obtain ⟨hschema', hsum'⟩ := @count_deliver env sourceId m e
    rw [List.flatMap_cons, countLetters_append, countSends_append, countLetters_append,
      List.count_cons]
    simp only [beq_iff_eq]
    omega

/-- The counts of an event over the calls for `x`, the buffer after it and what it discards. -/
def countsOf (env : Env) (store : StateStore) (hist : List ChangeEvent) (x e : ChangeEvent) : ℕ :=
  countLetters "SchemaValidation" e (effectsOf env store .postgres hist x) +
    pendingCount (advance env store .postgres hist x) e +
    (discardOf env store hist x).count e +
    countSends e (effectsOf env store .postgres hist x) +
    countLetters "WasmTransform" e (effectsOf env store .postgres hist x)

/-- An event of another transaction leaves an event where it is pending. -/
theorem pendingCount_concat_of_ne {x e : ChangeEvent} (hist : List ChangeEvent)
    (hne : ∀ t, e.transactionId = some t → x.transactionId ≠ some t) :
    pendingCount (hist ++ [x]) e = pendingCount hist e := by
  unfold pendingCount
  cases htx : e.transactionId with
  | none => rfl
  | some t => simp only [pendingOf_concat_of_ne hist (hne t htx)]

/-- What happens to an event at the buffer: it stays pending, is discarded, or is flushed. No other
case loses or doubles it. -/
theorem pendingCount_concat {hist : List ChangeEvent} {x e : ChangeEvent} (he : IsRowEvent e)
    (hreach : reaches env store .postgres x = true) :
    pendingCount (hist ++ [x]) e + (discardOf env store hist x).count e +
      (flushOf hist x).count e = pendingCount hist e + if x = e then 1 else 0 := by
  cases htx : x.transactionId with
  | none =>
    -- flushed at once; nothing is pending for it
    rw [pendingCount_concat_of_ne hist (by simp [htx])]
    simp [discardOf, flushOf, htx, List.count_cons]
  | some t =>
    by_cases hetx : e.transactionId = some t
    -- an event of the same transaction
    · have hcount : ∀ l, pendingCount l e = (pendingOf t l).count e := by
        intro l
        simp only [pendingCount, hetx]
      rw [hcount, hcount]
      by_cases hm : x.isMutation = true
      · have hop : x.operation ≠ .commit ∧ x.operation ≠ .rollback := by
          constructor <;> intro hop <;>
            simp [ChangeEvent.isMutation, Operation.endsTransaction, hop] at hm
        rw [pendingOf_concat_of_mutation hist htx hm]
        simp [discardOf, flushOf, htx, hop, List.count_append, List.count_cons]
      · have hne : x ≠ e := fun h => hm (h ▸ he.1)
        have hm' : x.isMutation = false := by simpa using hm
        rw [pendingOf_concat_of_end hist htx hm']
        -- the end of the transaction flushes its events or discards them
        cases hop : x.operation <;>
          simp [ChangeEvent.isMutation, Operation.endsTransaction, hop] at hm' <;>
          simp [discardOf, flushOf, htx, hop, hreach, hne]
    · -- another transaction: its pending events are not `e`
      have hne : x ≠ e := fun h => hetx (h ▸ htx)
      have hzero : (pendingOf t hist).count e = 0 :=
        List.count_eq_zero_of_not_mem fun h => hetx (transactionId_of_mem_pendingOf h)
      have hdiscard : (discardOf env store hist x).count e = 0 := by
        simp only [discardOf, htx]
        split_ifs
        · exact hzero
        · rfl
      have hflush : (flushOf hist x).count e = 0 := by
        simp only [flushOf, htx]
        split_ifs
        · exact hzero
        · rfl
      rw [hdiscard, hflush, if_neg hne]
      refine pendingCount_concat_of_ne hist fun u heu hxu => hetx ?_
      rw [heu, ← hxu, htx]

/-- An event that reaches the buffer stays pending, is flushed, or moves its transaction's events to
where they end. -/
theorem countsOf_forwarded {hist : List ChangeEvent} {x e : ChangeEvent} (he : IsRowEvent e)
    (hscreen : screen env store .postgres x = .forwarded) :
    countsOf env store hist x e = pendingCount hist e + if x = e then 1 else 0 := by
  have hreach : reaches env store .postgres x = true := by simp [reaches, hscreen]
  have heffs : effectsOf env store .postgres hist x =
      (flushOf hist x).flatMap (deliver env "postgres_users") := by
    simp [effectsOf, hscreen, Feed.sourceId]
  have hadvance : advance env store .postgres hist x = hist ++ [x] := by simp [advance, hreach]
  obtain ⟨hschema, hsum⟩ := @count_flatMap_deliver env "postgres_users" (flushOf hist x) e
  have hpending := @pendingCount_concat env store hist x e he hreach
  rw [countsOf, heffs, hschema, hadvance]
  omega

/-- An event adds itself to one place, and moves others without loss. -/
theorem countsOf_eq {hist : List ChangeEvent} {x e : ChangeEvent} (he : IsRowEvent e) :
    countsOf env store hist x e = pendingCount hist e + if x = e then 1 else 0 := by
  -- an event that is filtered or dead-lettered leaves the buffer as it is
  have hstay : ∀ s, screen env store .postgres x = s → s ≠ .forwarded →
      advance env store .postgres hist x = hist ∧ discardOf env store hist x = [] := by
    rintro s rfl hs
    have hreach : reaches env store .postgres x = false := by
      unfold reaches
      split
      · exact absurd ‹_› hs
      · rfl
    refine ⟨by simp [advance, hreach], ?_⟩
    unfold discardOf
    cases x.transactionId <;> simp [hreach]
  rcases screen_postgres_cases env store x with ⟨hscreen, -⟩ | ⟨hscreen, hrow⟩ | ⟨reason, hscreen⟩
  · exact countsOf_forwarded he hscreen
  · have hne : x ≠ e := by
      rintro rfl
      simp [he.2] at hrow
    have heffs : effectsOf env store .postgres hist x = [] := by simp [effectsOf, hscreen]
    obtain ⟨hadvance, hdiscard⟩ := hstay _ hscreen (by simp)
    rw [countsOf, hadvance, hdiscard, heffs]
    simp [hne, countLetters, countSends]
  · have heffs : effectsOf env store .postgres hist x =
        [.routeToDlq ⟨x, reason, "SchemaValidation", 1⟩] := by simp [effectsOf, hscreen]
    obtain ⟨hadvance, hdiscard⟩ := hstay _ hscreen (by simp)
    rw [countsOf, hadvance, hdiscard, heffs]
    by_cases hxe : x = e
    · simp [hxe, countLetters, countSends]
      omega
    · simp [hxe, countLetters, countSends]

/-! ## Whole runs -/

variable (env store) in
/-- The sum of the five counts: rejected by validation, still pending, discarded by a rollback,
sent, and dead-lettered by the transform. -/
def total (evs : List ChangeEvent) (e : ChangeEvent) : ℕ :=
  countLetters "SchemaValidation" e (run env store .postgres [] evs) +
    pendingCount (reaching env store .postgres evs) e + countDiscarded env store evs e +
    countSends e (run env store .postgres [] evs) +
    countLetters "WasmTransform" e (run env store .postgres [] evs)

/-- One more event adds one to its own total and to no other. -/
theorem total_concat {x e : ChangeEvent} (he : IsRowEvent e)
    (hids : ((evs ++ [x]).map ChangeEvent.id).Nodup) :
    total env store (evs ++ [x]) e = total env store evs e + if x = e then 1 else 0 := by
  have hstep := @countsOf_eq env store (reaching env store .postgres evs) x e he
  rw [countsOf] at hstep
  rw [total, run_concat, reaching_concat, countDiscarded_concat hids, countLetters_append,
    countSends_append, countLetters_append, List.nil_append, total]
  omega

/-- The places together hold an event as often as the stream does. By induction on the stream from
its end. -/
theorem total_eq_count {e : ChangeEvent} (he : IsRowEvent e)
    (hids : (evs.map ChangeEvent.id).Nodup) : total env store evs e = evs.count e := by
  induction evs using List.reverseRecOn with
  | nil =>
    unfold total pendingCount
    cases e.transactionId <;> rfl
  | append_singleton evs x ih =>
    rw [total_concat he hids, ih (hids.sublist ((List.sublist_append_left _ _).map _)),
      List.count_append, List.count_singleton]
    simp

/-- The calls in the iteration over an event, in terms of the events that had reached the buffer
before it. -/
theorem stepEffects_eq {x : ChangeEvent} {k : ℕ} (hids : (evs.map ChangeEvent.id).Nodup)
    (hx : evs[k]? = some x) :
    stepEffects env store evs k =
      effectsOf env store .postgres (reaching env store .postgres (evs.take k)) x := by
  have hids' : ((evs.take k ++ [x]).map ChangeEvent.id).Nodup := by
    have htake : evs.take k ++ [x] = evs.take (k + 1) := by
      rw [List.take_add_one, hx, Option.toList_some]
    rw [htake]
    exact hids.sublist ((List.take_sublist _ _).map _)
  have hstep : stepEffects env store evs k = (ingest (pgEvent env)
      (Mealy.final (ingest (pgEvent env)) (pgStart store) (leading (evs.take k))) ⟨true, .ok x⟩).1 := by
    rw [stepEffects, Mealy.outputs_getElem?]
    simp [leading, hx, List.map_take]
  -- the calls up to `x` are those before it and those of its iteration
  have hlm : trace env store (leading (evs.take k ++ [x])) .postgres =
      trace env store (leading (evs.take k)) .postgres ++ stepEffects env store evs k := by
    rw [trace, trace, leading, List.map_append, Mealy.outputs_append, List.flatten_append, hstep]
    simp [leading]
  rw [trace_eq_run, trace_eq_run, admitted_leading hids',
    admitted_leading (hids'.sublist ((List.sublist_append_left _ _).map _)), run_concat,
    List.nil_append] at hlm
  exact (List.append_cancel_left hlm).symm

/-- A delivery hands its mutation to the transformer, and nothing else does. -/
theorem transformInputs_flatMap_deliver (sourceId : String) (ms : List ChangeEvent) :
    transformInputs (ms.flatMap (deliver env sourceId)) = ms := by
  induction ms with
  | nil => rfl
  | cons m ms ih =>
    have hone : transformInputs (deliver env sourceId m) = [m] := by
      unfold deliver
      cases env.transform m <;> rfl
    rw [List.flatMap_cons, transformInputs, List.filterMap_append, ← transformInputs, hone,
      ← transformInputs, ih]
    rfl

end Caminus.Pipeline

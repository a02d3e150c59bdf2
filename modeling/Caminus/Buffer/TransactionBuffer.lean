import Caminus.Common.HashMap
import Caminus.Common.Mealy
import Caminus.Source.Event
import Mathlib.Data.List.DropRight

/-!
# The transaction buffer

`TransactionBuffer` (`src/buffer/mod.rs`) holds the mutations of open transactions and hands them on
at the commit. Its content after any history is `pendingOf`, the mutations of a transaction since its
last end; every other fact about runs of the buffer follows from that.
-/

namespace Caminus

/-- Mutations of open transactions by transaction id, each list in the order of arrival. A
transaction without a mutation has no entry, and an entry goes with the commit or the rollback. -/
structure TransactionBuffer where
  buffer : HashMap String (List ChangeEvent)

namespace TransactionBuffer

/-- An empty buffer. -/
def new : TransactionBuffer := ⟨∅⟩

/-- Consumes an event and returns the events to flush downstream. -/
def process (tb : TransactionBuffer) (event : ChangeEvent) : List ChangeEvent × TransactionBuffer :=
  match event.transactionId with
  | none => ([event], tb)
  | some txId =>
      match event.operation with
      | .commit =>
          match tb.buffer.lookup txId with
          | some mutations => (mutations, ⟨tb.buffer.erase txId⟩)
          | none => ([], tb)
      | .rollback => ([], ⟨tb.buffer.erase txId⟩)
      | _ => ([], ⟨tb.buffer.insert txId ((tb.buffer.lookup txId).getD [] ++ [event])⟩)

/-- Drops every open transaction once more than `maxSize` are open, old or new. -/
def prune (tb : TransactionBuffer) (maxSize : ℕ) : TransactionBuffer :=
  if tb.buffer.len > maxSize then ⟨∅⟩ else tb

/-- What the buffer returns for each event of a stream, from an empty buffer. -/
def flushes (evs : List ChangeEvent) : List (List ChangeEvent) := Mealy.outputs process new evs

/-- The buffer after a stream, which is the state of `process` as a machine fed with the events. -/
def after (evs : List ChangeEvent) : TransactionBuffer := Mealy.final process new evs

/-- The mutations held for a transaction, in the order they came in; none if it has no entry. -/
def held (tb : TransactionBuffer) (t : String) : List ChangeEvent := (tb.buffer.lookup t).getD []

/-! ## The content of the buffer -/

/-- The mutations of `t` since the last end of `t` in a history. -/
def pendingOf (t : String) (hist : List ChangeEvent) : List ChangeEvent :=
  (hist.filter fun e => e.transactionId == some t).rtakeWhile ChangeEvent.isMutation

@[simp] theorem pendingOf_nil (t : String) : pendingOf t [] = [] := rfl

/-- An event of another transaction, or of none, leaves what is pending. -/
theorem pendingOf_concat_of_ne {t : String} {e : ChangeEvent} (hist : List ChangeEvent)
    (he : e.transactionId ≠ some t) : pendingOf t (hist ++ [e]) = pendingOf t hist := by
  simp [pendingOf, List.filter_append, he]

/-- Events outside a transaction leave its pending mutations alone. -/
theorem pendingOf_append_of_ne {t : String} {evs : List ChangeEvent} (hist : List ChangeEvent)
    (hevs : ∀ e ∈ evs, e.transactionId ≠ some t) : pendingOf t (hist ++ evs) = pendingOf t hist := by
  have hnone : (evs.filter fun e => e.transactionId == some t) = [] := by
    refine List.filter_eq_nil_iff.mpr fun e he => ?_
    simpa using hevs e he
  rw [pendingOf, List.filter_append, hnone, List.append_nil, pendingOf]

/-- A mutation of the transaction is pending behind the others. -/
theorem pendingOf_concat_of_mutation {t : String} {e : ChangeEvent} (hist : List ChangeEvent)
    (he : e.transactionId = some t) (hm : e.isMutation = true) :
    pendingOf t (hist ++ [e]) = pendingOf t hist ++ [e] := by
  simp [pendingOf, List.filter_append, he, hm]

/-- The end of a transaction leaves nothing pending. -/
theorem pendingOf_concat_of_end {t : String} {e : ChangeEvent} (hist : List ChangeEvent)
    (he : e.transactionId = some t) (hm : e.isMutation = false) :
    pendingOf t (hist ++ [e]) = [] := by
  simp [pendingOf, List.filter_append, he, hm]

/-- What an event flushes after a history: itself outside a transaction, the pending mutations at a
commit, and nothing otherwise. -/
def flushOf (hist : List ChangeEvent) (e : ChangeEvent) : List ChangeEvent :=
  match e.transactionId with
  | none => [e]
  | some t => if e.operation = .commit then pendingOf t hist else []

/-- The buffer holds what is pending: for every transaction the mutations since its last end. This
ties the map to the history of the stream. -/
def Holds (hist : List ChangeEvent) (tb : TransactionBuffer) : Prop :=
  ∀ t, tb.held t = pendingOf t hist

/-- The empty buffer holds what is pending before any event. -/
theorem holds_new : Holds [] new := fun _ => rfl

/-- What one call does: the transaction of the event alone changes, by a mutation it grows, and by
its end it is emptied and, at a commit, returned. -/
theorem process_spec (tb : TransactionBuffer) (e : ChangeEvent) :
    (∀ t, e.transactionId ≠ some t → (tb.process e).2.held t = tb.held t) ∧
    (∀ t, e.transactionId = some t →
      (e.isMutation = true → (tb.process e).1 = [] ∧ (tb.process e).2.held t = tb.held t ++ [e]) ∧
      (e.operation = .commit → (tb.process e).1 = tb.held t ∧ (tb.process e).2.held t = []) ∧
      (e.operation = .rollback → (tb.process e).1 = [] ∧ (tb.process e).2.held t = [])) := by
  cases htx : e.transactionId with
  | none => simp [process, htx]
  | some u =>
    refine ⟨fun t ht => ?_, fun t ht => ?_⟩
    -- the entries of the other transactions
    · have hne : t ≠ u := fun h => ht (by rw [h])
      cases hop : e.operation with
      | commit =>
        cases hl : tb.buffer.lookup u <;>
          simp [process, htx, hop, hl, held, AList.lookup_erase_ne hne]
      | rollback => simp [process, htx, hop, held, AList.lookup_erase_ne hne]
      | _ => simp [process, htx, hop, held, AList.lookup_insert_ne hne]
    · obtain rfl : u = t := by simpa using ht
      cases hop : e.operation with
      | commit =>
        cases hl : tb.buffer.lookup u <;>
          simp [process, htx, hop, hl, held, ChangeEvent.isMutation, Operation.endsTransaction]
      | rollback =>
        simp [process, htx, hop, held, ChangeEvent.isMutation, Operation.endsTransaction]
      | _ => simp [process, htx, hop, held]

/-- One call keeps the buffer equal to what is pending. -/
theorem Holds.process {hist : List ChangeEvent} {tb : TransactionBuffer} (h : Holds hist tb)
    (e : ChangeEvent) : Holds (hist ++ [e]) (tb.process e).2 := by
  obtain ⟨hother, hown⟩ := process_spec tb e
  intro t
  by_cases ht : e.transactionId = some t
  · obtain ⟨hmut, hcommit, hroll⟩ := hown t ht
    by_cases hm : e.isMutation = true
    · rw [(hmut hm).2, h t, pendingOf_concat_of_mutation hist ht hm]
    · have hm : e.isMutation = false := by simpa using hm
      rw [pendingOf_concat_of_end hist ht hm]
      cases hop : e.operation with
      | commit => exact (hcommit hop).2
      | rollback => exact (hroll hop).2
      | _ => simp [ChangeEvent.isMutation, Operation.endsTransaction, hop] at hm
  · rw [hother t ht, h t, pendingOf_concat_of_ne hist ht]

/-- One call returns what the history makes it flush. -/
theorem Holds.process_fst {hist : List ChangeEvent} {tb : TransactionBuffer} (h : Holds hist tb)
    (e : ChangeEvent) : (tb.process e).1 = flushOf hist e := by
  cases htx : e.transactionId with
  | none => simp [TransactionBuffer.process, flushOf, htx]
  | some t =>
    obtain ⟨hmut, hcommit, hroll⟩ := (process_spec tb e).2 t htx
    cases hop : e.operation with
    | commit => simp only [flushOf, htx, hop, if_true, (hcommit hop).1, h t]
    | rollback => simp [flushOf, htx, hop, (hroll hop).1]
    | _ =>
      have hm : e.isMutation = true := by
        simp [ChangeEvent.isMutation, Operation.endsTransaction, hop]
      simp [flushOf, htx, hop, (hmut hm).1]

/-- After any stream the buffer holds what is pending. -/
theorem holds_after (evs : List ChangeEvent) : Holds evs (after evs) :=
  Mealy.final_invariant process holds_new (fun _ _ e h => h.process e) evs

/-- The result at each position is what the events before it make it flush. -/
theorem flushes_getElem? (evs : List ChangeEvent) (i : ℕ) :
    (flushes evs)[i]? = evs[i]?.map (flushOf (evs.take i)) := by
  rw [flushes, Mealy.outputs_getElem?]
  exact congrArg (evs[i]?.map ·) (funext fun e => (holds_after (evs.take i)).process_fst e)

/-- The results of a longer stream are those of its first part, and those of the rest on the buffer
it leaves. -/
theorem flushes_append (evs rest : List ChangeEvent) :
    flushes (evs ++ rest) = flushes evs ++ Mealy.outputs process (after evs) rest :=
  Mealy.outputs_append process new evs rest

/-- The result for one more event depends on the history alone. -/
theorem flushes_concat (evs : List ChangeEvent) (e : ChangeEvent) :
    flushes (evs ++ [e]) = flushes evs ++ [flushOf evs e] := by
  rw [flushes_append, Mealy.outputs_cons, Mealy.outputs_nil, (holds_after evs).process_fst]

end TransactionBuffer

end Caminus

import Caminus.Buffer.TransactionBuffer
import Caminus.Common.Split

/-!
# Pruning the transaction buffer

`prune` (`src/buffer/mod.rs`) empties the buffer once too many transactions are open, and `process`
takes the next mutation of a pruned transaction for its first one. A commit then returns a part of its
transaction, exactly if the last such `prune` fell between two mutations of it (`atomicCommits_iff`).
-/

namespace Caminus.TransactionBuffer

/-- A call of the buffer's two operations that change it. -/
inductive BufferCall
  | process (event : ChangeEvent)
  | prune (maxSize : ℕ)

/-- What a call returns, and the buffer after it. A `prune` returns nothing downstream. -/
def serve (tb : TransactionBuffer) : BufferCall → List ChangeEvent × TransactionBuffer
  | .process event => tb.process event
  | .prune maxSize => ([], tb.prune maxSize)

/-- The buffer after a list of calls on a new one. -/
def afterCalls (calls : List BufferCall) : TransactionBuffer := Mealy.final serve new calls

/-- The events that a list of calls processes. -/
def processed (calls : List BufferCall) : List ChangeEvent :=
  calls.filterMap fun
    | .process event => some event
    | .prune _ => none

/-- The call empties the buffer: a `prune` when more transactions are open than it allows. It does
not choose among them. -/
def Clears (tb : TransactionBuffer) : BufferCall → Prop
  | .process _ => False
  | .prune maxSize => tb.buffer.len > maxSize

/-- Every commit returns all mutations of its transaction since its last end, or none. -/
def AtomicCommits (calls : List BufferCall) : Prop :=
  ∀ before e rest t, calls = before ++ .process e :: rest →
    e.transactionId = some t → e.operation = .commit →
    ((afterCalls before).process e).1 = pendingOf t (processed before) ∨
      ((afterCalls before).process e).1 = []

/-- No call of a stretch empties the buffer, each looked at where it stands after the calls before
it. -/
def NoClear (before stretch : List BufferCall) : Prop :=
  ∀ first call rest, stretch = first ++ call :: rest → ¬Clears (afterCalls (before ++ first)) call

/-- After `before` a `prune` empties the buffer, and no call of `since` does so again. What a commit
returns later is decided by the events after this point alone. -/
structure LastClear (before : List BufferCall) (maxSize : ℕ) (since : List BufferCall) : Prop where
  clears : Clears (afterCalls before) (.prune maxSize)
  last : NoClear (before ++ [.prune maxSize]) since

/-- A transaction that commits and has not ended since the buffer was last emptied has no mutation
before that, or none after it. -/
def NoneTorn (calls : List BufferCall) : Prop :=
  ∀ before maxSize since e rest t, calls = before ++ .prune maxSize :: (since ++ .process e :: rest) →
    LastClear before maxSize since → e.transactionId = some t → e.operation = .commit →
    (∀ x ∈ processed since, x.endsOf t = false) →
    pendingOf t (processed before) = [] ∨ ∀ x ∈ processed since, x.transactionId ≠ some t

/-! ## Pending mutations of a longer history -/

/-- As long as a transaction does not end, its pending mutations grow by all its events. -/
theorem pendingOf_append_of_open {t : String} {evs : List ChangeEvent} (hist : List ChangeEvent)
    (hopen : ∀ x ∈ evs, x.endsOf t = false) :
    pendingOf t (hist ++ evs) = pendingOf t hist ++ evs.filter fun e => e.transactionId == some t := by
  induction evs using List.reverseRecOn with
  | nil => simp
  | append_singleton evs e ih =>
    rw [List.forall_mem_append, List.forall_mem_singleton] at hopen
    rw [← List.append_assoc, List.filter_append]
    by_cases htx : e.transactionId = some t
    · have hm : e.isMutation = true := by
        simpa [ChangeEvent.endsOf, ChangeEvent.isMutation, htx] using hopen.2
      rw [pendingOf_concat_of_mutation _ htx hm, ih hopen.1]
      simp [htx]
    · rw [pendingOf_concat_of_ne _ htx, ih hopen.1]
      simp [htx]

/-- An end of a transaction hides what came before it. -/
theorem exists_endsOf_of_concat {t : String} {evs : List ChangeEvent} {e : ChangeEvent}
    (hend : ∃ x ∈ evs ++ [e], x.endsOf t = true) (he : e.endsOf t = false) :
    ∃ x ∈ evs, x.endsOf t = true := by
  obtain ⟨x, hx, hxend⟩ := hend
  rcases List.mem_append.mp hx with hx | hx
  · exact ⟨x, hx, hxend⟩
  · rw [List.mem_singleton.mp hx, he] at hxend
    cases hxend

/-- Once a transaction has ended again, what came before no longer matters for what is pending. -/
theorem pendingOf_append_of_end {t : String} {evs : List ChangeEvent} (hist : List ChangeEvent)
    (hend : ∃ x ∈ evs, x.endsOf t = true) : pendingOf t (hist ++ evs) = pendingOf t evs := by
  induction evs using List.reverseRecOn with
  | nil =>
    obtain ⟨x, hx, -⟩ := hend
    cases hx
  | append_singleton evs e ih =>
    rw [← List.append_assoc]
    by_cases htx : e.transactionId = some t
    · by_cases hm : e.isMutation = true
      · -- `e` is a mutation, so the end is among the events before it
        have he : e.endsOf t = false := by
          simpa [ChangeEvent.endsOf, ChangeEvent.isMutation, htx] using hm
        have hearlier := exists_endsOf_of_concat hend he
        rw [pendingOf_concat_of_mutation _ htx hm, pendingOf_concat_of_mutation _ htx hm,
          ih hearlier]
      · have hm : e.isMutation = false := by simpa using hm
        rw [pendingOf_concat_of_end _ htx hm, pendingOf_concat_of_end _ htx hm]
    · have he : e.endsOf t = false := by simp [ChangeEvent.endsOf, htx]
      have hearlier := exists_endsOf_of_concat hend he
      rw [pendingOf_concat_of_ne _ htx, pendingOf_concat_of_ne _ htx, ih hearlier]

/-! ## The content of a pruned buffer -/

/-- One more call is served by the buffer that the others leave. -/
theorem afterCalls_concat (calls : List BufferCall) (call : BufferCall) :
    afterCalls (calls ++ [call]) = (serve (afterCalls calls) call).2 :=
  Mealy.final_concat serve new calls call

/-- The events processed by a longer list of calls. -/
theorem processed_append (calls more : List BufferCall) :
    processed (calls ++ more) = processed calls ++ processed more :=
  List.filterMap_append

/-- A `prune` that clears leaves a buffer as good as new. -/
theorem prune_of_clears {tb : TransactionBuffer} {maxSize : ℕ} (h : Clears tb (.prune maxSize)) :
    tb.prune maxSize = new :=
  if_pos h

/-- A call that does not empty the buffer keeps it equal to what is pending. -/
theorem Holds.serve {hist : List ChangeEvent} {tb : TransactionBuffer} (h : Holds hist tb)
    {call : BufferCall} (hkeeps : ¬Clears tb call) :
    Holds (hist ++ processed [call]) (tb.serve call).2 := by
  cases call with
  | process event => exact h.process event
  | prune maxSize =>
    have hsame : tb.prune maxSize = tb := if_neg hkeeps
    show Holds (hist ++ []) (tb.prune maxSize)
    rw [List.append_nil, hsame]
    exact h

/-- As long as no call empties the buffer, it holds what is pending of all events that were
processed. -/
theorem NoClear.holds {before stretch : List BufferCall} {hist : List ChangeEvent}
    (hbefore : Holds hist (afterCalls before)) (h : NoClear before stretch) :
    Holds (hist ++ processed stretch) (afterCalls (before ++ stretch)) := by
  induction stretch using List.reverseRecOn with
  | nil => simpa [processed] using hbefore
  | append_singleton stretch call ih =>
    have hearlier := ih (forall_occurrence_mono (List.prefix_append _ _) h)
    rw [← List.append_assoc, afterCalls_concat, processed_append, ← List.append_assoc]
    exact hearlier.serve (h stretch call [] rfl)

/-- The buffer holds what is pending of the events since it was last emptied. -/
theorem LastClear.holds {before since : List BufferCall} {maxSize : ℕ}
    (h : LastClear before maxSize since) :
    Holds (processed since) (afterCalls (before ++ .prune maxSize :: since)) := by
  have hempty : Holds [] (afterCalls (before ++ [.prune maxSize])) := by
    rw [afterCalls_concat]
    show Holds [] ((afterCalls before).prune maxSize)
    rw [prune_of_clears h.clears]
    exact holds_new
  have hholds := h.last.holds hempty
  rwa [List.nil_append, List.append_assoc, List.singleton_append] at hholds

/-- A stretch is extended by a call that does not empty the buffer. -/
theorem NoClear.concat {before stretch : List BufferCall} {call : BufferCall}
    (h : NoClear before stretch) (hcall : ¬Clears (afterCalls (before ++ stretch)) call) :
    NoClear before (stretch ++ [call]) :=
  forall_occurrence_concat h hcall

/-- The buffer was never emptied, or there is a last time it was. By induction from the last call
backwards. -/
theorem noClear_or_lastClear (calls : List BufferCall) :
    NoClear [] calls ∨
      ∃ before maxSize since, calls = before ++ .prune maxSize :: since ∧
        LastClear before maxSize since := by
  induction calls using List.reverseRecOn with
  | nil =>
    left
    intro first call rest hsplit
    simp at hsplit
  | append_singleton calls call ih =>
    by_cases hcall : Clears (afterCalls calls) call
    · cases call with
      | process event => exact hcall.elim
      | prune maxSize =>
        refine Or.inr ⟨calls, maxSize, [], rfl, hcall, ?_⟩
        intro first call rest hsplit
        simp at hsplit
    · rcases ih with hnone | ⟨before, maxSize, since, rfl, hlast⟩
      · exact Or.inl (hnone.concat hcall)
      · refine Or.inr ⟨before, maxSize, since ++ [call], by simp, hlast.clears, hlast.last.concat ?_⟩
        rwa [List.append_assoc, List.singleton_append]

/-! ## Commits -/

/-- What a commit returns, from what the buffer holds. -/
theorem Holds.process_commit {hist : List ChangeEvent} {tb : TransactionBuffer} (h : Holds hist tb)
    {e : ChangeEvent} {t : String} (htx : e.transactionId = some t) (hop : e.operation = .commit) :
    (tb.process e).1 = pendingOf t hist := by
  rw [h.process_fst, flushOf, htx]
  exact if_pos hop

/-- A `prune` processes no event, so the events around it are those of the calls before and after
it. -/
theorem processed_lastClear (before since : List BufferCall) (maxSize : ℕ) :
    processed (before ++ .prune maxSize :: since) = processed before ++ processed since :=
  processed_append before (.prune maxSize :: since)

/-- **Commits stay atomic exactly if no transaction is torn**: whenever a transaction commits, the
last `prune` that emptied the buffer did not fall between two of its mutations. -/
theorem atomicCommits_iff (calls : List BufferCall) : AtomicCommits calls ↔ NoneTorn calls := by
  constructor
  · intro h before maxSize since e rest t hcalls hlast htx hop hopen
    have hall := h (before ++ .prune maxSize :: since) e rest t (by simp [hcalls]) htx hop
    have hsince : pendingOf t (processed since) =
        (processed since).filter fun e => e.transactionId == some t := by
      simpa using pendingOf_append_of_open [] hopen
    rw [hlast.holds.process_commit htx hop, processed_lastClear, pendingOf_append_of_open _ hopen,
      hsince] at hall
    rcases hall with hall | hnone
    · exact Or.inl (List.self_eq_append_left.mp hall)
    · right
      intro x hx htx'
      have hmem := List.filter_eq_nil_iff.mp hnone x hx
      exact hmem (by simp [htx'])
  · intro h before e rest t hcalls htx hop
    rcases noClear_or_lastClear before with hnone | ⟨first, maxSize, since, rfl, hlast⟩
    · left
      have hholds : Holds (processed before) (afterCalls before) := hnone.holds holds_new
      exact hholds.process_commit htx hop
    · rw [hlast.holds.process_commit htx hop, processed_lastClear]
      -- a transaction that has ended since was not cut by the `prune`, which is then before its
      -- last end
      by_cases hend : ∃ x ∈ processed since, x.endsOf t = true
      · left
        exact (pendingOf_append_of_end _ hend).symm
      · have hopen : ∀ x ∈ processed since, x.endsOf t = false := by simpa using hend
        rcases h first maxSize since e rest t (by simp [hcalls]) hlast htx hop hopen with
          hnone | hnone
        · left
          rw [pendingOf_append_of_open _ hopen, hnone, List.nil_append]
          simpa using pendingOf_append_of_open [] hopen
        · right
          exact pendingOf_append_of_ne [] hnone

/-- An event of transaction `tx-123`. -/
def txEvent (operation : Operation) (offset : String) : ChangeEvent where
  id := offset
  sourceDatabase := "db"
  sourceTableOrCollection := "tbl"
  operation := operation
  timestamp := 0
  key := .obj []
  before := none
  after := none
  transactionId := some "tx-123"
  offset := offset

/-- A `prune` between the two mutations of a transaction. -/
def tornTransaction : List BufferCall :=
  [.process (txEvent .create "1"), .prune 0, .process (txEvent .update "2"),
    .process (txEvent .commit "3")]

/-- The commit returns the second mutation alone: `prune(0)` has thrown the first away, although its
transaction was open and neither expired nor orphaned. -/
theorem not_atomicCommits_tornTransaction : ¬AtomicCommits tornTransaction := by
  intro h
  have hcommit := h (tornTransaction.take 3) (txEvent .commit "3") [] "tx-123" rfl rfl rfl
  revert hcommit
  decide

end Caminus.TransactionBuffer

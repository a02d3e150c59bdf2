import Caminus.Buffer.TransactionBuffer

/-!
# The transactional specification of the buffer

What the buffer is for, stated over positions of the stream and without its map: a mutation leaves
at the commit that ends its transaction, in arrival order and once, and never when the transaction
is rolled back or still open. `flushes_transactional` proves it of every run.
-/

namespace Caminus.TransactionBuffer

variable (evs : List ChangeEvent)

/-- Position `j` holds a mutation of transaction `t`. -/
def MutationAt (t : String) (j : ℕ) : Prop :=
  ∃ e ∈ evs[j]?, e.transactionId = some t ∧ e.isMutation = true

/-- Position `k` holds a `Commit` or `Rollback` of transaction `t`. -/
def EndAt (t : String) (k : ℕ) : Prop := ∃ e ∈ evs[k]?, e.endsOf t = true

/-- Position `k` holds a `Commit` of transaction `t`. -/
def CommitAt (t : String) (k : ℕ) : Prop :=
  ∃ e ∈ evs[k]?, e.transactionId = some t ∧ e.operation = .commit

instance (t : String) (j : ℕ) : Decidable (MutationAt evs t j) :=
  inferInstanceAs (Decidable (∃ e ∈ evs[j]?, e.transactionId = some t ∧ e.isMutation = true))

instance (t : String) (k : ℕ) : Decidable (EndAt evs t k) :=
  inferInstanceAs (Decidable (∃ e ∈ evs[k]?, e.endsOf t = true))

instance (t : String) (k : ℕ) : Decidable (CommitAt evs t k) :=
  inferInstanceAs (Decidable (∃ e ∈ evs[k]?, e.transactionId = some t ∧ e.operation = .commit))

/-- Position `c` is the first end of `t` after position `j`. -/
def EndedBy (t : String) (j c : ℕ) : Prop :=
  j < c ∧ EndAt evs t c ∧ ∀ k < c, j < k → ¬ EndAt evs t k

/-- The positions before `i` of mutations of `t` that no end of `t` separates from `i`, in arrival
order. -/
def openBefore (t : String) (i : ℕ) : List ℕ :=
  (List.range i).filter fun j => MutationAt evs t j ∧ ∀ k < i, j < k → ¬ EndAt evs t k

/-- The positions whose events are emitted at position `i`. -/
def emittedAt (i : ℕ) : List ℕ :=
  match evs[i]? with
  | none => []
  | some e =>
      match e.transactionId with
      | none => [i]
      | some t => if e.operation = .commit then openBefore evs t i else []

/-- The results at the positions of transaction `t`. -/
def resultsOf (t : String) (out : List (List ChangeEvent)) : List (List ChangeEvent) :=
  ((evs.zip out).filter fun p => p.1.transactionId == some t).map Prod.snd

/-- The transactional specification of a list of results, one for each event of a stream: what is
outside a transaction passes at once, what is inside appears at its commit, once and in order, and
each transaction is served as if it were alone. -/
structure Transactional (out : List (List ChangeEvent)) : Prop where
  output : ∀ i, out[i]? = evs[i]?.map fun _ => (emittedAt evs i).filterMap (evs[·]?)
  arrivalOrder : ∀ i, (emittedAt evs i).Pairwise (· < ·)
  dropped : ∀ t j, MutationAt evs t j → (∀ c, EndedBy evs t j c → ¬ CommitAt evs t c) →
    ∀ i, j ∉ emittedAt evs i
  once : ∀ t j c, MutationAt evs t j → EndedBy evs t j c → CommitAt evs t c →
    ∀ i, j ∈ emittedAt evs i ↔ i = c
  ownEvents : ∀ t,
    resultsOf evs t out = flushes (evs.filter fun e => e.transactionId == some t)

/-! ## Positions and pending mutations -/

variable {evs}

/-- No position both ends a transaction and holds a mutation of it. -/
theorem not_mutationAt_of_endAt {t : String} {j : ℕ} (h : EndAt evs t j) :
    ¬ MutationAt evs t j := by
  rintro ⟨e, he, -, hm⟩
  obtain ⟨e', he', hend⟩ := h
  obtain rfl : e = e' := Option.mem_unique he he'
  simp only [ChangeEvent.endsOf, ChangeEvent.isMutation, Bool.and_eq_true, Bool.not_eq_true'] at hend hm
  exact absurd hend.2 (by simp [hm])

/-- A commit is an end. -/
theorem CommitAt.endAt {t : String} {k : ℕ} (h : CommitAt evs t k) : EndAt evs t k := by
  obtain ⟨e, he, htx, hop⟩ := h
  exact ⟨e, he, by simp [ChangeEvent.endsOf, htx, hop, Operation.endsTransaction]⟩

/-- A position is open before `i` if it holds a mutation and no end stands in between. -/
theorem mem_openBefore {t : String} {i j : ℕ} :
    j ∈ openBefore evs t i ↔
      j < i ∧ MutationAt evs t j ∧ ∀ k < i, j < k → ¬ EndAt evs t k := by
  simp [openBefore]

/-- One more position ends everything, adds itself, or changes nothing. -/
theorem openBefore_succ (t : String) (i : ℕ) :
    openBefore evs t (i + 1) =
      if EndAt evs t i then [] else
        openBefore evs t i ++ if MutationAt evs t i then [i] else [] := by
  have hlast : ∀ k < i + 1, i < k → ¬ EndAt evs t k := fun k hk hik => by omega
  by_cases hend : EndAt evs t i
  · rw [if_pos hend]
    refine List.eq_nil_iff_forall_not_mem.mpr fun j hj => ?_
    obtain ⟨hji, hmut, hopen⟩ := mem_openBefore.mp hj
    rcases Nat.lt_or_ge j i with hlt | hge
    · exact hopen i (by omega) hlt hend
    · obtain rfl : j = i := by omega
      exact not_mutationAt_of_endAt hend hmut
  · rw [if_neg hend, openBefore, List.range_succ, List.filter_append]
    congr 1
    · refine List.filter_congr fun j hj => ?_
      rw [decide_eq_decide]
      -- for the earlier positions, the new one is no end that could come in between
      refine and_congr_right fun _ => ⟨fun h k hk hjk => h k (by omega) hjk, fun h k hk hjk => ?_⟩
      rcases Nat.lt_or_ge k i with hlt | hge
      · exact h k hlt hjk
      · obtain rfl : k = i := by omega
        exact hend
    · by_cases hmut : MutationAt evs t i
      · simp only [hmut, true_and, List.filter_cons, List.filter_nil, if_true]
        rw [if_pos (decide_eq_true hlast)]
      · simp [hmut]

/-- The events at the open positions are the pending mutations. By induction on the position, in
step with the history. -/
theorem filterMap_openBefore (t : String) (i : ℕ) :
    (openBefore evs t i).filterMap (evs[·]?) = pendingOf t (evs.take i) := by
  induction i with
  | zero => simp [openBefore]
  | succ i ih =>
    rw [openBefore_succ]
    cases hi : evs[i]? with
    | none =>
      have htake : evs.take (i + 1) = evs.take i := by
        have hlen : evs.length ≤ i := List.getElem?_eq_none_iff.mp hi
        rw [List.take_of_length_le hlen, List.take_of_length_le (by omega)]
      have hend : ¬ EndAt evs t i := by simp [EndAt, hi]
      have hmut : ¬ MutationAt evs t i := by simp [MutationAt, hi]
      rw [if_neg hend, if_neg hmut, List.append_nil, ih, htake]
    | some e =>
      rw [List.take_add_one, hi, Option.toList_some]
      by_cases htx : e.transactionId = some t
      · by_cases hm : e.isMutation = true
        · have hend : ¬ EndAt evs t i := fun h => not_mutationAt_of_endAt h ⟨e, hi, htx, hm⟩
          rw [if_neg hend, if_pos ⟨e, hi, htx, hm⟩, pendingOf_concat_of_mutation _ htx hm,
            List.filterMap_append, ih]
          simp [hi]
        · have hm : e.isMutation = false := by simpa using hm
          have hend : EndAt evs t i :=
            ⟨e, hi, by simpa [ChangeEvent.endsOf, ChangeEvent.isMutation, htx] using hm⟩
          rw [if_pos hend, pendingOf_concat_of_end _ htx hm, List.filterMap_nil]
      · have hend : ¬ EndAt evs t i := by simp [EndAt, hi, ChangeEvent.endsOf, htx]
        have hmut : ¬ MutationAt evs t i := by simp [MutationAt, hi, htx]
        rw [if_neg hend, if_neg hmut, List.append_nil, ih, pendingOf_concat_of_ne _ htx]

/-- The buffer's result at a position is the list of events at the emitted positions. -/
theorem flushes_getElem?_emittedAt (i : ℕ) :
    (flushes evs)[i]? = evs[i]?.map fun _ => (emittedAt evs i).filterMap (evs[·]?) := by
  rw [flushes_getElem?]
  cases hi : evs[i]? with
  | none => rfl
  | some e =>
    simp only [Option.map_some, Option.some.injEq, flushOf, emittedAt, hi]
    cases htx : e.transactionId with
    | none => simp [hi]
    | some t =>
      by_cases hop : e.operation = .commit
      · simp only [hop, if_true, filterMap_openBefore]
      · simp [hop]

/-- The positions that are emitted together are in the order of arrival. -/
theorem emittedAt_pairwise (i : ℕ) : (emittedAt evs i).Pairwise (· < ·) := by
  unfold emittedAt
  split
  · exact List.Pairwise.nil
  · split
    · exact List.pairwise_singleton _ _
    · split_ifs
      · exact List.pairwise_lt_range.filter _
      · exact List.Pairwise.nil

/-- A mutation is emitted at exactly the commit that ends its transaction, and so never after a
rollback. -/
theorem mem_emittedAt {t : String} {i j : ℕ} (hj : MutationAt evs t j) :
    j ∈ emittedAt evs i ↔ EndedBy evs t j i ∧ CommitAt evs t i := by
  obtain ⟨m, hm, hmtx, hmut⟩ := id hj
  unfold emittedAt
  cases hi : evs[i]? with
  | none => simp [CommitAt, hi]
  | some e =>
    simp only
    cases htx : e.transactionId with
    | none =>
      -- an event without a transaction emits itself, which is no mutation of `t`
      have hne : j ≠ i := by
        rintro rfl
        obtain rfl : m = e := Option.mem_unique hm hi
        rw [htx] at hmtx
        cases hmtx
      simp [hne, CommitAt, hi, htx]
    | some u =>
      simp only
      by_cases hop : e.operation = .commit
      · rw [if_pos hop, mem_openBefore]
        constructor
        -- the committing transaction is that of the mutation
        · rintro ⟨hji, ⟨m', hm', hmtx', -⟩, hopen⟩
          obtain rfl : m = m' := Option.mem_unique hm hm'
          obtain rfl : t = u := by rw [hmtx] at hmtx'; simpa using hmtx'
          have hcommit : CommitAt evs t i := ⟨e, hi, htx, hop⟩
          exact ⟨⟨hji, hcommit.endAt, hopen⟩, hcommit⟩
        · rintro ⟨⟨hji, -, hopen⟩, e', he', htx', -⟩
          obtain rfl : e = e' := Option.mem_unique hi he'
          obtain rfl : u = t := by rw [htx] at htx'; simpa using htx'
          exact ⟨hji, hj, hopen⟩
      · have hno : ¬ CommitAt evs t i := by
          rintro ⟨e', he', -, hop'⟩
          obtain rfl : e = e' := Option.mem_unique hi he'
          exact hop hop'
        simp [hop, hno]

/-- A mutation is ended once: the first commit or rollback of its transaction after it decides. -/
theorem EndedBy.unique {t : String} {j c d : ℕ} (hc : EndedBy evs t j c)
    (hd : EndedBy evs t j d) : c = d := by
  obtain ⟨hjc, hendc, hfirstc⟩ := hc
  obtain ⟨hjd, hendd, hfirstd⟩ := hd
  rcases Nat.lt_trichotomy c d with hlt | heq | hgt
  · exact absurd hendc (hfirstd c hlt hjc)
  · exact heq
  · exact absurd hendd (hfirstc d hgt hjd)

/-! ## Independence of the transactions -/

/-- What is pending for a transaction depends on its own events alone. -/
theorem pendingOf_filter (t : String) (hist : List ChangeEvent) :
    pendingOf t (hist.filter fun e => e.transactionId == some t) = pendingOf t hist := by
  simp [pendingOf, List.filter_filter]

/-- What an event flushes depends on its own transaction alone, so the others can be left out. -/
theorem flushOf_filter {t : String} {e : ChangeEvent} (hist : List ChangeEvent)
    (he : e.transactionId = some t) :
    flushOf (hist.filter fun e => e.transactionId == some t) e = flushOf hist e := by
  simp [flushOf, he, pendingOf_filter]

/-- The results at the positions of a transaction are those of the buffer on its events alone,
whatever is interleaved with them. -/
theorem resultsOf_flushes (t : String) (evs : List ChangeEvent) :
    resultsOf evs t (flushes evs) = flushes (evs.filter fun e => e.transactionId == some t) := by
  induction evs using List.reverseRecOn with
  | nil => rfl
  | append_singleton evs e ih =>
    have hlen : evs.length = (flushes evs).length := by simp [flushes]
    rw [flushes_concat, resultsOf, List.zip_append hlen, List.filter_append, List.map_append,
      ← resultsOf, ih, List.filter_append]
    by_cases he : e.transactionId = some t
    · simp [he, flushes_concat, flushOf_filter evs he]
    · simp [he]

/-- **The buffer is transactional over every run**, whatever the interleaving of transactions and
the reuse of their ids: what leaves it is single events and whole committed transactions, each once
and in order. -/
theorem flushes_transactional (evs : List ChangeEvent) : Transactional evs (flushes evs) where
  output := flushes_getElem?_emittedAt
  arrivalOrder := emittedAt_pairwise
  dropped := by
    intro t j hj hopen i hi
    obtain ⟨hended, hcommit⟩ := (mem_emittedAt hj).mp hi
    exact hopen i hended hcommit
  once := by
    intro t j c hj hended hcommit i
    constructor
    · intro hi
      exact ((mem_emittedAt hj).mp hi).1.unique hended
    · rintro rfl
      exact (mem_emittedAt hj).mpr ⟨hended, hcommit⟩
  ownEvents := fun t => resultsOf_flushes t evs

end Caminus.TransactionBuffer

import Caminus.Buffer.Transactional
import Caminus.Common.Split

/-!
# Which mutations leave the buffer, and in which order

Over a whole stream exactly the committed mutations leave the buffer (`mem_flatten_flushes_iff`). They
leave in the order of their commits, which is the order of the stream exactly when no mutation is
overtaken by a later one whose transaction commits first (`flushedPositions_pairwise_iff`).
-/

namespace Caminus.TransactionBuffer

variable {evs : List ChangeEvent}

/-! ## Committed mutations -/

/-- `m` is outside any transaction, or a mutation whose transaction commits before any other end of
it. -/
def Committed (evs : List ChangeEvent) (m : ChangeEvent) : Prop :=
  m ∈ evs ∧ m.transactionId = none ∨
    ∃ t before between commit rest, evs = before ++ m :: between ++ commit :: rest ∧
      m.transactionId = some t ∧ m.isMutation = true ∧
      commit.transactionId = some t ∧ commit.operation = .commit ∧
      ∀ e ∈ between, e.endsOf t = false

/-- After one more event a mutation is pending if it is that event, or was pending and the event
does not end its transaction. -/
theorem mem_pendingOf_concat {t : String} {hist : List ChangeEvent} {e m : ChangeEvent} :
    m ∈ pendingOf t (hist ++ [e]) ↔
      (m = e ∧ m.transactionId = some t ∧ m.isMutation = true) ∨
        e.endsOf t = false ∧ m ∈ pendingOf t hist := by
  -- an event of the transaction is a mutation of it or its end; any other event leaves it alone
  by_cases htx : e.transactionId = some t
  · by_cases hm : e.isMutation = true
    · have hend : e.endsOf t = false := by
        simpa [ChangeEvent.endsOf, ChangeEvent.isMutation, htx] using hm
      rw [pendingOf_concat_of_mutation hist htx hm, List.mem_append, List.mem_singleton]
      constructor
      · rintro (hmem | rfl)
        · exact Or.inr ⟨hend, hmem⟩
        · exact Or.inl ⟨rfl, htx, hm⟩
      · rintro (⟨rfl, -, -⟩ | ⟨-, hmem⟩)
        · exact Or.inr rfl
        · exact Or.inl hmem
    · have hm : e.isMutation = false := by simpa using hm
      have hend : e.endsOf t = true := by
        simpa [ChangeEvent.endsOf, ChangeEvent.isMutation, htx] using hm
      rw [pendingOf_concat_of_end hist htx hm]
      constructor
      · intro h
        cases h
      · rintro (⟨rfl, -, hm'⟩ | ⟨hend', -⟩)
        · exact absurd hm' (by simp [hm])
        · exact absurd hend' (by simp [hend])
  · have hend : e.endsOf t = false := by simp [ChangeEvent.endsOf, htx]
    rw [pendingOf_concat_of_ne hist htx]
    constructor
    · intro hmem
      exact Or.inr ⟨hend, hmem⟩
    · rintro (⟨rfl, htx', -⟩ | ⟨-, hmem⟩)
      · exact absurd htx' htx
      · exact hmem

/-- A mutation is pending exactly if it stands in the history with no end of its transaction behind
it. -/
theorem mem_pendingOf_iff {t : String} {hist : List ChangeEvent} {m : ChangeEvent} :
    m ∈ pendingOf t hist ↔
      ∃ before between, hist = before ++ m :: between ∧ m.transactionId = some t ∧
        m.isMutation = true ∧ ∀ e ∈ between, e.endsOf t = false := by
  induction hist using List.reverseRecOn with
  | nil => simp
  | append_singleton hist e ih =>
    -- an occurrence in `hist ++ [e]` is the last event or lies in `hist`
    rw [mem_pendingOf_concat, ih]
    constructor
    · rintro (⟨rfl, htx, hm⟩ | ⟨hend, before, between, rfl, htx, hm, hopen⟩)
      · exact ⟨hist, [], rfl, htx, hm, by simp⟩
      · refine ⟨before, between ++ [e], by simp, htx, hm, fun x hx => ?_⟩
        rcases List.mem_append.mp hx with hx | hx
        · exact hopen x hx
        · rw [List.mem_singleton.mp hx]
          exact hend
    · rintro ⟨before, between, heq, htx, hm, hopen⟩
      rcases concat_eq_append_cons heq with ⟨-, -, rfl⟩ | ⟨between', rfl, hhist⟩
      · exact Or.inl ⟨rfl, htx, hm⟩
      · refine Or.inr ⟨hopen e (by simp), before, between', hhist, htx, hm, fun x hx => ?_⟩
        exact hopen x (by simp [hx])

/-- One more event commits what it flushes. -/
theorem committed_concat {e m : ChangeEvent} :
    Committed (evs ++ [e]) m ↔ Committed evs m ∨ m ∈ flushOf evs e := by
  constructor
  · rintro (⟨hmem, htx⟩ | ⟨t, before, between, commit, rest, heq, htx, hm, hctx, hcop, hopen⟩)
    · rcases List.mem_append.mp hmem with hmem | hmem
      · exact Or.inl (Or.inl ⟨hmem, htx⟩)
      · rw [List.mem_singleton.mp hmem] at htx ⊢
        exact Or.inr (by simp [flushOf, htx])
    -- the commit is the last event, or was there before
    · rcases concat_eq_append_cons heq with ⟨-, rfl, rfl⟩ | ⟨rest', rfl, hevs⟩
      · refine Or.inr ?_
        simp only [flushOf, hctx, hcop, if_true]
        exact mem_pendingOf_iff.mpr ⟨before, between, rfl, htx, hm, hopen⟩
      · exact Or.inl (Or.inr ⟨t, before, between, commit, rest', hevs, htx, hm, hctx, hcop, hopen⟩)
  · rintro ((⟨hmem, htx⟩ | ⟨t, before, between, commit, rest, rfl, h⟩) | hmem)
    · exact Or.inl ⟨List.mem_append_left _ hmem, htx⟩
    · exact Or.inr ⟨t, before, between, commit, rest ++ [e], by simp, h⟩
    · unfold flushOf at hmem
      cases htx : e.transactionId with
      | none =>
        rw [htx] at hmem
        rw [List.mem_singleton.mp hmem]
        exact Or.inl ⟨by simp, htx⟩
      | some t =>
        simp only [htx] at hmem
        split_ifs at hmem with hop
        · obtain ⟨before, between, rfl, hmtx, hm, hopen⟩ := mem_pendingOf_iff.mp hmem
          exact Or.inr ⟨t, before, between, e, [], by simp, hmtx, hm, htx, hop, hopen⟩
        · cases hmem

/-- **Exactly the committed mutations leave the buffer.** -/
theorem mem_flatten_flushes_iff {m : ChangeEvent} :
    m ∈ (flushes evs).flatten ↔ Committed evs m := by
  induction evs using List.reverseRecOn with
  | nil => simp [flushes, Committed]
  | append_singleton evs e ih =>
    rw [flushes_concat, List.flatten_append, List.mem_append, ih, committed_concat]
    simp

/-- What is committed in a stream is in the stream. -/
theorem Committed.mem {m : ChangeEvent} (h : Committed evs m) : m ∈ evs := by
  obtain ⟨hmem, -⟩ | ⟨t, before, between, commit, rest, rfl, -⟩ := h
  · exact hmem
  · simp

/-- A committed mutation that is not in the dropped prefix is committed in the rest. -/
theorem Committed.of_append {pre : List ChangeEvent} {m : ChangeEvent}
    (h : Committed (pre ++ evs) m) (hm : m ∉ pre) : Committed evs m := by
  obtain ⟨hmem, htx⟩ | ⟨t, before, between, commit, rest, heq, h⟩ := h
  · rcases List.mem_append.mp hmem with hmem | hmem
    · exact absurd hmem hm
    · exact Or.inl ⟨hmem, htx⟩
  · -- `m` is not in the prefix, so the prefix ends before it
    rw [List.append_assoc, List.cons_append] at heq
    rcases List.append_eq_append_iff.mp heq with ⟨a, -, hevs⟩ | ⟨a, hpre, heq⟩
    · refine Or.inr ⟨t, a, between, commit, rest, ?_, h⟩
      rw [hevs, List.append_assoc, List.cons_append]
    · cases a with
      | nil =>
        rw [List.nil_append] at heq
        exact Or.inr ⟨t, [], between, commit, rest, heq.symm, h⟩
      | cons x a =>
        obtain ⟨rfl, -⟩ := List.cons.inj heq
        exact absurd (by simp [hpre]) hm

/-! ## The order of the flushes -/

/-- The positions that leave the buffer, in the order in which they do. -/
def flushedPositions (evs : List ChangeEvent) : List ℕ :=
  (List.range evs.length).flatMap (emittedAt evs)

/-- No mutation leaves after a later one: of two mutations that leave, the earlier one leaves no later
than the other. -/
def InCommitOrder (evs : List ChangeEvent) : Prop :=
  ∀ i j c d, i < j → i ∈ emittedAt evs c → j ∈ emittedAt evs d → c ≤ d

/-- What leaves the buffer is what stands at the positions that leave it. -/
theorem flatten_flushes (evs : List ChangeEvent) :
    (flushes evs).flatten = (flushedPositions evs).filterMap (evs[·]?) := by
  have hmap : flushes evs =
      (List.range evs.length).map fun c => (emittedAt evs c).filterMap (evs[·]?) := by
    refine List.ext_getElem? fun i => ?_
    rw [flushes_getElem?_emittedAt, List.getElem?_map]
    by_cases hi : i < evs.length
    · simp [hi]
    · simp [hi]
  rw [hmap, flushedPositions, List.filterMap_flatMap, List.flatMap_def]

/-- An emitted position: an event outside any transaction, or a mutation at its commit. -/
theorem emittedAt_cases {j c : ℕ} (h : j ∈ emittedAt evs c) :
    (j = c ∧ ∃ e ∈ evs[c]?, e.transactionId = none) ∨
      ∃ t, MutationAt evs t j ∧ EndedBy evs t j c ∧ CommitAt evs t c := by
  have hj := h
  unfold emittedAt at hj
  cases hc : evs[c]? with
  | none => simp [hc] at hj
  | some e =>
    cases htx : e.transactionId with
    | none =>
      simp only [hc, htx, List.mem_singleton] at hj
      exact Or.inl ⟨hj, e, rfl, htx⟩
    | some t =>
      simp only [hc, htx] at hj
      split_ifs at hj with hop
      · have hmut := (mem_openBefore.mp hj).2.1
        exact Or.inr ⟨t, hmut, (mem_emittedAt hmut).mp h⟩
      · cases hj

/-- A position is not emitted before it is reached. -/
theorem le_of_mem_emittedAt {j c : ℕ} (h : j ∈ emittedAt evs c) : j ≤ c := by
  obtain ⟨rfl, -⟩ | ⟨t, -, hended, -⟩ := emittedAt_cases h
  · exact Nat.le_refl _
  · exact hended.1.le

/-- Positions are emitted at positions of the stream. -/
theorem lt_length_of_mem_emittedAt {j c : ℕ} (h : j ∈ emittedAt evs c) : c < evs.length := by
  by_contra hc
  have hnone : evs[c]? = none := List.getElem?_eq_none_iff.mpr (Nat.le_of_not_lt hc)
  simp [emittedAt, hnone] at h

/-- A position is emitted at most once, since what a commit flushes has left the buffer with it. -/
theorem emittedAt_unique {j c d : ℕ} (hc : j ∈ emittedAt evs c) (hd : j ∈ emittedAt evs d) :
    c = d := by
  have hself : ∀ {a b : ℕ}, j = a → (∃ e ∈ evs[a]?, e.transactionId = none) →
      j ∈ emittedAt evs b → a = b := by
    rintro a b rfl ⟨e, he, hnone⟩ hb
    obtain ⟨heq, -⟩ | ⟨t, ⟨e', he', htx, -⟩, -⟩ := emittedAt_cases hb
    · exact heq
    · obtain rfl := Option.mem_unique he he'
      rw [hnone] at htx
      cases htx
  obtain ⟨heq, hnone⟩ | ⟨t, hmut, hended, -⟩ := emittedAt_cases hc
  · exact hself heq hnone hd
  · exact hended.unique ((mem_emittedAt hmut).mp hd).1

/-- Before a position leaves, only positions have left that leave no later. -/
theorem exists_flushedPositions_eq {j d : ℕ} (hj : j ∈ emittedAt evs d) :
    ∃ before after, flushedPositions evs = before ++ j :: after ∧
      ∀ i ∈ before, ∃ c ≤ d, i ∈ emittedAt evs c := by
  obtain ⟨early, late, hrange⟩ := List.append_of_mem
    (List.mem_range.mpr (lt_length_of_mem_emittedAt hj))
  obtain ⟨before, after, hat⟩ := List.append_of_mem hj
  refine ⟨early.flatMap (emittedAt evs) ++ before, after ++ late.flatMap (emittedAt evs), ?_, ?_⟩
  · rw [flushedPositions, hrange, List.flatMap_append, List.flatMap_cons, hat]
    simp
  · intro i hi
    rcases List.mem_append.mp hi with hi | hi
    · obtain ⟨c, hc, hic⟩ := List.mem_flatMap.mp hi
      have hsorted : (early ++ d :: late).Pairwise (· < ·) := hrange ▸ List.pairwise_lt_range
      have hcd := (List.pairwise_append.mp hsorted).2.2 c hc d List.mem_cons_self
      exact ⟨c, hcd.le, hic⟩
    · exact ⟨d, Nat.le_refl d, by rw [hat]; exact List.mem_append_left _ hi⟩

/-- **The flushes keep the order of the stream exactly when no mutation is overtaken.** -/
theorem flushedPositions_pairwise_iff (evs : List ChangeEvent) :
    (flushedPositions evs).Pairwise (· < ·) ↔ InCommitOrder evs := by
  rw [flushedPositions, List.pairwise_flatMap]
  constructor
  · rintro ⟨-, hacross⟩ i j c d hij hi hj
    by_contra hcd
    have hlt : d < c := Nat.lt_of_not_le hcd
    have hji := List.pairwise_iff_getElem.mp hacross d c
      (by simpa using lt_length_of_mem_emittedAt hj) (by simpa using lt_length_of_mem_emittedAt hi) hlt
    rw [List.getElem_range, List.getElem_range] at hji
    exact absurd (hji j hj i hi) (by omega)
  · intro horder
    refine ⟨fun c _ => emittedAt_pairwise c, List.pairwise_lt_range.imp fun hcd i hi j hj => ?_⟩
    rcases Nat.lt_trichotomy i j with hlt | rfl | hgt
    · exact hlt
    · exact absurd (emittedAt_unique hi hj) (by omega)
    · exact absurd (horder j i _ _ hgt hj hi) (by omega)

end Caminus.TransactionBuffer

import Caminus.Common.Split
import Caminus.Resiliency.Dedup
import Mathlib.Data.Finset.Card

/-!
# The filter is a window over the accepted ids

The set and the queue of the filter stay in step, and the queue is always the last `maxCapacity` of
the ids that were accepted so far. So a call answers from that window alone (`fifoWindow`).
-/

namespace Caminus

namespace DeduplicationFilter

/-- The answers to a sequence of calls on a new filter. -/
def answers (maxCapacity : ℕ) (ids : List String) : List Bool :=
  Mealy.outputs checkAndTrack (new maxCapacity) ids

/-- The filter after a sequence of calls. -/
def after (maxCapacity : ℕ) (ids : List String) : DeduplicationFilter :=
  Mealy.final checkAndTrack (new maxCapacity) ids

/-- The ids that a filter accepts in a sequence of calls, in order. -/
def acceptedFrom : DeduplicationFilter → List String → List String
  | _, [] => []
  | f, x :: ids =>
      if (f.checkAndTrack x).1 then acceptedFrom (f.checkAndTrack x).2 ids
      else x :: acceptedFrom (f.checkAndTrack x).2 ids

/-- The ids that a new filter accepts in a sequence of calls. -/
def accepted (maxCapacity : ℕ) (ids : List String) : List String :=
  acceptedFrom (new maxCapacity) ids

/-- Call `k` was on `x` and returned `false`, so the id was not tracked then. -/
def AcceptedAt (maxCapacity : ℕ) (ids : List String) (k : ℕ) (x : String) : Prop :=
  ids[k]? = some x ∧ (answers maxCapacity ids)[k]? = some false

/-- A first-in first-out window over the accepted ids: what is tracked are the last of them, as many
as the capacity allows, and an id is accepted again only after it was pushed out. -/
structure FifoWindow (maxCapacity : ℕ) (ids : List String) : Prop where
  answer : ∀ i x, ids[i]? = some x → ((answers maxCapacity ids)[i]? = some true ↔
    x ∈ (accepted maxCapacity (ids.take i)).rtake maxCapacity)
  nodup : ∀ i, (after maxCapacity (ids.take i)).order.Nodup
  tracked : ∀ i, (after maxCapacity (ids.take i)).processedIds =
    (after maxCapacity (ids.take i)).order.toFinset
  bounded : ∀ i, (after maxCapacity (ids.take i)).processedIds.card ≤ maxCapacity
  apart : ∀ i j x, i < j → AcceptedAt maxCapacity ids i x → AcceptedAt maxCapacity ids j x →
    ∃ others : Finset String, others.card = maxCapacity ∧ x ∉ others ∧
      ∀ y ∈ others, ∃ k, i < k ∧ k < j ∧ AcceptedAt maxCapacity ids k y

/-! ## One call -/

/-- The set and the queue agree, without repetitions and within the capacity: the invariant that
every call keeps. -/
structure InStep (f : DeduplicationFilter) : Prop where
  tracked : f.processedIds = f.order.toFinset
  nodup : f.order.Nodup
  bounded : f.order.length ≤ f.maxCapacity

/-- A new filter tracks nothing. -/
theorem inStep_new (maxCapacity : ℕ) : InStep (new maxCapacity) :=
  ⟨rfl, List.nodup_nil, Nat.zero_le _⟩

/-- What a call does: it finds the id in the queue, or moves the window by one. -/
theorem InStep.checkAndTrack_cases {f : DeduplicationFilter} (h : f.InStep) (x : String) :
    x ∈ f.order ∧ f.checkAndTrack x = (true, f) ∨
    x ∉ f.order ∧ ∃ f', f.checkAndTrack x = (false, f') ∧ f'.InStep ∧
      f'.maxCapacity = f.maxCapacity ∧ f'.order = (f.order ++ [x]).rtake f.maxCapacity := by
  have hmem : x ∈ f.processedIds ↔ x ∈ f.order := by rw [h.tracked, List.mem_toFinset]
  by_cases hx : x ∈ f.order
  · exact Or.inl ⟨hx, by rw [checkAndTrack, if_pos (hmem.mpr hx)]⟩
  · refine Or.inr ⟨hx, ?_⟩
    have hnodup : (f.order ++ [x]).Nodup := by
      rw [← List.concat_eq_append]
      exact List.Nodup.concat hx h.nodup
    have hset : insert x f.processedIds = (f.order ++ [x]).toFinset := by
      rw [h.tracked, List.toFinset_append, Finset.union_comm]
      rfl
    have hlen : (f.order ++ [x]).length = f.order.length + 1 := by simp
    have hbound := h.bounded
    rw [checkAndTrack, if_neg (mt hmem.mp hx)]
    simp only [hset]
    -- with the queue full the oldest id goes, out of both collections
    by_cases hfull : (f.order ++ [x]).length > f.maxCapacity
    · rw [if_pos hfull]
      cases horder : f.order ++ [x] with
      | nil => simp at horder
      | cons oldest rest =>
        rw [horder, List.nodup_cons] at hnodup
        have hdrop : (oldest :: rest).rtake f.maxCapacity = rest := by
          have hone : (oldest :: rest).length - f.maxCapacity = 1 := by
            rw [← horder]
            omega
          rw [List.rtake, hone]
          rfl
        refine ⟨_, rfl, ⟨?_, hnodup.2, ?_⟩, rfl, hdrop.symm⟩
        · rw [List.toFinset_cons, Finset.erase_insert]
          simpa using hnodup.1
        · have hrest : (oldest :: rest).length = rest.length + 1 := rfl
          rw [← horder] at hrest
          change rest.length ≤ f.maxCapacity
          omega
    · rw [if_neg hfull]
      have hkeep : (f.order ++ [x]).rtake f.maxCapacity = f.order ++ [x] := by
        have hzero : (f.order ++ [x]).length - f.maxCapacity = 0 := by omega
        rw [List.rtake, hzero]
        rfl
      exact ⟨_, rfl, ⟨rfl, hnodup, Nat.le_of_not_lt hfull⟩, rfl, hkeep.symm⟩

/-! ## Whole sequences -/

/-- What is accepted of two stretches, the second by the filter that the first one leaves. -/
theorem acceptedFrom_append (f : DeduplicationFilter) (ids rest : List String) :
    f.acceptedFrom (ids ++ rest) =
      f.acceptedFrom ids ++ (Mealy.final checkAndTrack f ids).acceptedFrom rest := by
  induction ids generalizing f with
  | nil => rfl
  | cons x ids ih =>
    rw [List.cons_append, acceptedFrom, acceptedFrom, Mealy.final_cons, ih]
    split_ifs <;> rfl

/-- An accepted id was accepted by one of the calls. -/
theorem exists_of_mem_acceptedFrom {f : DeduplicationFilter} {ids : List String} {y : String}
    (hy : y ∈ f.acceptedFrom ids) :
    ∃ k : ℕ, ids[k]? = some y ∧ (Mealy.outputs checkAndTrack f ids)[k]? = some false := by
  induction ids generalizing f with
  | nil => cases hy
  | cons x ids ih =>
    rw [acceptedFrom] at hy
    have hlater : y ∈ (f.checkAndTrack x).2.acceptedFrom ids →
        ∃ k : ℕ, (x :: ids)[k]? = some y ∧
          (Mealy.outputs checkAndTrack f (x :: ids))[k]? = some false := by
      intro h
      obtain ⟨k, hk, hanswer⟩ := ih h
      exact ⟨k + 1, by simpa using hk, by simpa using hanswer⟩
    split_ifs at hy with hdup
    · exact hlater hy
    · rcases List.mem_cons.mp hy with rfl | hy
      · exact ⟨0, rfl, by simpa using hdup⟩
      · exact hlater hy

/-- A single call accepts its id or nothing. -/
theorem acceptedFrom_singleton (f : DeduplicationFilter) (x : String) :
    f.acceptedFrom [x] = if (f.checkAndTrack x).1 then [] else [x] := by
  rw [acceptedFrom, acceptedFrom]

variable {maxCapacity : ℕ}

/-- After any sequence the queue is the end of what was accepted. -/
theorem inStep_after (ids : List String) :
    (after maxCapacity ids).InStep ∧ (after maxCapacity ids).maxCapacity = maxCapacity ∧
      (after maxCapacity ids).order = (accepted maxCapacity ids).rtake maxCapacity := by
  induction ids using List.reverseRecOn with
  | nil => exact ⟨inStep_new _, rfl, (List.rtake_nil maxCapacity).symm⟩
  | append_singleton ids x ih =>
    obtain ⟨hstep, hcap, horder⟩ := ih
    have hafter : after maxCapacity (ids ++ [x]) = ((after maxCapacity ids).checkAndTrack x).2 :=
      Mealy.final_concat _ _ _ _
    have haccepted : accepted maxCapacity (ids ++ [x]) =
        accepted maxCapacity ids ++ (after maxCapacity ids).acceptedFrom [x] :=
      acceptedFrom_append _ _ _
    rw [hafter, haccepted, acceptedFrom_singleton]
    rcases hstep.checkAndTrack_cases x with ⟨-, hcall⟩ | ⟨-, f', hcall, hstep', hcap', horder'⟩
    · rw [hcall, if_pos rfl, List.append_nil]
      exact ⟨hstep, hcap, horder⟩
    · rw [hcall, if_neg Bool.false_ne_true]
      refine ⟨hstep', hcap'.trans hcap, ?_⟩
      rw [horder', hcap, horder, rtake_rtake_concat]

/-- The answer of a call is whether its id is in the queue before the call. -/
theorem answer_iff {ids : List String} {i : ℕ} {x : String} (hx : ids[i]? = some x) :
    (answers maxCapacity ids)[i]? = some true ↔ x ∈ (after maxCapacity (ids.take i)).order := by
  have hanswer : (answers maxCapacity ids)[i]? =
      some ((after maxCapacity (ids.take i)).checkAndTrack x).1 := by
    rw [answers, Mealy.outputs_getElem?, hx]
    rfl
  rw [hanswer, Option.some.injEq]
  rcases (inStep_after (ids.take i)).1.checkAndTrack_cases x with
    ⟨hmem, hcall⟩ | ⟨hmem, f', hcall, -⟩
  · rw [hcall]
    exact iff_of_true rfl hmem
  · rw [hcall]
    exact iff_of_false Bool.false_ne_true hmem

/-- An id that is accepted is not in the window at that moment. -/
theorem notMem_order_of_acceptedAt {ids : List String} {i : ℕ} {x : String}
    (h : AcceptedAt maxCapacity ids i x) : x ∉ (after maxCapacity (ids.take i)).order := by
  rw [← answer_iff h.1, h.2]
  exact fun hfalse => Bool.false_ne_true (Option.some.inj hfalse)

/-- A call of the rest of a sequence is a call of the whole one. -/
theorem acceptedAt_drop {ids : List String} {i k : ℕ} {y : String}
    (hid : (ids.drop i)[k]? = some y)
    (hanswer : (Mealy.outputs checkAndTrack (after maxCapacity (ids.take i))
      (ids.drop i))[k]? = some false) : AcceptedAt maxCapacity ids (i + k) y := by
  have hlen : i ≤ ids.length := by
    by_contra h
    rw [List.drop_eq_nil_of_le (by omega)] at hid
    cases hid
  refine ⟨by rw [← hid, List.getElem?_drop], ?_⟩
  have htake : (Mealy.outputs checkAndTrack (new maxCapacity) (ids.take i)).length = i := by
    rw [Mealy.length_outputs, List.length_take, Nat.min_eq_left hlen]
  rw [answers, ← List.take_append_drop i ids, Mealy.outputs_append, List.getElem?_append_right,
    htake, Nat.add_sub_cancel_left]
  · exact hanswer
  · rw [htake]
    exact Nat.le_add_right i k

/-- A call of a shorter sequence is a call of the whole one. -/
theorem AcceptedAt.of_take {ids : List String} {j k : ℕ} {y : String}
    (h : AcceptedAt maxCapacity (ids.take j) k y) : k < j ∧ AcceptedAt maxCapacity ids k y := by
  obtain ⟨hid, hanswer⟩ := h
  have hk : k < j := by
    have hlen := (List.getElem?_eq_some_iff.mp hid).1
    rw [List.length_take] at hlen
    omega
  have hget : ids[k]? = some y := by rw [← hid, List.getElem?_take_of_lt hk]
  refine ⟨hk, hget, ?_⟩
  rw [answers, Mealy.outputs_getElem?, hid, List.take_take, Nat.min_eq_left hk.le] at hanswer
  rw [answers, Mealy.outputs_getElem?, hget]
  exact hanswer

/-- What is accepted up to a call, from an earlier accepting call on: its id, and then ids that were
accepted strictly between the two. -/
theorem accepted_take {ids : List String} {i j : ℕ} {x : String} (hij : i < j)
    (hx : AcceptedAt maxCapacity ids i x) :
    ∃ between, accepted maxCapacity (ids.take j) =
        accepted maxCapacity (ids.take i) ++ x :: between ∧
      ∀ y ∈ between, ∃ k, i < k ∧ k < j ∧ AcceptedAt maxCapacity ids k y := by
  have hcut : (ids.take j).take (i + 1) = ids.take i ++ [x] := by
    rw [List.take_take, Nat.min_eq_left hij, List.take_add_one, hx.1]
    rfl
  have hsplit := List.take_append_drop (i + 1) (ids.take j)
  refine ⟨(after maxCapacity ((ids.take j).take (i + 1))).acceptedFrom
    ((ids.take j).drop (i + 1)), ?_, fun y hy => ?_⟩
  · have hcall : ¬((after maxCapacity (ids.take i)).checkAndTrack x).1 = true := by
      rcases (inStep_after (ids.take i)).1.checkAndTrack_cases x with
        ⟨hmem, -⟩ | ⟨-, f', hcall, -⟩
      · exact absurd hmem (notMem_order_of_acceptedAt hx)
      · rw [hcall]
        exact Bool.false_ne_true
    -- the accepting call itself adds its id to what was accepted before
    have hfirst : accepted maxCapacity ((ids.take j).take (i + 1)) =
        accepted maxCapacity (ids.take i) ++ [x] := by
      rw [hcut, accepted, acceptedFrom_append, acceptedFrom_singleton]
      rw [show Mealy.final checkAndTrack (new maxCapacity) (ids.take i) =
        after maxCapacity (ids.take i) from rfl, if_neg hcall]
      rfl
    calc accepted maxCapacity (ids.take j)
        = accepted maxCapacity ((ids.take j).take (i + 1)) ++
            (after maxCapacity ((ids.take j).take (i + 1))).acceptedFrom
              ((ids.take j).drop (i + 1)) := by
          rw [accepted, ← hsplit, acceptedFrom_append, hsplit]
          rfl
      _ = _ := by rw [hfirst, List.append_assoc, List.singleton_append]
  · obtain ⟨k, hid, hanswer⟩ := exists_of_mem_acceptedFrom hy
    obtain ⟨hj, hk⟩ := (acceptedAt_drop hid hanswer).of_take
    exact ⟨i + 1 + k, by omega, hj, hk⟩

/-! ## The window -/

/-- An id that is accepted again has been pushed out by as many other ids as the window holds. -/
theorem exists_others {ids : List String} {i j : ℕ} {x : String} (hij : i < j)
    (hi : AcceptedAt maxCapacity ids i x) (hj : AcceptedAt maxCapacity ids j x) :
    ∃ others : Finset String, others.card = maxCapacity ∧ x ∉ others ∧
      ∀ y ∈ others, ∃ k, i < k ∧ k < j ∧ AcceptedAt maxCapacity ids k y := by
  obtain ⟨between, hall, hbetween⟩ := accepted_take hij hi
  obtain ⟨hstep, -, horder⟩ := @inStep_after maxCapacity (ids.take j)
  have hnot := notMem_order_of_acceptedAt hj
  rw [hall] at horder
  -- The id is still in the window while fewer than `maxCapacity` ids came after it.
  have hlong : maxCapacity ≤ between.length := by
    by_contra hshort
    refine hnot ?_
    have hfit : (accepted maxCapacity (ids.take i) ++ x :: between).length - maxCapacity -
        (accepted maxCapacity (ids.take i)).length = 0 := by
      rw [List.length_append, List.length_cons]
      omega
    rw [horder, List.rtake, List.drop_append, hfit]
    exact List.mem_append_right _ List.mem_cons_self
  have hwindow : (after maxCapacity (ids.take j)).order = between.rtake maxCapacity := by
    rw [horder, ← List.singleton_append, ← List.append_assoc,
      rtake_append_of_le_length _ hlong]
  refine ⟨(after maxCapacity (ids.take j)).order.toFinset, ?_, ?_, fun y hy => ?_⟩
  · rw [List.toFinset_card_of_nodup hstep.nodup, hwindow, List.rtake, List.length_drop]
    omega
  · rwa [List.mem_toFinset]
  · rw [List.mem_toFinset, hwindow] at hy
    exact hbetween y (List.mem_of_mem_drop hy)

/-- **The filter is exactly a first-in first-out window over the accepted ids**, for every capacity
and every sequence of calls. An id is reported if it is among the last accepted ones. -/
theorem fifoWindow (maxCapacity : ℕ) (ids : List String) : FifoWindow maxCapacity ids where
  answer i x hx := by
    obtain ⟨-, -, horder⟩ := @inStep_after maxCapacity (ids.take i)
    rw [answer_iff hx, horder]
  nodup i := (inStep_after (ids.take i)).1.nodup
  tracked i := (inStep_after (ids.take i)).1.tracked
  bounded i := by
    obtain ⟨hstep, hcap, -⟩ := @inStep_after maxCapacity (ids.take i)
    rw [hstep.tracked, List.toFinset_card_of_nodup hstep.nodup]
    exact hstep.bounded.trans_eq hcap
  apart _ _ _ hij hi hj := exists_others hij hi hj

end DeduplicationFilter

end Caminus

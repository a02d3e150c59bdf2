import Caminus.Common.Split
import Mathlib.Data.List.Chain

/-!
# Resuming from a checkpoint

A worker goes through the numbers with a property `P` in order. For each it does something visible and
then records the number as its checkpoint; it may be stopped anywhere and starts again after the
checkpoint. Over any sequence of such attempts no number is skipped, and an attempt repeats at most
one number of the earlier ones (`Frontier.attempt`).
-/

namespace Caminus.Resumption

variable {P : ℕ → Prop}

variable (P) in
/-- `b` is the first number with the property after `a`; numbers without it are passed over. -/
def Next (a b : ℕ) : Prop := P b ∧ a < b ∧ ∀ q, a < q → q < b → ¬ P q

variable (P) in
/-- From checkpoint `p` an attempt visits `run` and leaves the checkpoint `p'`: the last visited
number, or the one before it if the worker was stopped in between. -/
def Attempt (p : ℕ) (run : List ℕ) (p' : ℕ) : Prop :=
  ∃ done begun, run = done ++ begun ∧ begun.length ≤ 1 ∧ (p :: run).IsChain (Next P) ∧
    p' = done.getLastD p

variable (P) in
/-- What holds over all attempts so far, of which `runs` lists the numbers each of them visited:
none up to the checkpoint was skipped, and an attempt repeats at most one number of those before it. -/
structure GapFree (p : ℕ) (runs : List (List ℕ)) : Prop where
  /-- Everything up to the checkpoint was visited. -/
  covered : ∀ q, P q → q ≤ p → q ∈ runs.flatten
  /-- From the start on, the numbers are visited one after the other; one may be repeated. -/
  ordered : (0 :: runs.flatten).IsChain fun a b => b = a ∨ Next P a b
  visited : ∀ q ∈ runs.flatten, P q
  /-- An attempt visits no number twice and at most one that an earlier attempt has visited. -/
  repeated : ∀ before run after, runs = before ++ run :: after →
    run.Nodup ∧ (run.filter (· ∈ before.flatten)).length ≤ 1

/-- A number has at most one successor with the property. -/
theorem Next.unique {a b c : ℕ} (hb : Next P a b) (hc : Next P a c) : b = c := by
  rcases Nat.lt_trichotomy b c with hlt | heq | hgt
  · exact absurd hb.1 (hc.2.2 b hb.2.1 hlt)
  · exact heq
  · exact absurd hc.1 (hb.2.2 c hc.2.1 hgt)

/-- A chain increases. -/
theorem pairwise_lt_of_isChain {l : List ℕ} (h : l.IsChain (Next P)) : l.Pairwise (· < ·) :=
  List.isChain_iff_pairwise.mp (h.imp fun _ _ hab => hab.2.1)

/-- A chain skips nothing: what has the property and lies between two of its numbers is in it. -/
theorem mem_of_isChain {p q x : ℕ} {l : List ℕ} (h : (p :: l).IsChain (Next P)) (hx : x ∈ l)
    (hq : P q) (hpq : p < q) (hqx : q ≤ x) : q ∈ l := by
  induction l generalizing p with
  | nil => cases hx
  | cons a l ih =>
    rw [List.isChain_cons_cons] at h
    rcases Nat.lt_trichotomy q a with hlt | rfl | hgt
    · exact absurd hq (h.1.2.2 q hpq hlt)
    · exact List.mem_cons_self
    · rcases List.mem_cons.mp hx with rfl | hx
      · omega
      · exact List.mem_cons_of_mem _ (ih h.2 hx hgt)

/-- The numbers with a property in an interval form a chain from its start. -/
theorem isChain_filter_range' (p n : ℕ) [DecidablePred P] :
    (p :: (List.range' (p + 1) n).filter (P ·)).IsChain (Next P) := by
  induction n generalizing p with
  | zero => exact List.isChain_singleton p
  | succ n ih =>
    rw [List.range'_succ, List.filter_cons]
    by_cases hp : P (p + 1)
    · rw [if_pos (by simpa using hp)]
      refine List.isChain_cons_cons.mpr ⟨⟨hp, Nat.lt_succ_self p, fun q hq hq' => ?_⟩, ih (p + 1)⟩
      omega
    · rw [if_neg (by simpa using hp)]
      -- skipping `p + 1` changes no successor
      have hrest := ih (p + 1)
      cases hl : (List.range' (p + 1 + 1) n).filter (P ·) with
      | nil => exact List.isChain_singleton p
      | cons b l =>
        rw [hl, List.isChain_cons_cons] at hrest
        refine List.isChain_cons_cons.mpr ⟨⟨hrest.1.1, ?_, fun q hq hqb => ?_⟩, hrest.2⟩
        · have := hrest.1.2.1
          omega
        · rcases Nat.lt_or_ge (p + 1) q with hlt | hge
          · exact hrest.1.2.2 q hlt hqb
          · obtain rfl : q = p + 1 := by omega
            exact hp

variable (P) in
/-- The invariant between attempts: nothing beyond the checkpoint was visited but its successor, and
that one last. -/
structure Frontier (p : ℕ) (runs : List (List ℕ)) : Prop extends GapFree P p runs where
  beyond : ∀ q ∈ runs.flatten, q ≤ p ∨ Next P p q
  last : runs.flatten.getLastD 0 = p ∨ Next P p (runs.flatten.getLastD 0)

/-- Before the first attempt nothing was visited. -/
theorem frontier_nil (hpos : ∀ q, P q → 0 < q) : Frontier P 0 [] where
  covered := fun q hq hq0 => absurd (hpos q hq) (by omega)
  ordered := List.isChain_singleton 0
  visited := by simp
  repeated := by simp
  beyond := by simp
  last := Or.inl rfl

/-- The checkpoint after an attempt, and what of it lies beyond: at most the successor of the
checkpoint, visited last. -/
theorem Attempt.checkpoint {p p' : ℕ} {run : List ℕ} (h : Attempt P p run p') :
    p ≤ p' ∧ (p' = p ∨ p' ∈ run) ∧ (∀ q ∈ run, q ≤ p' ∨ Next P p' q) ∧
      (run.getLastD p = p' ∨ Next P p' (run.getLastD p)) := by
  obtain ⟨done, begun, rfl, hlen, hchain, rfl⟩ := h
  have hsorted := pairwise_lt_of_isChain hchain
  rcases List.eq_nil_or_concat done with rfl | ⟨done', d, rfl⟩
  · -- no checkpoint was made
    refine ⟨Nat.le_refl _, Or.inl rfl, ?_, ?_⟩
    · intro q hq
      match begun, hlen with
      | [b], _ =>
        rw [List.nil_append, List.mem_singleton] at hq
        rw [hq]
        exact Or.inr (List.isChain_cons_cons.mp hchain).1
    · match begun, hlen with
      | [], _ => exact Or.inl rfl
      | [b], _ => exact Or.inr (List.isChain_cons_cons.mp hchain).1
  · rw [List.concat_eq_append] at hsorted hchain ⊢
    have hd : (done' ++ [d]).getLastD p = d := by simp
    rw [hd]
    have hpd : p < d := by
      rw [List.pairwise_cons] at hsorted
      exact hsorted.1 d (by simp)
    have hdone : ∀ q ∈ done' ++ [d], q ≤ d := by
      intro q hq
      have hpair := (List.pairwise_append.mp (List.pairwise_cons.mp hsorted).2).1
      rcases List.mem_append.mp hq with hq | hq
      · exact ((List.pairwise_append.mp hpair).2.2 q hq d (by simp)).le
      · rw [List.mem_singleton.mp hq]
    refine ⟨hpd.le, Or.inr (by simp), ?_, ?_⟩
    · intro q hq
      rcases List.mem_append.mp hq with hq | hq
      · exact Or.inl (hdone q hq)
      · match begun, hlen with
        | [b], _ =>
          rw [List.mem_singleton.mp hq]
          rw [List.append_assoc, List.singleton_append, List.isChain_cons_append_cons_cons] at hchain
          exact Or.inr hchain.2.1
    · match begun, hlen with
      | [], _ => exact Or.inl (by simp)
      | [b], _ =>
        rw [List.append_assoc, List.singleton_append, List.isChain_cons_append_cons_cons] at hchain
        exact Or.inr (by simpa using hchain.2.1)

/-- Every number in a chain has the property. -/
theorem property_of_mem_chain {p q : ℕ} {l : List ℕ} (h : (p :: l).IsChain (Next P)) (hq : q ∈ l) :
    P q := by
  induction l generalizing p with
  | nil => cases hq
  | cons a l ih =>
    rw [List.isChain_cons_cons] at h
    rcases List.mem_cons.mp hq with rfl | hq
    · exact h.1.1
    · exact ih h.2 hq

/-- What an attempt repeats is the successor of the checkpoint. -/
theorem Frontier.length_filter_le {p : ℕ} {runs : List (List ℕ)} {run : List ℕ}
    (h : Frontier P p runs) (hchain : (p :: run).IsChain (Next P)) :
    (run.filter (· ∈ runs.flatten)).length ≤ 1 := by
  have hsorted := List.pairwise_cons.mp (pairwise_lt_of_isChain hchain)
  have hnext : ∀ q ∈ run.filter (· ∈ runs.flatten), Next P p q := by
    intro q hq
    rw [List.mem_filter, decide_eq_true_iff] at hq
    rcases h.beyond q hq.2 with hle | hnext
    · exact absurd (hsorted.1 q hq.1) (by omega)
    · exact hnext
  have hnodup : (run.filter (· ∈ runs.flatten)).Nodup :=
    (hsorted.2.imp fun hab => Nat.ne_of_lt hab).filter _
  match hl : run.filter (· ∈ runs.flatten) with
  | [] => exact Nat.zero_le _
  | [_] => exact Nat.le_refl _
  | a :: b :: l =>
    rw [hl] at hnext hnodup
    have hab : a = b := (hnext a (by simp)).unique (hnext b (by simp))
    simp [hab] at hnodup

/-- The visits of one more attempt follow those before it, with one repetition at most. -/
theorem Frontier.isChain_append {p : ℕ} {runs : List (List ℕ)} {run : List ℕ}
    (h : Frontier P p runs) (hchain : (p :: run).IsChain (Next P)) :
    (0 :: (runs.flatten ++ run)).IsChain fun a b => b = a ∨ Next P a b := by
  rw [← List.cons_append, List.isChain_append]
  refine ⟨h.ordered, hchain.tail.imp fun _ _ hab => Or.inr hab, fun x hx y hy => ?_⟩
  obtain rfl : runs.flatten.getLastD 0 = x := by
    simpa [List.getLast?_cons, List.getLastD_eq_getLast?] using hx
  have hpy : Next P p y := by
    cases run with
    | nil => cases hy
    | cons a run =>
      obtain rfl : a = y := by simpa using hy
      exact (List.isChain_cons_cons.mp hchain).1
  rcases h.last with hlast | hlast
  · rw [hlast]
    exact Or.inr hpy
  · exact Or.inl (hpy.unique hlast)

/-- **No number is skipped and at most one repeated**, over one more attempt. -/
theorem Frontier.attempt {p p' : ℕ} {runs : List (List ℕ)} {run : List ℕ} (h : Frontier P p runs)
    (ha : Attempt P p run p') : Frontier P p' (runs ++ [run]) := by
  obtain ⟨hle, hmem, hbeyond, hlast⟩ := ha.checkpoint
  obtain ⟨-, -, -, -, hchain, -⟩ := ha
  have hflat : (runs ++ [run]).flatten = runs.flatten ++ run := by simp
  refine ⟨⟨?_, ?_, ?_, ?_⟩, ?_, ?_⟩
  · intro q hq hqp
    rw [hflat]
    rcases Nat.lt_or_ge p q with hlt | hge
    · rcases hmem with rfl | hmem
      · omega
      · exact List.mem_append_right _ (mem_of_isChain hchain hmem hq hlt hqp)
    · exact List.mem_append_left _ (h.covered q hq hge)
  · rw [hflat]
    exact h.isChain_append hchain
  · intro q hq
    rw [hflat] at hq
    rcases List.mem_append.mp hq with hq | hq
    · exact h.visited q hq
    · exact property_of_mem_chain hchain hq
  · refine forall_occurrence_concat h.repeated ⟨?_, h.length_filter_le hchain⟩
    exact (List.pairwise_cons.mp (pairwise_lt_of_isChain hchain)).2.imp fun hab => Nat.ne_of_lt hab
  · intro q hq
    rw [hflat] at hq
    rcases List.mem_append.mp hq with hq | hq
    · rcases h.beyond q hq with hqp | hnext
      · exact Or.inl (hqp.trans hle)
      · rcases hmem with rfl | hmem
        · exact Or.inr hnext
        · -- the successor of the old checkpoint was visited again
          refine Or.inl (Nat.le_of_not_lt fun hlt => ?_)
          have hpp' := (List.pairwise_cons.mp (pairwise_lt_of_isChain hchain)).1 p' hmem
          exact hnext.2.2 p' hpp' hlt (property_of_mem_chain hchain hmem)
    · exact hbeyond q hq
  · rw [hflat]
    rcases List.eq_nil_or_concat run with rfl | ⟨run', q, rfl⟩
    · obtain rfl : p' = p := by simpa using hmem
      simpa using h.last
    · simpa using hlast

end Caminus.Resumption

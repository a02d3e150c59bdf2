import Caminus.Common.Resumption
import Mathlib.Data.List.Perm.Subperm

/-!
# Resuming late

A worker resumes after its checkpoint, but lets some numbers pass before it begins: it goes through
the numbers with the property `P` from there on, as in `Caminus.Resumption`. Over any sequence of such
attempts the numbers up to the checkpoint were visited or passed by in one of them, and two attempts
have at most one number in common (`Ledger.attempt`).
-/

namespace Caminus.Resumption

/-- An attempt from a checkpoint: how many numbers passed by, and which were visited then. -/
structure LateRun where
  checkpoint : ℕ
  missed : ℕ
  visited : List ℕ

variable (P : ℕ → Prop)

/-- The attempt leaves the checkpoint `p'`: the last visited number, or the one before it if the worker
was stopped in between. -/
def LateRun.Leaves (r : LateRun) (p' : ℕ) : Prop :=
  ∃ done begun, r.visited = done ++ begun ∧ begun.length ≤ 1 ∧
    ((r.checkpoint + r.missed) :: r.visited).IsChain (Next P) ∧ p' = done.getLastD r.checkpoint

/-- A number that passed by before the attempt began: it lies after the checkpoint and was read in
vain. -/
def LateRun.Passed (r : LateRun) (q : ℕ) : Prop :=
  r.checkpoint < q ∧ q ≤ r.checkpoint + r.missed

/-- What holds over all attempts so far, each of which starts from a checkpoint, misses what passes
before it begins, and leaves the next checkpoint behind. -/
structure Ledger (p : ℕ) (runs : List LateRun) : Prop where
  /-- Up to the checkpoint, every number was visited or passed by. -/
  covered : ∀ q, P q → q ≤ p → ∃ r ∈ runs, q ∈ r.visited ∨ r.Passed q
  /-- An attempt skips nothing once it has begun. -/
  ordered : ∀ r ∈ runs, ((r.checkpoint + r.missed) :: r.visited).IsChain (Next P)
  /-- It repeats at most one number of each attempt before it. -/
  repeated : ∀ before r after, runs = before ++ r :: after →
    ∀ r' ∈ before, (r.visited.filter (· ∈ r'.visited)).length ≤ 1
  /-- Each attempt has visited at most one number beyond the checkpoint. -/
  beyond : ∀ r ∈ runs, (r.visited.filter (p < ·)).length ≤ 1

variable {P} {p p' : ℕ} {r : LateRun} {runs : List LateRun}

/-- Before the first attempt nothing was visited and nothing passed by. -/
theorem ledger_nil (hpos : ∀ q, P q → 0 < q) : Ledger P 0 [] where
  covered := fun q hq hq0 => absurd (hpos q hq) (by omega)
  ordered := by simp
  repeated := by simp
  beyond := by simp

/-- The checkpoint grows, and only what was begun lies beyond it. -/
theorem LateRun.Leaves.checkpoint (h : r.Leaves P p') :
    r.checkpoint ≤ p' ∧ (p' = r.checkpoint ∨ p' ∈ r.visited) ∧
      (r.visited.filter (p' < ·)).length ≤ 1 := by
  obtain ⟨done, begun, hvisited, hlen, hchain, rfl⟩ := h
  have hsorted := pairwise_lt_of_isChain hchain
  rw [hvisited, List.pairwise_cons] at hsorted
  have hbegun : ∀ n, (begun.filter (n < ·)).length ≤ 1 :=
    fun n => (List.length_filter_le _ _).trans hlen
  rcases List.eq_nil_or_concat done with rfl | ⟨done', d, rfl⟩
  · refine ⟨Nat.le_refl _, Or.inl rfl, ?_⟩
    rw [hvisited]
    exact hbegun _
  · rw [List.concat_eq_append] at hsorted hvisited ⊢
    have hlast : (done' ++ [d]).getLastD r.checkpoint = d := by simp
    have hd : d ∈ r.visited := by
      rw [hvisited]
      simp
    rw [hlast]
    refine ⟨?_, Or.inr hd, ?_⟩
    · have := hsorted.1 d (by simp)
      omega
    · -- what is done lies up to its last number
      have hdone : (done' ++ [d]).filter (d < ·) = [] := by
        rw [List.filter_eq_nil_iff]
        intro q hq
        rw [decide_eq_true_iff]
        have hpair := (List.pairwise_append.mp hsorted.2).1
        rcases List.mem_append.mp hq with hq | hq
        · have := (List.pairwise_append.mp hpair).2.2 q hq d (by simp)
          omega
        · rw [List.mem_singleton.mp hq]
          omega
      rw [hvisited, List.filter_append, hdone, List.nil_append]
      exact hbegun d

/-- A later checkpoint leaves no more beyond it. -/
theorem length_filter_lt_mono (l : List ℕ) (h : p ≤ p') :
    (l.filter (p' < ·)).length ≤ (l.filter (p < ·)).length := by
  refine List.Sublist.length_le (List.monotone_filter_right l fun q hq => ?_)
  rw [decide_eq_true_iff] at hq ⊢
  omega

/-- **Nothing is lost but what passed by, and two attempts share at most one number.** The ledger is
extended by one attempt from its checkpoint. -/
theorem Ledger.attempt (h : Ledger P p runs) (hr : r.checkpoint = p) (hleaves : r.Leaves P p') :
    Ledger P p' (runs ++ [r]) := by
  obtain ⟨hle, hmem, hbeyond⟩ := hleaves.checkpoint
  obtain ⟨-, -, -, -, hchain, -⟩ := hleaves
  subst hr
  have hsorted := List.pairwise_cons.mp (pairwise_lt_of_isChain hchain)
  refine ⟨fun q hq hqp => ?_, ?_, ?_, ?_⟩
  · rcases Nat.lt_or_ge r.checkpoint q with hlt | hge
    · refine ⟨r, by simp, ?_⟩
      -- a number up to the new checkpoint was covered before, visited now, or passed by
      rcases Nat.lt_or_ge (r.checkpoint + r.missed) q with hafter | hpassed
      · rcases hmem with rfl | hmem
        · omega
        · exact Or.inl (mem_of_isChain hchain hmem hq hafter hqp)
      · exact Or.inr ⟨hlt, hpassed⟩
    · obtain ⟨r', hr', hq'⟩ := h.covered q hq hge
      exact ⟨r', List.mem_append_left _ hr', hq'⟩
  · intro r' hr'
    rcases List.mem_append.mp hr' with hr' | hr'
    · exact h.ordered r' hr'
    · rw [List.mem_singleton.mp hr']
      exact hchain
  · refine forall_occurrence_concat h.repeated fun r' hr' => ?_
    -- what is visited again lies beyond the checkpoint
    have hsub : r.visited.filter (· ∈ r'.visited) ⊆ r'.visited.filter (r.checkpoint < ·) := by
      intro q hq
      rw [List.mem_filter, decide_eq_true_iff] at hq ⊢
      have := hsorted.1 q hq.1
      exact ⟨hq.2, by omega⟩
    have hnodup : (r.visited.filter (· ∈ r'.visited)).Nodup :=
      (hsorted.2.imp fun hab => Nat.ne_of_lt hab).filter _
    exact (List.Subperm.length_le (hnodup.subperm hsub)).trans (h.beyond r' hr')
  · intro r' hr'
    rcases List.mem_append.mp hr' with hr' | hr'
    · exact (length_filter_lt_mono _ hle).trans (h.beyond r' hr')
    · rw [List.mem_singleton.mp hr']
      exact hbeyond

end Caminus.Resumption

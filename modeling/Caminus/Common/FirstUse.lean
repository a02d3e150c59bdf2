import Mathlib.Data.Finset.Card
import Mathlib.Data.List.TakeWhile

/-!
# Numbering by first use

What comes up in a list is numbered in the order in which it comes up first: the number of `x` is how
many different things come before it (`rank`). Numbers do not change when the list goes on, and
different things have different ones.
-/

namespace Caminus.FirstUse

variable {α : Type*} [DecidableEq α]

/-- How many different things there are before the first `x`: the number that `x` gets when things
are numbered as they come up. -/
def rank (xs : List α) (x : α) : ℕ := (xs.takeWhile fun y => y ≠ x).dedup.length

/-- The number of something new is that of the different things so far. -/
theorem rank_of_notMem {xs : List α} {x : α} (h : x ∉ xs) (ys : List α) :
    rank (xs ++ x :: ys) x = xs.dedup.length := by
  have hne : ∀ y ∈ xs, decide (y ≠ x) = true := by
    intro y hy
    rw [decide_eq_true_eq]
    rintro rfl
    exact h hy
  have hself : ((x :: ys).takeWhile fun y => y ≠ x) = [] := List.takeWhile_cons_of_neg (by simp)
  rw [rank, List.takeWhile_append_of_pos hne, hself, List.append_nil]

/-- A number is not changed by what comes later, so it can be given out at once. -/
theorem rank_append {xs : List α} {x : α} (h : x ∈ xs) (ys : List α) :
    rank (xs ++ ys) x = rank xs x := by
  obtain ⟨before, after, rfl, hbefore⟩ := List.eq_append_cons_of_mem h
  rw [List.append_assoc, List.cons_append, rank_of_notMem hbefore, rank_of_notMem hbefore]

/-- Something new is one thing more: with an element that was not there the distinct ones become
more. -/
theorem length_dedup_lt {xs : List α} {x : α} (h : x ∉ xs) (ys : List α) :
    xs.dedup.length < (xs ++ x :: ys).dedup.length := by
  rw [← List.card_toFinset, ← List.card_toFinset]
  have hsubset : xs.toFinset ⊆ (xs ++ x :: ys).toFinset := by
    rw [List.toFinset_append]
    exact Finset.subset_union_left
  exact Finset.card_lt_card
    ((Finset.ssubset_iff_of_subset hsubset).mpr ⟨x, by simp, by simpa using h⟩)

/-- Something new at the end is one thing more. -/
theorem length_dedup_concat {xs : List α} {x : α} (h : x ∉ xs) :
    (xs ++ [x]).dedup.length = xs.dedup.length + 1 := by
  rw [← List.card_toFinset, ← List.card_toFinset, List.toFinset_append]
  have hx : x ∉ xs.toFinset := by simpa using h
  simpa using Finset.card_union_of_disjoint (Finset.disjoint_singleton_right.mpr hx)

/-- Something that has come up before is none. -/
theorem length_dedup_concat_of_mem {xs : List α} {x : α} (h : x ∈ xs) :
    (xs ++ [x]).dedup.length = xs.dedup.length := by
  rw [← List.card_toFinset, ← List.card_toFinset, List.toFinset_append]
  congr 1
  simpa using h

/-- The number of something is less than the number of different things. -/
theorem rank_lt {xs : List α} {x : α} (h : x ∈ xs) : rank xs x < xs.dedup.length := by
  obtain ⟨before, after, rfl, hbefore⟩ := List.eq_append_cons_of_mem h
  rw [rank_of_notMem hbefore]
  exact length_dedup_lt hbefore after

/-- What comes up first has the smaller number, whatever follows. -/
theorem rank_lt_of_mem {before after : List α} {x y : α} (hx : x ∉ before) (hy : y ∈ before) :
    rank (before ++ x :: after) y < rank (before ++ x :: after) x := by
  rw [rank_of_notMem hx, rank_append hy]
  exact rank_lt hy

/-- **Different things have different numbers**, counted in the order in which they come up first. -/
theorem eq_of_rank_eq {xs : List α} {x y : α} (hx : x ∈ xs) (hy : y ∈ xs)
    (h : rank xs x = rank xs y) : x = y := by
  obtain ⟨before, after, rfl, hbefore⟩ := List.eq_append_cons_of_mem hx
  by_contra hne
  by_cases hmem : y ∈ before
  · have hlt := @rank_lt_of_mem α _ before after x y hbefore hmem
    omega
  · -- then `y` comes after `x`
    have hlate : y ∈ after := by simpa [hmem, Ne.symm hne] using hy
    obtain ⟨between, rest, rfl, hbetween⟩ := List.eq_append_cons_of_mem hlate
    have hnew : y ∉ before ++ x :: between := by simp [hmem, Ne.symm hne, hbetween]
    have hearlier : x ∈ before ++ x :: between := by simp
    have hlt := @rank_lt_of_mem α _ (before ++ x :: between) rest y x hnew hearlier
    simp only [List.append_assoc, List.cons_append] at hlt
    omega

end Caminus.FirstUse

import Mathlib.Data.List.Basic
import Mathlib.Data.List.DropRight
import Mathlib.Data.List.Forall2

/-!
# Occurrences in changed lists, and ends of lists
-/

namespace Caminus

variable {α : Type*} {l m before after : List α} {a x : α}

/-- An occurrence in a list with one more element is that element or lies before it. -/
theorem concat_eq_append_cons (h : l ++ [a] = before ++ x :: after) :
    after = [] ∧ l = before ∧ a = x ∨ ∃ after', after = after' ++ [a] ∧ l = before ++ x :: after' := by
  rcases List.eq_nil_or_concat after with rfl | ⟨after', b, rfl⟩
  · obtain ⟨hl, ha⟩ := List.append_inj' h rfl
    exact Or.inl ⟨rfl, hl, List.head_eq_of_cons_eq ha⟩
  · rw [List.concat_eq_append, ← List.cons_append, ← List.append_assoc] at h
    obtain ⟨hl, ha⟩ := List.append_inj' h rfl
    obtain rfl := List.head_eq_of_cons_eq ha
    exact Or.inr ⟨after', List.concat_eq_append, hl⟩

/-- The occurrences in a list with one more element in front: that element, and those behind it. -/
theorem forall_cons_occurrence {R : List α → α → Prop} :
    (∀ before x after, a :: l = before ++ x :: after → R before x) ↔
      R [] a ∧ ∀ before x after, l = before ++ x :: after → R (a :: before) x := by
  constructor
  · intro h
    exact ⟨h [] a l rfl, fun before x after hl => h (a :: before) x after (by rw [hl, List.cons_append])⟩
  · rintro ⟨hfirst, hlater⟩ before x after hsplit
    cases before with
    | nil =>
      obtain ⟨rfl, -⟩ := List.cons.inj hsplit
      exact hfirst
    | cons b before =>
      rw [List.cons_append, List.cons.injEq] at hsplit
      obtain ⟨rfl, hl⟩ := hsplit
      exact hlater before x after hl

/-- What holds of all occurrences in a list and of one more element behind it. -/
theorem forall_occurrence_concat {R : List α → α → Prop}
    (h : ∀ before x after, l = before ++ x :: after → R before x) (ha : R l a) :
    ∀ before x after, l ++ [a] = before ++ x :: after → R before x := by
  intro before x after hsplit
  rcases concat_eq_append_cons hsplit with ⟨-, rfl, rfl⟩ | ⟨after', -, hl⟩
  · exact ha
  · exact h before x after' hl

/-- What holds of all occurrences in a list holds of those in a beginning of it. -/
theorem forall_occurrence_mono {R : List α → α → Prop} (hlm : l <+: m)
    (h : ∀ before x after, m = before ++ x :: after → R before x) :
    ∀ before x after, l = before ++ x :: after → R before x := by
  intro before x after hl
  obtain ⟨rest, rfl⟩ := hlm
  apply h before x (after ++ rest)
  rw [hl, List.append_assoc, List.cons_append]

/-- An occurrence in `l ++ m` lies in `l` or in `m`. -/
theorem append_eq_append_cons (h : l ++ m = before ++ x :: after) :
    (∃ after', l = before ++ x :: after') ∨ ∃ before', before = l ++ before' ∧
      m = before' ++ x :: after := by
  rcases List.append_eq_append_iff.mp h with ⟨a, rfl, hm⟩ | ⟨a, hl, ha⟩
  · exact Or.inr ⟨a, rfl, hm⟩
  · cases a with
    | nil => exact Or.inr ⟨[], by simpa using hl.symm, by simpa using ha.symm⟩
    | cons y a =>
      obtain ⟨rfl, -⟩ := List.cons.inj ha
      exact Or.inl ⟨a, hl⟩

/-- A beginning of `m ++ x :: l` lies in `m` or goes on behind `x`. -/
theorem prefix_append_cons_iff {k : List α} :
    k <+: m ++ x :: l ↔ k <+: m ∨ ∃ t, t <+: l ∧ k = m ++ x :: t := by
  constructor
  · rintro ⟨r, hr⟩
    rcases append_eq_append_cons hr with ⟨after', rfl⟩ | ⟨before', hm, -⟩
    · exact Or.inr ⟨after', ⟨r, by simpa using hr⟩, rfl⟩
    · exact Or.inl ⟨before', hm.symm⟩
  · rintro (hk | ⟨t, ht, rfl⟩)
    · exact hk.trans (List.prefix_append m _)
    · exact (List.prefix_append_right_inj m).mpr ((List.prefix_cons_inj x).mpr ht)

/-- The elements of a list stay where they are when it grows at its end. -/
theorem getElem?_of_grows {n : ℕ} (h : l <+: m) (hn : l[n]? = some a) : m[n]? = some a := by
  obtain ⟨hlt, rfl⟩ := List.getElem?_eq_some_iff.mp hn
  exact List.prefix_iff_getElem?.mp h n hlt

/-- An element of a list with one position overwritten is the new one or stands elsewhere. -/
theorem getElem?_set_eq_some {i j : ℕ} (h : (l.set i a)[j]? = some x) :
    j = i ∧ x = a ∨ j ≠ i ∧ l[j]? = some x := by
  by_cases hij : j = i
  · subst hij
    have hlt := (List.getElem?_eq_some_iff.mp h).1
    rw [List.length_set] at hlt
    rw [List.getElem?_set_self hlt] at h
    exact Or.inl ⟨rfl, (Option.some.inj h).symm⟩
  · rw [List.getElem?_set_ne (Ne.symm hij)] at h
    exact Or.inr ⟨hij, h⟩

/-- A list in which a property is never lost again splits where it is gained. -/
theorem exists_append_of_pairwise {p : α → Bool} (h : l.Pairwise fun a b => p a = true → p b = true) :
    ∃ l₁ l₂, l = l₁ ++ l₂ ∧ (∀ a ∈ l₁, p a = false) ∧ ∀ a ∈ l₂, p a = true := by
  induction l with
  | nil => exact ⟨[], [], rfl, by simp, by simp⟩
  | cons a l ih =>
    rw [List.pairwise_cons] at h
    cases ha : p a with
    | true =>
      refine ⟨[], a :: l, rfl, by simp, fun b hb => ?_⟩
      rcases List.mem_cons.mp hb with rfl | hb
      · exact ha
      · exact h.1 b hb ha
    | false =>
      obtain ⟨l₁, l₂, rfl, hl₁, hl₂⟩ := ih h.2
      exact ⟨a :: l₁, l₂, rfl, List.forall_mem_cons.mpr ⟨ha, hl₁⟩, hl₂⟩

/-- What is related to `l ++ m` splits into what is related to `l` and what is related to `m`. -/
theorem exists_append_of_forall₂ {β : Type*} {R : β → α → Prop} {u : List β}
    (h : List.Forall₂ R u (l ++ m)) :
    ∃ u₁ u₂, u = u₁ ++ u₂ ∧ List.Forall₂ R u₁ l ∧ List.Forall₂ R u₂ m :=
  ⟨_, _, (List.take_append_drop l.length u).symm, List.forall₂_take_append _ _ _ h,
    List.forall₂_drop_append _ _ _ h⟩

/-- A list of at most one element has one order. -/
theorem eq_of_forall₂_perm {ls ms : List (List α)} (h : List.Forall₂ List.Perm ls ms)
    (hshort : ∀ m ∈ ms, m.length ≤ 1) : ls = ms := by
  induction h with
  | nil => rfl
  | @cons l m ls ms hlm _ ih =>
    rw [List.forall_mem_cons] at hshort
    rw [ih hshort.2]
    congr 1
    cases m with
    | nil => exact hlm.eq_nil
    | cons a m =>
      obtain rfl : m = [] := List.length_eq_zero_iff.mp (by simpa using hshort.1)
      exact hlm.eq_singleton

/-- Cutting a list at its end before one more element is added changes nothing of a later cut. -/
theorem rtake_rtake_concat (l : List α) (n : ℕ) (x : α) :
    (l.rtake n ++ [x]).rtake n = (l ++ [x]).rtake n := by
  cases n with
  | zero => rw [List.rtake_zero, List.rtake_zero]
  | succ n =>
    rw [List.rtake_concat_succ, List.rtake_concat_succ]
    congr 1
    rw [List.rtake_eq_reverse_take_reverse, List.rtake_eq_reverse_take_reverse,
      List.rtake_eq_reverse_take_reverse, List.reverse_reverse, List.take_take]
    rw [Nat.min_eq_left (Nat.le_succ n)]

/-- The end of `l ++ m` lies in `m` if `m` is long enough. -/
theorem rtake_append_of_le_length (l : List α) {m : List α} {n : ℕ}
    (h : n ≤ m.length) : (l ++ m).rtake n = m.rtake n := by
  rw [List.rtake_eq_reverse_take_reverse, List.rtake_eq_reverse_take_reverse, List.reverse_append,
    List.take_append_of_le_length (by simpa using h)]

end Caminus

import Caminus.Common.Linearize
import Mathlib.Algebra.BigOperators.Group.Finset.Piecewise
import Mathlib.Data.UInt

/-!
# Counters with relaxed atomics

Threads add to counters and load them with relaxed ordering. What is promised then is coherence: the
additions to one counter are in one order, each acts on the value that the one before has left, and a
thread never sees less of a counter than it has seen before. A load may see an old value, and the
accesses of a thread to different counters take place in any order. No addition is lost all the same
(`sum_additions`), and what a thread sees only grows (`history_coherent`).
-/

namespace Caminus.Relaxed

/-- An atomic access with relaxed ordering: an addition, whose old value nobody reads, or a load. -/
inductive Access
  | fetchAdd (amount : UInt64)
  | load
deriving DecidableEq, Repr

/-- The additions to a counter in their order, and how many of them each thread has seen. -/
structure Counter (ι : Type) where
  additions : List UInt64
  view : ι → ℕ

/-- What some additions add up to, in natural numbers; the counter itself wraps around at `2 ^ 64`. -/
def total (additions : List UInt64) : ℕ := (additions.map UInt64.toNat).sum

/-- The value of a counter that started at zero, after some additions. It wraps around. -/
def valueAfter (additions : List UInt64) : UInt64 := UInt64.ofNat (total additions)

/-- What an access adds. -/
def Access.amount : Access → ℕ
  | .fetchAdd amount => amount.toNat
  | .load => 0

/-- An access that took place, by its thread and its counter. -/
structure Op (ι κ : Type) where
  thread : ι
  counter : κ
  access : Access

/-- The counters with the accesses that the threads still have to make, each in its program order. -/
structure Session (ι κ : Type) where
  memory : κ → Counter ι
  todo : ι → List (κ × Access)

/-- The next access of a thread to a counter. A load is given the value after `pick` additions, if the
thread may see it. -/
structure Turn (ι κ : Type) where
  thread : ι
  counter : κ
  pick : ℕ

variable {ι κ : Type} [DecidableEq ι] [DecidableEq κ]

/-- An access, with the number of additions that it has seen. An addition sees all before it; a load
sees at least what its thread has seen, and maybe more. -/
def Counter.access (c : Counter ι) (i : ι) (pick : ℕ) : Access → ℕ × Counter ι
  | .fetchAdd amount =>
      (c.additions.length + 1,
        ⟨c.additions ++ [amount], Function.update c.view i (c.additions.length + 1)⟩)
  | .load =>
      let seen := max (c.view i) (min pick c.additions.length)
      (seen, { c with view := Function.update c.view i seen })

namespace Session

/-- No thread has seen anything, and all accesses are still to be made. -/
def start (program : ι → List (κ × Access)) : Session ι κ := ⟨fun _ => ⟨[], fun _ => 0⟩, program⟩

/-- The thread of a turn makes its next access to the counter of the turn. Accesses to different
counters may overtake each other. -/
def step (s : Session ι κ) (turn : Turn ι κ) : Option (Op ι κ × ℕ) × Session ι κ :=
  match (s.todo turn.thread).find? fun p => p.1 = turn.counter with
  | none => (none, s)
  | some (_, access) =>
      let (seen, counter) := (s.memory turn.counter).access turn.thread turn.pick access
      (some (⟨turn.thread, turn.counter, access⟩, seen),
        { s with
          memory := Function.update s.memory turn.counter counter
          todo := Function.update s.todo turn.thread
            ((s.todo turn.thread).eraseP fun p => p.1 = turn.counter) })

/-- The accesses that took place, each with the number of additions that it has seen. -/
def history (s : Session ι κ) (sched : List (Turn ι κ)) : List (Op ι κ × ℕ) :=
  Mealy.history step s sched

end Session

/-- The amounts added to a counter, in their order. -/
def additionsTo (c : κ) (ops : List (Op ι κ × ℕ)) : List UInt64 :=
  ops.filterMap fun e =>
    match e.1.access with
    | .fetchAdd amount => if e.1.counter = c then some amount else none
    | .load => none

/-- The accesses to a counter among those to all of them, in the same order. -/
def accessesTo (c : κ) (accesses : List (κ × Access)) : List Access :=
  accesses.filterMap fun p => if p.1 = c then some p.2 else none

/-- The accesses of a thread to a counter that took place. -/
def servedTo (i : ι) (c : κ) (ops : List (Op ι κ × ℕ)) : List Access :=
  Mealy.servedOf (fun op : Op ι κ => (op.thread, op.counter)) Op.access (i, c) ops

omit [DecidableEq ι] in
/-- The additions of two stretches come one after the other. -/
theorem additionsTo_append (c : κ) (ops ops' : List (Op ι κ × ℕ)) :
    additionsTo c (ops ++ ops') = additionsTo c ops ++ additionsTo c ops' :=
  List.filterMap_append

/-- Totals add up. -/
theorem total_append (additions additions' : List UInt64) :
    total (additions ++ additions') = total additions + total additions' := by
  rw [total, List.map_append, List.sum_append, total, total]

@[simp] theorem total_singleton (amount : UInt64) : total [amount] = amount.toNat := by
  simp [total]

/-- More additions, a greater total: amounts are not negative. -/
theorem total_take_mono (additions : List UInt64) {k n : ℕ} (h : k ≤ n) :
    total (additions.take k) ≤ total (additions.take n) := by
  obtain ⟨rest, hrest⟩ := @List.take_prefix_take_left _ additions _ _ h
  rw [← hrest, total_append]
  exact Nat.le_add_right _ _

/-- Some of the additions come to at most all of them. -/
theorem total_take_le_total (additions : List UInt64) (k : ℕ) :
    total (additions.take k) ≤ total additions := by
  conv_rhs => rw [← List.take_append_drop k additions, total_append]
  exact Nat.le_add_right _ _

/-! ## What a turn can do -/

namespace Session

/-- A turn does nothing, or makes the next access of its thread to its counter. -/
theorem step_cases (s : Session ι κ) (turn : Turn ι κ) :
    s.step turn = (none, s) ∨
    ∃ access, (s.todo turn.thread).find? (fun p => p.1 = turn.counter) =
        some (turn.counter, access) ∧
      s.step turn =
        (some (⟨turn.thread, turn.counter, access⟩,
            ((s.memory turn.counter).access turn.thread turn.pick access).1),
          { s with
            memory := Function.update s.memory turn.counter
              ((s.memory turn.counter).access turn.thread turn.pick access).2
            todo := Function.update s.todo turn.thread
              ((s.todo turn.thread).eraseP fun p => p.1 = turn.counter) }) := by
  rw [step]
  cases hfind : (s.todo turn.thread).find? fun p => p.1 = turn.counter with
  | none => exact Or.inl rfl
  | some p =>
    obtain ⟨counter, access⟩ := p
    have hcounter : counter = turn.counter := by simpa using List.find?_some hfind
    subst hcounter
    exact Or.inr ⟨access, rfl, rfl⟩

end Session

/-! ## Coherence -/

/-- No thread has seen more than there is: a view is the length of a beginning of the additions. -/
def Counter.Valid (c : Counter ι) : Prop := ∀ i, c.view i ≤ c.additions.length

namespace Counter

variable {c : Counter ι} {i : ι} {pick : ℕ} {access : Access}

/-- What an access adds. -/
theorem additions_access (c : Counter ι) (i : ι) (pick : ℕ) (access : Access) :
    (c.access i pick access).2.additions = c.additions ++
      match access with
      | .fetchAdd amount => [amount]
      | .load => [] := by
  cases access with
  | fetchAdd amount => rfl
  | load => exact (List.append_nil _).symm

/-- After an access its thread has seen what the access has. -/
theorem view_access_self (c : Counter ι) (i : ι) (pick : ℕ) (access : Access) :
    (c.access i pick access).2.view i = (c.access i pick access).1 := by
  cases access with
  | fetchAdd amount => exact Function.update_self ..
  | load => exact Function.update_self ..

/-- An access shows nothing to the other threads: relaxed accesses order nothing between them. -/
theorem view_access_ne (c : Counter ι) {j : ι} (hj : j ≠ i) (pick : ℕ) (access : Access) :
    (c.access i pick access).2.view j = c.view j := by
  cases access with
  | fetchAdd amount => exact Function.update_of_ne hj ..
  | load => exact Function.update_of_ne hj ..

/-- An access sees at least what its thread has seen, so a thread never sees a counter go back. -/
theorem Valid.view_le_access (h : c.Valid) (i : ι) (pick : ℕ) (access : Access) :
    c.view i ≤ (c.access i pick access).1 := by
  have hview := h i
  cases access with
  | fetchAdd amount =>
    rw [Counter.access]
    omega
  | load => exact le_max_left _ _

/-- An access sees at most what there is, its own addition included. -/
theorem Valid.access_le (h : c.Valid) (i : ι) (pick : ℕ) (access : Access) :
    (c.access i pick access).1 ≤ (c.access i pick access).2.additions.length := by
  have hview := h i
  cases access with
  | fetchAdd amount => simp [Counter.access]
  | load =>
    simp only [Counter.access]
    omega

/-- An access shows no thread more than there is. -/
theorem Valid.after (h : c.Valid) (i : ι) (pick : ℕ) (access : Access) :
    (c.access i pick access).2.Valid := by
  intro j
  by_cases hj : j = i
  · subst hj
    rw [view_access_self]
    exact h.access_le _ _ _
  · rw [view_access_ne c hj, additions_access, List.length_append]
    exact Nat.le_add_right_of_le (h j)

/-- No thread forgets what it has seen: an access moves the view of its thread forward, and no
other. -/
theorem Valid.view_le_view_access (h : c.Valid) (j : ι) :
    c.view j ≤ (c.access i pick access).2.view j := by
  by_cases hj : j = i
  · subst hj
    rw [view_access_self]
    exact h.view_le_access _ _ _
  · rw [view_access_ne c hj]

end Counter

namespace Session

variable {s : Session ι κ}

/-- The first turn contributes its access, if it makes one. -/
theorem history_cons (s : Session ι κ) (turn : Turn ι κ) (sched : List (Turn ι κ)) :
    s.history (turn :: sched) = (s.step turn).1.toList ++ (s.step turn).2.history sched :=
  Mealy.history_cons step s turn sched

/-- A turn keeps every counter valid, the one it accesses and all others. -/
theorem valid_step (h : ∀ c, (s.memory c).Valid) (turn : Turn ι κ) (c : κ) :
    ((s.step turn).2.memory c).Valid := by
  rcases s.step_cases turn with hstep | ⟨access, -, hstep⟩
  · rw [hstep]
    exact h c
  · rw [hstep]
    by_cases hc : c = turn.counter
    · subst hc
      simpa using (h turn.counter).after turn.thread turn.pick access
    · simpa [Function.update_of_ne hc] using h c

/-- A turn takes nothing from what any thread has seen. -/
theorem view_step (h : ∀ c, (s.memory c).Valid) (turn : Turn ι κ) (c : κ) (i : ι) :
    (s.memory c).view i ≤ ((s.step turn).2.memory c).view i := by
  rcases s.step_cases turn with hstep | ⟨access, -, hstep⟩
  · rw [hstep]
  · rw [hstep]
    by_cases hc : c = turn.counter
    · subst hc
      simpa using (h turn.counter).view_le_view_access i
    · simp [Function.update_of_ne hc]

/-- **What a thread sees of a counter only grows.** By induction on the schedule, with what the
thread has seen so far as a floor for all that follows. -/
theorem history_coherent (h : ∀ c, (s.memory c).Valid) (sched : List (Turn ι κ)) :
    (∀ e ∈ s.history sched, (s.memory e.1.counter).view e.1.thread ≤ e.2) ∧
      (s.history sched).Pairwise fun e e' =>
        e.1.thread = e'.1.thread → e.1.counter = e'.1.counter → e.2 ≤ e'.2 := by
  induction sched generalizing s with
  | nil => exact ⟨fun e he => (by cases he), List.Pairwise.nil⟩
  | cons turn sched ih =>
    obtain ⟨hfloor, hpairwise⟩ := ih (valid_step h turn)
    have hlater : ∀ e ∈ (s.step turn).2.history sched,
        (s.memory e.1.counter).view e.1.thread ≤ e.2 := by
      intro e he
      exact (view_step h turn _ _).trans (hfloor e he)
    rw [history_cons]
    rcases s.step_cases turn with hstep | ⟨access, -, hstep⟩
    · have hnone : (s.step turn).1 = none := by rw [hstep]
      rw [hnone]
      exact ⟨hlater, hpairwise⟩
    · have hsome : (s.step turn).1 = some (⟨turn.thread, turn.counter, access⟩,
          ((s.memory turn.counter).access turn.thread turn.pick access).1) := by
        rw [hstep]
      -- the access leaves its thread with what it has seen, which is the floor for the rest
      have hview : ((s.step turn).2.memory turn.counter).view turn.thread =
          ((s.memory turn.counter).access turn.thread turn.pick access).1 := by
        rw [hstep]
        simp [Counter.view_access_self]
      rw [hsome]
      refine ⟨?_, List.pairwise_cons.mpr ⟨?_, hpairwise⟩⟩
      · intro e he
        rcases List.mem_cons.mp he with rfl | he
        · exact (h turn.counter).view_le_access _ _ _
        · exact hlater e he
      · intro e he hthread hcounter
        rw [← hview]
        simpa [← hthread, ← hcounter] using hfloor e he

/-- The additions to a counter after one more turn. -/
theorem additions_step (s : Session ι κ) (turn : Turn ι κ) (c : κ) :
    ((s.step turn).2.memory c).additions =
      (s.memory c).additions ++ additionsTo c (s.step turn).1.toList := by
  rcases s.step_cases turn with hstep | ⟨access, -, hstep⟩
  · simp [hstep, additionsTo]
  · rw [hstep]
    by_cases hc : c = turn.counter
    · subst hc
      simp only [Function.update_self, Counter.additions_access]
      cases access <;> simp [additionsTo]
    · cases access <;> simp [additionsTo, Function.update_of_ne hc, Ne.symm hc]

/-- The additions that took place are in the memory, in the order in which they took place. -/
theorem additions_final (s : Session ι κ) (sched : List (Turn ι κ)) (c : κ) :
    ((Mealy.final step s sched).memory c).additions =
      (s.memory c).additions ++ additionsTo c (s.history sched) := by
  induction sched generalizing s with
  | nil => exact (List.append_nil _).symm
  | cons turn sched ih =>
    rw [Mealy.final_cons, ih, history_cons, additionsTo_append, ← List.append_assoc, additions_step]

/-- Every counter is valid after every schedule, by induction over the turns. -/
theorem valid_final (h : ∀ c, (s.memory c).Valid) (sched : List (Turn ι κ)) (c : κ) :
    ((Mealy.final step s sched).memory c).Valid := by
  induction sched generalizing s with
  | nil => exact h c
  | cons turn sched ih => exact ih (valid_step h turn)

/-- A load reads the memory that the operations before it have left. -/
theorem exists_load {sched : List (Turn ι κ)} {earlier later : List (Op ι κ × ℕ)} {i : ι} {c : κ}
    {seen : ℕ} (hsplit : s.history sched = earlier ++ (⟨i, c, .load⟩, seen) :: later) :
    ∃ before pick, s.history before = earlier ∧
      seen = (((Mealy.final step s before).memory c).access i pick .load).1 := by
  obtain ⟨before, turn, after, -, hhistory, hstep⟩ := Mealy.exists_step_of_history step hsplit
  refine ⟨before, turn.pick, hhistory, ?_⟩
  rcases (Mealy.final step s before).step_cases turn with hnone | ⟨access, -, hsome⟩
  · rw [hnone] at hstep
    cases hstep
  · rw [hsome] at hstep
    cases hstep
    rfl

/-- A load sees no addition that comes after it. -/
theorem seen_le (h : ∀ c, (s.memory c).Valid) {sched : List (Turn ι κ)}
    {earlier later : List (Op ι κ × ℕ)} {i : ι} {c : κ} {seen : ℕ}
    (hsplit : s.history sched = earlier ++ (⟨i, c, .load⟩, seen) :: later) :
    seen ≤ ((s.memory c).additions ++ additionsTo c earlier).length := by
  obtain ⟨before, pick, rfl, rfl⟩ := exists_load hsplit
  rw [← additions_final]
  have hle := (valid_final h before c).access_le i pick .load
  rw [Counter.additions_access, List.append_nil] at hle
  exact hle

/-! ## The order of each thread -/

/-- The access that is made is the first one of its thread to the counter. -/
theorem accessesTo_eraseP {accesses : List (κ × Access)} {c : κ} {access : Access}
    (h : accesses.find? (fun p => p.1 = c) = some (c, access)) :
    access :: accessesTo c (accesses.eraseP fun p => p.1 = c) = accessesTo c accesses := by
  induction accesses with
  | nil => cases h
  | cons p accesses ih =>
    by_cases hp : p.1 = c
    · simp only [List.find?_cons, hp, decide_true, Option.some.injEq] at h
      rw [List.eraseP_cons_of_pos (by simp [hp])]
      simp [accessesTo, h]
    · simp only [List.find?_cons, hp, decide_false] at h
      rw [List.eraseP_cons_of_neg (by simp [hp])]
      simpa [accessesTo, hp] using ih h

/-- Making it does not touch the accesses to another counter. -/
theorem accessesTo_eraseP_ne {c c' : κ} (hne : c' ≠ c) (accesses : List (κ × Access)) :
    accessesTo c' (accesses.eraseP fun p => p.1 = c) = accessesTo c' accesses := by
  induction accesses with
  | nil => rfl
  | cons p accesses ih =>
    by_cases hp : p.1 = c
    · rw [List.eraseP_cons_of_pos (by simp [hp])]
      simp [accessesTo, hp, Ne.symm hne]
    · rw [List.eraseP_cons_of_neg (by simp [hp])]
      simp only [accessesTo, List.filterMap_cons] at ih ⊢
      rw [ih]

/-- The accesses of a thread to a counter that are still to come. -/
def left (s : Session ι κ) (ic : ι × κ) : List Access := accessesTo ic.2 (s.todo ic.1)

/-- What is served and what is left of a thread's accesses to a counter are, together, what was left
before. -/
theorem served_step (s : Session ι κ) (turn : Turn ι κ) (ic : ι × κ) :
    Mealy.servedOf (fun op : Op ι κ => (op.thread, op.counter)) Op.access ic (s.step turn).1.toList ++
      (s.step turn).2.left ic = s.left ic := by
  obtain ⟨i, c⟩ := ic
  rw [left, left]
  rcases s.step_cases turn with hstep | ⟨access, hfind, hstep⟩
  · rw [hstep]
    rfl
  · rw [hstep]
    by_cases hi : i = turn.thread
    · subst hi
      by_cases hc : c = turn.counter
      · subst hc
        simpa [Mealy.servedOf] using accessesTo_eraseP hfind
      · simpa [Mealy.servedOf, Ne.symm hc] using accessesTo_eraseP_ne hc _
    · simp [Mealy.servedOf, Ne.symm hi, Function.update_of_ne hi]

/-- The accesses of a thread to a counter take place in their order. -/
theorem servedTo_history (s : Session ι κ) (sched : List (Turn ι κ)) (i : ι) (c : κ) :
    servedTo i c (s.history sched) ++ accessesTo c ((Mealy.final step s sched).todo i) =
      accessesTo c (s.todo i) :=
  Mealy.servedOf_history served_step s sched (i, c)

/-! ## Own additions are seen -/

/-- What a thread has seen of a counter covers what it has added itself. -/
theorem own_step (h : ∀ c, (s.memory c).Valid) {i : ι} {c : κ} {own : ℕ}
    (hown : own ≤ total ((s.memory c).additions.take ((s.memory c).view i))) (turn : Turn ι κ) :
    own + ((servedTo i c (s.step turn).1.toList).map Access.amount).sum ≤
      total (((s.step turn).2.memory c).additions.take (((s.step turn).2.memory c).view i)) := by
  rcases s.step_cases turn with hstep | ⟨access, -, hstep⟩
  · rw [hstep]
    simpa [servedTo, Mealy.servedOf] using hown
  · rw [hstep]
    by_cases hc : c = turn.counter
    · subst hc
      simp only [Function.update_self, Counter.additions_access, Option.toList_some]
      by_cases hi : i = turn.thread
      · subst hi
        rw [Counter.view_access_self]
        cases access with
        -- an own addition sees everything, itself included
        | fetchAdd amount =>
          have hall := total_take_le_total (s.memory turn.counter).additions
            ((s.memory turn.counter).view turn.thread)
          rw [Counter.access, List.take_of_length_le (by simp)]
          simp only [servedTo, Mealy.servedOf, total_append, total_singleton, Access.amount,
            decide_true, List.filter_cons_of_pos, List.filter_nil, List.map_cons, List.map_nil,
            List.sum_cons, List.sum_nil]
          omega
        | load =>
          have hmore := total_take_mono (s.memory turn.counter).additions
            ((h turn.counter).view_le_access turn.thread turn.pick .load)
          simp only [servedTo, Mealy.servedOf, Access.amount, decide_true, List.filter_cons_of_pos,
            List.filter_nil, List.map_cons, List.map_nil, List.sum_cons, List.sum_nil,
            List.append_nil]
          omega
      -- an addition of another thread goes behind what this one has seen
      · have hview := h turn.counter i
        rw [Counter.view_access_ne _ hi, List.take_append_of_le_length hview]
        simpa [servedTo, Mealy.servedOf, Ne.symm hi] using hown
    · simpa [servedTo, Mealy.servedOf, Function.update_of_ne hc, Ne.symm hc] using hown

/-- What a thread has added it has seen, after every schedule: by induction from `own_step`. -/
theorem own_final (h : ∀ c, (s.memory c).Valid) {i : ι} {c : κ} {own : ℕ}
    (hown : own ≤ total ((s.memory c).additions.take ((s.memory c).view i)))
    (sched : List (Turn ι κ)) :
    own + ((servedTo i c (s.history sched)).map Access.amount).sum ≤
      total (((Mealy.final step s sched).memory c).additions.take
        (((Mealy.final step s sched).memory c).view i)) := by
  induction sched generalizing s own with
  | nil => exact hown
  | cons turn sched ih =>
    have hlater := ih (valid_step h turn) (own_step h hown turn)
    rw [Nat.add_assoc, ← List.sum_append, ← List.map_append] at hlater
    rw [history_cons, servedTo, Mealy.servedOf_append]
    exact hlater

/-- **A load sees what its thread has added before.** -/
theorem own_le (h : ∀ c, (s.memory c).Valid) {i : ι} {c : κ} {own : ℕ}
    (hown : own ≤ total ((s.memory c).additions.take ((s.memory c).view i)))
    {sched : List (Turn ι κ)} {earlier later : List (Op ι κ × ℕ)} {seen : ℕ}
    (hsplit : s.history sched = earlier ++ (⟨i, c, .load⟩, seen) :: later) :
    own + ((servedTo i c earlier).map Access.amount).sum ≤
      total (((s.memory c).additions ++ additionsTo c earlier).take seen) := by
  obtain ⟨before, pick, rfl, rfl⟩ := exists_load hsplit
  rw [← additions_final]
  refine (own_final h hown before).trans (total_take_mono _ ?_)
  exact (valid_final h before c).view_le_access i pick .load

end Session

/-! ## No addition is lost -/

/-- All that was added to a counter was added by the threads, so the total is the sum over them. -/
theorem sum_additions [Fintype ι] (c : κ) (ops : List (Op ι κ × ℕ)) :
    total (additionsTo c ops) = ∑ i, ((servedTo i c ops).map Access.amount).sum := by
  induction ops with
  | nil => simp [total, additionsTo, servedTo, Mealy.servedOf]
  | cons e ops ih =>
    have hserved : ∀ i, ((servedTo i c (e :: ops)).map Access.amount).sum =
        (if e.1.thread = i then (if e.1.counter = c then e.1.access.amount else 0) else 0) +
          ((servedTo i c ops).map Access.amount).sum := by
      intro i
      by_cases hi : e.1.thread = i <;> by_cases hc : e.1.counter = c <;>
        simp [servedTo, Mealy.servedOf, hi, hc]
    have hadded : total (additionsTo c (e :: ops)) =
        (if e.1.counter = c then e.1.access.amount else 0) + total (additionsTo c ops) := by
      cases haccess : e.1.access with
      | fetchAdd amount =>
        by_cases hc : e.1.counter = c <;> simp [total, additionsTo, haccess, hc, Access.amount]
      | load => simp [total, additionsTo, haccess, Access.amount]
    rw [hadded, ih, Finset.sum_congr rfl fun i _ => hserved i, Finset.sum_add_distrib,
      Finset.sum_ite_eq, if_pos (Finset.mem_univ _)]

end Caminus.Relaxed

import Caminus.Common.Mealy
import Mathlib.Logic.Function.Basic

/-!
# Workers on a shared store

A worker reads an input, handles it with what the shared store holds at that moment, and then makes
the calls of the handler on the store, one at each turn. If no call changes what a handler reads, then
in every interleaving each worker makes the calls it would make alone (`Alone.calls`), and the part of
the store that only its own calls change is what these calls made of it (`Alone.view`).
-/

namespace Caminus

/-- A worker between two turns: the input it has read and not handled, the calls it still has to make,
and what it has handled and called so far. -/
structure Worker (σ α ε : Type*) where
  state : σ
  current : Option α
  pending : List ε
  handled : List α
  made : List ε

namespace Worker

variable {σ α ε : Type*}

/-- A worker that has read nothing. -/
def start (s : σ) : Worker σ α ε := ⟨s, none, [], [], []⟩

/-- The inputs a worker has read: those it has handled, and the one that it is about to handle. -/
def seen (w : Worker σ α ε) : List α := w.handled ++ w.current.toList

/-- The turns that have taken a worker where it is: an input is read in one turn and handled in
another, and every call takes one. -/
def progress (w : Worker σ α ε) : ℕ :=
  2 * w.handled.length + w.current.toList.length + w.made.length

/-- The next call is made: it moves from those that are pending to those that were made. -/
def call (w : Worker σ α ε) (eff : ε) (rest : List ε) : Worker σ α ε :=
  { w with pending := rest, made := w.made ++ [eff] }

/-- An input is handled: the state moves on, and its calls are to be made next. -/
def handling (w : Worker σ α ε) (a : α) (result : List ε × σ) : Worker σ α ε :=
  { w with
    state := result.2
    current := none
    pending := result.1
    handled := w.handled ++ [a] }

/-- An input is read, to be handled in a later turn, so that others may come in between. -/
def reading (w : Worker σ α ε) (next : Option α) : Worker σ α ε := { w with current := next }

/-- The worker is where its handler has taken it: its state is that after the handled inputs, and
the calls made and pending are theirs. -/
structure Follows (handle : σ → α → List ε × σ) (s₀ : σ) (w : Worker σ α ε) : Prop where
  state : w.state = Mealy.final handle s₀ w.handled
  calls : w.made ++ w.pending = (Mealy.outputs handle s₀ w.handled).flatten

variable {handle : σ → α → List ε × σ} {s₀ : σ} {w : Worker σ α ε}

/-- At the start nothing is handled and nothing is called. -/
theorem follows_start (handle : σ → α → List ε × σ) (s₀ : σ) : (start s₀).Follows handle s₀ :=
  ⟨rfl, rfl⟩

/-- A call that is made was pending before, so what was made and what is pending stay one list. -/
theorem Follows.call (h : w.Follows handle s₀) {eff : ε} {rest : List ε}
    (hpending : w.pending = eff :: rest) :
    (w.call eff rest).Follows handle s₀ where
  state := h.state
  calls := by
    have hcalls := h.calls
    rw [hpending] at hcalls
    simpa [Worker.call] using hcalls

/-- Handling an input adds its calls, none being pending. -/
theorem Follows.handling (h : w.Follows handle s₀) (a : α) (hpending : w.pending = []) :
    (w.handling a (handle w.state a)).Follows handle s₀ where
  state := by rw [Worker.handling, Mealy.final_concat, ← h.state]
  calls := by
    have hcalls := h.calls
    rw [hpending, List.append_nil] at hcalls
    rw [Worker.handling, Mealy.outputs_append, List.flatten_append, ← hcalls, ← h.state]
    simp

/-- Reading moves neither the state nor the calls. -/
theorem Follows.reading (h : w.Follows handle s₀) (next : Option α) :
    (w.reading next).Follows handle s₀ :=
  ⟨h.state, h.calls⟩

/-- A call that is pending belongs to some input, handled in some state. -/
theorem Follows.exists_of_mem_pending (h : w.Follows handle s₀) {eff : ε} (heff : eff ∈ w.pending) :
    ∃ s a, eff ∈ (handle s a).1 := by
  have hmem : eff ∈ (Mealy.outputs handle s₀ w.handled).flatten := by
    rw [← h.calls]
    exact List.mem_append_right _ heff
  obtain ⟨out, hout, hmem⟩ := List.mem_flatten.mp hmem
  obtain ⟨i, hi⟩ := List.mem_iff_getElem?.mp hout
  rw [Mealy.outputs_getElem?, Option.map_eq_some_iff] at hi
  obtain ⟨a, -, rfl⟩ := hi
  exact ⟨_, a, hmem⟩

end Worker

/-- Workers that share a store. Each has a state of its own and its own kind of it, and the store is
the only thing through which they can influence each other. -/
structure Crew {ι : Type*} (σ : ι → Type*) (α ε S : Type*) where
  worker : ∀ i, Worker (σ i) α ε
  store : S

namespace Crew

variable {ι : Type*} {σ : ι → Type*} {α ε S ρ : Type*}
  (handle : ∀ i, S → σ i → α → List ε × σ i) (perform : S → ε → S)

/-- No call changes what a handler reads, and what a worker sees of the store is changed by its own
calls alone. -/
structure Independent (view : ι → S → ρ) : Prop where
  unread : ∀ i s eff, handle i (perform s eff) = handle i s
  foreign : ∀ {i j}, j ≠ i → ∀ s t a, ∀ eff ∈ (handle j s t a).1, ∀ s',
    view i (perform s' eff) = view i s'
  own : ∀ i s s' eff, view i s = view i s' → view i (perform s eff) = view i (perform s' eff)

/-- Each worker is where it would be alone on the store `s₀`: its calls and its part of the store do
not tell that there are others. -/
structure Alone (view : ι → S → ρ) (init : ∀ i, σ i) (s₀ : S) (c : Crew σ α ε S) : Prop where
  follows : ∀ i, (c.worker i).Follows (handle i s₀) (init i)
  unread : ∀ i, handle i c.store = handle i s₀
  view : ∀ i, view i c.store = view i ((c.worker i).made.foldl perform s₀)

variable {handle perform} {view : ι → S → ρ} {init : ∀ i, σ i} {s₀ : S}

/-- At the start each worker is where it would be alone. -/
theorem alone_start (handle : ∀ i, S → σ i → α → List ε × σ i) (perform : S → ε → S)
    (view : ι → S → ρ) (init : ∀ i, σ i) (s₀ : S) :
    Alone handle perform view init s₀ ⟨fun i => .start (init i), s₀⟩ where
  follows := fun _ => Worker.follows_start _ _
  unread := fun _ => rfl
  view := fun _ => rfl

/-- The calls a worker has made begin the list of those it makes alone. -/
theorem Alone.made_isPrefix {c : Crew σ α ε S} (h : Alone handle perform view init s₀ c) (i : ι) :
    (c.worker i).made <+:
      (Mealy.outputs (handle i s₀) (init i) (c.worker i).handled).flatten :=
  ⟨_, (h.follows i).calls⟩

variable [DecidableEq ι]

variable (handle perform) in
/-- The turn of a worker: the next call, else the handling of what it has read, else the reading of
what comes next. -/
def turn (i : ι) (next : Option α) (c : Crew σ α ε S) : Crew σ α ε S :=
  match (c.worker i).pending, (c.worker i).current with
  | eff :: rest, _ =>
      ⟨Function.update c.worker i ((c.worker i).call eff rest), perform c.store eff⟩
  | [], some a =>
      ⟨Function.update c.worker i
        ((c.worker i).handling a (handle i c.store (c.worker i).state a)), c.store⟩
  | [], none => ⟨Function.update c.worker i ((c.worker i).reading next), c.store⟩

variable (handle perform) in
/-- What a turn can do: make the next pending call, handle the item that was read, read the next
item, or nothing when there is none. -/
theorem turn_cases (i : ι) (next : Option α) (c : Crew σ α ε S) :
    (∃ eff rest, (c.worker i).pending = eff :: rest ∧ turn handle perform i next c =
      ⟨Function.update c.worker i ((c.worker i).call eff rest), perform c.store eff⟩) ∨
    (∃ a, (c.worker i).pending = [] ∧ (c.worker i).current = some a ∧
      turn handle perform i next c =
        ⟨Function.update c.worker i
          ((c.worker i).handling a (handle i c.store (c.worker i).state a)), c.store⟩) ∨
    ((c.worker i).pending = [] ∧ (c.worker i).current = none ∧ turn handle perform i next c =
      ⟨Function.update c.worker i ((c.worker i).reading next), c.store⟩) := by
  unfold turn
  cases hpending : (c.worker i).pending with
  | cons eff rest => exact Or.inl ⟨eff, rest, rfl, rfl⟩
  | nil =>
    cases hcurrent : (c.worker i).current with
    | some a => exact Or.inr (Or.inl ⟨a, rfl, rfl, rfl⟩)
    | none => exact Or.inr (Or.inr ⟨rfl, rfl, rfl⟩)

/-- A turn of one worker leaves the others as they are. -/
theorem turn_worker_ne {i j : ι} (hij : j ≠ i) (next : Option α) (c : Crew σ α ε S) :
    (turn handle perform i next c).worker j = c.worker j := by
  rcases turn_cases handle perform i next c with
    ⟨eff, rest, -, hturn⟩ | ⟨a, -, -, hturn⟩ | ⟨-, -, hturn⟩ <;>
  · rw [hturn]
    exact Function.update_of_ne hij _ _

/-- A worker that is offered an input only when it can read it reads all it is offered. -/
theorem seen_turn {i : ι} {next : Option α} {c : Crew σ α ε S}
    (h : next ≠ none → (c.worker i).pending = [] ∧ (c.worker i).current = none) :
    ((turn handle perform i next c).worker i).seen = (c.worker i).seen ++ next.toList := by
  rcases turn_cases handle perform i next c with
    ⟨eff, rest, hpending, hturn⟩ | ⟨a, -, hcurrent, hturn⟩ | ⟨-, hcurrent, hturn⟩
  · have hnext : next = none := by
      by_contra hnext
      rw [(h hnext).1] at hpending
      cases hpending
    rw [hturn, hnext]
    simp [Worker.seen, Worker.call]
  · have hnext : next = none := by
      by_contra hnext
      rw [(h hnext).2] at hcurrent
      cases hcurrent
    rw [hturn, hnext]
    simp [hcurrent, Worker.seen, Worker.handling]
  · simp [hturn, hcurrent, Worker.seen, Worker.reading]

/-- A worker that has nothing to call, to handle or to read stands still; else it makes progress. -/
theorem progress_turn {i : ι} {next : Option α} (c : Crew σ α ε S) :
    ((c.worker i).pending = [] ∧ (c.worker i).current = none ∧ next = none) ∨
      ((turn handle perform i next c).worker i).progress = (c.worker i).progress + 1 := by
  rcases turn_cases handle perform i next c with
    ⟨eff, rest, -, hturn⟩ | ⟨a, -, hcurrent, hturn⟩ | ⟨hpending, hcurrent, hturn⟩
  · right
    rw [hturn]
    simp [Worker.progress, Worker.call]
    omega
  · right
    rw [hturn]
    simp [Worker.progress, Worker.handling, hcurrent]
    omega
  · cases next with
    | none => exact Or.inl ⟨hpending, hcurrent, rfl⟩
    | some a =>
      right
      rw [hturn]
      simp [Worker.progress, Worker.reading, hcurrent]
      omega

/-- A turn that leaves the store alone needs a look at its own worker only. -/
theorem Alone.update {c : Crew σ α ε S} (h : Alone handle perform view init s₀ c) {i : ι}
    {w : Worker (σ i) α ε} (hfollows : w.Follows (handle i s₀) (init i))
    (hmade : w.made = (c.worker i).made) :
    Alone handle perform view init s₀ ⟨Function.update c.worker i w, c.store⟩ := by
  refine ⟨fun j => ?_, h.unread, fun j => ?_⟩
  · by_cases hij : j = i
    · subst hij
      simpa using hfollows
    · simpa [Function.update_of_ne hij] using h.follows j
  · by_cases hij : j = i
    · subst hij
      simpa [hmade] using h.view j
    · simpa [Function.update_of_ne hij] using h.view j

/-- A call on the store is seen by its own worker alone, by independence of the calls. -/
theorem Alone.call {c : Crew σ α ε S} (h : Alone handle perform view init s₀ c)
    (hindep : Independent handle perform view) {i : ι} {eff : ε} {rest : List ε}
    (hpending : (c.worker i).pending = eff :: rest) :
    Alone handle perform view init s₀
      ⟨Function.update c.worker i ((c.worker i).call eff rest), perform c.store eff⟩ := by
  have heff : eff ∈ (c.worker i).pending := by
    rw [hpending]
    exact List.mem_cons_self
  obtain ⟨t, a, hmem⟩ := (h.follows i).exists_of_mem_pending heff
  refine ⟨fun j => ?_, fun j => ?_, fun j => ?_⟩
  · by_cases hij : j = i
    · subst hij
      simpa using (h.follows j).call hpending
    · simpa [Function.update_of_ne hij] using h.follows j
  · rw [hindep.unread, h.unread]
  · by_cases hij : j = i
    · subst hij
      simpa [Worker.call] using hindep.own j _ _ eff (h.view j)
    · simpa [Function.update_of_ne hij] using
        (hindep.foreign (Ne.symm hij) _ t a eff hmem c.store).trans (h.view j)

/-- **Every turn keeps each worker where it would be alone**, as long as the workers are
independent. -/
theorem Alone.turn {c : Crew σ α ε S} (h : Alone handle perform view init s₀ c)
    (hindep : Independent handle perform view) (i : ι) (next : Option α) :
    Alone handle perform view init s₀ (turn handle perform i next c) := by
  rcases turn_cases handle perform i next c with
    ⟨eff, rest, hpending, hturn⟩ | ⟨a, hpending, -, hturn⟩ | ⟨-, -, hturn⟩
  · rw [hturn]
    exact h.call hindep hpending
  · rw [hturn, h.unread i]
    exact h.update ((h.follows i).handling a hpending) rfl
  · rw [hturn]
    exact h.update ((h.follows i).reading next) rfl

end Crew

end Caminus

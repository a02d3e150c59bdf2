import Caminus.Common.Mealy
import Caminus.Source.Event
import Mathlib.Data.Finset.Basic

/-!
# The deduplication filter

`DeduplicationFilter` (`src/resiliency/dedup.rs`) remembers the ids of the last `maxCapacity` events
it let through. An id outside the history is always let through, whatever was evicted.
-/

namespace Caminus

/-- The ids seen lately, as a set and as a queue, oldest first. -/
structure DeduplicationFilter where
  processedIds : Finset String
  order : List String
  maxCapacity : ℕ

namespace DeduplicationFilter

/-- A filter that has seen nothing. -/
def new (maxCapacity : ℕ) : DeduplicationFilter := ⟨∅, [], maxCapacity⟩

/-- Whether the id is a duplicate; a new id is tracked, and the oldest one evicted once there are too
many. -/
def checkAndTrack (f : DeduplicationFilter) (eventId : String) : Bool × DeduplicationFilter :=
  if eventId ∈ f.processedIds then (true, f)
  else
    let processedIds := insert eventId f.processedIds
    let order := f.order ++ [eventId]
    if order.length > f.maxCapacity then
      match order with
      | oldest :: rest =>
          (false, { f with processedIds := processedIds.erase oldest, order := rest })
      | [] => (false, { f with processedIds := processedIds, order := order })
    else (false, { f with processedIds := processedIds, order := order })

/-- The events that the filter lets through, each compared with what is tracked at that moment. -/
def fresh : DeduplicationFilter → List ChangeEvent → List ChangeEvent
  | _, [] => []
  | f, e :: evs =>
      if (f.checkAndTrack e.id).1 then fresh (f.checkAndTrack e.id).2 evs
      else e :: fresh (f.checkAndTrack e.id).2 evs

@[simp] theorem fresh_nil (f : DeduplicationFilter) : f.fresh [] = [] := rfl

/-- A duplicate in front is dropped, and the filter stays as it is for the rest. -/
theorem fresh_cons_of_duplicate {f : DeduplicationFilter} {e : ChangeEvent} (evs : List ChangeEvent)
    (h : (f.checkAndTrack e.id).1 = true) :
    f.fresh (e :: evs) = (f.checkAndTrack e.id).2.fresh evs := by
  rw [fresh, if_pos h]

/-- A new event in front is let through, and tracked for the rest. -/
theorem fresh_cons_of_new {f : DeduplicationFilter} {e : ChangeEvent} (evs : List ChangeEvent)
    (h : (f.checkAndTrack e.id).1 = false) :
    f.fresh (e :: evs) = e :: (f.checkAndTrack e.id).2.fresh evs := by
  rw [fresh, if_neg (by simp [h])]

/-- The filter drops events and does not reorder them. -/
theorem fresh_sublist (f : DeduplicationFilter) (evs : List ChangeEvent) :
    (f.fresh evs).Sublist evs := by
  induction evs generalizing f with
  | nil => exact List.Sublist.refl _
  | cons e evs ih =>
    rw [fresh]
    split_ifs
    · exact (ih _).cons _
    · exact (ih _).cons_cons _

/-- The two ways a new id is tracked: with and without an eviction. -/
theorem checkAndTrack_of_notMem {f : DeduplicationFilter} {id : String} (h : id ∉ f.processedIds) :
    (f.checkAndTrack id).1 = false ∧
      (f.checkAndTrack id).2.processedIds ⊆ insert id f.processedIds := by
  unfold checkAndTrack
  rw [if_neg h]
  simp only
  split
  · split
    · exact ⟨rfl, Finset.erase_subset _ _⟩
    · exact ⟨rfl, fun _ hx => hx⟩
  · exact ⟨rfl, fun _ hx => hx⟩

/-- Events with distinct ids, none of them tracked yet, are all let through. -/
theorem fresh_eq_self {f : DeduplicationFilter} {evs : List ChangeEvent}
    (hids : (evs.map ChangeEvent.id).Nodup) (hnew : ∀ e ∈ evs, e.id ∉ f.processedIds) :
    f.fresh evs = evs := by
  induction evs generalizing f with
  | nil => rfl
  | cons e evs ih =>
    rw [List.map_cons, List.nodup_cons] at hids
    obtain ⟨hfst, htracked⟩ := checkAndTrack_of_notMem (hnew e List.mem_cons_self)
    have hrest : ∀ e' ∈ evs, e'.id ∉ (f.checkAndTrack e.id).2.processedIds := by
      intro e' he' hmem
      rcases Finset.mem_insert.mp (htracked hmem) with heq | hold
      · exact hids.1 (heq ▸ List.mem_map_of_mem he')
      · exact hnew e' (List.mem_cons_of_mem _ he') hold
    rw [fresh_cons_of_new _ hfst, ih hids.2 hrest]

/-- A new filter lets every stream with distinct ids through, however small its capacity is. -/
theorem fresh_new {n : ℕ} {evs : List ChangeEvent} (hids : (evs.map ChangeEvent.id).Nodup) :
    (new n).fresh evs = evs :=
  fresh_eq_self hids fun _ _ => Finset.notMem_empty _

end DeduplicationFilter

end Caminus

import Caminus.Common.LastWrite
import Mathlib.Logic.Function.Basic

/-!
# Replaying a log of keyed changes

A table maps keys to rows. A change sets the row of one key, or removes it, and a log is replayed
from the left. The row of a key after a log is the image of the last change of that key, whatever the
table was before; without a change it is the old row.
-/

namespace Caminus

/-- A change of a table: the new image of one key; `none` removes the row. -/
structure Change (κ ν : Type*) where
  key : κ
  image : Option ν

namespace Change

variable {κ ν : Type*} [DecidableEq κ]

def apply (t : κ → Option ν) (c : Change κ ν) : κ → Option ν := Function.update t c.key c.image

/-- The table after a log, whose changes are applied one after the other. -/
def replay (t : κ → Option ν) (log : List (Change κ ν)) : κ → Option ν := log.foldl apply t

/-- The changes of one key. -/
def ofKey (k : κ) (log : List (Change κ ν)) : List (Change κ ν) := log.filter (·.key = k)

/-- A change writes the row of its key. -/
theorem writes_apply (k : κ) :
    LastWrite.Writes (apply (ν := ν)) (fun t => t k) (Option.guard fun c => c.key = k) image := by
  intro t c
  by_cases hc : c.key = k
  · simp [apply, Option.guard, ← hc]
  · simp [apply, Option.guard, hc, Function.update_of_ne (Ne.symm hc)]

/-- The last change of a key decides its row; without one the row is what it was. -/
theorem replay_apply (t : κ → Option ν) (log : List (Change κ ν)) (k : κ) :
    replay t log k = ((ofKey k log).getLast?.map image).getD (t k) := by
  have hread := (writes_apply k).read_foldl t log
  rw [List.filterMap_eq_filter] at hread
  rw [replay, hread, ofKey]
  cases (log.filter fun c => decide (c.key = k)).getLast? <;> rfl

theorem replay_of_ofKey_eq_nil {k : κ} {log : List (Change κ ν)} (h : ofKey k log = [])
    (t : κ → Option ν) : replay t log k = t k := by
  simp [replay_apply, h]

/-- A key with a change has the same row whatever the log was replayed on. -/
theorem replay_congr {k : κ} {log : List (Change κ ν)} (h : ofKey k log ≠ [])
    (t u : κ → Option ν) : replay t log k = replay u log k := by
  obtain ⟨c, hc⟩ := Option.isSome_iff_exists.mp (List.getLast?_isSome.mpr h)
  simp [replay_apply, hc]

/-- Changes of pairwise different keys: each key takes the image of its own change. -/
theorem replay_apply_of_mem {log : List (Change κ ν)} (hnd : (log.map key).Nodup)
    {c : Change κ ν} (hc : c ∈ log) (t : κ → Option ν) : replay t log c.key = c.image := by
  have hof : ofKey c.key log = [c] := by
    induction log with
    | nil => cases hc
    | cons d log ih =>
      rw [List.map_cons, List.nodup_cons] at hnd
      rcases List.mem_cons.mp hc with rfl | hmem
      · have hnone : log.filter (fun d => decide (d.key = c.key)) = [] := by
          refine List.filter_eq_nil_iff.mpr fun d hd hkey => hnd.1 ?_
          rw [← of_decide_eq_true hkey]
          exact List.mem_map_of_mem hd
        simp [ofKey, hnone]
      · have hne : d.key ≠ c.key := fun h => hnd.1 (h ▸ List.mem_map_of_mem hmem)
        have hrest := ih hnd.2 hmem
        simpa [ofKey, hne] using hrest
  simp [replay_apply, hof]

end Change

end Caminus

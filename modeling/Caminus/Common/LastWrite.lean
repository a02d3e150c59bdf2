import Mathlib.Data.List.Basic
import Mathlib.Data.List.Induction

/-!
# Reading what was written last

Part of a state is seen through a function `read`. If every input either writes what is seen there or
leaves it alone, then the last input that writes decides what is read after a run, and the inputs that
do not write can be dropped.
-/

namespace Caminus.LastWrite

variable {σ α ω ρ : Type*}

/-- What an input writes is read as `shown` says; an input that writes nothing changes nothing. -/
def Writes (step : σ → α → σ) (read : σ → ρ) (written : α → Option ω) (shown : ω → ρ) : Prop :=
  ∀ s a, read (step s a) = (written a).elim (read s) shown

variable {step : σ → α → σ} {read : σ → ρ} {written : α → Option ω} {shown : ω → ρ}

/-- What is read after a list of inputs is what the last writing one wrote, or what was there
before. -/
theorem Writes.read_foldl (h : Writes step read written shown) (s : σ) (as : List α) :
    read (as.foldl step s) = (as.filterMap written).getLast?.elim (read s) shown := by
  induction as using List.reverseRecOn with
  | nil => rfl
  | append_singleton as a ih =>
    rw [List.foldl_concat, h, ih, List.filterMap_append]
    cases ha : written a with
    | none => simp [ha]
    | some w => simp [ha]

/-- The inputs that do not write are not seen: without them the same is read. -/
theorem Writes.read_foldl_filter (h : Writes step read written shown) (s : σ) (as : List α) :
    read ((as.filter fun a => (written a).isSome).foldl step s) = read (as.foldl step s) := by
  have hdropped :
      (as.filter fun a => (written a).isSome).filterMap written = as.filterMap written := by
    rw [List.filterMap_filter]
    refine List.filterMap_congr fun a _ => ?_
    cases ha : written a with
    | none => rfl
    | some w => rfl
  rw [h.read_foldl, h.read_foldl, hdropped]

end Caminus.LastWrite

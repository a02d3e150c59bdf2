import Mathlib.Data.List.AList

/-!
# Hash maps

A `HashMap` holds at most one value per key. It is a list of entries with distinct keys; the order
of the list stands for the unspecified iteration order, so results about iteration are stated up to
permutation.
-/

namespace Caminus

/-- `std::collections::HashMap`: every key has one entry. The order of the entries, which the source
leaves open, is that of the list. -/
abbrev HashMap (κ α : Type) := AList (fun _ : κ => α)

namespace HashMap

variable {κ α : Type}

/-- The number of entries. -/
def len (m : HashMap κ α) : ℕ := m.entries.length

/-- The values in iteration order, which the source leaves open. -/
def values (m : HashMap κ α) : List α := m.entries.map Sigma.snd

end HashMap

end Caminus

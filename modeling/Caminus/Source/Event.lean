import Caminus.Common.Json
import Mathlib.Data.List.Basic

/-!
# Change events

The record every stage of the engine passes on (`src/source/mod.rs`), and the reading of a stored
offset as a position of the source.
-/

namespace Caminus

/-- The kinds of change events. The last two end a transaction. -/
inductive Operation
  | create
  | update
  | delete
  | snapshot
  | commit
  | rollback
deriving DecidableEq

/-- A change captured from a source. Timestamps are nanoseconds since the epoch. -/
structure ChangeEvent where
  id : String
  sourceDatabase : String
  sourceTableOrCollection : String
  operation : Operation
  timestamp : ℤ
  key : Json
  before : Option Json
  after : Option Json
  transactionId : Option String
  offset : String
deriving DecidableEq

/-- `Commit` and `Rollback` end a transaction; every other operation is a mutation. -/
def Operation.endsTransaction : Operation → Bool
  | .commit => true
  | .rollback => true
  | _ => false

/-- A row change, as opposed to the end of a transaction. -/
def ChangeEvent.isMutation (e : ChangeEvent) : Bool := !e.operation.endsTransaction

/-- The event ends transaction `t`, by a commit or by a rollback. -/
def ChangeEvent.endsOf (t : String) (e : ChangeEvent) : Bool :=
  e.transactionId == some t && e.operation.endsTransaction

/-! ## Offsets -/

/-- The sign that a number may begin with: `parse::<u64>` accepts a plus. -/
def stripPlus : List Char → List Char
  | '+' :: rest => rest
  | cs => cs

/-- `str::parse::<u64>`: an optional plus sign and at least one decimal digit, below `2 ^ 64`. -/
def parseU64 (s : String) : Option ℕ :=
  let digits := stripPlus s.toList
  if digits.isEmpty || !digits.all Char.isDigit then none
  else if Nat.ofDigitChars 10 digits 0 < 2 ^ 64 then some (Nat.ofDigitChars 10 digits 0)
  else none

/-- The sequence number a source resumes from: `0` without an offset or with one that is not a
number. -/
def startPosition (offset : Option String) : ℕ :=
  (offset.bind parseU64).getD 0

/-- The position of an event in its source, as a source that resumes from its offset would read it. -/
def ChangeEvent.position (e : ChangeEvent) : ℕ := startPosition (some e.offset)

/-- The digits of a number are read as the number. -/
theorem parseU64_repr {n : ℕ} (hn : n < 2 ^ 64) : parseU64 n.repr = some n := by
  have hdigit : ∀ c ∈ Nat.toDigits 10 n, c.isDigit = true :=
    fun c hc => Nat.isDigit_of_mem_toDigits (by decide) (by decide) hc
  -- the first character is a digit, so no sign is stripped
  have hstrip : stripPlus (Nat.toDigits 10 n) = Nat.toDigits 10 n := by
    rw [stripPlus.eq_def]
    split
    · rename_i rest h
      have hplus := hdigit '+' (by rw [h]; exact List.mem_cons_self)
      exact absurd hplus (by decide)
    · rfl
  have hvalue := Nat.ofDigitChars_toDigits (n := n) (b := 10) (by decide) (by decide)
  simp only [parseU64, Nat.toList_repr, hstrip]
  rw [if_neg, hvalue, if_pos hn]
  simpa [Nat.toDigits_ne_nil] using hdigit

/-- A number can be told from its digits, however large it is. -/
theorem eq_of_repr_eq {m n : ℕ} (h : m.repr = n.repr) : m = n := by
  have hdigits := congrArg String.toList h
  rw [Nat.toList_repr, Nat.toList_repr] at hdigits
  rw [← Nat.ofDigitChars_toDigits (n := m) (b := 10) (by decide) (by decide), hdigits,
    Nat.ofDigitChars_toDigits (by decide) (by decide)]

@[simp] theorem startPosition_repr {n : ℕ} (hn : n < 2 ^ 64) :
    startPosition (some n.repr) = n := by
  simp [startPosition, parseU64_repr hn]

end Caminus

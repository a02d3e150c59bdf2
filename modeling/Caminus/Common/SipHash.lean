import Mathlib.Data.UInt

/-!
# SipHash-1-3

The hash behind `DefaultHasher`, with both keys zero: one round for each word of eight bytes, three
rounds at the end.
-/

namespace Caminus.SipHash

/-- The four words of the state. -/
structure State where
  v0 : UInt64
  v1 : UInt64
  v2 : UInt64
  v3 : UInt64

/-- The initial state for the two zero keys of a new `DefaultHasher`. -/
def init : State := ⟨0x736f6d6570736575, 0x646f72616e646f6d, 0x6c7967656e657261, 0x7465646279746573⟩

/-- `u64::rotate_left`. -/
def rotateLeft (x : UInt64) (k : UInt64) : UInt64 := (x <<< k) ||| (x >>> (64 - k))

/-- One SipRound, on the four words of the state. Additions wrap around, as `wrapping_add` does. -/
def round (s : State) : State :=
  let v0 := s.v0 + s.v1
  let v1 := rotateLeft s.v1 13 ^^^ v0
  let v0 := rotateLeft v0 32
  let v2 := s.v2 + s.v3
  let v3 := rotateLeft s.v3 16 ^^^ v2
  let v0 := v0 + v3
  let v3 := rotateLeft v3 21 ^^^ v0
  let v2 := v2 + v1
  let v1 := rotateLeft v1 17 ^^^ v2
  ⟨v0, v1, rotateLeft v2 32, v3⟩

/-- The little-endian word of at most eight bytes. -/
def word (bytes : List UInt8) : UInt64 :=
  bytes.foldr (fun b w => (w <<< 8) ||| b.toUInt64) 0

/-- One word of the message, with the single round of SipHash-1-3. -/
def absorb (s : State) (w : UInt64) : State :=
  let s := round { s with v3 := s.v3 ^^^ w }
  { s with v0 := s.v0 ^^^ w }

/-- Absorbs all bytes; the last word holds the rest of them and the length. -/
def absorbAll (length : ℕ) : ℕ → State → List UInt8 → State
  | 0, s, bytes => absorb s (word bytes ||| (UInt64.ofNat length <<< 56))
  | words + 1, s, bytes => absorbAll length words (absorb s (word (bytes.take 8))) (bytes.drop 8)

/-- The three final rounds of SipHash-1-3, and the words joined by exclusive or. -/
def finish (s : State) : UInt64 :=
  let s := round (round (round { s with v2 := s.v2 ^^^ 0xff }))
  s.v0 ^^^ s.v1 ^^^ s.v2 ^^^ s.v3

/-- The hash of a list of bytes under the two zero keys of `DefaultHasher::new`. -/
def hash (bytes : List UInt8) : UInt64 :=
  finish (absorbAll bytes.length (bytes.length / 8) init bytes)

/-- `str::hash` on a new `DefaultHasher`: the bytes of the string and a final `0xff`. -/
def hashStr (s : String) : UInt64 :=
  hash (s.toList.flatMap String.utf8EncodeChar ++ [0xff])

end Caminus.SipHash

import Caminus.Common.JsonText
import Mathlib.Data.UInt

/-!
# Bytes

Codes that can be read back: a 32-bit number as four bytes, the most significant one first, a list of
bytes as hexadecimal digits, and a string as its UTF-8 bytes.
-/

namespace Caminus.Bytes

/-! ## Big-endian numbers -/

/-- `u32::to_be_bytes`: the four bytes of a number, the highest one first. -/
def toBe (n : UInt32) : List UInt8 :=
  [UInt8.ofNat (n.toNat / 2 ^ 24), UInt8.ofNat (n.toNat / 2 ^ 16), UInt8.ofNat (n.toNat / 2 ^ 8),
    UInt8.ofNat n.toNat]

/-- `u32::from_be_bytes`: the number with four given bytes, the highest one first. -/
def ofBe (a b c d : UInt8) : UInt32 :=
  UInt32.ofNat (((a.toNat * 2 ^ 8 + b.toNat) * 2 ^ 8 + c.toNat) * 2 ^ 8 + d.toNat)

/-- Reading the bytes of a number gives the number back, which makes a header readable. -/
theorem ofBe_toBe (n : UInt32) :
    ofBe (UInt8.ofNat (n.toNat / 2 ^ 24)) (UInt8.ofNat (n.toNat / 2 ^ 16))
      (UInt8.ofNat (n.toNat / 2 ^ 8)) (UInt8.ofNat n.toNat) = n := by
  have hlt : n.toNat < 2 ^ 32 := n.toNat_lt
  apply UInt32.toNat_inj.mp
  simp only [ofBe, UInt8.toNat_ofNat', UInt32.toNat_ofNat']
  omega

/-- Every four bytes are the bytes of a number, so every header is one that could have been written. -/
theorem toBe_ofBe (a b c d : UInt8) : toBe (ofBe a b c d) = [a, b, c, d] := by
  have ha : a.toNat < 2 ^ 8 := a.toNat_lt
  have hb : b.toNat < 2 ^ 8 := b.toNat_lt
  have hc : c.toNat < 2 ^ 8 := c.toNat_lt
  have hd : d.toNat < 2 ^ 8 := d.toNat_lt
  simp only [toBe, ofBe, List.cons.injEq, and_true, ← UInt8.toNat_inj, UInt8.toNat_ofNat',
    UInt32.toNat_ofNat']
  omega

/-- Different numbers have different bytes; no two schema ids share a header. -/
theorem toBe_injective : Function.Injective toBe := by
  intro m n h
  simp only [toBe, List.cons.injEq, and_true] at h
  rw [← ofBe_toBe m, ← ofBe_toBe n, h.1, h.2.1, h.2.2.1, h.2.2.2]

/-! ## Hexadecimal digits -/

/-- `{:02x}`: two lower case digits, with a leading zero if there is need of one. -/
def hexByte (b : UInt8) : List Char := [Nat.digitChar (b.toNat / 16), Nat.digitChar (b.toNat % 16)]

/-- The digits of a list of bytes, two for each. -/
def hex (bytes : List UInt8) : List Char := bytes.flatMap hexByte

/-- Reads two digits at a time; a single digit at the end is dropped. -/
def unhex : List Char → List UInt8
  | x :: y :: rest => UInt8.ofNat (16 * Json.hexValue x + Json.hexValue y) :: unhex rest
  | _ => []

/-- Reading the digits of bytes gives the bytes back: nothing is hidden by hexadecimal digits. -/
theorem unhex_hex (bytes : List UInt8) : unhex (hex bytes) = bytes := by
  induction bytes with
  | nil => rfl
  | cons b bytes ih =>
    have hlt : b.toNat < 256 := b.toNat_lt
    have hvalue : 16 * (b.toNat / 16) + b.toNat % 16 = b.toNat := Nat.div_add_mod _ _
    show UInt8.ofNat _ :: unhex (hex bytes) = b :: bytes
    rw [Json.hexValue_digitChar _ (by omega), Json.hexValue_digitChar _ (by omega), hvalue,
      UInt8.ofNat_toNat, ih]

/-- A digit is none of the characters that separate fields, so fields can be split at them. -/
theorem digitChar_ne_colon : ∀ d < 16, Nat.digitChar d ≠ ':' := by decide

/-- The digits of bytes hold no colon, so that a colon behind them ends them. -/
theorem colon_notMem_hex (bytes : List UInt8) : ':' ∉ hex bytes := by
  intro hmem
  obtain ⟨b, -, hb⟩ := List.mem_flatMap.mp hmem
  have hlt : b.toNat < 256 := b.toNat_lt
  simp only [hexByte, List.mem_cons, List.not_mem_nil, or_false] at hb
  rcases hb with hb | hb
  · exact digitChar_ne_colon _ (by omega) hb.symm
  · exact digitChar_ne_colon _ (by omega) hb.symm

/-- The lower case digits. -/
def hexDigits : List Char := "0123456789abcdef".toList

/-- Every digit below sixteen is one of the lower case ones. -/
theorem digitChar_mem_hexDigits : ∀ d < 16, Nat.digitChar d ∈ hexDigits := by decide

/-- The number that digits stand for, the highest one first; this reads what is printed. -/
def hexNumber (cs : List Char) : ℕ := cs.foldl (fun n c => 16 * n + Json.hexValue c) 0

/-- One more digit shifts the number by one place. -/
theorem hexNumber_concat (cs : List Char) (c : Char) :
    hexNumber (cs ++ [c]) = 16 * hexNumber cs + Json.hexValue c := by
  rw [hexNumber, List.foldl_append]
  rfl

/-- The digits of a number stand for it, so a printed number can be read back. -/
theorem hexNumber_toDigits (n : ℕ) : hexNumber (Nat.toDigits 16 n) = n := by
  induction n using Nat.strongRecOn with
  | ind n ih =>
    rw [Nat.toDigits_eq_if (by decide)]
    split_ifs with hn
    · show 16 * 0 + Json.hexValue (Nat.digitChar n) = n
      rw [Json.hexValue_digitChar n hn]
      omega
    · rw [hexNumber_concat, ih (n / 16) (by omega),
        Json.hexValue_digitChar _ (Nat.mod_lt _ (by decide))]
      omega

/-- The digits of a number are lower case ones. -/
theorem mem_hexDigits_of_mem_toDigits {n : ℕ} {c : Char} (hc : c ∈ Nat.toDigits 16 n) :
    c ∈ hexDigits := by
  induction n using Nat.strongRecOn with
  | ind n ih =>
    rw [Nat.toDigits_eq_if (by decide)] at hc
    split_ifs at hc with hn
    · rw [List.mem_singleton.mp hc]
      exact digitChar_mem_hexDigits n hn
    · rcases List.mem_append.mp hc with hc | hc
      · exact ih (n / 16) (by omega) hc
      · rw [List.mem_singleton.mp hc]
        exact digitChar_mem_hexDigits _ (Nat.mod_lt _ (by decide))

/-- Leading zeros do not count, as a number is printed with a fixed width. -/
theorem hexNumber_replicate_append (k : ℕ) (cs : List Char) :
    hexNumber (List.replicate k '0' ++ cs) = hexNumber cs := by
  induction k with
  | zero => rfl
  | succ k ih => exact ih

/-! ## Strings -/

/-- `String::into_bytes`: the UTF-8 encoding of the characters. -/
def ofString (s : String) : List UInt8 := s.toByteArray.data.toList

/-- `String::from_utf8`; none where the bytes are no UTF-8. -/
def toString? (bytes : List UInt8) : Option String := String.fromUTF8? ⟨bytes.toArray⟩

/-- The bytes of a string are valid UTF-8, and are those of this string. -/
theorem fromUTF8?_toByteArray (s : String) : String.fromUTF8? s.toByteArray = some s := by
  rw [String.fromUTF8?, dif_pos s.isValidUTF8]
  rfl

@[simp] theorem toString?_ofString (s : String) : toString? (ofString s) = some s :=
  fromUTF8?_toByteArray s

end Caminus.Bytes

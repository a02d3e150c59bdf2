import Caminus.Common.Fallible
import Caminus.Common.Json
import Mathlib.Data.List.Forall2
import Mathlib.Data.Option.Basic

/-!
# Text and bytes of JSON values

`serde_json` writes values as text and reads them back. Different values have different texts, but a
text does not always come back as the value it was written from: the reader gives up on values that
are nested too deep, and without its `float_roundtrip` feature it may miss the last digit of a float.
So a value is sure to come back if it is `Plain`, and whatever comes back is `Alike`: it differs in
floats only. Results about values that go through their text say which of them they need to come back
(`SerdeJson.ReadsBack`, `SerdeJson.Readable`).
-/

namespace Caminus

/-! ## Values that come back -/

namespace Json

/-- Arrays and objects are nested at most `limit` deep in the value; this is how the reader counts the
levels that it has left. -/
def nestedAtMost : Json → ℕ → Bool
  | array _ elems, limit => limit != 0 && decide (∀ i, nestedAtMost (elems i) (limit - 1) = true)
  | object _ vals, limit => limit != 0 && decide (∀ i, nestedAtMost (vals i) (limit - 1) = true)
  | _, _ => true

/-- No number in the value is a float. Integers are written and read exactly; a float may come back
as its neighbour. -/
def floatFree : Json → Bool
  | number (.float _) => false
  | array _ elems => decide (∀ i, floatFree (elems i) = true)
  | object _ vals => decide (∀ i, floatFree (vals i) = true)
  | _ => true

/-- A value whose text is sure to be read as the value itself, by a reader that goes `limit` levels
down. -/
def Plain (limit : ℕ) (v : Json) : Prop := v.nestedAtMost limit = true ∧ v.floatFree = true

instance (limit : ℕ) (v : Json) : Decidable (Plain limit v) := inferInstanceAs (Decidable (_ ∧ _))

end Json

/-- Equal integers, or two floats: what a number may be read back as. -/
def Number.alike : Number → Number → Bool
  | posInt m, posInt n => m == n
  | negInt m, negInt n => m == n
  | float _, float _ => true
  | _, _ => false

/-- A number may be read back as itself. -/
theorem Number.alike_refl (n : Number) : n.alike n = true := by
  cases n <;> simp [alike]

namespace Json

/-- Values that differ in their floats only: what `serde_json` may make of a value that it writes
and reads again. -/
def Alike (v w : Json) : Prop := Agree Number.alike v w

/-- Every value is alike to itself. -/
theorem Alike.refl (v : Json) : Alike v v := by
  induction v with
  | null => exact .null
  | bool b => exact .bool b
  | number n => exact .number n.alike_refl
  | string s => exact .string s
  | array n elems ih => exact .array ih
  | object keys vals ih => exact .object ih

/-- Alike values spell the same string. -/
theorem Alike.asStr {v w : Json} (h : Alike v w) : w.asStr = v.asStr := by
  cases h <;> rfl

/-- Members of the same name, one after the other, with alike values. -/
def AlikeMembers (l m : List (String × Json)) : Prop :=
  List.Forall₂ (fun p q => p.1 = q.1 ∧ Alike p.2 q.2) l m

/-- Alike members spell the same strings under the same names. -/
theorem AlikeMembers.asStr {l m : List (String × Json)} (h : AlikeMembers l m) :
    m.map (fun p => (p.1, p.2.asStr)) = l.map fun p => (p.1, p.2.asStr) := by
  induction h with
  | nil => rfl
  | cons hpq _ ih => rw [List.map_cons, List.map_cons, ih, hpq.1, hpq.2.asStr]

/-- What is found under a name in alike members is alike, and nothing is found in both or in
neither. -/
theorem AlikeMembers.lookup {l m : List (String × Json)} (h : AlikeMembers l m) (name : String) :
    Option.Rel Alike (l.lookup name) (m.lookup name) := by
  induction h with
  | nil => exact .none
  | @cons p q l m hpq _ ih =>
    obtain ⟨k, v⟩ := p
    obtain ⟨k', w⟩ := q
    obtain ⟨rfl, halike⟩ : k = k' ∧ Alike v w := hpq
    rw [List.lookup_cons, List.lookup_cons]
    cases name == k with
    | true => exact .some halike
    | false => exact ih

/-- Alike values are objects together, with alike members. -/
theorem Alike.asObject {v w : Json} (h : Alike v w) :
    Option.Rel (fun m m' => AlikeMembers m.entries m'.entries) v.asObject w.asObject := by
  cases h with
  | @object keys vs ws hvals =>
    refine .some (List.forall₂_iff_get.mpr ⟨by simp, fun i hi hi' => ?_⟩)
    simp only [List.get_eq_getElem, List.getElem_ofFn, true_and]
    exact hvals _
  | _ => exact .none

/-- Alike values have alike members, and the same names are missing in both. -/
theorem Alike.get? {v w : Json} (h : Alike v w) (name : String) :
    Option.Rel Alike (v.get? name) (w.get? name) :=
  rel_bind h.asObject fun hmembers => hmembers.lookup name

end Json

/-! ## The library -/

/-- The part of `serde_json` that the engine calls. Reading goes 127 levels down, and may change the
digits of a float; the laws promise an exact reading for plain values and an alike one for all
others. -/
structure SerdeJson where
  /-- `Value::to_string`. -/
  toText : Json → String
  /-- The `{:?}` form of a value, used in error messages. -/
  debug : Json → String
  toVec : Json → ByteArray
  fromSlice : ByteArray → Except String Json
  toText_injective : Function.Injective toText
  fromSlice_toVec : ∀ v, v.Plain 127 → fromSlice (toVec v) = .ok v
  alike_of_fromSlice : ∀ v w, fromSlice (toVec v) = .ok w → Json.Alike v w

namespace SerdeJson

variable (serde : SerdeJson)

/-- What the bytes of a value are read as: the value itself, an alike one, or an error of the
reader. -/
def reread (v : Json) : Except String Json := serde.fromSlice (serde.toVec v)

/-- The bytes of the value can be read, as some value; a value that is nested too deeply is refused. -/
def Readable (v : Json) : Prop := ∃ w, serde.reread v = .ok w

/-- The bytes of the value are read as the value itself: no float has changed, and no limit was hit. -/
def ReadsBack (v : Json) : Prop := serde.reread v = .ok v

variable {serde}

/-- Plain values are read as themselves, by the law of the codec. -/
theorem ReadsBack.of_plain {v : Json} (h : v.Plain 127) : serde.ReadsBack v :=
  serde.fromSlice_toVec v h

/-- Whatever is read differs from what was written in its floats only. -/
theorem alike_of_reread {v w : Json} (h : serde.reread v = .ok w) : v.Alike w :=
  serde.alike_of_fromSlice v w h

end SerdeJson

end Caminus

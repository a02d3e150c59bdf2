import Caminus.Common.Fallible
import Caminus.Serialize.Avro

/-!
# Transforms by guest modules

`WasmTransformer` (`src/transform/mod.rs`). An event is written into the memory of a guest module, and
what the guest has left there is read back. The guest is any pair of functions: its pointers and
lengths are `i32`, which the host converts to `usize` and back. It can crash the host, since the length
it returns is the size of a buffer before it is compared with the memory; what else can go wrong is an
event of 2 GiB (`contained_iff`).
-/

namespace Caminus

/-- `wasmtime::Memory`. The host sees it as one slice, which is never longer than `isize::MAX`. -/
structure GuestMemory where
  bytes : List UInt8
  size_lt : bytes.length < 2 ^ 63

namespace GuestMemory

/-- The buffer replaces the bytes from `offset` on; `None` where it does not fit. -/
def write (memory : GuestMemory) (offset : ℕ) (buffer : List UInt8) : Option GuestMemory :=
  if h : offset + buffer.length ≤ memory.bytes.length then
    some ⟨memory.bytes.take offset ++ buffer ++ memory.bytes.drop (offset + buffer.length), by
      have hlt := memory.size_lt
      simp only [List.length_append, List.length_take, List.length_drop]
      omega⟩
  else none

/-- What a buffer of the given length is filled with; `None` where the range ends beyond the memory. -/
def read (memory : GuestMemory) (offset count : ℕ) : Option (List UInt8) :=
  if offset + count ≤ memory.bytes.length then some ((memory.bytes.drop offset).take count) else none

end GuestMemory

/-- The errors of a transform. The host maps every trap of the guest to the first one. -/
inductive TransformError
  | wasm (message : String)
  | serialization (message : String)
  | missingExport (name : String)
  | memoryAccess

/-- A module in a store of its own: its globals, its exports and its memory. A call of a function is a
trap, or returns an `i32` and leaves globals and memory as it likes. -/
structure GuestInstance (γ : Type) where
  globals : γ
  alloc : Option (γ → GuestMemory → Int32 → Except String (Int32 × γ × GuestMemory))
  transform : Option (γ → GuestMemory → Int32 → Int32 → Except String (Int32 × γ × GuestMemory))
  memory : Option GuestMemory

/-- The module, as what `Instance::new` makes of it. Every transform makes a new instance, so a
guest keeps nothing from one event to the next. -/
structure WasmTransformer (γ : Type) where
  instantiate : Except String (GuestInstance γ)

/-- How a call ends: with its result, or with a panic of the host. -/
inductive TransformOutcome
  | returned (result : Except TransformError ChangeEvent)
  | panicked

namespace WasmTransformer

variable {γ : Type} (serde : EventSerde) (reason : List UInt8 → String)

/-- `as usize` on 64 bits: a negative number is extended by its sign. -/
def asUsize (x : Int32) : ℕ := (x.toInt % 2 ^ 64).toNat

/-- `as i32`: the lowest 32 bits, so lengths from 2 GiB on become negative or small. -/
def asI32 (n : ℕ) : Int32 := Int32.ofNat n

/-- What is known when the guest has returned from its `transform`: the text of the event, the
pointer it was written at, the length the guest has returned and the memory it has left. -/
structure GuestCall where
  jsonBytes : List UInt8
  guestPtr : Int32
  outLen : Int32
  memory : GuestMemory

/-- From the instantiation of the module to the return of its `transform`. -/
def callGuest (t : WasmTransformer γ) (event : ChangeEvent) : Except TransformError GuestCall := do
  let guest ← t.instantiate.mapError .wasm
  let alloc ← okOr guest.alloc (.missingExport "alloc")
  let transformFn ← okOr guest.transform (.missingExport "transform")
  let memory ← okOr guest.memory (.wasm "Missing memory export")
  let jsonBytes ← (serde.toVec event).mapError .serialization
  let len := asI32 jsonBytes.length
  let (guestPtr, globals, memory) ← (alloc guest.globals memory len).mapError .wasm
  let memory ← okOr (memory.write (asUsize guestPtr) jsonBytes) .memoryAccess
  let (outLen, _, memory) ← (transformFn globals memory guestPtr len).mapError .wasm
  return ⟨jsonBytes, guestPtr, outLen, memory⟩

/-- The length of the buffer for the result, before anything is compared with the memory. -/
def GuestCall.bufferLen (c : GuestCall) : ℕ := asUsize c.outLen

/-- From the buffer for the result to the event in it. The message of the parser is the parameter
`reason`. -/
def readResult (c : GuestCall) : TransformOutcome :=
  -- a `Vec` has at most `isize::MAX` bytes
  if c.bufferLen < 2 ^ 63 then
    .returned do
      let outBuffer ← okOr (c.memory.read (asUsize c.guestPtr) c.bufferLen) .memoryAccess
      okOr (serde.fromSlice outBuffer) (.serialization (reason outBuffer))
  else .panicked

/-- A transform: the guest is called, then its result is read from where the event was written. -/
def transform (t : WasmTransformer γ) (event : ChangeEvent) : TransformOutcome :=
  match t.callGuest serde event with
  | .error e => .returned (.error e)
  | .ok c => readResult serde reason c

/-- The guest can cause no more than an error: the host does not panic, what it returns was read
from inside the memory, it asks for no larger buffer than the memory, and no length or pointer has
changed in a conversion. -/
structure Contained (t : WasmTransformer γ) (event : ChangeEvent) : Prop where
  noPanic : t.transform serde reason event ≠ .panicked
  inside : ∀ e, t.transform serde reason event = .returned (.ok e) →
    ∃ (c : GuestCall) (offset count : ℕ), t.callGuest serde event = .ok c ∧
      c.guestPtr.toInt = offset ∧ offset + count ≤ c.memory.bytes.length ∧
      serde.fromSlice ((c.memory.bytes.drop offset).take count) = some e
  request : ∀ c, t.callGuest serde event = .ok c → c.bufferLen ≤ c.memory.bytes.length
  faithful : ∀ e c, t.transform serde reason event = .returned (.ok e) →
    t.callGuest serde event = .ok c →
    (asI32 c.jsonBytes.length).toInt = c.jsonBytes.length ∧
      asUsize c.guestPtr = c.guestPtr.toInt ∧ asUsize c.outLen = c.outLen.toInt

/-! ## Conversions -/

/-- A number that is not negative is converted to itself. -/
theorem asUsize_of_nonneg {x : Int32} (h : 0 ≤ x.toInt) : (asUsize x : ℤ) = x.toInt := by
  have hlt := x.toInt_lt
  rw [asUsize, Int.toNat_of_nonneg (Int.emod_nonneg _ (by decide)), Int.emod_eq_of_lt h]
  omega

/-- A negative number becomes larger than any slice. -/
theorem le_asUsize_of_neg {x : Int32} (h : x.toInt < 0) : 2 ^ 63 ≤ asUsize x := by
  have hle := x.le_toInt
  rw [asUsize]
  omega

/-- What is small after the conversion was not negative before. -/
theorem nonneg_of_asUsize_lt {x : Int32} (h : asUsize x < 2 ^ 63) : 0 ≤ x.toInt := by
  by_contra hneg
  exact absurd (le_asUsize_of_neg (Int.lt_of_not_ge hneg)) (Nat.not_le.mpr h)

/-- A length survives its way to `i32` exactly if it is below 2 GiB. -/
theorem toInt_asI32_iff {n : ℕ} : (asI32 n).toInt = n ↔ n < 2 ^ 31 := by
  constructor
  · intro h
    have hlt := (asI32 n).toInt_lt
    omega
  · exact Int32.toInt_ofNat_of_lt

/-! ## The two halves of a call -/

variable {serde reason}

/-- The event has been written at the pointer, so the pointer lies inside the memory. -/
theorem nonneg_guestPtr {t : WasmTransformer γ} {event : ChangeEvent} {c : GuestCall}
    (h : t.callGuest serde event = .ok c) : 0 ≤ c.guestPtr.toInt := by
  simp only [callGuest, bind_eq_ok_iff, okOr_eq_ok_iff] at h
  obtain ⟨guest, -, alloc, -, transformFn, -, memory, -, jsonBytes, -, allocated, -, written, hwrite,
    answer, -, hc⟩ := h
  obtain rfl := Except.ok.inj hc
  rw [GuestMemory.write] at hwrite
  split_ifs at hwrite with hfits
  show 0 ≤ allocated.1.toInt
  apply nonneg_of_asUsize_lt
  exact Nat.lt_of_le_of_lt (Nat.le_of_add_right_le hfits) allocated.2.2.size_lt

/-- An event is returned exactly if the buffer can be filled and its bytes can be read. A buffer
that can be filled is small enough to be made. -/
theorem readResult_eq_ok_iff {c : GuestCall} {e : ChangeEvent} :
    readResult serde reason c = .returned (.ok e) ↔
      ∃ outBuffer, c.memory.read (asUsize c.guestPtr) c.bufferLen = some outBuffer ∧
        serde.fromSlice outBuffer = some e := by
  constructor
  · intro h
    rw [readResult] at h
    split_ifs at h with hlen
    have hresult := TransformOutcome.returned.inj h
    simp only [bind_eq_ok_iff, okOr_eq_ok_iff] at hresult
    exact hresult
  · rintro ⟨outBuffer, hread, hparse⟩
    have hlen : c.bufferLen < 2 ^ 63 := by
      rw [GuestMemory.read] at hread
      split_ifs at hread with hfits
      have hlt := c.memory.size_lt
      omega
    rw [readResult, if_pos hlen]
    congr 1
    simp only [bind_eq_ok_iff, okOr_eq_ok_iff]
    exact ⟨outBuffer, hread, hparse⟩

/-- A transform returns an event exactly if the guest returns and has left the text of that event. -/
theorem transform_eq_ok_iff {t : WasmTransformer γ} {event e : ChangeEvent} :
    t.transform serde reason event = .returned (.ok e) ↔
      ∃ c outBuffer, t.callGuest serde event = .ok c ∧
        c.memory.read (asUsize c.guestPtr) c.bufferLen = some outBuffer ∧
        serde.fromSlice outBuffer = some e := by
  rw [transform]
  cases t.callGuest serde event with
  | error err =>
    constructor
    · intro h
      cases h
    · rintro ⟨c, outBuffer, hc, -⟩
      cases hc
  | ok c =>
    simp only [readResult_eq_ok_iff]
    constructor
    · rintro ⟨outBuffer, h⟩
      exact ⟨c, outBuffer, rfl, h⟩
    · rintro ⟨c', outBuffer, hc, h⟩
      obtain rfl := Except.ok.inj hc
      exact ⟨outBuffer, h⟩

/-- The bytes of an event that is returned lie inside the memory, at the pointer. -/
theorem inside_of_eq_ok {t : WasmTransformer γ} {event e : ChangeEvent}
    (h : t.transform serde reason event = .returned (.ok e)) :
    ∃ (c : GuestCall) (offset count : ℕ), t.callGuest serde event = .ok c ∧
      c.guestPtr.toInt = offset ∧ offset + count ≤ c.memory.bytes.length ∧
      serde.fromSlice ((c.memory.bytes.drop offset).take count) = some e := by
  obtain ⟨c, outBuffer, hc, hread, hparse⟩ := transform_eq_ok_iff.mp h
  rw [GuestMemory.read] at hread
  split_ifs at hread with hfits
  refine ⟨c, asUsize c.guestPtr, c.bufferLen, hc, ?_, hfits, ?_⟩
  · exact (asUsize_of_nonneg (nonneg_guestPtr hc)).symm
  · rw [Option.some.inj hread]
    exact hparse

/-- A buffer that is no larger than the memory does not crash the host. -/
theorem ne_panicked_of_bufferLen_le {t : WasmTransformer γ} {event : ChangeEvent}
    (h : ∀ c, t.callGuest serde event = .ok c → c.bufferLen ≤ c.memory.bytes.length) :
    t.transform serde reason event ≠ .panicked := by
  intro hpanic
  rw [transform] at hpanic
  cases hc : t.callGuest serde event with
  | error err =>
    rw [hc] at hpanic
    cases hpanic
  | ok c =>
    rw [hc] at hpanic
    simp only [readResult] at hpanic
    split_ifs at hpanic with hlen
    exact hlen (Nat.lt_of_le_of_lt (h c hc) c.memory.size_lt)

/-- **A guest is contained exactly if the lengths it returns lie within its memory**, and an event
of 2 GiB or more does not come back as one: the length that the guest is told has wrapped around. -/
theorem contained_iff (serde : EventSerde) (reason : List UInt8 → String) (t : WasmTransformer γ)
    (event : ChangeEvent) :
    Contained serde reason t event ↔ ∀ c, t.callGuest serde event = .ok c →
      0 ≤ c.outLen.toInt ∧ c.outLen.toInt ≤ c.memory.bytes.length ∧
        (c.jsonBytes.length < 2 ^ 31 ∨
          ∀ outBuffer, c.memory.read (asUsize c.guestPtr) (asUsize c.outLen) = some outBuffer →
            serde.fromSlice outBuffer = none) := by
  constructor
  · intro h c hc
    have hrequest : asUsize c.outLen ≤ c.memory.bytes.length := h.request c hc
    have hnonneg : 0 ≤ c.outLen.toInt :=
      nonneg_of_asUsize_lt (Nat.lt_of_le_of_lt hrequest c.memory.size_lt)
    have hlen := asUsize_of_nonneg hnonneg
    refine ⟨hnonneg, by omega, ?_⟩
    by_cases hjson : c.jsonBytes.length < 2 ^ 31
    · exact Or.inl hjson
    · refine Or.inr fun outBuffer hread => ?_
      by_contra hsome
      obtain ⟨e, he⟩ := Option.ne_none_iff_exists'.mp hsome
      have hok : t.transform serde reason event = .returned (.ok e) :=
        transform_eq_ok_iff.mpr ⟨c, outBuffer, hc, hread, he⟩
      -- an event that comes back would have had its length told as it is
      exact hjson (toInt_asI32_iff.mp (h.faithful e c hok hc).1)
  · intro h
    have hrequest : ∀ c, t.callGuest serde event = .ok c → c.bufferLen ≤ c.memory.bytes.length := by
      intro c hc
      obtain ⟨hnonneg, hle, -⟩ := h c hc
      have hlen := asUsize_of_nonneg hnonneg
      rw [GuestCall.bufferLen]
      omega
    refine ⟨ne_panicked_of_bufferLen_le hrequest, fun e => inside_of_eq_ok, hrequest,
      fun e c hok hc => ?_⟩
    -- only an event that comes back asks for a faithful length
    obtain ⟨hnonneg, -, hjson⟩ := h c hc
    refine ⟨?_, asUsize_of_nonneg (nonneg_guestPtr hc), asUsize_of_nonneg hnonneg⟩
    rcases hjson with hjson | hnone
    · exact toInt_asI32_iff.mpr hjson
    · obtain ⟨c', outBuffer, hc', hread, hparse⟩ := transform_eq_ok_iff.mp hok
      obtain rfl := Except.ok.inj (hc.symm.trans hc')
      have hnone' := hnone outBuffer hread
      rw [hparse] at hnone'
      cases hnone'

/-! ## A guest that crashes the host -/

/-- A guest that takes every event at the start of its memory and returns the given length. -/
def returning (memory : GuestMemory) (outLen : Int32) : WasmTransformer Unit where
  instantiate := .ok
    { globals := ()
      alloc := some fun globals memory _ => .ok (0, globals, memory)
      transform := some fun globals memory _ _ => .ok (outLen, globals, memory)
      memory := some memory }

/-- Such a guest returns its length for every event that fits into the memory. -/
theorem exists_callGuest_returning {memory : GuestMemory} {event : ChangeEvent}
    {jsonBytes : List UInt8} (htext : serde.toVec event = .ok jsonBytes)
    (hfits : jsonBytes.length ≤ memory.bytes.length) (outLen : Int32) :
    ∃ c, (returning memory outLen).callGuest serde event = .ok c ∧ c.outLen = outLen := by
  have hroom : asUsize 0 + jsonBytes.length ≤ memory.bytes.length :=
    Nat.le_trans (Nat.le_of_eq (Nat.zero_add _)) hfits
  obtain ⟨written, hwrite⟩ : ∃ written, memory.write (asUsize 0) jsonBytes = some written :=
    ⟨_, dif_pos hroom⟩
  refine ⟨⟨jsonBytes, 0, outLen, written⟩, ?_, rfl⟩
  show ((serde.toVec event).mapError TransformError.serialization >>= fun jsonBytes =>
    okOr (memory.write (asUsize 0) jsonBytes) .memoryAccess >>= fun memory =>
      .ok (⟨jsonBytes, 0, outLen, memory⟩ : GuestCall)) = _
  rw [htext]
  show (okOr (memory.write (asUsize 0) jsonBytes) TransformError.memoryAccess >>= fun memory =>
    .ok (⟨jsonBytes, 0, outLen, memory⟩ : GuestCall)) = _
  rw [hwrite]
  rfl

/-- One page of memory. -/
def page : GuestMemory := ⟨List.replicate 65536 0, by rw [List.length_replicate]; decide⟩

/-- A new row in the table of users. -/
def userEvent : ChangeEvent where
  id := "evt-123"
  sourceDatabase := "caminus_db"
  sourceTableOrCollection := "users"
  operation := .create
  timestamp := 0
  key := .nat 1
  before := none
  after := none
  transactionId := none
  offset := "1"

/-- The length `-1` is too large for a buffer: as a `usize` it is `2 ^ 64 - 1`, and the host panics
before it looks at the memory. -/
theorem not_contained_negative :
    ¬Contained .compact (fun _ => "EOF while parsing a value") (returning page (-1)) userEvent := by
  intro h
  have hlen : (Bytes.ofString (EventSerde.objectText
      (EventSerde.members .compact userEvent))).length ≤ 65536 := by decide +kernel
  have hfits : (Bytes.ofString (EventSerde.objectText
      (EventSerde.members .compact userEvent))).length ≤ page.bytes.length := by
    rw [page, List.length_replicate]
    exact hlen
  obtain ⟨c, hc, hout⟩ := @exists_callGuest_returning .compact page userEvent _ rfl hfits (-1)
  apply h.noPanic
  rw [transform, hc]
  show readResult _ _ c = .panicked
  rw [readResult, GuestCall.bufferLen, hout, if_neg (by decide)]

end WasmTransformer

end Caminus

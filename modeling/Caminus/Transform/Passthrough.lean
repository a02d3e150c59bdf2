import Caminus.Transform.Wasm

/-!
# The module of the engine

`main` runs every mutation through a guest of its own (`src/main.rs`): one page of memory, an `alloc`
that returns `0` and a `transform` that returns the length it is given. The event goes through JSON
and back: it loses the `null` values of its optional fields, and may lose digits of its floats. An event
whose text is longer than the page or cannot be read does not go through at all
(`transform_passthrough`).
-/

namespace Caminus

namespace WasmTransformer

/-- The guest of `main`: it takes every event at address zero and returns the length it was given. -/
def passthrough : WasmTransformer Unit where
  instantiate := .ok
    { globals := ()
      alloc := some fun globals memory _ => .ok (0, globals, memory)
      transform := some fun globals memory _ len => .ok (len, globals, memory)
      memory := some page }

/-- A page has 64 KiB. -/
theorem length_page : page.bytes.length = 65536 := List.length_replicate

variable {serde : EventSerde} {reason : List UInt8 → String}

/-- A guest that leaves its memory alone finds what was written. -/
theorem GuestMemory.read_write {memory written : GuestMemory} {offset : ℕ} {buffer : List UInt8}
    (h : memory.write offset buffer = some written) :
    written.read offset buffer.length = some buffer := by
  rw [GuestMemory.write] at h
  split_ifs at h with hfits
  obtain rfl := Option.some.inj h
  have hoffset : (memory.bytes.take offset).length = offset := by
    rw [List.length_take]
    omega
  have hbuffer : (((memory.bytes.take offset ++ buffer) ++
      memory.bytes.drop (offset + buffer.length)).drop offset).take buffer.length = buffer := by
    rw [List.append_assoc, List.drop_left' hoffset, List.take_left]
  rw [GuestMemory.read, if_pos (by simp; omega)]
  exact congrArg some hbuffer

/-- What the module makes of an event: what its bytes are read as, if they fit into the page. -/
def passedThrough (serde : EventSerde) (reason : List UInt8 → String) (event : ChangeEvent) :
    Except TransformError ChangeEvent :=
  match serde.toVec event with
  | .error message => .error (.serialization message)
  | .ok jsonBytes =>
      if jsonBytes.length ≤ 65536 then
        okOr (serde.fromSlice jsonBytes) (.serialization (reason jsonBytes))
      else .error .memoryAccess

/-- What the host has when the guest returns: the memory with the event at its start, and the length
of the event. -/
theorem callGuest_passthrough {event : ChangeEvent} {jsonBytes : List UInt8}
    (htext : serde.toVec event = .ok jsonBytes) :
    passthrough.callGuest serde event =
      match page.write 0 jsonBytes with
      | some memory => .ok ⟨jsonBytes, 0, asI32 jsonBytes.length, memory⟩
      | none => .error .memoryAccess := by
  show ((serde.toVec event).mapError TransformError.serialization >>= fun jsonBytes =>
    okOr (page.write (asUsize 0) jsonBytes) .memoryAccess >>= fun memory =>
      .ok (⟨jsonBytes, 0, asI32 jsonBytes.length, memory⟩ : GuestCall)) = _
  rw [htext]
  show (okOr (page.write 0 jsonBytes) TransformError.memoryAccess >>= fun memory =>
    .ok (⟨jsonBytes, 0, asI32 jsonBytes.length, memory⟩ : GuestCall)) = _
  cases page.write 0 jsonBytes with
  | some memory => rfl
  | none => rfl

/-- A length within the page survives its way through `i32`. -/
theorem asUsize_asI32_of_le {n : ℕ} (h : n ≤ 65536) : asUsize (asI32 n) = n := by
  have hsmall := toInt_asI32_iff.mpr (by omega : n < 2 ^ 31)
  have hcast := asUsize_of_nonneg (x := asI32 n) (by omega)
  omega

/-- **An event goes through the module exactly if its text fits into the page and can be read.** The
host never panics. -/
theorem transform_passthrough (serde : EventSerde) (reason : List UInt8 → String)
    (event : ChangeEvent) :
    passthrough.transform serde reason event = .returned (passedThrough serde reason event) := by
  obtain ⟨jsonBytes, htext⟩ := serde.toVec_ok event
  rw [transform, callGuest_passthrough htext, passedThrough, htext]
  by_cases hfits : jsonBytes.length ≤ 65536
  -- the text is written and read at the same place, and its length is the one the guest returns
  · have hroom : 0 + jsonBytes.length ≤ page.bytes.length := by
      rw [length_page]
      omega
    obtain ⟨memory, hwrite⟩ : ∃ memory, page.write 0 jsonBytes = some memory := ⟨_, dif_pos hroom⟩
    have hread : memory.read (asUsize 0) (asUsize (asI32 jsonBytes.length)) = some jsonBytes := by
      rw [asUsize_asI32_of_le hfits]
      exact GuestMemory.read_write hwrite
    have hlen : asUsize (asI32 jsonBytes.length) < 2 ^ 63 := by
      rw [asUsize_asI32_of_le hfits]
      omega
    rw [hwrite]
    simp only [readResult, GuestCall.bufferLen, hlen, hread, hfits, if_true]
    rfl
  · have hnone : page.write 0 jsonBytes = none := by
      refine dif_neg ?_
      rw [length_page]
      omega
    rw [hnone]
    simp only [hfits, if_false]

/-- An event whose members come back goes through up to its `null` values, if its text fits. -/
theorem passedThrough_of_readsBack {event : ChangeEvent} (hread : serde.ReadsBack event)
    {jsonBytes : List UInt8} (htext : serde.toVec event = .ok jsonBytes)
    (hfits : jsonBytes.length ≤ 65536) :
    passedThrough serde reason event = .ok event.withoutNulls := by
  simp only [passedThrough, htext, hfits, if_true, hread.fromSlice htext]
  rfl

/-- What goes through differs from the event in floats and `null` values only. -/
theorem alike_of_passedThrough {event event' : ChangeEvent}
    (h : passedThrough serde reason event = .ok event') : event.Alike event' := by
  obtain ⟨jsonBytes, htext⟩ := serde.toVec_ok event
  simp only [passedThrough, htext] at h
  split_ifs at h with hfits
  cases hslice : serde.fromSlice jsonBytes with
  | none =>
    rw [hslice] at h
    cases h
  | some read =>
    rw [hslice] at h
    rw [← Except.ok.inj h]
    exact EventSerde.alike_of_fromSlice htext hslice

end WasmTransformer

end Caminus

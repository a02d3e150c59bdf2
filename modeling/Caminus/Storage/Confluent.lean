import Caminus.Common.Bytes
import Caminus.Common.HashMap
import Caminus.Common.Interleave
import Caminus.Common.Split
import Mathlib.Data.List.Nodup

/-!
# The schema registry client

`ConfluentRegistryClient` (`src/storage/confluent.rs`) numbers subjects and frames payloads with the
number of their subject. A registration looks the subject up in one critical section and allocates an
id in another. Two calls that both miss before either allocates get two ids for one subject
(`oneIdPerSubject_iff`); an id never belongs to two subjects (`eq_of_returned`).
-/

namespace Caminus

/-- The client of the schema registry. The counter and the cache have a lock each, and no call holds
both across its lookup and its allocation. -/
structure ConfluentRegistryClient where
  registryUrl : String
  nextSchemaId : UInt32
  schemaCache : HashMap String UInt32

namespace ConfluentRegistryClient

/-- A fresh client: nothing is cached and the first id it hands out is 100. -/
def new (registryUrl : String) : ConfluentRegistryClient := ⟨registryUrl, 100, ∅⟩

/-- The lookup, under the read lock of the cache, which is released before the counter is locked. -/
def cached (client : ConfluentRegistryClient) (subject : String) : Option UInt32 :=
  client.schemaCache.lookup subject

/-- The id allocation and the insertion into the cache, under the write lock of the counter. -/
def allocate (client : ConfluentRegistryClient) (subject : String) :
    UInt32 × ConfluentRegistryClient :=
  -- the cache is not looked at again
  let assignedId := client.nextSchemaId
  (assignedId,
    { client with
      nextSchemaId := client.nextSchemaId + 1
      schemaCache := client.schemaCache.insert subject assignedId })

/-- A call without others in between: the cached id if there is one, a new one otherwise. The schema
itself is not used. -/
def registerSchema (client : ConfluentRegistryClient) (subject _schemaJson : String) :
    UInt32 × ConfluentRegistryClient :=
  match client.cached subject with
  | some id => (id, client)
  | none => client.allocate subject

/-- A registration leaves the id it returns in the cache. -/
theorem cached_registerSchema (client : ConfluentRegistryClient) (subject schemaJson : String) :
    (client.registerSchema subject schemaJson).2.cached subject =
      some (client.registerSchema subject schemaJson).1 := by
  rw [registerSchema]
  cases hcached : client.cached subject with
  | some id => exact hcached
  | none => exact AList.lookup_insert _

/-! ## The wire format -/

/-- The frame of a payload: a zero byte, the id in four bytes with the most significant first, the
payload. -/
def encodeWireFormat (schemaId : UInt32) (payloadBytes : List UInt8) : List UInt8 :=
  0x00 :: (Bytes.toBe schemaId ++ payloadBytes)

/-- The decoder: a buffer of fewer than five bytes is refused before its magic byte is looked at. -/
def decodeWireFormat : List UInt8 → Except String (UInt32 × List UInt8)
  | magic :: a :: b :: c :: d :: payload =>
      if magic = 0x00 then .ok (Bytes.ofBe a b c d, payload)
      else .error ("Invalid magic byte: expected 0x00, got 0x" ++ String.ofList (Bytes.hexByte magic))
  | _ => .error "Buffer too short for Confluent wire format header"

/-- The four bytes of the id in the header of a frame, after the magic byte. -/
def headerId (frame : List UInt8) : List UInt8 := (frame.drop 1).take 4

@[simp] theorem headerId_encodeWireFormat (schemaId : UInt32) (payload : List UInt8) :
    headerId (encodeWireFormat schemaId payload) = Bytes.toBe schemaId := rfl

/-- Decoding gives back the id and the payload of every frame that was encoded. -/
@[simp] theorem decodeWireFormat_encodeWireFormat (schemaId : UInt32) (payload : List UInt8) :
    decodeWireFormat (encodeWireFormat schemaId payload) = .ok (schemaId, payload) := by
  simp only [encodeWireFormat, Bytes.toBe, List.cons_append, List.nil_append, decodeWireFormat,
    if_true, Bytes.ofBe_toBe]

/-- A frame is accepted for its length and its first byte; the id and the payload are not looked at. -/
theorem isOk_decodeWireFormat (buffer : List UInt8) :
    (∃ frame, decodeWireFormat buffer = .ok frame) ↔ 5 ≤ buffer.length ∧ buffer[0]? = some 0x00 := by
  match buffer with
  | magic :: a :: b :: c :: d :: payload =>
    rw [decodeWireFormat]
    split_ifs with hmagic
    · simp [hmagic]
    · simp [hmagic]
  | [] | [_] | [_, _] | [_, _, _] | [_, _, _, _] => simp [decodeWireFormat]

/-- What is accepted is the frame of what it is decoded to. -/
theorem encodeWireFormat_of_decodeWireFormat {buffer payload : List UInt8} {schemaId : UInt32}
    (h : decodeWireFormat buffer = .ok (schemaId, payload)) :
    encodeWireFormat schemaId payload = buffer := by
  match buffer with
  | magic :: a :: b :: c :: d :: rest =>
    rw [decodeWireFormat] at h
    split_ifs at h with hmagic
    obtain ⟨rfl, rfl⟩ := Prod.mk.inj (Except.ok.inj h)
    rw [encodeWireFormat, Bytes.toBe_ofBe, hmagic]
    rfl
  | [] | [_] | [_, _] | [_, _, _] | [_, _, _, _] => cases h

/-- Different ids or payloads give different frames, since decoding tells them apart. -/
theorem encodeWireFormat_injective :
    Function.Injective fun frame : UInt32 × List UInt8 => encodeWireFormat frame.1 frame.2 := by
  intro x y h
  have hdecode := congrArg decodeWireFormat h
  rw [decodeWireFormat_encodeWireFormat, decodeWireFormat_encodeWireFormat] at hdecode
  exact Except.ok.inj hdecode

/-! ### Its indices -/

/-- `&buffer[start..stop]`; `none` is a panic. -/
def slice (buffer : List UInt8) (start stop : ℕ) : Option (List UInt8) :=
  if start ≤ stop ∧ stop ≤ buffer.length then some ((buffer.drop start).take (stop - start)) else none

/-- `copy_from_slice` into an array of four bytes, which panics for any other length. -/
def copyFromSlice : List UInt8 → Option (UInt8 × UInt8 × UInt8 × UInt8)
  | [a, b, c, d] => some (a, b, c, d)
  | _ => none

/-- `decode_wire_format` with every index and range checked where it is used; `none` is a panic. -/
def decodeWireFormatIndexed (buffer : List UInt8) : Option (Except String (UInt32 × List UInt8)) :=
  if buffer.length < 5 then some (.error "Buffer too short for Confluent wire format header")
  else do
    let magic ← buffer[0]?
    if magic ≠ 0x00 then
      return .error ("Invalid magic byte: expected 0x00, got 0x" ++ String.ofList (Bytes.hexByte magic))
    let (a, b, c, d) ← copyFromSlice (← slice buffer 1 5)
    let payload ← slice buffer 5 buffer.length
    return .ok (Bytes.ofBe a b c d, payload)

/-- No index is out of bounds: the length has been compared before. -/
theorem decodeWireFormatIndexed_eq (buffer : List UInt8) :
    decodeWireFormatIndexed buffer = some (decodeWireFormat buffer) := by
  match buffer with
  | magic :: a :: b :: c :: d :: payload =>
    have hid : slice (magic :: a :: b :: c :: d :: payload) 1 5 = some [a, b, c, d] :=
      if_pos ⟨by decide, by simp⟩
    have hpayload : slice (magic :: a :: b :: c :: d :: payload) 5
        (magic :: a :: b :: c :: d :: payload).length = some payload := by
      rw [slice, if_pos ⟨by simp, Nat.le_refl _⟩]
      simp
    have hlen : ¬(magic :: a :: b :: c :: d :: payload).length < 5 := by simp
    rw [decodeWireFormatIndexed, if_neg hlen, hid, hpayload, decodeWireFormat]
    by_cases hmagic : magic = 0x00
    · simp [hmagic, copyFromSlice]
    · simp [hmagic]
  | [] | [_] | [_, _] | [_, _, _] | [_, _, _, _] => rfl

/-- **The wire format is decoded exactly**, and no index of the decoder is out of bounds: frames and
pairs of an id and a payload correspond to each other, and everything else is refused. -/
theorem wireFormat_exact :
    (∀ (schemaId : UInt32) (payload : List UInt8),
        decodeWireFormat (encodeWireFormat schemaId payload) = .ok (schemaId, payload)) ∧
      (∀ buffer : List UInt8, ((∃ frame, decodeWireFormat buffer = .ok frame) ↔
        5 ≤ buffer.length ∧ buffer[0]? = some 0x00)) ∧
      (∀ (buffer : List UInt8) (schemaId : UInt32) (payload : List UInt8),
        decodeWireFormat buffer = .ok (schemaId, payload) →
          encodeWireFormat schemaId payload = buffer) ∧
      (Function.Injective fun frame : UInt32 × List UInt8 => encodeWireFormat frame.1 frame.2) ∧
      ∀ buffer : List UInt8, decodeWireFormatIndexed buffer = some (decodeWireFormat buffer) :=
  ⟨decodeWireFormat_encodeWireFormat, isOk_decodeWireFormat,
    fun _ _ _ => encodeWireFormat_of_decodeWireFormat, encodeWireFormat_injective,
    decodeWireFormatIndexed_eq⟩

/-! ## Concurrent registrations -/

/-- Where a call stands: before its lookup, before its allocation, or returned with an id. The two
locks are taken one after the other, so these are the points where another call can come in between. -/
inductive CallPoint
  | called
  | missed
  | returned (id : UInt32)
deriving DecidableEq, Repr

/-- Calls on one client, with the log of the registrations it has printed. -/
structure Session (ι : Type) where
  client : ConfluentRegistryClient
  calls : ι → CallPoint
  registered : List (String × UInt32)

namespace Session

variable {ι : Type} [DecidableEq ι]

/-- A new client and no call made yet. -/
def start (registryUrl : String) : Session ι := ⟨.new registryUrl, fun _ => .called, []⟩

/-- A call moves to another point and the client stays as it is. -/
def setCall (s : Session ι) (i : ι) (point : CallPoint) : Session ι :=
  { s with calls := Function.update s.calls i point }

/-- The second critical section of a call, with what it prints and returns. -/
def allocated (s : Session ι) (subject : String) (i : ι) : Session ι :=
  let (assignedId, client) := s.client.allocate subject
  { client := client
    calls := Function.update s.calls i (.returned assignedId)
    registered := s.registered ++ [(subject, assignedId)] }

@[simp] theorem setCall_client (s : Session ι) (i : ι) (point : CallPoint) :
    (s.setCall i point).client = s.client := rfl

@[simp] theorem setCall_calls (s : Session ι) (i : ι) (point : CallPoint) :
    (s.setCall i point).calls = Function.update s.calls i point := rfl

@[simp] theorem setCall_registered (s : Session ι) (i : ι) (point : CallPoint) :
    (s.setCall i point).registered = s.registered := rfl

@[simp] theorem allocated_nextSchemaId (s : Session ι) (x : String) (i : ι) :
    (s.allocated x i).client.nextSchemaId = s.client.nextSchemaId + 1 := rfl

@[simp] theorem allocated_calls (s : Session ι) (x : String) (i : ι) :
    (s.allocated x i).calls = Function.update s.calls i (.returned s.client.nextSchemaId) := rfl

@[simp] theorem allocated_registered (s : Session ι) (x : String) (i : ι) :
    (s.allocated x i).registered = s.registered ++ [(x, s.client.nextSchemaId)] := rfl

/-- After an allocation the subject has the new id and every other subject has the id it had. -/
theorem cached_allocated (s : Session ι) (x y : String) (i : ι) :
    (s.allocated x i).client.cached y =
      if y = x then some s.client.nextSchemaId else s.client.cached y := by
  show (s.client.schemaCache.insert x s.client.nextSchemaId).lookup y = _
  by_cases hy : y = x
  · rw [if_pos hy, hy, AList.lookup_insert]
  · rw [if_neg hy, AList.lookup_insert_ne hy]
    rfl

variable (subject : ι → String)

/-- The next atomic step of a call: the lookup, then after a miss the allocation. A miss is not
looked up again under the second lock. -/
def step (i : ι) (s : Session ι) : Session ι :=
  match s.calls i with
  | .called =>
      match s.client.cached (subject i) with
      | some id => s.setCall i (.returned id)
      | none => s.setCall i .missed
  | .missed => s.allocated (subject i) i
  | .returned _ => s

/-- The calls take their steps in the order of the schedule. -/
abbrev run (s : Session ι) (sched : List ι) : Session ι := Interleave.run (step subject) s sched

/-- A call that is not interrupted does what `register_schema` does. -/
theorem run_uninterrupted (s : Session ι) (i : ι) (schemaJson : String) (hi : s.calls i = .called) :
    (run subject s [i, i]).client = (s.client.registerSchema (subject i) schemaJson).2 ∧
      (run subject s [i, i]).calls i =
        .returned (s.client.registerSchema (subject i) schemaJson).1 := by
  show (step subject i (step subject i s)).client = _ ∧ (step subject i (step subject i s)).calls i = _
  rw [registerSchema]
  cases hcached : s.client.cached (subject i) with
  | some id =>
    have hfirst : step subject i s = s.setCall i (.returned id) := by simp [step, hi, hcached]
    rw [hfirst]
    simp [step]
  | none =>
    have hfirst : step subject i s = s.setCall i .missed := by simp [step, hi, hcached]
    rw [hfirst]
    simp [step, allocated]

/-- All calls of a subject return one id, whichever calls came in between. -/
def OneIdPerSubject (s : Session ι) : Prop :=
  ∀ i j id id', subject i = subject j → s.calls i = .returned id → s.calls j = .returned id' → id = id'

/-- Every allocation finds its subject without an id, or with the one it is about to assign. -/
def NoneReassigned (registryUrl : String) (sched : List ι) : Prop :=
  ∀ before i after, sched = before ++ i :: after →
    (run subject (start registryUrl) before).calls i = .missed →
    ∀ id, (run subject (start registryUrl) before).client.cached (subject i) = some id →
      id = (run subject (start registryUrl) before).client.nextSchemaId

/-! ### One step -/

/-- What a step does: the lookup hits, it misses, the call allocates, or nothing is left to do. -/
theorem step_cases (i : ι) (s : Session ι) :
    (∃ id, s.calls i = .called ∧ s.client.cached (subject i) = some id ∧
      step subject i s = s.setCall i (.returned id)) ∨
    (s.calls i = .called ∧ s.client.cached (subject i) = none ∧
      step subject i s = s.setCall i .missed) ∨
    (s.calls i = .missed ∧ step subject i s = s.allocated (subject i) i) ∨
    (∃ id, s.calls i = .returned id ∧ step subject i s = s) := by
  rw [step]
  cases hcall : s.calls i with
  | called =>
    cases hcached : s.client.cached (subject i) with
    | some id => exact Or.inl ⟨id, rfl, rfl, rfl⟩
    | none => exact Or.inr (Or.inl ⟨rfl, rfl, rfl⟩)
  | missed => exact Or.inr (Or.inr (Or.inl ⟨rfl, rfl⟩))
  | returned id => exact Or.inr (Or.inr (Or.inr ⟨id, rfl, rfl⟩))

variable {subject}

/-- A call that has returned after one call has moved is that call, or had returned before. -/
theorem returned_update {calls : ι → CallPoint} {i j : ι} {point : CallPoint} {id : UInt32}
    (h : Function.update calls i point j = .returned id) :
    j = i ∧ point = .returned id ∨ calls j = .returned id := by
  by_cases hji : j = i
  · subst hji
    rw [Function.update_self] at h
    exact Or.inl ⟨rfl, h⟩
  · rw [Function.update_of_ne hji] at h
    exact Or.inr h

/-- A call that has not returned can move without a change to what others have returned. -/
theorem update_returned {calls : ι → CallPoint} {i j : ι} {id : UInt32}
    (hopen : ∀ id, calls i ≠ .returned id) (hj : calls j = .returned id) (point : CallPoint) :
    Function.update calls i point j = .returned id := by
  have hji : j ≠ i := by
    rintro rfl
    exact hopen id hj
  rw [Function.update_of_ne hji, hj]

/-- A call keeps what it has returned, whatever the other calls do after it. -/
theorem returned_run {s : Session ι} {i : ι} {id : UInt32} (hi : s.calls i = .returned id)
    (sched : List ι) : (run subject s sched).calls i = .returned id := by
  -- a step moves its own call alone, and a call that has returned takes no more steps
  have hstep : ∀ j (s : Session ι), s.calls i = .returned id →
      (step subject j s).calls i = .returned id := by
    intro j s hs
    rcases step_cases subject j s with
      ⟨id', hcalled, -, h⟩ | ⟨hcalled, -, h⟩ | ⟨hmissed, h⟩ | ⟨id', -, h⟩
    · rw [h, setCall_calls]
      exact update_returned (by simp [hcalled]) hs _
    · rw [h, setCall_calls]
      exact update_returned (by simp [hcalled]) hs _
    · rw [h, allocated_calls]
      exact update_returned (by simp [hmissed]) hs _
    · rw [h, hs]
  exact Interleave.run_invariant hstep hi sched

/-! ### One id per subject -/

/-- What ties the client to its calls: every id that was printed was returned, every id that is cached
or returned was printed for its subject, and ids are counted up from 100. -/
structure Accounted (subject : ι → String) (s : Session ι) : Prop where
  caller : ∀ p ∈ s.registered, ∃ i, subject i = p.1 ∧ s.calls i = .returned p.2
  cached : ∀ x id, s.client.cached x = some id → (x, id) ∈ s.registered
  returned : ∀ i id, s.calls i = .returned id → (subject i, id) ∈ s.registered
  numbered : s.registered.map Prod.snd =
    (List.range s.registered.length).map fun k => UInt32.ofNat (100 + k)
  next : s.client.nextSchemaId = UInt32.ofNat (100 + s.registered.length)

omit [DecidableEq ι] in
/-- Nothing is printed, cached or returned at the start, and the counter is at 100. -/
theorem accounted_start (registryUrl : String) : Accounted subject (start registryUrl) where
  caller p hp := by cases hp
  cached x id hid := by cases hid
  returned i id hid := by cases hid
  numbered := rfl
  next := rfl

/-- A call that has not returned is the caller of no printed id. -/
theorem Accounted.setCall {s : Session ι} (h : Accounted subject s) {i : ι} {point : CallPoint}
    (hopen : ∀ id, s.calls i ≠ .returned id)
    (hpoint : ∀ id, point = .returned id → (subject i, id) ∈ s.registered) :
    Accounted subject (s.setCall i point) where
  caller p hp := by
    obtain ⟨j, hsubject, hj⟩ := h.caller p hp
    exact ⟨j, hsubject, update_returned hopen hj point⟩
  cached := h.cached
  returned j id hj := by
    rcases returned_update hj with ⟨rfl, hid⟩ | hj
    · exact hpoint id hid
    · exact h.returned j id hj
  numbered := h.numbered
  next := h.next

/-- An allocation prints its id, caches it and returns it, so each of the three finds it in the
other two. -/
theorem Accounted.allocated {s : Session ι} (h : Accounted subject s) {i : ι}
    (hopen : s.calls i = .missed) : Accounted subject (s.allocated (subject i) i) where
  caller p hp := by
    rw [allocated_registered, List.mem_append, List.mem_singleton] at hp
    rw [allocated_calls]
    rcases hp with hp | rfl
    · obtain ⟨j, hsubject, hj⟩ := h.caller p hp
      exact ⟨j, hsubject, update_returned (by simp [hopen]) hj _⟩
    · exact ⟨i, rfl, Function.update_self _ _ _⟩
  cached x id hid := by
    rw [cached_allocated] at hid
    rw [allocated_registered, List.mem_append, List.mem_singleton]
    split_ifs at hid with hx
    · right
      rw [hx, ← Option.some.inj hid]
    · exact Or.inl (h.cached x id hid)
  returned j id hj := by
    rw [allocated_registered, List.mem_append, List.mem_singleton]
    rcases returned_update hj with ⟨rfl, hid⟩ | hj
    · right
      rw [CallPoint.returned.inj hid]
    · exact Or.inl (h.returned j id hj)
  numbered := by
    -- the new id is the number of registrations before it, counted from 100
    rw [allocated_registered, List.map_append, h.numbered, List.length_append, List.length_singleton,
      List.range_succ, List.map_append, h.next]
    rfl
  next := by
    rw [allocated_registered, allocated_nextSchemaId, h.next, List.length_append,
      List.length_singleton, ← Nat.add_assoc, UInt32.ofNat_add (100 + _)]
    rfl

/-- Every step keeps the accounts: a hit returns an id that was printed when it was cached, and a
miss changes neither the client nor the log. -/
theorem Accounted.step {s : Session ι} (h : Accounted subject s) (i : ι) :
    Accounted subject (step subject i s) := by
  rcases step_cases subject i s with
    ⟨id, hcalled, hcached, hstep⟩ | ⟨hcalled, -, hstep⟩ | ⟨hmissed, hstep⟩ | ⟨id, -, hstep⟩
  · rw [hstep]
    apply h.setCall (by simp [hcalled])
    · intro id' hid'
      rw [CallPoint.returned.injEq] at hid'
      exact hid' ▸ h.cached _ _ hcached
  · rw [hstep]
    exact h.setCall (by simp [hcalled]) fun _ hid => CallPoint.noConfusion hid
  · rw [hstep]
    exact h.allocated hmissed
  · rw [hstep]
    exact h

/-- The accounts are right after every schedule, by induction over its steps. -/
theorem accounted_run (subject : ι → String) (registryUrl : String) (sched : List ι) :
    Accounted subject (run subject (start registryUrl) sched) :=
  Interleave.run_invariant (fun i (_ : Session ι) hs => hs.step i) (accounted_start registryUrl) sched

/-- Every returned id is the one in the cache of its subject. An allocation that reassigns a subject
breaks this. -/
def Settled (subject : ι → String) (s : Session ι) : Prop :=
  ∀ i id, s.calls i = .returned id → s.client.cached (subject i) = some id

/-- An allocation that does not reassign its subject leaves the cached ids as they are, so what was
returned before is still cached. -/
theorem Settled.step {s : Session ι} (h : Settled subject s) {i : ι}
    (hkeeps : s.calls i = .missed →
      ∀ id, s.client.cached (subject i) = some id → id = s.client.nextSchemaId) :
    Settled subject (step subject i s) := by
  intro j id hj
  rcases step_cases subject i s with
    ⟨id', -, hcached, hstep⟩ | ⟨-, -, hstep⟩ | ⟨hmissed, hstep⟩ | ⟨id', -, hstep⟩
  · rw [hstep, setCall_calls] at hj
    rw [hstep, setCall_client]
    rcases returned_update hj with ⟨rfl, hid⟩ | hj
    · rw [hcached, CallPoint.returned.inj hid]
    · exact h j id hj
  · rw [hstep, setCall_calls] at hj
    rw [hstep, setCall_client]
    rcases returned_update hj with ⟨-, hid⟩ | hj
    · cases hid
    · exact h j id hj
  · rw [hstep, allocated_calls] at hj
    rw [hstep, cached_allocated]
    rcases returned_update hj with ⟨rfl, hid⟩ | hj
    · rw [if_pos rfl, CallPoint.returned.inj hid]
    · split_ifs with hsubject
      -- what the other call has returned is cached, and so is the id that is assigned
      · rw [hkeeps hmissed id (hsubject ▸ h j id hj)]
      · exact h j id hj
  · rw [hstep] at hj ⊢
    exact h j id hj

/-- If no allocation of the schedule reassigns a subject, every id returned in it is cached at its
end. -/
theorem settled_run {registryUrl : String} {sched : List ι}
    (h : NoneReassigned subject registryUrl sched) :
    Settled subject (run subject (start registryUrl) sched) := by
  induction sched using List.reverseRecOn with
  | nil =>
    intro i id hi
    cases hi
  | append_singleton sched i ih =>
    have hearlier : NoneReassigned subject registryUrl sched :=
      forall_occurrence_mono (List.prefix_append _ _) h
    rw [run, Interleave.run_concat]
    exact (ih hearlier).step (h sched i [] rfl)

/-- **All calls of a subject return one id exactly if no allocation finds another id cached for its
subject.** This is a matter of the schedule: a call that has missed allocates without a second look. -/
theorem oneIdPerSubject_iff (subject : ι → String) (registryUrl : String) (sched : List ι) :
    OneIdPerSubject subject (run subject (start registryUrl) sched) ↔
      NoneReassigned subject registryUrl sched := by
  constructor
  · intro hone before i after hsched hmissed id hcached
    -- the call that the cached id was printed for, and this one after its allocation
    have haccounted := accounted_run subject registryUrl before
    obtain ⟨j, hsubject, hj⟩ := haccounted.caller _ (haccounted.cached _ _ hcached)
    have hi : (step subject i (run subject (start registryUrl) before)).calls i =
        .returned (run subject (start registryUrl) before).client.nextSchemaId := by
      rw [step, hmissed]
      exact Function.update_self _ _ _
    have hrun : run subject (start registryUrl) sched =
        run subject (step subject i (run subject (start registryUrl) before)) after := by
      rw [hsched, run, Interleave.run_append]
      rfl
    have hji : (step subject i (run subject (start registryUrl) before)).calls j = .returned id :=
      returned_run hj [i]
    rw [hrun] at hone
    exact hone j i _ _ hsubject (returned_run hji after) (returned_run hi after)
  · intro hkeeps i j id id' hsubject hi hj
    have hsettled := settled_run hkeeps
    have hcached := hsettled i id hi
    rw [hsubject, hsettled j id' hj] at hcached
    exact (Option.some.inj hcached).symm

/-- Two calls for one subject that both miss before either allocates get two ids, and the cache
keeps the second. -/
theorem not_oneIdPerSubject_race :
    ¬OneIdPerSubject (fun _ => "users-value")
      (run (fun _ : Bool => "users-value") (start "http://localhost:8081")
        [false, true, false, true]) := by
  intro hone
  have hids : (100 : UInt32) = 101 := hone false true 100 101 rfl (by decide) (by decide)
  exact absurd hids (by decide)

/-! ### One subject per id -/

omit [DecidableEq ι] in
/-- Ids are distinct as long as the counter has not wrapped round. -/
theorem nodup_ids {s : Session ι} (h : Accounted subject s)
    (hfew : s.registered.length < 2 ^ 32 - 100) : (s.registered.map Prod.snd).Nodup := by
  rw [h.numbered]
  refine List.Nodup.map_on (fun k hk l hl hkl => ?_) List.nodup_range
  rw [List.mem_range] at hk hl
  -- below the bound `100 + k` is no more than the largest id
  have hnat := congrArg UInt32.toNat hkl
  rw [UInt32.toNat_ofNat', UInt32.toNat_ofNat', Nat.mod_eq_of_lt (by omega),
    Nat.mod_eq_of_lt (by omega)] at hnat
  omega

omit [DecidableEq ι] in
/-- An id belongs to one subject, as long as the counter has not wrapped around. -/
theorem eq_of_returned {s : Session ι} (h : Accounted subject s)
    (hfew : s.registered.length < 2 ^ 32 - 100) {i j : ι} {id : UInt32}
    (hi : s.calls i = .returned id) (hj : s.calls j = .returned id) : subject i = subject j := by
  have hsame := List.inj_on_of_nodup_map (nodup_ids h hfew) (h.returned i id hi)
    (h.returned j id hj) rfl
  exact congrArg Prod.fst hsame

end Session

end ConfluentRegistryClient

end Caminus

import Caminus.Common.Interleave
import Caminus.Common.Split
import Caminus.Storage.History

/-!
# Concurrent registrations of schemas

`register_schema` reads the stored schema, checks the new one against it and writes the new one, and
the read and the write are separate operations on the store. A registration that is saved between
the read and the write of another one is replaced by a schema that was never checked against it
(`checkedAgainstReplaced_iff`).
-/

namespace Caminus.SchemaRegistry

/-- The schema and the mode of a call; all calls are for one source, since others cannot interfere. -/
structure RacingCall where
  newSchema : Json
  mode : SchemaCompatibility

/-- Where a call stands: before its read, before its write with the schema it has read and checked,
or returned. -/
inductive RacePoint
  | called
  | checked (oldSchema : Option Json)
  | returned (result : Except SchemaError Unit)

/-- The store that the calls share, and where each call stands. -/
structure Race (ι : Type) where
  store : StateStore
  calls : ι → RacePoint

namespace Race

variable {ι : Type} [DecidableEq ι] (serde : SerdeJson) (sourceId : String) (call : ι → RacingCall)

/-- No call has read yet. -/
def start (store : StateStore) : Race ι := ⟨store, fun _ => .called⟩

/-- The read of a call and its check, which touches no store, so that both are one step. -/
def readAndCheck (c : RacingCall) (store : StateStore) : RacePoint :=
  match store.getSchema serde sourceId with
  | .error e => .returned (.error (.storage e))
  | .ok none => .checked none
  | .ok (some oldSchema) =>
      match checkCompatibility serde oldSchema c.newSchema c.mode with
      | .error e => .returned (.error e)
      | .ok () => .checked (some oldSchema)

/-- The write of a call, of the schema it was called with: nothing is compared again. -/
def saved (i : ι) (s : Race ι) : Race ι :=
  ⟨s.store.saveSchema serde sourceId (call i).newSchema,
    Function.update s.calls i (.returned (.ok ()))⟩

/-- The next store operation of a call. Between its read and its write any number of other calls may
write. -/
def step (i : ι) (s : Race ι) : Race ι :=
  match s.calls i with
  | .called => { s with calls := Function.update s.calls i (readAndCheck serde sourceId (call i) s.store) }
  -- the schema that was read is not compared with the stored one again
  | .checked _ => s.saved serde sourceId call i
  | .returned _ => s

/-- The calls take their store operations in the order of the schedule. -/
abbrev run (s : Race ι) (sched : List ι) : Race ι := Interleave.run (step serde sourceId call) s sched

/-- The state a schedule leads to from a store. -/
abbrev after (store : StateStore) (sched : List ι) : Race ι :=
  run serde sourceId call (start store) sched

/-- The next operation of the call is its write. -/
def AboutToSave (s : Race ι) (i : ι) : Prop := ∃ oldSchema, s.calls i = .checked oldSchema

/-- Every write that replaces a schema is compatible with it in the mode of its call. The schema it
replaces is the one in the store at that moment, not the one the call has read. -/
def CheckedAgainstReplaced (store : StateStore) (sched : List ι) : Prop :=
  ∀ before i rest, sched = before ++ i :: rest →
    (after serde sourceId call store before).AboutToSave i →
    ∀ schema, (after serde sourceId call store before).store.getSchema serde sourceId =
        .ok (some schema) →
      checkCompatibility serde schema (call i).newSchema (call i).mode = .ok ()

/-- No write in a stretch of the schedule, each step looked at where it stands. -/
def NoSaves (store : StateStore) (before stretch : List ι) : Prop :=
  ∀ first k rest, stretch = first ++ k :: rest →
    ¬(after serde sourceId call store (before ++ first)).AboutToSave k

/-- Call `j` writes at the end of `before` while call `i` waits to write, and `i` is the next one
that writes, after `between`. So `i` replaces what `j` has written without having seen it. -/
structure Overtakes (store : StateStore) (before : List ι) (j : ι) (between : List ι) (i : ι) :
    Prop where
  saves : (after serde sourceId call store before).AboutToSave j
  waits : (after serde sourceId call store before).AboutToSave i
  other : i ≠ j
  next : NoSaves serde sourceId call store (before ++ [j]) between

/-- A call that writes next after a write since its read is compatible with that write, as it is read
from the store. -/
def OvertakersCompatible (store : StateStore) (sched : List ι) : Prop :=
  ∀ before j between i rest, sched = before ++ j :: (between ++ i :: rest) →
    Overtakes serde sourceId call store before j between i →
    ∀ schema, serde.reread (call j).newSchema = .ok schema →
      checkCompatibility serde schema (call i).newSchema (call i).mode = .ok ()

/-- A call that is not interrupted does what `register_schema` does. -/
theorem run_uninterrupted (s : Race ι) (i : ι) (hi : s.calls i = .called) :
    (run serde sourceId call s [i, i]).store =
        (register serde (call i).mode s.store ⟨sourceId, (call i).newSchema⟩).2 ∧
      (run serde sourceId call s [i, i]).calls i =
        .returned (register serde (call i).mode s.store ⟨sourceId, (call i).newSchema⟩).1 := by
  show (step serde sourceId call i (step serde sourceId call i s)).store = _ ∧
    (step serde sourceId call i (step serde sourceId call i s)).calls i = _
  have hfirst : step serde sourceId call i s =
      { s with calls := Function.update s.calls i (readAndCheck serde sourceId (call i) s.store) } := by
    rw [step, hi]
  rw [hfirst]
  simp only [step, Function.update_self, register, registerSchema, readAndCheck]
  cases hget : s.store.getSchema serde sourceId with
  | error e => simp
  | ok stored =>
    cases stored with
    | none => simp [saved]
    | some old =>
      cases hcheck : checkCompatibility serde old (call i).newSchema (call i).mode with
      | error e => simp [hcheck]
      | ok u => simp [hcheck, saved]

/-! ## One operation -/

/-- What a call has read when it is about to write: the stored schema, which it has checked. -/
theorem readAndCheck_eq_checked {c : RacingCall} {store : StateStore} {oldSchema : Option Json}
    (h : readAndCheck serde sourceId c store = .checked oldSchema) :
    store.getSchema serde sourceId = .ok oldSchema ∧
      ∀ old, oldSchema = some old → checkCompatibility serde old c.newSchema c.mode = .ok () := by
  rw [readAndCheck] at h
  cases hget : store.getSchema serde sourceId with
  | error e =>
    rw [hget] at h
    cases h
  | ok stored =>
    rw [hget] at h
    cases stored with
    | none =>
      cases h
      exact ⟨rfl, fun old hold => by cases hold⟩
    | some old =>
      simp only at h
      split at h
      · cases h
      · rename_i hcheck
        cases h
        refine ⟨rfl, fun old' hold => ?_⟩
        cases hold
        exact hcheck

variable {serde sourceId call}

/-- The step of a call that is about to write is its write. -/
theorem step_of_aboutToSave {s : Race ι} {i : ι} (h : s.AboutToSave i) :
    step serde sourceId call i s = s.saved serde sourceId call i := by
  obtain ⟨oldSchema, hi⟩ := h
  rw [step, hi]

/-- Only a write changes the store; a read, a failed check and a returned call leave it. -/
theorem store_step {s : Race ι} {i : ι} (h : ¬s.AboutToSave i) :
    (step serde sourceId call i s).store = s.store := by
  rw [step]
  cases hi : s.calls i with
  | called => rfl
  | checked oldSchema => exact absurd ⟨oldSchema, hi⟩ h
  | returned result => rfl

/-- A step moves its own call alone; the others keep what they have read, however old it is. -/
theorem calls_step {s : Race ι} {i k : ι} (h : i ≠ k) :
    (step serde sourceId call k s).calls i = s.calls i := by
  rw [step]
  cases s.calls k with
  | called => exact Function.update_of_ne h _ _
  | checked oldSchema => exact Function.update_of_ne h _ _
  | returned result => rfl

/-- A call that waits to write after its own step has just made its read. -/
theorem checked_step {s : Race ι} {i : ι} {oldSchema : Option Json}
    (h : (step serde sourceId call i s).calls i = .checked oldSchema) :
    ¬s.AboutToSave i ∧ readAndCheck serde sourceId (call i) s.store = .checked oldSchema := by
  rw [step] at h
  cases hi : s.calls i with
  | called =>
    simp only [hi, Function.update_self] at h
    refine ⟨?_, h⟩
    rintro ⟨old, hold⟩
    rw [hi] at hold
    cases hold
  | checked old =>
    simp only [hi, saved, Function.update_self] at h
    cases h
  | returned result =>
    simp only [hi] at h
    cases h

/-- One more entry of the schedule is one more step at its end. -/
theorem after_concat (store : StateStore) (sched : List ι) (k : ι) :
    after serde sourceId call store (sched ++ [k]) =
      step serde sourceId call k (after serde sourceId call store sched) :=
  Interleave.run_concat _ _ _ _

/-- After a write, the schema of the call is found, as its bytes are read. -/
theorem getSchema_saved_iff {s : Race ι} {i : ι} {schema : Json} :
    (s.saved serde sourceId call i).store.getSchema serde sourceId = .ok (some schema) ↔
      serde.reread (call i).newSchema = .ok schema := by
  rw [saved, StateStore.getSchema_saveSchema_eq_ok_iff]
  simp

/-- A stretch without writes stays one when a step that is no write is added. -/
theorem NoSaves.concat {store : StateStore} {before stretch : List ι} {k : ι}
    (h : NoSaves serde sourceId call store before stretch)
    (hk : ¬(after serde sourceId call store (before ++ stretch)).AboutToSave k) :
    NoSaves serde sourceId call store before (stretch ++ [k]) :=
  forall_occurrence_concat h hk

/-- A stretch without writes leaves the store as it is, and the calls that wait to write waiting. -/
theorem NoSaves.run {store : StateStore} {before stretch : List ι}
    (h : NoSaves serde sourceId call store before stretch) :
    (after serde sourceId call store (before ++ stretch)).store =
        (after serde sourceId call store before).store ∧
      ∀ i, (after serde sourceId call store before).AboutToSave i →
        (after serde sourceId call store (before ++ stretch)).AboutToSave i := by
  induction stretch using List.reverseRecOn with
  | nil =>
    rw [List.append_nil]
    exact ⟨rfl, fun _ hi => hi⟩
  | append_singleton stretch k ih =>
    have hk := h stretch k [] rfl
    obtain ⟨hstore, hwaits⟩ := ih (forall_occurrence_mono (List.prefix_append _ _) h)
    rw [← List.append_assoc, after_concat]
    refine ⟨(store_step hk).trans hstore, fun i hi => ?_⟩
    have hik : i ≠ k := by
      rintro rfl
      exact hk (hwaits i hi)
    obtain ⟨oldSchema, hold⟩ := hwaits i hi
    exact ⟨oldSchema, (calls_step hik).trans hold⟩

/-! ## Whole schedules -/

/-- A call that waits to write has checked the stored schema, or another call has written it since. -/
theorem stored_of_checked {store : StateStore} {sched : List ι} {i : ι} {oldSchema : Option Json}
    (h : (after serde sourceId call store sched).calls i = .checked oldSchema) :
    ((after serde sourceId call store sched).store.getSchema serde sourceId = .ok oldSchema ∧
      ∀ old, oldSchema = some old →
        checkCompatibility serde old (call i).newSchema (call i).mode = .ok ()) ∨
    ∃ before j between, sched = before ++ j :: between ∧
      Overtakes serde sourceId call store before j between i ∧
      ∀ schema, (after serde sourceId call store sched).store.getSchema serde sourceId =
        .ok (some schema) → serde.reread (call j).newSchema = .ok schema := by
  -- by induction on the schedule from its end, where the last step may be the read, a write or
  -- neither
  induction sched using List.reverseRecOn with
  | nil => cases h
  | append_singleton sched k ih =>
    rw [after_concat] at h ⊢
    by_cases hik : i = k
    · -- the last step was the call's own read
      subst hik
      obtain ⟨hopen, hread⟩ := checked_step h
      rw [store_step hopen]
      exact Or.inl (readAndCheck_eq_checked _ _ hread)
    · rw [calls_step hik] at h
      by_cases hk : (after serde sourceId call store sched).AboutToSave k
      · -- this write is the last one
        rw [step_of_aboutToSave hk]
        refine Or.inr ⟨sched, k, [], rfl, ⟨hk, ⟨oldSchema, h⟩, hik, ?_⟩,
          fun schema => getSchema_saved_iff.mp⟩
        intro first l rest hsplit
        simp at hsplit
      · rw [store_step hk]
        rcases ih h with hread | ⟨before, j, between, rfl, hovertakes, hstored⟩
        · exact Or.inl hread
        · refine Or.inr ⟨before, j, between ++ [k], by simp, ?_, hstored⟩
          refine ⟨hovertakes.saves, hovertakes.waits, hovertakes.other, hovertakes.next.concat ?_⟩
          rwa [List.append_assoc, List.singleton_append]

/-- The schema that a call finds when it writes next after another one. -/
theorem Overtakes.stored {store : StateStore} {before between : List ι} {i j : ι}
    (h : Overtakes serde sourceId call store before j between i) :
    (after serde sourceId call store (before ++ j :: between)).AboutToSave i ∧
      ∀ schema, serde.reread (call j).newSchema = .ok schema →
        (after serde sourceId call store (before ++ j :: between)).store.getSchema serde sourceId =
          .ok (some schema) := by
  obtain ⟨hstore, hwaits⟩ := h.next.run
  rw [List.append_assoc, List.singleton_append] at hstore hwaits
  rw [hstore]
  rw [after_concat] at hwaits ⊢
  refine ⟨hwaits i ?_, ?_⟩
  · obtain ⟨oldSchema, hold⟩ := h.waits
    exact ⟨oldSchema, (calls_step h.other).trans hold⟩
  · rw [step_of_aboutToSave h.saves]
    exact fun schema => getSchema_saved_iff.mpr

/-- **Every write is compatible with the schema it replaces exactly if it is compatible with the
last write that overtook it**, where one did. A call that nobody overtakes has checked what it
replaces. -/
theorem checkedAgainstReplaced_iff (serde : SerdeJson) (sourceId : String) (call : ι → RacingCall)
    (store : StateStore) (sched : List ι) :
    CheckedAgainstReplaced serde sourceId call store sched ↔
      OvertakersCompatible serde sourceId call store sched := by
  constructor
  · intro h before j between i rest hsched hovertakes schema hread
    obtain ⟨hsaves, hstored⟩ := hovertakes.stored
    exact h (before ++ j :: between) i rest (by simp [hsched]) hsaves schema (hstored schema hread)
  · rintro h before i rest hsched ⟨oldSchema, hold⟩ schema hschema
    rcases stored_of_checked hold with ⟨hread, hcheck⟩ | ⟨first, j, between, rfl, hovertakes, hstored⟩
    · rw [hread, Except.ok.injEq] at hschema
      exact hcheck schema hschema
    · exact h first j between i rest (by simp [hsched]) hovertakes schema (hstored schema hschema)

/-- Two first registrations: neither finds a schema, and the second write drops the field that the
first one has added. -/
def firstRegistrations : Bool → RacingCall
  | false => ⟨Json.obj [("fields", Json.obj [("id", .string "integer"), ("name", .string "string")])],
      .backward⟩
  | true => ⟨Json.obj [("fields", Json.obj [("id", .string "integer")])], .backward⟩

/-- Both calls read before either writes, so the second write replaces a schema it was never
compared with, and which it is not compatible with. -/
theorem not_checkedAgainstReplaced_firstRegistrations :
    ¬CheckedAgainstReplaced .compact "postgres_users" firstRegistrations .new
      [false, true, false, true] := by
  intro h
  have hstored : (after .compact "postgres_users" firstRegistrations .new
      [false, true, false]).store.getSchema .compact "postgres_users" =
        .ok (some (firstRegistrations false).newSchema) :=
    StateStore.getSchema_saveSchema_of_readsBack _ _ (.of_plain (by decide))
  have hcheck := h [false, true, false] true [] rfl ⟨none, rfl⟩ _ hstored
  cases hcheck

end Race

end Caminus.SchemaRegistry

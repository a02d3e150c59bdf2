import Caminus.Common.JsonText
import Caminus.Common.Mealy
import Caminus.Storage.Compatibility

/-!
# Schema histories

A registration compares the new schema with the stored one alone. The check is transitive in every
mode, because a field of the outer two schemas is also a field of the one between them, so all the
schemas a source ever had are compatible with each other in their order (`registrations_compatible`).
-/

namespace Caminus.SchemaRegistry

variable {serde : SerdeJson}

/-! ## The check as a relation -/

/-- The type check loops over the old fields only, but what it establishes does not depend on the
side. -/
theorem SameTypes.symm {fo fn : Map Json} (h : SameTypes fo fn) : SameTypes fn fo := by
  intro p hp v hv
  refine Json.eq_symm (h (p.1, v) (Map.get?_eq_some_iff.mp hv) p.2 ?_)
  exact Map.get?_eq_some_iff.mpr hp

/-- Types agree along a chain in which the middle has every field common to both ends. Without that
a field could be dropped and come back with another type. -/
theorem SameTypes.trans {fo fm fn : Map Json} (hom : SameTypes fo fm) (hmn : SameTypes fm fn)
    (hmiddle : ∀ name ∈ fo.keys, name ∈ fn.keys → name ∈ fm.keys) : SameTypes fo fn := by
  intro p hp w hw
  have hname : p.1 ∈ fm.keys := by
    have hnew : p.1 ∈ fn.keys := List.mem_map.mpr ⟨_, Map.get?_eq_some_iff.mp hw, rfl⟩
    exact hmiddle p.1 (List.mem_map_of_mem hp) hnew
  obtain ⟨q, hq, hqp⟩ := List.mem_map.mp hname
  have hpq : p.2.eq q.2 = true := by
    refine hom p hp q.2 ?_
    rw [← hqp]
    exact Map.get?_eq_some_iff.mpr hq
  have hqw : q.2.eq w = true := by
    refine hmn q hq w ?_
    rw [hqp]
    exact hw
  exact Json.eq_trans hpq hqw

/-- The field-set rules compose, and in each mode a field common to both ends is also in the middle,
as `SameTypes.trans` needs it. -/
theorem checkFieldSets_trans {fo fm fn : Map Json} {mode : SchemaCompatibility}
    (hmode : mode ≠ .none) (hom : checkFieldSets fo fm mode = .ok ())
    (hmn : checkFieldSets fm fn mode = .ok ()) :
    checkFieldSets fo fn mode = .ok () ∧
      ∀ name ∈ fo.keys, name ∈ fn.keys → name ∈ fm.keys := by
  cases mode with
  | none => exact absurd rfl hmode
  | backward =>
    rw [checkFieldSets_backward_iff] at hom hmn ⊢
    exact ⟨List.Subset.trans hom hmn, fun name hname _ => hom hname⟩
  | forward =>
    rw [checkFieldSets_forward_iff] at hom hmn ⊢
    exact ⟨List.Subset.trans hmn hom, fun name _ hname => hmn hname⟩
  | full =>
    rw [checkFieldSets_full_iff] at hom hmn ⊢
    exact ⟨⟨List.Subset.trans hom.1 hmn.1, List.Subset.trans hmn.2 hom.2⟩,
      fun name hname _ => hom.1 hname⟩

/-- The check is transitive in every mode that checks anything, so comparing with the last schema is
comparing with all of them. -/
theorem checkCompatibility_trans {a b c : Json} {mode : SchemaCompatibility} (hmode : mode ≠ .none)
    (hab : checkCompatibility serde a b mode = .ok ())
    (hbc : checkCompatibility serde b c mode = .ok ()) :
    checkCompatibility serde a c mode = .ok () := by
  rw [checkCompatibility_eq_ok_iff hmode] at hab hbc ⊢
  obtain ⟨fa, fb, ha, hb, htypes, hsets⟩ := hab
  obtain ⟨fb', fc, hb', hc, htypes', hsets'⟩ := hbc
  obtain rfl : fb = fb' := by simpa [hb] using hb'
  obtain ⟨houter, hmiddle⟩ := checkFieldSets_trans hmode hsets hsets'
  exact ⟨fa, fc, ha, hc, htypes.trans htypes' hmiddle, houter⟩

/-- `Full` is `Backward` and `Forward` together. -/
theorem checkCompatibility_full_iff {a b : Json} :
    checkCompatibility serde a b .full = .ok () ↔
      checkCompatibility serde a b .backward = .ok () ∧
        checkCompatibility serde a b .forward = .ok () := by
  rw [checkCompatibility_eq_ok_iff (by decide), checkCompatibility_eq_ok_iff (by decide),
    checkCompatibility_eq_ok_iff (by decide)]
  simp only [checkFieldSets_full_iff, checkFieldSets_backward_iff, checkFieldSets_forward_iff]
  constructor
  · rintro ⟨fa, fb, ha, hb, htypes, hold, hnew⟩
    exact ⟨⟨fa, fb, ha, hb, htypes, hold⟩, fa, fb, ha, hb, htypes, hnew⟩
  · rintro ⟨⟨fa, fb, ha, hb, htypes, hold⟩, fa', fb', ha', hb', -, hnew⟩
    obtain rfl : fa = fa' := by simpa [ha] using ha'
    obtain rfl : fb = fb' := by simpa [hb] using hb'
    exact ⟨fa, fb, ha, hb, htypes, hold, hnew⟩

/-- A change is backward compatible exactly when its reverse is forward compatible. -/
theorem checkCompatibility_backward_iff_forward {a b : Json} :
    checkCompatibility serde a b .backward = .ok () ↔
      checkCompatibility serde b a .forward = .ok () := by
  rw [checkCompatibility_eq_ok_iff (by decide), checkCompatibility_eq_ok_iff (by decide)]
  simp only [checkFieldSets_backward_iff, checkFieldSets_forward_iff]
  constructor
  · rintro ⟨fa, fb, ha, hb, htypes, hsub⟩
    exact ⟨fb, fa, hb, ha, htypes.symm, hsub⟩
  · rintro ⟨fb, fa, hb, ha, htypes, hsub⟩
    exact ⟨fa, fb, ha, hb, htypes.symm, hsub⟩

/-! ## Sequences of registrations -/

/-- A call of `register_schema`; the mode is one for the whole list. -/
structure Registration where
  sourceId : String
  newSchema : Json

variable (serde) (mode : SchemaCompatibility)

/-- One call of `registerSchema`: its result, and the store it leaves behind. -/
def register (store : StateStore) (call : Registration) : Except SchemaError Unit × StateStore :=
  match registerSchema serde store call.sourceId call.newSchema mode with
  | .ok store' => (.ok (), store')
  | .error e => (.error e, store)

/-- The schema that a store holds for a source, if there is one and its bytes can be read. -/
def storedSchema (store : StateStore) (sourceId : String) : Option Json :=
  match store.getSchema serde sourceId with
  | .ok schema => schema
  | .error _ => none

/-- The schemas that a list of calls stores for a source, in order; a call that fails stores
nothing. -/
def stored (sourceId : String) : StateStore → List Registration → List Json
  | _, [] => []
  | store, call :: calls =>
      match register serde mode store call with
      | (.ok (), store') =>
          if call.sourceId = sourceId then call.newSchema :: stored sourceId store' calls
          else stored sourceId store' calls
      | (.error _, store') => stored sourceId store' calls

/-- All schemas a source had: the one it started with, if any, and those stored since. -/
def history (store : StateStore) (calls : List Registration) (sourceId : String) : List Json :=
  (storedSchema serde store sourceId).toList ++ stored serde mode sourceId store calls

/-- What a mode promises over a list of calls: all schemas of a source are compatible in order, a
failed call changes nothing, and a successful one the schema of its own source. -/
structure CompatibleHistory (store : StateStore) (calls : List Registration) : Prop where
  compatible : ∀ sourceId, (history serde mode store calls sourceId).Pairwise fun old new =>
    checkCompatibility serde old new mode = .ok ()
  failed : ∀ k call e, calls[k]? = some call →
    (Mealy.outputs (register serde mode) store calls)[k]? = some (.error e) →
    ∀ sourceId, (Mealy.final (register serde mode) store (calls.take (k + 1))).getSchema serde sourceId =
      (Mealy.final (register serde mode) store (calls.take k)).getSchema serde sourceId
  succeeded : ∀ k call, calls[k]? = some call →
    (Mealy.outputs (register serde mode) store calls)[k]? = some (.ok ()) →
    (Mealy.final (register serde mode) store (calls.take (k + 1))).getSchema serde call.sourceId =
        .ok (some call.newSchema) ∧
      ∀ sourceId, sourceId ≠ call.sourceId →
        (Mealy.final (register serde mode) store (calls.take (k + 1))).getSchema serde sourceId =
          (Mealy.final (register serde mode) store (calls.take k)).getSchema serde sourceId
  transitive : ∀ a b c, checkCompatibility serde a b mode = .ok () →
    checkCompatibility serde b c mode = .ok () → checkCompatibility serde a c mode = .ok ()
  full : ∀ a b, checkCompatibility serde a b .full = .ok () ↔
    checkCompatibility serde a b .backward = .ok () ∧
      checkCompatibility serde a b .forward = .ok ()
  dual : ∀ a b, checkCompatibility serde a b .backward = .ok () ↔
    checkCompatibility serde b a .forward = .ok ()

/-! ## One registration -/

variable {serde mode}

/-- What a call does: it fails and changes nothing, or it stores its schema after the check against
the stored one. -/
theorem register_cases (store : StateStore) (call : Registration) :
    (∃ e, register serde mode store call = (.error e, store)) ∨
      register serde mode store call =
          (.ok (), store.saveSchema serde call.sourceId call.newSchema) ∧
        ∀ old, storedSchema serde store call.sourceId = some old →
          checkCompatibility serde old call.newSchema mode = .ok () := by
  unfold register registerSchema storedSchema
  cases hget : store.getSchema serde call.sourceId with
  | error e => exact Or.inl ⟨_, rfl⟩
  | ok o =>
    cases o with
    | none => exact Or.inr ⟨rfl, fun old hold => by cases hold⟩
    | some old =>
      cases hcheck : checkCompatibility serde old call.newSchema mode with
      | error e => exact Or.inl ⟨e, by simp only [hcheck]⟩
      | ok u =>
        refine Or.inr ⟨by simp only [hcheck], fun old' hold => ?_⟩
        obtain rfl : old = old' := by simpa using hold
        exact hcheck

/-- A schema that reads back is the stored one after its registration. -/
theorem storedSchema_saveSchema_self (store : StateStore) (sourceId : String) {schema : Json}
    (h : serde.ReadsBack schema) :
    storedSchema serde (store.saveSchema serde sourceId schema) sourceId = some schema := by
  rw [storedSchema, StateStore.getSchema_saveSchema_of_readsBack _ _ h]

/-- The registration of one source leaves the schema of another as it is. -/
theorem storedSchema_saveSchema_ne (store : StateStore) {s t : String} (schema : Json) (h : t ≠ s) :
    storedSchema serde (store.saveSchema serde s schema) t = storedSchema serde store t := by
  rw [storedSchema, storedSchema, StateStore.getSchema_saveSchema_ne _ _ _ h]

/-! ## Whole histories -/

/-- All schemas a source ever had are compatible in their order, not only neighbouring ones. -/
theorem history_pairwise (hmode : mode ≠ .none) (store : StateStore) {calls : List Registration}
    (hread : ∀ call ∈ calls, serde.ReadsBack call.newSchema) (sourceId : String) :
    (history serde mode store calls sourceId).Pairwise fun old new =>
      checkCompatibility serde old new mode = .ok () := by
  -- by induction on the calls, for every store they may start from
  induction calls generalizing store with
  | nil =>
    rw [history, stored, List.append_nil]
    cases storedSchema serde store sourceId <;> simp
  | cons call calls ih =>
    rw [List.forall_mem_cons] at hread
    rcases register_cases store call with ⟨e, hcall⟩ | ⟨hcall, hcheck⟩
    · rw [history, stored, hcall]
      exact ih store hread.2
    · have hrest := ih (store.saveSchema serde call.sourceId call.newSchema) hread.2
      rw [history, stored, hcall]
      simp only
      by_cases hsource : call.sourceId = sourceId
      · subst hsource
        rw [history, storedSchema_saveSchema_self _ _ hread.1, Option.toList_some,
          List.singleton_append] at hrest
        rw [if_pos rfl]
        cases hold : storedSchema serde store call.sourceId with
        | none => exact hrest
        | some old =>
          -- the schema before it reaches the later ones through the new one
          have hnew := hcheck old hold
          refine List.pairwise_cons.mpr ⟨fun t ht => ?_, hrest⟩
          rcases List.mem_cons.mp ht with rfl | ht
          · exact hnew
          · exact checkCompatibility_trans hmode hnew ((List.pairwise_cons.mp hrest).1 t ht)
      · rw [if_neg hsource]
        rwa [history, storedSchema_saveSchema_ne _ _ (Ne.symm hsource)] at hrest

/-- The answer of a call within a run, with what it does to the store: it fails and the store after
it is the one before it, or its schema has been saved. -/
theorem outputs_cases (store : StateStore) {calls : List Registration} {k : ℕ}
    {call : Registration} (hcall : calls[k]? = some call) :
    (∃ e, (Mealy.outputs (register serde mode) store calls)[k]? = some (.error e) ∧
      Mealy.final (register serde mode) store (calls.take (k + 1)) =
        Mealy.final (register serde mode) store (calls.take k)) ∨
    ((Mealy.outputs (register serde mode) store calls)[k]? = some (.ok ()) ∧
      Mealy.final (register serde mode) store (calls.take (k + 1)) =
        (Mealy.final (register serde mode) store (calls.take k)).saveSchema serde call.sourceId
          call.newSchema) := by
  rw [Mealy.outputs_getElem?, hcall, Option.map_some, List.take_add_one, hcall, Option.toList_some,
    Mealy.final_concat]
  rcases register_cases (Mealy.final (register serde mode) store (calls.take k)) call with
    ⟨e, h⟩ | ⟨h, -⟩
  · exact Or.inl ⟨e, by rw [h], by rw [h]⟩
  · exact Or.inr ⟨by rw [h], by rw [h]⟩

/-- **Schema histories are compatible end to end**, in every mode that checks anything, if the schemas
of the calls come back from the store as they were saved. -/
theorem registrations_compatible (serde : SerdeJson) (mode : SchemaCompatibility)
    (hmode : mode ≠ .none) (store : StateStore) (calls : List Registration)
    (hread : ∀ call ∈ calls, serde.ReadsBack call.newSchema) :
    CompatibleHistory serde mode store calls where
  compatible := history_pairwise hmode store hread
  failed := by
    intro k call e hcall hresult sourceId
    rcases outputs_cases store hcall with ⟨e', -, hfinal⟩ | ⟨hok, -⟩
    · rw [hfinal]
    · rw [hok] at hresult
      cases hresult
  succeeded := by
    intro k call hcall hresult
    rcases outputs_cases store hcall with ⟨e, herror, -⟩ | ⟨-, hfinal⟩
    · rw [herror] at hresult
      cases hresult
    · rw [hfinal]
      have hback := hread call (List.mem_of_getElem? hcall)
      refine ⟨StateStore.getSchema_saveSchema_of_readsBack _ _ hback, fun sourceId hne => ?_⟩
      exact StateStore.getSchema_saveSchema_ne _ _ _ hne
  transitive := fun _ _ _ => checkCompatibility_trans hmode
  full := fun _ _ => checkCompatibility_full_iff
  dual := fun _ _ => checkCompatibility_backward_iff_forward

/-- The users gain a name and then an address; a call that drops the id fails, and the history is
compatible without it. -/
theorem registrations_compatible_users :
    CompatibleHistory .compact .backward .new
      [⟨"users", Json.obj [("fields", Json.obj [("id", .string "integer")])]⟩,
        ⟨"users", Json.obj [("fields", Json.obj [("id", .string "integer"),
          ("name", .string "string")])]⟩,
        ⟨"users", Json.obj [("fields", Json.obj [("name", .string "string")])]⟩,
        ⟨"users", Json.obj [("fields", Json.obj [("id", .string "integer"),
          ("name", .string "string"), ("address", .string "string")])]⟩] := by
  refine registrations_compatible .compact .backward (by decide) .new _ fun call hcall => ?_
  apply SerdeJson.ReadsBack.of_plain
  simp only [List.mem_cons, List.not_mem_nil, or_false] at hcall
  rcases hcall with rfl | rfl | rfl | rfl <;> decide

end Caminus.SchemaRegistry

import Caminus.Common.Linearize
import Caminus.Transform.Registry
import Mathlib.Data.List.Dedup

/-!
# Plugins are reloaded while they run

The map of `WasmPluginRegistry` (`src/transform/registry.rs`) is behind a read-write lock. An install
compiles its module without a lock and puts it in under the write lock; a transform runs under the read
lock from the lookup to its end. So a plugin is not replaced under a transform that runs, and in every
interleaving of the callers a transform is that of the module installed last before it
(`hotReload`).
-/

namespace Caminus.WasmPluginRegistry

variable {γ : Type}

/-- The number of plugins, enabled or not. -/
def len (registry : WasmPluginRegistry γ) : ℕ := registry.plugins.len

/-- There are no plugins. -/
def isEmpty (registry : WasmPluginRegistry γ) : Bool := registry.len == 0

/-! ## One call after the other -/

/-- What a thread asks of the registry. -/
inductive Request
  | call (call : PluginCall)
  | getMetadata (pluginName : String)
  | len
  | isEmpty

/-- A request at the moment when it takes effect, with the thread it is from. -/
structure Effect (ι : Type) where
  thread : ι
  request : Request

/-- What a thread is told. -/
inductive Reply
  | answer (answer : PluginAnswer)
  | metadata (metadata : Option PluginMetadata)
  | len (plugins : ℕ)
  | isEmpty (isEmpty : Bool)

section Serve

variable (compile : List UInt8 → Except String (WasmTransformer γ)) (serde : EventSerde)
  (reason : List UInt8 → String)

/-- The registry, called by one caller at a time: the object that the interleavings are compared
with. -/
def serve {ι : Type} (registry : WasmPluginRegistry γ) (e : Effect ι) :
    Reply × WasmPluginRegistry γ :=
  match e.request with
  | .call call =>
      (.answer (registry.perform compile serde reason call).1,
        (registry.perform compile serde reason call).2)
  | .getMetadata pluginName => (.metadata (registry.getMetadata pluginName), registry)
  | .len => (.len registry.len, registry)
  | .isEmpty => (.isEmpty registry.isEmpty, registry)

/-- An install or a transform is served as `perform` does it. -/
theorem serve_call {ι : Type} (registry : WasmPluginRegistry γ) (thread : ι) (call : PluginCall) :
    serve compile serde reason registry ⟨thread, .call call⟩ =
      (.answer (registry.perform compile serde reason call).1,
        (registry.perform compile serde reason call).2) := rfl

/-- The installs and transforms among some requests; the others only read. -/
def callsOf {ι : Type} (es : List (Effect ι)) : List PluginCall :=
  es.filterMap fun e =>
    match e.request with
    | .call call => some call
    | _ => none

/-- The calls of a longer list are those of its parts. -/
theorem callsOf_append {ι : Type} (es es' : List (Effect ι)) :
    callsOf (es ++ es') = callsOf es ++ callsOf es' :=
  List.filterMap_append

/-- The other requests leave no trace: the registry is what the installs among the requests have
made. -/
theorem final_serve {ι : Type} (es : List (Effect ι)) :
    Mealy.final (serve compile serde reason) new es = after compile serde reason (callsOf es) := by
  induction es using List.reverseRecOn with
  | nil => rfl
  | append_singleton es e ih =>
    obtain ⟨thread, request⟩ := e
    rw [Mealy.final_concat, ih, callsOf_append]
    cases request with
    | call call => exact (after_concat compile serde reason (callsOf es) call).symm
    | getMetadata pluginName => simp [serve, callsOf]
    | len => simp [serve, callsOf]
    | isEmpty => simp [serve, callsOf]

/-- The names under which some calls have installed a module. -/
def installedNames (calls : List PluginCall) : List String :=
  calls.filterMap fun call =>
    match call.upload with
    | none => none
    | some upload =>
        match compile upload.wasmBytes with
        | .error _ => none
        | .ok _ => some upload.name

/-- A name has a last install exactly if it is among the installed names. -/
theorem isSome_lastInstall_iff {name : String} {calls : List PluginCall} :
    (lastInstall compile name calls).isSome = true ↔ name ∈ installedNames compile calls := by
  -- both sides look at one call at a time, so it is enough to compare them on one
  have hcall : ∀ call, (installedAs compile name call).isSome = true ↔
      name ∈ installedNames compile [call] := by
    intro call
    rw [installedAs]
    cases hupload : call.upload with
    | none => simp [installedNames, hupload]
    | some upload =>
      cases hcompile : compile upload.wasmBytes with
      | error message => simp [installedNames, hupload, hcompile]
      | ok engine =>
        by_cases hname : upload.name = name
        · simp [installedNames, hupload, hcompile, hname]
        · simp [installedNames, hupload, hcompile, hname, Ne.symm hname]
  have hmem : name ∈ installedNames compile calls ↔
      ∃ call ∈ calls, name ∈ installedNames compile [call] := by
    simp [installedNames, List.mem_filterMap]
  rw [hmem, lastInstall, List.getLast?_isSome]
  constructor
  · intro hne
    obtain ⟨installed, hinstalled⟩ := List.exists_mem_of_ne_nil _ hne
    obtain ⟨call, hin, h⟩ := List.mem_filterMap.mp hinstalled
    exact ⟨call, hin, (hcall call).mp (by rw [h]; rfl)⟩
  · rintro ⟨call, hin, h⟩
    obtain ⟨installed, h⟩ := Option.isSome_iff_exists.mp ((hcall call).mpr h)
    exact List.ne_nil_of_mem (List.mem_filterMap.mpr ⟨call, hin, h⟩)

/-- The registry counts each plugin once, however often it was installed. -/
theorem len_after (calls : List PluginCall) :
    (after compile serde reason calls).len = (installedNames compile calls).dedup.length := by
  have hperm : (after compile serde reason calls).plugins.keys.Perm
      (installedNames compile calls).dedup := by
    refine (List.perm_ext_iff_of_nodup (AList.keys_nodup _) (List.nodup_dedup _)).mpr fun name => ?_
    rw [List.mem_dedup, ← isSome_lastInstall_iff, AList.mem_keys.symm, ← AList.lookup_isSome,
      lookup_after, Option.isSome_map]
  rw [← hperm.length_eq, AList.keys, List.keys, List.length_map]
  rfl

end Serve

/-! ## Many callers -/

/-- Where a thread stands: between two requests, in an install with its compiled module, or in a
transform with the read lock and the module it has found. -/
inductive Point (γ : Type)
  | idle
  | compiled (call : PluginCall) (upload : PluginUpload) (engine : WasmTransformer γ)
  | executing (pluginName : String) (event : ChangeEvent) (engine : WasmTransformer γ)

/-- The registry, the threads that hold the read lock, and where each thread stands. -/
structure Session (ι γ : Type) where
  registry : WasmPluginRegistry γ
  readers : List ι
  point : ι → Point γ
  requests : ι → List Request

namespace Session

variable {ι : Type} [DecidableEq ι] (compile : List UInt8 → Except String (WasmTransformer γ))
  (serde : EventSerde) (reason : List UInt8 → String)

/-- A new registry, nobody holds the lock and every thread has all its requests left. -/
def start (requests : ι → List Request) : Session ι γ := ⟨.new, [], fun _ => .idle, requests⟩

/-- The module of an install is compiled, and its metadata are made, without a lock. A module that
does not compile ends the request here. -/
def beginInstall (s : Session ι γ) (i : ι) (call : PluginCall) (upload : PluginUpload) :
    Option (Effect ι × Reply) × Session ι γ :=
  match WasmTransformer.new compile upload.wasmBytes with
  | .error e => (some (⟨i, .call call⟩, .answer (.installed (.error e))), s)
  | .ok engine => (none, { s with point := Function.update s.point i (.compiled call upload engine) })

/-- The plugin of a transform is looked up under the read lock. The lock is kept until the transform
ends, unless there is no plugin to run. -/
def beginTransform (s : Session ι γ) (i : ι) (pluginName : String) (event : ChangeEvent) :
    Option (Effect ι × Reply) × Session ι γ :=
  let done (outcome : PluginOutcome) : Option (Effect ι × Reply) × Session ι γ :=
    (some (⟨i, .call (.executeTransform pluginName event)⟩, .answer (.transformed outcome)), s)
  match s.registry.plugins.lookup pluginName with
  | none => done (.returned (.error (notRegistered pluginName)))
  | some (metadata, engine) =>
      if !metadata.enabled then done (.returned (.ok (some event)))
      else
        (none, { s with
          readers := i :: s.readers
          point := Function.update s.point i (.executing pluginName event engine) })

/-- The first step of a request. Those that only read are done in it. -/
def beginRequest (s : Session ι γ) (i : ι) : Request → Option (Effect ι × Reply) × Session ι γ
  | .call (.registerPlugin upload) => s.beginInstall compile i (.registerPlugin upload) upload
  | .call (.hotReloadPlugin upload) => s.beginInstall compile i (.hotReloadPlugin upload) upload
  | .call (.executeTransform pluginName event) => s.beginTransform i pluginName event
  | .getMetadata pluginName =>
      (some (⟨i, .getMetadata pluginName⟩, .metadata (s.registry.getMetadata pluginName)), s)
  | .len => (some (⟨i, .len⟩, .len s.registry.len), s)
  | .isEmpty => (some (⟨i, .isEmpty⟩, .isEmpty s.registry.isEmpty), s)

/-- The next step of a thread. The write lock is given to nobody while there are readers. -/
def step (s : Session ι γ) (i : ι) : Option (Effect ι × Reply) × Session ι γ :=
  match s.point i with
  | .idle =>
      match s.requests i with
      | [] => (none, s)
      | request :: rest =>
          { s with requests := Function.update s.requests i rest }.beginRequest compile i request
  | .compiled call upload engine =>
      if s.readers.isEmpty then
        (some (⟨i, .call call⟩, .answer (.installed (.ok ()))),
          { s with
            registry := ⟨s.registry.plugins.insert upload.name (upload.metadata, engine)⟩
            point := Function.update s.point i .idle })
      else (none, s)
  | .executing pluginName event engine =>
      (some (⟨i, .call (.executeTransform pluginName event)⟩,
          .answer (.transformed (.ofTransform (engine.transform serde reason event)))),
        { s with
          readers := s.readers.erase i
          point := Function.update s.point i .idle })

/-! ## What a step can do -/

/-- A step waits, is a whole request that leaves the registry alone, compiles the module of an install,
looks up the plugin of a transform, puts a module in, or ends a transform. -/
inductive Moves (s : Session ι γ) (i : ι) : Option (Effect ι × Reply) → Session ι γ → Prop
  | waits : Moves s i none s
  | answers (request : Request) (rest : List Request) (reply : Reply) (hidle : s.point i = .idle)
      (hrequests : s.requests i = request :: rest)
      (hserve : serve compile serde reason s.registry (⟨i, request⟩ : Effect ι) =
        (reply, s.registry)) :
      Moves s i (some (⟨i, request⟩, reply))
        { s with requests := Function.update s.requests i rest }
  | compiles (call : PluginCall) (upload : PluginUpload) (engine : WasmTransformer γ)
      (rest : List Request) (hidle : s.point i = .idle)
      (hrequests : s.requests i = .call call :: rest) (hupload : call.upload = some upload)
      (hcompile : compile upload.wasmBytes = .ok engine) :
      Moves s i none
        { s with
          requests := Function.update s.requests i rest
          point := Function.update s.point i (.compiled call upload engine) }
  | looksUp (pluginName : String) (event : ChangeEvent) (metadata : PluginMetadata)
      (engine : WasmTransformer γ) (rest : List Request) (hidle : s.point i = .idle)
      (hrequests : s.requests i = .call (.executeTransform pluginName event) :: rest)
      (hlookup : s.registry.plugins.lookup pluginName = some (metadata, engine))
      (henabled : metadata.enabled = true) :
      Moves s i none
        { s with
          readers := i :: s.readers
          requests := Function.update s.requests i rest
          point := Function.update s.point i (.executing pluginName event engine) }
  | installs (call : PluginCall) (upload : PluginUpload) (engine : WasmTransformer γ)
      (hpoint : s.point i = .compiled call upload engine) (hfree : s.readers = []) :
      Moves s i (some (⟨i, .call call⟩, .answer (.installed (.ok ()))))
        { s with
          registry := ⟨s.registry.plugins.insert upload.name (upload.metadata, engine)⟩
          point := Function.update s.point i .idle }
  | ends (pluginName : String) (event : ChangeEvent) (engine : WasmTransformer γ)
      (hpoint : s.point i = .executing pluginName event engine) :
      Moves s i (some (⟨i, .call (.executeTransform pluginName event)⟩,
          .answer (.transformed (.ofTransform (engine.transform serde reason event)))))
        { s with
          readers := s.readers.erase i
          point := Function.update s.point i .idle }

variable {compile serde reason} {s : Session ι γ} {i : ι}

/-- The first step of an install compiles the module, or answers with the error of the compiler. -/
theorem moves_beginInstall {call : PluginCall} {upload : PluginUpload} {rest : List Request}
    (hidle : s.point i = .idle) (hrequests : s.requests i = .call call :: rest)
    (hupload : call.upload = some upload) :
    let begun := beginInstall compile { s with requests := Function.update s.requests i rest } i call
      upload
    Moves compile serde reason s i begun.1 begun.2 := by
  rw [beginInstall, WasmTransformer.new]
  cases hcompile : compile upload.wasmBytes with
  | error message =>
    refine .answers (.call call) rest _ hidle hrequests ?_
    rw [serve_call, perform_of_upload compile serde reason hupload, install_of_error compile hcompile]
  | ok engine => exact .compiles call upload engine rest hidle hrequests hupload hcompile

/-- The first step of a transform finds a module to run, or answers at once. -/
theorem moves_beginTransform {pluginName : String} {event : ChangeEvent} {rest : List Request}
    (hidle : s.point i = .idle)
    (hrequests : s.requests i = .call (.executeTransform pluginName event) :: rest) :
    let begun := beginTransform { s with requests := Function.update s.requests i rest } i pluginName
      event
    Moves compile serde reason s i begun.1 begun.2 := by
  rw [beginTransform]
  cases hlookup : s.registry.plugins.lookup pluginName with
  | none =>
    refine .answers _ rest _ hidle hrequests ?_
    simp [serve, perform, executeTransform, hlookup]
  | some entry =>
    obtain ⟨metadata, engine⟩ := entry
    cases henabled : metadata.enabled with
    | false =>
      simp only [henabled, Bool.not_false, ↓reduceIte]
      refine .answers _ rest _ hidle hrequests ?_
      simp [serve, perform, executeTransform, hlookup, henabled]
    | true =>
      simp only [henabled, Bool.not_true, Bool.false_eq_true, ↓reduceIte]
      exact .looksUp pluginName event metadata engine rest hidle hrequests hlookup henabled

/-- Every step is one of the moves: this is the case analysis that the results below use. -/
theorem moves_step (s : Session ι γ) (i : ι) :
    Moves compile serde reason s i (s.step compile serde reason i).1
      (s.step compile serde reason i).2 := by
  rw [step]
  cases hpoint : s.point i with
  | idle =>
    cases hrequests : s.requests i with
    | nil => exact .waits
    | cons request rest =>
      cases request with
      | call call =>
        cases call with
        | registerPlugin upload => exact moves_beginInstall hpoint hrequests rfl
        | hotReloadPlugin upload => exact moves_beginInstall hpoint hrequests rfl
        | executeTransform pluginName event => exact moves_beginTransform hpoint hrequests
      | getMetadata pluginName => exact .answers _ rest _ hpoint hrequests rfl
      | len => exact .answers _ rest _ hpoint hrequests rfl
      | isEmpty => exact .answers _ rest _ hpoint hrequests rfl
  | compiled call upload engine =>
    simp only
    split_ifs with hfree
    · exact .installs call upload engine hpoint (List.isEmpty_iff.mp hfree)
    · exact .waits
  | executing pluginName event engine => exact .ends pluginName event engine hpoint

/-! ## The lock -/

variable (compile) in
/-- A transform holds the read lock and its module is still in the registry; the module of an install
is what its bytes compile to. -/
structure Inv (s : Session ι γ) : Prop where
  executing : ∀ i pluginName event engine, s.point i = .executing pluginName event engine →
    i ∈ s.readers ∧ ∃ metadata, s.registry.plugins.lookup pluginName = some (metadata, engine) ∧
      metadata.enabled = true
  compiled : ∀ i call upload engine, s.point i = .compiled call upload engine →
    call.upload = some upload ∧ compile upload.wasmBytes = .ok engine

omit [DecidableEq ι] in
/-- Nobody has begun anything at the start. -/
theorem inv_start (requests : ι → List Request) : Inv compile (start requests) := by
  constructor
  · intro i pluginName event engine hpoint
    cases hpoint
  · intro i call upload engine hpoint
    cases hpoint

omit [DecidableEq ι] in
/-- Nobody runs a transform while the write lock is held. -/
theorem Inv.not_executing (h : Inv compile s) (hfree : s.readers = []) (i : ι) (pluginName : String)
    (event : ChangeEvent) (engine : WasmTransformer γ) :
    s.point i ≠ .executing pluginName event engine := by
  intro hpoint
  have hmem := (h.executing i pluginName event engine hpoint).1
  rw [hfree] at hmem
  cases hmem

/-- A thread that stands elsewhere than where the last step led is not the thread of that step. -/
theorem point_update {point : ι → Point γ} {p q : Point γ} {j : ι} (hpq : p ≠ q)
    (h : Function.update point i p j = q) : j ≠ i ∧ point j = q := by
  by_cases hij : j = i
  · subst hij
    rw [Function.update_self] at h
    exact absurd h hpq
  · rw [Function.update_of_ne hij] at h
    exact ⟨hij, h⟩

/-- Every step keeps the invariant: what a transform has looked up is not replaced while it runs. -/
theorem Inv.step (h : Inv compile s) (i : ι) : Inv compile (s.step compile serde reason i).2 := by
  have hmoves := @moves_step γ ι _ compile serde reason s i
  generalize (s.step compile serde reason i).1 = effect at hmoves
  generalize (s.step compile serde reason i).2 = s' at hmoves
  cases hmoves with
  | waits => exact h
  | answers request rest reply hidle hrequests hserve => exact ⟨h.executing, h.compiled⟩
  | compiles call upload engine rest hidle hrequests hupload hcompile =>
    refine ⟨fun j pluginName event engine' hj => ?_, fun j call' upload' engine' hj => ?_⟩
    · exact h.executing j pluginName event engine' (point_update (by simp) hj).2
    · by_cases hij : j = i
      · subst hij
        obtain ⟨rfl, rfl, rfl⟩ : call = call' ∧ upload = upload' ∧ engine = engine' := by
          simpa using hj
        exact ⟨hupload, hcompile⟩
      · exact h.compiled j call' upload' engine' (by simpa [Function.update_of_ne hij] using hj)
  | looksUp pluginName event metadata engine rest hidle hrequests hlookup henabled =>
    refine ⟨fun j pluginName' event' engine' hj => ?_, fun j call upload engine' hj => ?_⟩
    · by_cases hij : j = i
      · subst hij
        obtain ⟨rfl, rfl, rfl⟩ : pluginName = pluginName' ∧ event = event' ∧ engine = engine' := by
          simpa using hj
        exact ⟨List.mem_cons_self, metadata, hlookup, henabled⟩
      · obtain ⟨hmem, hentry⟩ := h.executing j pluginName' event' engine'
          (by simpa [Function.update_of_ne hij] using hj)
        exact ⟨List.mem_cons_of_mem _ hmem, hentry⟩
    · exact h.compiled j call upload engine' (point_update (by simp) hj).2
  -- the only move that changes the registry, and nobody runs a transform then
  | installs call upload engine hpoint hfree =>
    refine ⟨fun j pluginName event engine' hj => ?_, fun j call' upload' engine' hj => ?_⟩
    · exact absurd (point_update (by simp) hj).2 (h.not_executing hfree j pluginName event engine')
    · exact h.compiled j call' upload' engine' (point_update (by simp) hj).2
  | ends pluginName event engine hpoint =>
    refine ⟨fun j pluginName' event' engine' hj => ?_, fun j call upload engine' hj => ?_⟩
    · obtain ⟨hij, hj⟩ := point_update (by simp) hj
      obtain ⟨hmem, hentry⟩ := h.executing j pluginName' event' engine' hj
      exact ⟨(List.mem_erase_of_ne hij).mpr hmem, hentry⟩
    · exact h.compiled j call upload engine' (point_update (by simp) hj).2

/-- A transform takes effect at its end, an install when its module is put in. -/
theorem linearized :
    Mealy.Linearized (Session.step (ι := ι) compile serde reason) (serve compile serde reason)
      fun s registry => Inv compile s ∧ s.registry = registry where
  silent := by
    rintro s registry i ⟨h, rfl⟩ hnone
    refine ⟨h.step i, ?_⟩
    have hmoves := @moves_step γ ι _ compile serde reason s i
    rw [hnone] at hmoves
    generalize (s.step compile serde reason i).2 = s' at hmoves
    cases hmoves <;> rfl
  effect := by
    rintro s registry i e reply ⟨h, rfl⟩ heffect
    have hinv : Inv compile (s.step compile serde reason i).2 := h.step i
    have hmoves := @moves_step γ ι _ compile serde reason s i
    rw [heffect] at hmoves
    generalize (s.step compile serde reason i).2 = s' at hmoves hinv
    cases hmoves with
    | answers request rest reply hidle hrequests hserve =>
      rw [hserve]
      exact ⟨rfl, hinv, rfl⟩
    | installs call upload engine hpoint hfree =>
      obtain ⟨hupload, hcompile⟩ := h.compiled i call upload engine hpoint
      rw [serve_call, perform_of_upload compile serde reason hupload, install_of_ok compile hcompile]
      exact ⟨rfl, hinv, rfl⟩
    -- the module it found at its start is still the one in the registry
    | ends pluginName event engine hpoint =>
      obtain ⟨-, metadata, hlookup, henabled⟩ := h.executing i pluginName event engine hpoint
      have hexecute : s.registry.executeTransform serde reason pluginName event =
          .ofTransform (engine.transform serde reason event) := by
        simp [executeTransform, hlookup, henabled]
      rw [serve_call, perform, hexecute]
      exact ⟨rfl, hinv, rfl⟩

/-! ## Every order of steps -/

/-- What a thread still has to do: the request it is in, and those after it. -/
def unserved (s : Session ι γ) (i : ι) : List Request :=
  match s.point i with
  | .idle => s.requests i
  | .compiled call _ _ => .call call :: s.requests i
  | .executing pluginName event _ => .call (.executeTransform pluginName event) :: s.requests i

/-- The requests of a thread among the effects. -/
def servedOf (i : ι) (effects : List (Effect ι × Reply)) : List Request :=
  Mealy.servedOf Effect.thread Effect.request i effects

/-- What a step serves is what the thread no longer has to do, so no request is lost or served
twice. -/
theorem served_step (s : Session ι γ) (i j : ι) :
    servedOf j (s.step compile serde reason i).1.toList ++
      (s.step compile serde reason i).2.unserved j = s.unserved j := by
  have hmoves := @moves_step γ ι _ compile serde reason s i
  generalize (s.step compile serde reason i).1 = effect at hmoves
  generalize (s.step compile serde reason i).2 = s' at hmoves
  by_cases hij : j = i
  · subst hij
    cases hmoves with
    | waits => rfl
    | answers request rest reply hidle hrequests hserve =>
      simp [servedOf, Mealy.servedOf, unserved, hidle, hrequests]
    | compiles call upload engine rest hidle hrequests hupload hcompile =>
      simp [servedOf, Mealy.servedOf, unserved, hidle, hrequests]
    | looksUp pluginName event metadata engine rest hidle hrequests hlookup henabled =>
      simp [servedOf, Mealy.servedOf, unserved, hidle, hrequests]
    | installs call upload engine hpoint hfree => simp [servedOf, Mealy.servedOf, unserved, hpoint]
    | ends pluginName event engine hpoint => simp [servedOf, Mealy.servedOf, unserved, hpoint]
  · cases hmoves <;>
      simp [servedOf, Mealy.servedOf, unserved, Function.update_of_ne hij, Ne.symm hij]

variable (compile serde reason) in
/-- The requests that took effect in a run, in this order, with their replies. -/
def effects (s : Session ι γ) (sched : List ι) : List (Effect ι × Reply) :=
  Mealy.history (step compile serde reason) s sched

variable (compile serde reason) in
/-- What holds of every run of threads on a new registry: the replies are those of the requests one
after the other, and a transform runs the module that was installed last before it ended. -/
structure HotReload (requests : ι → List Request) (sched : List ι) : Prop where
  /-- A transform is that of the module installed last before it. -/
  executes : ∀ earlier i pluginName event reply later,
    (start requests).effects compile serde reason sched =
      earlier ++ (⟨i, .call (.executeTransform pluginName event)⟩, reply) :: later →
    reply = .answer (.transformed (expected serde reason pluginName event
      (lastInstall compile pluginName (callsOf (earlier.map Prod.fst)))))
  /-- The metadata are those of that install. -/
  metadata : ∀ earlier i pluginName reply later,
    (start requests).effects compile serde reason sched =
      earlier ++ (⟨i, .getMetadata pluginName⟩, reply) :: later →
    reply = .metadata ((lastInstall compile pluginName (callsOf (earlier.map Prod.fst))).map
      fun installed => installed.1.metadata)
  /-- Each plugin is counted once, however often it was reloaded. -/
  len : ∀ earlier i reply later,
    (start requests).effects compile serde reason sched = earlier ++ (⟨i, .len⟩, reply) :: later →
    reply = .len (installedNames compile (callsOf (earlier.map Prod.fst))).dedup.length
  /-- The requests of a thread take effect in their order. -/
  inOrder : ∀ i, servedOf i ((start requests).effects compile serde reason sched) <+: requests i
  /-- The module of a transform that runs has not been replaced. -/
  inFlight : ∀ i pluginName event engine,
    (Mealy.final (step compile serde reason) (start requests) sched).point i =
      .executing pluginName event engine →
    ∃ metadata, (Mealy.final (step compile serde reason) (start requests)
      sched).registry.plugins.lookup pluginName = some (metadata, engine)

/-- The replies are those of the registry after the installs that took effect before. -/
theorem reply_eq {requests : ι → List Request} {sched : List ι}
    {earlier later : List (Effect ι × Reply)} {e : Effect ι} {reply : Reply}
    (h : (start requests).effects compile serde reason sched = earlier ++ (e, reply) :: later) :
    reply = (serve compile serde reason
      (after compile serde reason (callsOf (earlier.map Prod.fst))) e).1 := by
  rw [← final_serve]
  exact linearized.answer_eq ⟨inv_start requests, rfl⟩ h

variable (compile serde reason) in
/-- **A plugin can be reloaded while it runs.** -/
theorem hotReload (requests : ι → List Request) (sched : List ι) :
    HotReload compile serde reason requests sched where
  executes earlier i pluginName event reply later h := by
    rw [reply_eq h, ← executeTransform_after]
    rfl
  metadata earlier i pluginName reply later h := by
    rw [reply_eq h, ← getMetadata_after compile serde reason]
    rfl
  len earlier i reply later h := by
    rw [reply_eq h, ← len_after compile serde reason]
    rfl
  inOrder i := ⟨_, Mealy.servedOf_history served_step (start requests) sched i⟩
  inFlight i pluginName event engine hpoint := by
    obtain ⟨-, hinv, -⟩ := (@linearized γ ι _ compile serde reason).history
      ⟨inv_start requests, rfl⟩ sched
    obtain ⟨-, metadata, hlookup, -⟩ := hinv.executing i pluginName event engine hpoint
    exact ⟨metadata, hlookup⟩

end Session

end Caminus.WasmPluginRegistry

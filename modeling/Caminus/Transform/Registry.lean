import Caminus.Common.LastWrite
import Caminus.Common.Mealy
import Caminus.Transform.Wasm

/-!
# The registry of plugins

`WasmPluginRegistry` (`src/transform/registry.rs`). A module is compiled before the lock is taken, and
its entry is put in by one insertion, so an install happens as a whole or not at all: a plugin is what
the last install that succeeded has made of it (`lookup_after`), whichever of the two functions it went
through. Compiling is the parameter `compile`. A transform that panics holds the lock for reading,
which does not poison it.
-/

namespace Caminus

/-- What is kept of an install beside the module. No function of the registry sets `enabled` to
false. -/
structure PluginMetadata where
  name : String
  version : String
  enabled : Bool
  loadedAt : ℤ

/-- The arguments of an install, and the time when it is made. -/
structure PluginUpload where
  name : String
  version : String
  wasmBytes : List UInt8
  now : ℤ

/-- The metadata that an install makes: the plugin is enabled, and loaded now. -/
def PluginUpload.metadata (upload : PluginUpload) : PluginMetadata where
  name := upload.name
  version := upload.version
  enabled := true
  loadedAt := upload.now

/-- The plugins by name, each with its metadata and its module. -/
structure WasmPluginRegistry (γ : Type) where
  plugins : HashMap String (PluginMetadata × WasmTransformer γ)

/-- How `execute_transform` ends: with its result, or with the panic of a transform. -/
inductive PluginOutcome
  | returned (result : Except TransformError (Option ChangeEvent))
  | panicked

/-- `.map(Some)`; a panic of the transform goes on to the caller. -/
def PluginOutcome.ofTransform : TransformOutcome → PluginOutcome
  | .returned result => .returned (result.map some)
  | .panicked => .panicked

/-- The calls that install a plugin or run one. -/
inductive PluginCall
  | registerPlugin (upload : PluginUpload)
  | hotReloadPlugin (upload : PluginUpload)
  | executeTransform (pluginName : String) (event : ChangeEvent)

/-- What a call returns. -/
inductive PluginAnswer
  | installed (result : Except TransformError Unit)
  | transformed (outcome : PluginOutcome)

/-- What is to be installed, by either function. -/
def PluginCall.upload : PluginCall → Option PluginUpload
  | .registerPlugin upload => some upload
  | .hotReloadPlugin upload => some upload
  | .executeTransform _ _ => none

/-- `WasmTransformer::new`: an error of the compiler becomes one of the transformer. -/
def WasmTransformer.new {γ : Type} (compile : List UInt8 → Except String (WasmTransformer γ))
    (wasmBytes : List UInt8) : Except TransformError (WasmTransformer γ) :=
  (compile wasmBytes).mapError .wasm

namespace WasmPluginRegistry

variable {γ : Type} (compile : List UInt8 → Except String (WasmTransformer γ))
  (serde : EventSerde) (reason : List UInt8 → String)

/-- A registry without plugins. -/
def new : WasmPluginRegistry γ := ⟨∅⟩

/-- The module is compiled first, and a module that does not compile leaves the registry as it was.
The two functions that install a plugin differ in the messages they print. -/
def install (registry : WasmPluginRegistry γ) (upload : PluginUpload) :
    Except TransformError Unit × WasmPluginRegistry γ :=
  match WasmTransformer.new compile upload.wasmBytes with
  | .error e => (.error e, registry)
  | .ok engine => (.ok (), ⟨registry.plugins.insert upload.name (upload.metadata, engine)⟩)

/-- A name that is registered already is replaced without an error. -/
def registerPlugin (registry : WasmPluginRegistry γ) (upload : PluginUpload) :
    Except TransformError Unit × WasmPluginRegistry γ :=
  registry.install compile upload

/-- A plugin need not be there to be reloaded, so this is the same install. -/
def hotReloadPlugin (registry : WasmPluginRegistry γ) (upload : PluginUpload) :
    Except TransformError Unit × WasmPluginRegistry γ :=
  registry.install compile upload

/-- The error for a name without a plugin, reported as a missing export. -/
def notRegistered (pluginName : String) : TransformError :=
  .missingExport ("Plugin '" ++ pluginName ++ "' not registered")

/-- The plugin is looked up and its transform runs; a disabled one would return the event as it is. -/
def executeTransform (registry : WasmPluginRegistry γ) (pluginName : String)
    (event : ChangeEvent) : PluginOutcome :=
  match registry.plugins.lookup pluginName with
  | none => .returned (.error (notRegistered pluginName))
  | some (metadata, engine) =>
      if !metadata.enabled then .returned (.ok (some event))
      else .ofTransform (engine.transform serde reason event)

/-- The metadata of a plugin, if it is there. -/
def getMetadata (registry : WasmPluginRegistry γ) (pluginName : String) : Option PluginMetadata :=
  (registry.plugins.lookup pluginName).map Prod.fst

/-- A call with its answer and the registry it leaves behind. -/
def perform (registry : WasmPluginRegistry γ) : PluginCall → PluginAnswer × WasmPluginRegistry γ
  | .registerPlugin upload =>
      let (result, registry) := registry.registerPlugin compile upload
      (.installed result, registry)
  | .hotReloadPlugin upload =>
      let (result, registry) := registry.hotReloadPlugin compile upload
      (.installed result, registry)
  | .executeTransform pluginName event =>
      (.transformed (registry.executeTransform serde reason pluginName event), registry)

/-- The registry after some calls. -/
def after (calls : List PluginCall) : WasmPluginRegistry γ :=
  Mealy.final (perform compile serde reason) new calls

/-- What the calls return. -/
def answers (calls : List PluginCall) : List PluginAnswer :=
  Mealy.outputs (perform compile serde reason) (new : WasmPluginRegistry γ) calls

/-! ## The last install -/

/-- The module that a call installs under a name, if it compiles. -/
def installedAs (name : String) (call : PluginCall) : Option (PluginUpload × WasmTransformer γ) :=
  match call.upload with
  | none => none
  | some upload =>
      match compile upload.wasmBytes with
      | .error _ => none
      | .ok engine => if upload.name = name then some (upload, engine) else none

/-- The most recent install of a name that succeeded. -/
def lastInstall (name : String) (calls : List PluginCall) :
    Option (PluginUpload × WasmTransformer γ) :=
  (calls.filterMap (installedAs compile name)).getLast?

/-- What a plugin does to an event, given its last install. -/
def expected (name : String) (event : ChangeEvent) :
    Option (PluginUpload × WasmTransformer γ) → PluginOutcome
  | none => .returned (.error (notRegistered name))
  | some (_, engine) => .ofTransform (engine.transform serde reason event)

/-- What the registry keeps of an install: the metadata it makes, and the compiled module. -/
def entry (installed : PluginUpload × WasmTransformer γ) : PluginMetadata × WasmTransformer γ :=
  (installed.1.metadata, installed.2)

/-- An install that fails changes nothing: the plugin that was there goes on as it was. -/
theorem install_of_error {upload : PluginUpload} {message : String}
    (h : compile upload.wasmBytes = .error message) (registry : WasmPluginRegistry γ) :
    registry.install compile upload = (.error (.wasm message), registry) := by
  rw [install, WasmTransformer.new, h]
  rfl

/-- An install that succeeds writes the entry of its own name. -/
theorem install_of_ok {upload : PluginUpload} {engine : WasmTransformer γ}
    (h : compile upload.wasmBytes = .ok engine) (registry : WasmPluginRegistry γ) :
    registry.install compile upload =
      (.ok (), ⟨registry.plugins.insert upload.name (upload.metadata, engine)⟩) := by
  rw [install, WasmTransformer.new, h]
  rfl

/-- A call installs what it brings, or it reads. -/
theorem perform_eq (registry : WasmPluginRegistry γ) (call : PluginCall) :
    (∃ upload, call.upload = some upload ∧ registry.perform compile serde reason call =
      (.installed (registry.install compile upload).1, (registry.install compile upload).2)) ∨
    (∃ pluginName event, call = .executeTransform pluginName event ∧
      registry.perform compile serde reason call =
        (.transformed (registry.executeTransform serde reason pluginName event), registry)) := by
  cases call with
  | registerPlugin upload => exact Or.inl ⟨upload, rfl, rfl⟩
  | hotReloadPlugin upload => exact Or.inl ⟨upload, rfl, rfl⟩
  | executeTransform pluginName event => exact Or.inr ⟨pluginName, event, rfl, rfl⟩

/-- A call writes the entry of the plugin that it installs. -/
theorem lookup_perform (registry : WasmPluginRegistry γ) (call : PluginCall) (name : String) :
    (registry.perform compile serde reason call).2.plugins.lookup name =
      (installedAs compile name call).elim (registry.plugins.lookup name) (some ∘ entry) := by
  rcases registry.perform_eq compile serde reason call with
    ⟨upload, hupload, hperform⟩ | ⟨pluginName, event, rfl, hperform⟩
  · rw [hperform, installedAs, hupload]
    cases hcompile : compile upload.wasmBytes with
    | error message => simp [install_of_error compile hcompile, hcompile]
    | ok engine =>
      rw [install_of_ok compile hcompile]
      by_cases hname : upload.name = name
      · subst hname
        simp [hcompile, entry]
      · simp [hcompile, hname, AList.lookup_insert_ne (Ne.symm hname)]
  · rw [hperform]
    rfl

/-- The entry of a name is a register that only installs of that name write. -/
theorem writes_plugins (name : String) :
    LastWrite.Writes (fun registry call => (perform compile serde reason registry call).2)
      (fun registry : WasmPluginRegistry γ => registry.plugins.lookup name)
      (installedAs compile name) (some ∘ entry) :=
  fun registry call => registry.lookup_perform compile serde reason call name

/-- A plugin is what its last install has made of it. -/
theorem lookup_after (name : String) (calls : List PluginCall) :
    (after compile serde reason calls).plugins.lookup name =
      (lastInstall compile name calls).map entry := by
  have hread := (writes_plugins compile serde reason name).read_foldl new calls
  rw [after, Mealy.final_eq_foldl, hread, lastInstall]
  exact Option.elim_none_some (Option.map entry) _

/-! ## Installs are atomic -/

/-- A transform after some calls is that of the module installed last. -/
theorem executeTransform_after (name : String) (event : ChangeEvent) (calls : List PluginCall) :
    (after compile serde reason calls).executeTransform serde reason name event =
      expected serde reason name event (lastInstall compile name calls) := by
  rw [executeTransform, lookup_after]
  -- every entry is put in as enabled
  cases lastInstall compile name calls <;> rfl

/-- The metadata after some calls are those of the last install. -/
theorem getMetadata_after (name : String) (calls : List PluginCall) :
    (after compile serde reason calls).getMetadata name =
      (lastInstall compile name calls).map fun installed => installed.1.metadata := by
  rw [getMetadata, lookup_after, Option.map_map]
  rfl

/-- The last install of a name is an install of that name. -/
theorem name_of_lastInstall {name : String} {calls : List PluginCall}
    {installed : PluginUpload × WasmTransformer γ}
    (h : lastInstall compile name calls = some installed) : installed.1.name = name := by
  obtain ⟨call, -, hcall⟩ := List.mem_filterMap.mp (List.mem_of_getLast? h)
  rw [installedAs] at hcall
  split at hcall
  · cases hcall
  · split at hcall
    · cases hcall
    · split_ifs at hcall with hname
      rw [← Option.some.inj hcall]
      exact hname

/-- One more call is a call on the registry that the others have left. -/
theorem after_concat (calls : List PluginCall) (call : PluginCall) :
    after compile serde reason (calls ++ [call]) =
      ((after compile serde reason calls).perform compile serde reason call).2 :=
  Mealy.final_concat _ _ _ _

/-- Both functions that install are `install`. -/
theorem perform_of_upload {call : PluginCall} {upload : PluginUpload}
    (h : call.upload = some upload) (registry : WasmPluginRegistry γ) :
    registry.perform compile serde reason call =
      (.installed (registry.install compile upload).1, (registry.install compile upload).2) := by
  rcases registry.perform_eq compile serde reason call with
    ⟨upload', hupload, hperform⟩ | ⟨pluginName, event, rfl, -⟩
  · rw [hperform, Option.some.inj (h.symm.trans hupload)]
  · cases h

/-- An install succeeds if the module compiles. -/
theorem installed_ok_iff {call : PluginCall} {upload : PluginUpload} (h : call.upload = some upload)
    (registry : WasmPluginRegistry γ) :
    (registry.perform compile serde reason call).1 = .installed (.ok ()) ↔
      ∃ engine, compile upload.wasmBytes = .ok engine := by
  rw [perform_of_upload compile serde reason h]
  cases hcompile : compile upload.wasmBytes with
  | error message => simp [install_of_error compile hcompile]
  | ok engine => simp [install_of_ok compile hcompile]

/-- A call that returns the error of an install has changed nothing. -/
theorem perform_snd_of_error {registry : WasmPluginRegistry γ} {call : PluginCall}
    {e : TransformError}
    (h : (registry.perform compile serde reason call).1 = .installed (.error e)) :
    (registry.perform compile serde reason call).2 = registry := by
  rcases registry.perform_eq compile serde reason call with
    ⟨upload, -, hperform⟩ | ⟨pluginName, event, -, hperform⟩
  · rw [hperform] at h ⊢
    cases hcompile : compile upload.wasmBytes with
    | error message => rw [install_of_error compile hcompile]
    | ok engine =>
      rw [install_of_ok compile hcompile] at h
      cases h
  · rw [hperform]

/-- An install writes no entry of another name. -/
theorem installedAs_eq_none {call : PluginCall} {upload : PluginUpload}
    (h : call.upload = some upload) {name : String} (hname : name ≠ upload.name) :
    installedAs compile name call = none := by
  rw [installedAs, h]
  cases hcompile : compile upload.wasmBytes with
  | error message => simp [hcompile]
  | ok engine => simp [hcompile, Ne.symm hname]

/-- A transform within a list of calls sees the installs before it and none after it. -/
theorem answered_after {i : ℕ} {name : String} {event : ChangeEvent} {calls : List PluginCall}
    (h : calls[i]? = some (.executeTransform name event)) :
    (answers compile serde reason calls)[i]? =
      some (.transformed
        (expected serde reason name event (lastInstall compile name (calls.take i)))) := by
  rw [answers, Mealy.outputs_getElem?, h, ← executeTransform_after]
  rfl

/-- A plugin behaves and is described as its last install says, after the calls and within them, and
one more install that fails changes nothing, one that succeeds nothing of other plugins. -/
structure AtomicInstalls (calls : List PluginCall) : Prop where
  executes : ∀ name event, (after compile serde reason calls).executeTransform serde reason name event =
    expected serde reason name event (lastInstall compile name calls)
  answered : ∀ (i : ℕ) name event, calls[i]? = some (.executeTransform name event) →
    (answers compile serde reason calls)[i]? =
      some (.transformed (expected serde reason name event (lastInstall compile name (calls.take i))))
  missing : ∀ name, (after compile serde reason calls).getMetadata name = none ↔
    lastInstall compile name calls = none
  metadata : ∀ name upload engine, lastInstall compile name calls = some (upload, engine) →
    (after compile serde reason calls).getMetadata name =
      some { name := name, version := upload.version, enabled := true, loadedAt := upload.now }
  succeeds : ∀ call upload, call.upload = some upload →
    (((after compile serde reason calls).perform compile serde reason call).1 = .installed (.ok ()) ↔
      ∃ engine, compile upload.wasmBytes = .ok engine)
  failed : ∀ call e,
    ((after compile serde reason calls).perform compile serde reason call).1 = .installed (.error e) →
      after compile serde reason (calls ++ [call]) = after compile serde reason calls
  others : ∀ call upload, call.upload = some upload → ∀ name ≠ upload.name,
    (after compile serde reason (calls ++ [call])).plugins.lookup name =
      (after compile serde reason calls).plugins.lookup name

/-- **Installs are atomic**: after any calls a plugin is what its last successful install has made of
it, an install that fails leaves the registry as it was, and one that succeeds leaves the other
plugins. -/
theorem atomicInstalls (calls : List PluginCall) :
    AtomicInstalls compile serde reason calls where
  executes name event := executeTransform_after compile serde reason name event calls
  answered i name event := answered_after compile serde reason
  missing name := by rw [getMetadata_after, Option.map_eq_none_iff]
  metadata name upload engine h := by
    have hname := name_of_lastInstall compile h
    rw [getMetadata_after, h, ← hname]
    rfl
  succeeds call upload h := installed_ok_iff compile serde reason h _
  failed call e h := by
    rw [after_concat]
    exact perform_snd_of_error compile serde reason h
  others call upload h name hname := by
    rw [after_concat, lookup_perform, installedAs_eq_none compile h hname]
    rfl

end WasmPluginRegistry

end Caminus

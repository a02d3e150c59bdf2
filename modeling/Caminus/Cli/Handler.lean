import Caminus.Pipeline.EngineRestart

/-!
# The command line

`CliHandler` (`src/cli/mod.rs`) reads the state store of an engine that may be running. At every moment
of every history of engine runs, `inspect-offset` shows the offset at which the next engine would start
to read, and `schema-list` the schema that events are validated against (`operator_view`).
-/

namespace Caminus

open Pipeline

/-- The commands that the handler knows, with the source they are about. -/
inductive CliCommand
  | status
  | inspectOffset (sourceId : String)
  | schemaList (sourceId : String)
  | unknown (cmd : String)
deriving DecidableEq, Repr

namespace CliHandler

/-- The command of an argument vector, whose first entry is the program. The default source is the
PostgreSQL one. -/
def parseArgs (args : List String) : CliCommand :=
  if args.length < 2 then .status
  else
    let sourceId := args[2]?.getD "postgres_users"
    match args[1]?.getD "" with
    | "status" => .status
    | "inspect-offset" => .inspectOffset sourceId
    | "schema-list" => .schemaList sourceId
    | other => .unknown other

/-- The answer to a command. The `{:?}` form of an error of the store is the parameter `debug`. -/
def execute (serde : SerdeJson) (debug : StorageError → String) (command : CliCommand)
    (store : StateStore) : Except String String :=
  match command with
  | .status => .ok "Caminus CDC Engine Status: HEALTHY | Active Consensus: Node 1 (LEADER)"
  | .inspectOffset sourceId =>
      match store.getOffset sourceId with
      | .ok (some offset) => .ok ("Source '" ++ sourceId ++ "' offset checkpoint: " ++ offset)
      | .ok none => .ok ("Source '" ++ sourceId ++ "' offset checkpoint: NONE")
      | .error e => .error ("Storage error: " ++ debug e)
  | .schemaList sourceId =>
      match store.getSchema serde sourceId with
      | .ok (some schema) =>
          .ok ("Registered schema for '" ++ sourceId ++ "': " ++ serde.toText schema)
      | .ok none => .ok ("No registered schema found for '" ++ sourceId ++ "'")
      | .error e => .error ("Storage error: " ++ debug e)
  | .unknown cmd => .error ("Unknown CLI subcommand: " ++ cmd)

/-- The answer to `inspect-offset`, for the offset of a source. -/
def offsetReport (sourceId : String) (offset : Option String) : String :=
  "Source '" ++ sourceId ++ "' offset checkpoint: " ++ offset.getD "NONE"

/-- A missing offset is reported as `NONE`. -/
theorem offsetReport_none (sourceId : String) :
    offsetReport sourceId none = "Source '" ++ sourceId ++ "' offset checkpoint: NONE" := by
  have hlast : "' offset checkpoint: NONE" = "' offset checkpoint: " ++ "NONE" := by decide
  rw [offsetReport, hlast, ← String.append_assoc]
  rfl

/-- Only no offset and the offset `NONE` look alike. -/
theorem eq_of_offsetReport_eq {sourceId : String} {offset offset' : Option String}
    (h : offsetReport sourceId offset = offsetReport sourceId offset') :
    offset = offset' ∨ offset.getD "NONE" = "NONE" ∧ offset'.getD "NONE" = "NONE" := by
  have hshown : offset.getD "NONE" = offset'.getD "NONE" := (String.append_right_inj _).mp h
  cases offset with
  | none => exact Or.inr ⟨rfl, hshown.symm⟩
  | some o =>
    cases offset' with
    | none => exact Or.inr ⟨hshown, rfl⟩
    | some o' => exact Or.inl (congrArg some hshown)

/-- The stores that engines leave, at whatever moment, one after the other from an empty store on.
These are the stores that an operator can look into. -/
inductive Operated (serde : SerdeJson) : StateStore → Prop
  | fresh : Operated serde .new
  | engine {store : StateStore} (h : Operated serde store) (setup : Setup)
      (hserde : setup.env.serde = serde) (sched : List Engine.Actor) :
      Operated serde ((Engine.start setup store).run setup sched).crew.store

variable {serde : SerdeJson} {store : StateStore}

/-- An offset in the store of an engine can be read. -/
theorem Operated.getOffset (h : Operated serde store) (feed : Feed) :
    ∃ offset, store.getOffset feed.sourceId = .ok offset := by
  induction h with
  | fresh => exact ⟨none, rfl⟩
  | @engine store _ setup hserde sched ih =>
    have hsame := ((Engine.inv_run setup store sched).undisturbed feed).offset
    rw [getOffset_runEffects, getOffset_startup] at hsame
    rw [hsame]
    cases ((((Engine.start setup store).run setup sched).made feed).filterMap
      (Effect.savedFor feed.sourceId)).getLast? with
    | none => exact ih
    | some offset => exact ⟨some offset, rfl⟩

/-- An engine can be started on what the engines before it leave. -/
theorem Operated.startable (h : Operated serde store) : Process.Startable serde store := by
  induction h with
  | fresh => exact Or.inl (StateStore.getSchema_new _ _)
  | engine _ setup hserde sched ih =>
    right
    subst hserde
    rw [Engine.getSchema_run]
    exact getSchema_startup ih

/-- What an operator is told about a store, and what it means: the offset that is shown can be told
from the answer and is the one that the next engine reads on from, and the schema is the one in use. -/
structure OperatorView (serde : SerdeJson) (debug : StorageError → String) (store : StateStore)
    (feed : Feed) : Prop where
  /-- The offset that is shown. -/
  offset : ∀ program, execute serde debug (parseArgs [program, "inspect-offset", feed.sourceId]) store =
    .ok (offsetReport feed.sourceId (lastOffset store feed.sourceId))
  /-- It can be told from the answer, but for the offset `NONE`. -/
  told : ∀ offset, offsetReport feed.sourceId offset =
      offsetReport feed.sourceId (lastOffset store feed.sourceId) →
    offset = lastOffset store feed.sourceId ∨
      offset.getD "NONE" = "NONE" ∧ (lastOffset store feed.sourceId).getD "NONE" = "NONE"
  /-- The next engine reads on from it. -/
  resumes : ∀ setup sched,
    (((Engine.start setup store).run setup sched).handled feed).map Item.result <+:
      setup.stream feed (lastOffset store feed.sourceId)
  /-- The schema that is shown once an engine has been started is the one in use. -/
  schema : ∀ program setup sched, setup.env.serde = serde →
    execute serde debug (parseArgs [program, "schema-list"])
        ((Engine.start setup store).run setup sched).crew.store =
      .ok ("Registered schema for 'postgres_users': " ++ serde.toText userSchema)

/-- **The command line shows where the engine would go on.** The report is the offset at which the
next process opens its stream, and the schema is the one that it validates against. -/
theorem operator_view (h : Operated serde store) (debug : StorageError → String) (feed : Feed) :
    OperatorView serde debug store feed where
  offset program := by
    obtain ⟨offset, hoffset⟩ := h.getOffset feed
    have hparse : parseArgs [program, "inspect-offset", feed.sourceId] =
        .inspectOffset feed.sourceId := rfl
    rw [hparse, execute, lastOffset_eq, hoffset]
    cases offset with
    | none => rw [offsetReport_none]
    | some offset => rfl
  told offset hreport := eq_of_offsetReport_eq hreport
  resumes setup sched := ((Engine.inv_run setup store sched).undisturbed feed).read
  schema program setup sched hserde := by
    subst hserde
    have hparse : parseArgs [program, "schema-list"] = .schemaList "postgres_users" := rfl
    rw [hparse, execute, Engine.getSchema_run]
    have hstarted := getSchema_startup h.startable
    have hshown : "Registered schema for '" ++ "postgres_users" ++ "': " =
        "Registered schema for 'postgres_users': " := by decide
    simp only [Engine.start, hstarted, hshown]

/-- A setup in which each source yields one event and then an error. -/
def oneEvent (serde : SerdeJson) : Setup where
  env := .passthrough serde
  stream := fun _ _ => [.ok (userEvent 1 .create none), .error "connection lost"]

/-- The node takes the lead, both tasks open their streams and read, and the Cassandra task goes on. -/
def overlapping : List Engine.Actor :=
  List.replicate 6 .electionLoop ++
    [.task .postgres, .task .cassandra, .task .postgres, .task .cassandra] ++
    List.replicate 7 (.task .cassandra)

/-- A store that is looked at while the Cassandra task has sent its first event. -/
theorem operator_view_overlapping :
    lastOffset ((Engine.start (oneEvent .compact) .new).run (oneEvent .compact)
        overlapping).crew.store "cassandra_sensors" = some "1" ∧
      OperatorView .compact StorageError.message
        ((Engine.start (oneEvent .compact) .new).run (oneEvent .compact)
          overlapping).crew.store .cassandra :=
  ⟨rfl, operator_view (.engine .fresh (oneEvent .compact) rfl overlapping)
    StorageError.message .cassandra⟩

end CliHandler

end Caminus

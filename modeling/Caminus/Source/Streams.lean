import Caminus.Source.Event

/-!
# The event generators

`PostgresSource` and `CassandraSource` (`src/source/postgres.rs`, `src/source/cassandra.rs`) number
their events from the offset they resume from. The clock and the sensor readings are parameters.
-/

namespace Caminus

/-! ## Connecting -/

/-- The attempts after the first, each made only if the one before it failed. -/
def retryAfter {σ ε α : Type} (f : σ → Except ε α × σ) : ℕ → σ → Except ε α × σ
  | 0, s => f s
  | n + 1, s =>
      match f s with
      | (.ok val, s) => (.ok val, s)
      | (.error _, s) => retryAfter f n s

/-- Calls `f` until it succeeds, at most `maxAttempts` times and at least once. The delays between
the attempts have no effect on the result. -/
def retryWithBackoff {σ ε α : Type} (f : σ → Except ε α × σ) (maxAttempts : ℕ) (s : σ) :
    Except ε α × σ :=
  retryAfter f (maxAttempts - 1) s

/-- The simulated connection: the first two attempts of a process fail. -/
def makeConn (outage : String) (attempts : ℕ) : Except String Unit × ℕ :=
  if attempts < 2 then (.error outage, attempts + 1) else (.ok (), attempts + 1)

/-- Connects and returns the sequence number to start after. -/
def startStream (outage : String) (attempts : ℕ) (startOffset : Option String) :
    Except String ℕ × ℕ :=
  match retryWithBackoff (makeConn outage) 5 attempts with
  | (.ok (), attempts) => (.ok (startPosition startOffset), attempts)
  | (.error e, attempts) => (.error e, attempts)

/-- A stream always starts: the connection fails at most twice, and there are five attempts. -/
theorem startStream_fst (outage : String) (attempts : ℕ) (startOffset : Option String) :
    (startStream outage attempts startOffset).1 = .ok (startPosition startOffset) := by
  unfold startStream retryWithBackoff
  match attempts with
  | 0 => rfl
  | 1 => rfl
  | n + 2 => simp [retryAfter, makeConn]

/-! ## Generating -/

/-- What the generators read from their surroundings for the event with a sequence number. -/
structure Surroundings where
  utcNow : ℕ → ℤ
  keyTimestamp : ℕ → String
  readingValue : ℕ → Number

namespace PostgresSource

/-- Transactions of three mutations and a commit. -/
def event (s : Surroundings) (nextSeq : ℕ) : ChangeEvent :=
  let txCycle := (nextSeq - 1) / 4 + 1000
  let isCommit := nextSeq % 4 == 0
  { id := "pg-evt-" ++ nextSeq.repr
    sourceDatabase := "caminus_db"
    sourceTableOrCollection := "users"
    operation := if isCommit then .commit else if nextSeq % 4 == 1 then .create else .update
    timestamp := s.utcNow nextSeq
    key := Json.obj [("id", .nat nextSeq)]
    before := none
    after :=
      if isCommit then none
      else some (Json.obj [("id", .nat nextSeq), ("name", .string ("User " ++ nextSeq.repr)),
        ("email", .string ("user" ++ nextSeq.repr ++ "@caminus.io"))])
    transactionId := some ("tx-" ++ txCycle.repr)
    offset := nextSeq.repr }

end PostgresSource

namespace CassandraSource

/-- The event that the simulated source makes at a position: single mutations without a transaction. -/
def event (s : Surroundings) (nextPos : ℕ) : ChangeEvent where
  id := "cas-evt-" ++ nextPos.repr
  sourceDatabase := "caminus_keyspace"
  sourceTableOrCollection := "sensor_readings"
  operation := .create
  timestamp := s.utcNow nextPos
  key := Json.obj [("sensor_id", .string ("sensor-" ++ (nextPos % 10).repr)),
    ("timestamp", .string (s.keyTimestamp nextPos))]
  before := none
  after := some (Json.obj [("sensor_id", .string ("sensor-" ++ (nextPos % 10).repr)),
    ("reading_value", .number (s.readingValue nextPos)), ("status", .string "OK")])
  transactionId := none
  offset := nextPos.repr

end CassandraSource

/-- The first `n` events of a generator that starts after `seq`. -/
def unfoldFrom (event : ℕ → ChangeEvent) : ℕ → ℕ → List ChangeEvent
  | _, 0 => []
  | seq, n + 1 => event (seq + 1) :: unfoldFrom event (seq + 1) n

/-- The events of a generator are those of consecutive sequence numbers. -/
theorem unfoldFrom_eq_map (event : ℕ → ChangeEvent) (seq n : ℕ) :
    unfoldFrom event seq n = (List.range' (seq + 1) n).map event := by
  induction n generalizing seq with
  | zero => rfl
  | succ n ih => rw [unfoldFrom, ih, List.range'_succ, List.map_cons]

end Caminus

import Caminus.Common.JsonText
import Caminus.Common.Relaxed

/-!
# The metrics

`MetricsRegistry` (`src/resiliency/metrics.rs`) keeps five counters, which all threads access with
relaxed atomics. `record_latency` adds to two of them and `render` loads all five, one after the other,
so a scrape may show a sum and a count that do not belong together. But no increment is lost, and what
a thread is shown of a counter does not fall and covers its own increments (`counters_coherent`). The
response of the exporter can be read back (`scrape_response`).
-/

namespace Caminus.MetricsRegistry

open Relaxed (Access Op Session Turn additionsTo accessesTo servedTo total valueAfter)

/-- The five counters, each an atomic of its own. -/
inductive Metric
  | eventsIngested
  | eventsProcessed
  | duplicatesFiltered
  | processingLatencySumUs
  | processingLatencyCount
deriving DecidableEq, Repr

/-- The methods of the registry that the engine and the exporter call. -/
inductive Call
  | incrementIngested
  | incrementProcessed
  | incrementDuplicates
  | recordLatency (durationUs : UInt64)
  | render
deriving DecidableEq, Repr

/-- The counters in the order in which `render` loads and prints them. -/
def Metric.all : List Metric :=
  [.eventsIngested, .eventsProcessed, .duplicatesFiltered, .processingLatencySumUs,
    .processingLatencyCount]

/-- The accesses of a call, in program order. They are relaxed, so other threads may see them
otherwise. -/
def Call.accesses : Call → List (Metric × Access)
  | .incrementIngested => [(.eventsIngested, .fetchAdd 1)]
  | .incrementProcessed => [(.eventsProcessed, .fetchAdd 1)]
  | .incrementDuplicates => [(.duplicatesFiltered, .fetchAdd 1)]
  | .recordLatency durationUs =>
      [(.processingLatencySumUs, .fetchAdd durationUs), (.processingLatencyCount, .fetchAdd 1)]
  | .render => Metric.all.map fun m => (m, .load)

/-- What a call is to add to a counter: the latency call adds to two of them. -/
def Call.amount : Metric → Call → ℕ
  | .eventsIngested, .incrementIngested => 1
  | .eventsProcessed, .incrementProcessed => 1
  | .duplicatesFiltered, .incrementDuplicates => 1
  | .processingLatencySumUs, .recordLatency durationUs => durationUs.toNat
  | .processingLatencyCount, .recordLatency _ => 1
  | _, _ => 0

/-! ## Concurrent calls -/

section Run

variable {ι : Type} [DecidableEq ι]

/-- Threads with their calls, before any of them has begun. -/
def start (calls : ι → List Call) : Session ι Metric :=
  .start fun i => (calls i).flatMap Call.accesses

/-- What a thread has been shown of a counter, in the order of its renders. -/
def shownTo (i : ι) (m : Metric) (history : List (Op ι Metric × ℕ)) : List ℕ :=
  history.filterMap fun e =>
    if e.1.thread = i ∧ e.1.counter = m ∧ e.1.access = .load then some e.2 else none

/-- The value of a counter that the `r`-th render of a thread shows. -/
def shown (calls : ι → List Call) (sched : List (Turn ι Metric)) (i : ι) (m : Metric) (r : ℕ) :
    Option UInt64 :=
  let history := (start calls).history sched
  (shownTo i m history)[r]?.map fun seen => valueAfter ((additionsTo m history).take seen)

/-- The accesses of a call add up to its amount. -/
theorem amount_accesses (m : Metric) (call : Call) :
    ((accessesTo m call.accesses).map Access.amount).sum = call.amount m := by
  cases m <;> cases call <;> rfl

/-- The accesses of two calls come one after the other. -/
theorem accessesTo_append (m : Metric) (xs ys : List (Metric × Access)) :
    accessesTo m (xs ++ ys) = accessesTo m xs ++ accessesTo m ys :=
  List.filterMap_append

/-- The accesses of a list of calls add up to the amounts of the calls. -/
theorem amount_calls (m : Metric) (calls : List Call) :
    ((accessesTo m (calls.flatMap Call.accesses)).map Access.amount).sum =
      (calls.map (Call.amount m)).sum := by
  induction calls with
  | nil => rfl
  | cons call calls ih =>
    rw [List.flatMap_cons, accessesTo_append, List.map_append, List.sum_append, amount_accesses, ih,
      List.map_cons, List.sum_cons]

omit [DecidableEq ι] in
/-- At the start no thread has seen anything. -/
theorem valid_start (calls : ι → List Call) (m : Metric) : ((start calls).memory m).Valid :=
  fun _ => Nat.le_refl 0

/-- What holds of every run of threads on the counters: no update is lost, what a thread is shown
only rises, a render shows nothing that comes later and all that its own thread has added, and calls
to one counter keep their order. -/
structure Coherent [Fintype ι] (calls : ι → List Call) (sched : List (Turn ι Metric)) : Prop where
  /-- Once all calls are done, each counter is what they add up to. -/
  noLostUpdate : (∀ i, (Mealy.final Session.step (start calls) sched).todo i = []) → ∀ m,
    valueAfter ((Mealy.final Session.step (start calls) sched).memory m).additions =
      UInt64.ofNat (∑ i, ((calls i).map (Call.amount m)).sum)
  /-- What a thread is shown does not fall, as long as the counter does not wrap around. -/
  rising : ∀ i m, total (additionsTo m ((start calls).history sched)) < 2 ^ 64 →
    ∀ r r', r ≤ r' → ∀ v v', shown calls sched i m r = some v → shown calls sched i m r' = some v' →
    v ≤ v'
  /-- It counts additions that were made, and all those that the thread has made itself. -/
  bounded : ∀ earlier i m seen later,
    (start calls).history sched = earlier ++ (⟨i, m, .load⟩, seen) :: later →
    seen ≤ (additionsTo m earlier).length ∧
      ((servedTo i m earlier).map Access.amount).sum ≤ total ((additionsTo m earlier).take seen)
  /-- The accesses of a thread to a counter take place in the order of its calls. -/
  inOrder : ∀ i m, servedTo i m ((start calls).history sched) <+:
    accessesTo m ((calls i).flatMap Call.accesses)

/-- What a thread is shown of a counter only grows. -/
theorem pairwise_shownTo (calls : ι → List Call) (sched : List (Turn ι Metric)) (i : ι) (m : Metric) :
    (shownTo i m ((start calls).history sched)).Pairwise (· ≤ ·) := by
  have hcoherent := (Session.history_coherent (valid_start calls) sched).2
  refine List.Pairwise.filterMap _ ?_ hcoherent
  intro e e' hle k hk k' hk'
  simp only [Option.ite_none_right_eq_some, Option.some.injEq] at hk hk'
  obtain ⟨⟨hi, hm, -⟩, rfl⟩ := hk
  obtain ⟨⟨hi', hm', -⟩, rfl⟩ := hk'
  exact hle (hi.trans hi'.symm) (hm.trans hm'.symm)

/-- **The counters under every interleaving**, and under every choice of what a load may see. -/
theorem counters_coherent [Fintype ι] (calls : ι → List Call) (sched : List (Turn ι Metric)) :
    Coherent calls sched where
  noLostUpdate hdone m := by
    -- when all threads are done, their accesses are those of their calls
    have hserved : ∀ i, servedTo i m ((start calls).history sched) =
        accessesTo m ((calls i).flatMap Call.accesses) := by
      intro i
      have hall := Session.servedTo_history (start calls) sched i m
      rw [hdone i] at hall
      exact (List.append_nil _).symm.trans hall
    have hadded := Session.additions_final (start calls) sched m
    rw [hadded, valueAfter]
    congr 1
    show total (additionsTo m ((start calls).history sched)) = _
    rw [Relaxed.sum_additions]
    refine Finset.sum_congr rfl fun i _ => ?_
    rw [hserved, amount_calls]
  rising i m hsmall r r' hr v v' hv hv' := by
    obtain ⟨seen, hseen, rfl⟩ := Option.map_eq_some_iff.mp hv
    obtain ⟨seen', hseen', rfl⟩ := Option.map_eq_some_iff.mp hv'
    have hle : seen ≤ seen' := by
      obtain ⟨hlt, rfl⟩ := List.getElem?_eq_some_iff.mp hseen
      obtain ⟨hlt', rfl⟩ := List.getElem?_eq_some_iff.mp hseen'
      rcases Nat.eq_or_lt_of_le hr with rfl | hr
      · exact le_refl _
      · exact List.pairwise_iff_getElem.mp (pairwise_shownTo calls sched i m) r r' hlt hlt' hr
    have hmore := Relaxed.total_take_mono (additionsTo m ((start calls).history sched)) hle
    have hall := Relaxed.total_take_le_total (additionsTo m ((start calls).history sched)) seen'
    rw [valueAfter, valueAfter, UInt64.le_iff_toNat_le, UInt64.toNat_ofNat', UInt64.toNat_ofNat',
      Nat.mod_eq_of_lt (by omega), Nat.mod_eq_of_lt (by omega)]
    exact hmore
  bounded earlier i m seen later hsplit := by
    have hown := Session.own_le (valid_start calls) (Nat.zero_le _) hsplit
    rw [Nat.zero_add] at hown
    exact ⟨Session.seen_le (valid_start calls) hsplit, hown⟩
  inOrder i m := ⟨_, Session.servedTo_history (start calls) sched i m⟩

end Run

/-! ## The response -/

/-- How a number of microseconds is printed in seconds: floating point is not modelled, only that the
text is on one line. -/
structure SecondsText where
  text : UInt64 → List Char
  oneLine : ∀ us, '\n' ∉ text us

/-- The names under which the counters are exported, as a scraper looks for them. -/
def Metric.name : Metric → List Char
  | .eventsIngested => "caminus_events_ingested_total".toList
  | .eventsProcessed => "caminus_events_processed_total".toList
  | .duplicatesFiltered => "caminus_duplicates_filtered_total".toList
  | .processingLatencySumUs => "caminus_processing_latency_seconds_sum".toList
  | .processingLatencyCount => "caminus_processing_latency_seconds_count".toList

/-- Their descriptions. -/
def Metric.help : Metric → List Char
  | .eventsIngested => "Total events ingested by the sources.".toList
  | .eventsProcessed => "Total events successfully processed and dispatched.".toList
  | .duplicatesFiltered => "Total duplicate events filtered out by deduplication.".toList
  | .processingLatencySumUs => "Latency sum of processing events in seconds.".toList
  | .processingLatencyCount => "Count of events processed for latency.".toList

/-- The printed value of a counter. The latency is printed in seconds, all others as they are. -/
def Metric.printed (seconds : SecondsText) (values : Metric → UInt64) : Metric → List Char
  | .processingLatencySumUs => seconds.text (values .processingLatencySumUs)
  | m => Json.digits (values m).toNat

/-- The line with the value. -/
def Metric.sample (m : Metric) (printed : List Char) : List Char := m.name ++ ' ' :: printed

/-- The three lines of a counter: its description, its type and its value. -/
def Metric.lines (seconds : SecondsText) (values : Metric → UInt64) (m : Metric) : List (List Char) :=
  ["# HELP ".toList ++ m.name ++ ' ' :: m.help, "# TYPE ".toList ++ m.name ++ " counter".toList,
    m.sample (m.printed seconds values)]

/-- Each line ends with a line feed. -/
def unlines (lines : List (List Char)) : List Char := lines.flatMap fun line => line ++ ['\n']

/-- The text of `render`, given the values that it has loaded. -/
def render (seconds : SecondsText) (values : Metric → UInt64) : List Char :=
  unlines (Metric.all.flatMap (Metric.lines seconds values))

/-- The head of the response, up to the empty line. -/
def headers (contentLength : ℕ) : List (List Char) :=
  ["HTTP/1.1 200 OK\r".toList, "Content-Type: text/plain; version=0.0.4; charset=utf-8\r".toList,
    "Content-Length: ".toList ++ Json.digits contentLength ++ ['\r'], "Connection: close\r".toList,
    ['\r']]

/-- What the exporter writes to a socket. All the text is ASCII, so its length is that in bytes. -/
def response (seconds : SecondsText) (values : Metric → UInt64) : List Char :=
  unlines (headers (render seconds values).length) ++ render seconds values

/-- A scraper drops the headers and the comments, and reads a name and a value on each line. -/
def scrape (text : List Char) : List (List Char × List Char) :=
  ((((text.splitOn '\n').dropWhile fun line => line ≠ ['\r']).tail).filter fun line =>
    line ≠ [] ∧ line.head? ≠ some '#').map fun line =>
      (line.takeWhile fun c => c ≠ ' ', (line.dropWhile fun c => c ≠ ' ').tail)

/-- Lines are written one after the other. -/
theorem unlines_append (lines lines' : List (List Char)) :
    unlines (lines ++ lines') = unlines lines ++ unlines lines' :=
  List.flatMap_append

/-- Text that is written line by line comes apart at its line feeds, as long as no line holds one. -/
theorem splitOn_unlines {lines : List (List Char)} (h : ∀ line ∈ lines, '\n' ∉ line) :
    (unlines lines).splitOn '\n' = lines ++ [[]] := by
  have hjoin : unlines lines = ['\n'].intercalate (lines ++ [[]]) := by
    induction lines with
    | nil => rfl
    | cons line lines ih =>
      rw [List.forall_mem_cons] at h
      rw [unlines, List.flatMap_cons, ← unlines, ih h.2]
      cases lines <;> simp [List.intercalate]
  rw [hjoin, List.splitOn_intercalate]
  · intro line hline
    rcases List.mem_append.mp hline with hline | hline
    · exact h line hline
    · rw [List.mem_singleton.mp hline]
      simp
  · simp

/-- No digit is a line feed. -/
theorem feed_notMem_digits (n : ℕ) : '\n' ∉ Json.digits n := fun h =>
  absurd (Json.digits_isDigit n _ h) (by decide)

/-- A printed value is on one line, so lines can be told apart when the response is read. -/
theorem feed_notMem_printed (seconds : SecondsText) (values : Metric → UInt64) (m : Metric) :
    '\n' ∉ m.printed seconds values := by
  cases m with
  | processingLatencySumUs => exact seconds.oneLine _
  | _ => exact feed_notMem_digits _

/-- None of the three lines of a counter holds a line feed. -/
theorem feed_notMem_lines (seconds : SecondsText) (values : Metric → UInt64) (m : Metric) :
    ∀ line ∈ m.lines seconds values, '\n' ∉ line := by
  have hprinted := feed_notMem_printed seconds values m
  have hname : '\n' ∉ m.name := by cases m <;> decide
  have hhelp : '\n' ∉ m.help := by cases m <;> decide
  intro line hline
  simp only [Metric.lines, List.mem_cons, List.not_mem_nil, or_false] at hline
  rcases hline with rfl | rfl | rfl
  · simp [hname, hhelp]
  · simp [hname]
  · simp [Metric.sample, hname, hprinted]

/-- Nor does a line of the head. -/
theorem feed_notMem_headers (n : ℕ) : ∀ line ∈ headers n, '\n' ∉ line := by
  intro line hline
  simp only [headers, List.mem_cons, List.not_mem_nil, or_false] at hline
  rcases hline with rfl | rfl | rfl | rfl | rfl
  · decide
  · decide
  · simp [feed_notMem_digits]
  · decide
  · decide

/-- The body begins after the first empty line, which no line of the head is. -/
theorem tail_dropWhile_headers (n : ℕ) (body : List (List Char)) :
    ((headers n ++ body).dropWhile fun line => line ≠ ['\r']).tail = body := by
  have hlength : "Content-Length: ".toList ++ Json.digits n ++ ['\r'] ≠ ['\r'] := by
    intro h
    have := congrArg List.length h
    simp at this
  have hok : "HTTP/1.1 200 OK\r".toList ≠ ['\r'] := by decide
  have htype : "Content-Type: text/plain; version=0.0.4; charset=utf-8\r".toList ≠ ['\r'] := by decide
  have hclose : "Connection: close\r".toList ≠ ['\r'] := by decide
  simp only [headers, List.cons_append, List.nil_append, ne_eq, hlength, hok, htype, hclose,
    not_false_eq_true, decide_true, List.dropWhile_cons_of_pos]
  rw [List.dropWhile_cons_of_neg (by simp), List.tail_cons]

/-- Of the lines of a counter only the sample is no comment, so a scraper reads one value from them. -/
theorem filter_lines (seconds : SecondsText) (values : Metric → UInt64) (m : Metric) :
    ((m.lines seconds values).filter fun line => line ≠ [] ∧ line.head? ≠ some '#') =
      [m.sample (m.printed seconds values)] := by
  obtain ⟨rest, hname⟩ : ∃ rest, m.name = 'c' :: rest := by
    cases m <;> exact ⟨_, rfl⟩
  rw [Metric.lines, List.filter_cons_of_neg (by simp), List.filter_cons_of_neg (by simp),
    List.filter_cons_of_pos (by simp [Metric.sample, hname]), List.filter_nil]

/-- The name of a counter ends at the first blank, and its value is what follows. -/
theorem read_sample (m : Metric) (printed : List Char) :
    ((m.sample printed).takeWhile fun c => c ≠ ' ', ((m.sample printed).dropWhile fun c => c ≠ ' ').tail) =
      (m.name, printed) := by
  have hname : ∀ c ∈ m.name, decide (c ≠ ' ') = true := by
    apply List.all_eq_true.mp
    cases m <;> decide
  rw [Metric.sample, List.takeWhile_append_of_pos hname, List.dropWhile_append_of_pos hname,
    List.takeWhile_cons_of_neg (by simp), List.dropWhile_cons_of_neg (by simp), List.append_nil,
    List.tail_cons]

/-- **What the exporter writes can be read back**: each counter, once, under its name. -/
theorem scrape_response (seconds : SecondsText) (values : Metric → UInt64) :
    scrape (response seconds values) =
      Metric.all.map fun m => (m.name, m.printed seconds values) := by
  have hsplit : (response seconds values).splitOn '\n' =
      headers (render seconds values).length ++
        (Metric.all.flatMap (Metric.lines seconds values) ++ [[]]) := by
    rw [response, render, ← unlines_append, splitOn_unlines, List.append_assoc]
    intro line hline
    rcases List.mem_append.mp hline with hline | hline
    · exact feed_notMem_headers _ line hline
    · obtain ⟨m, -, hline⟩ := List.mem_flatMap.mp hline
      exact feed_notMem_lines seconds values m line hline
  have hsamples : ((Metric.all.flatMap (Metric.lines seconds values) ++ [[]]).filter fun line =>
      line ≠ [] ∧ line.head? ≠ some '#') =
      Metric.all.map fun m => m.sample (m.printed seconds values) := by
    rw [List.filter_append, List.filter_flatMap, List.filter_cons_of_neg (by simp), List.filter_nil,
      List.append_nil]
    simp only [filter_lines]
    rfl
  rw [scrape, hsplit, tail_dropWhile_headers, hsamples, List.map_map]
  exact List.map_congr_left fun m _ => read_sample m _

end Caminus.MetricsRegistry

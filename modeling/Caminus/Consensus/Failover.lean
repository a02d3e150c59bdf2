import Caminus.Common.Linearize
import Mathlib.Data.List.Basic
import Mathlib.Data.UInt
import Mathlib.Tactic.Common

/-!
# The failover lease

`FailoverController` (`src/consensus/failover.rs`) has two locks. A heartbeat takes the first one, a
check of the lease takes the first and then, without giving it back, the second. The clock is read
under the first lock, so the calls are ordered in time by the moments at which they hold it
(`lease_protocol`): a check answers `true` exactly if it or an earlier one came more than two
intervals after the heartbeat before it, and the lease is never given back.
-/

namespace Caminus

/-- The controller of one node. Instants and durations are in nanoseconds. -/
structure FailoverController where
  nodeId : UInt64
  heartbeatInterval : ℕ
  lastLeaderHeartbeat : ℕ
  activeLease : Bool

namespace FailoverController

/-- A controller that takes its start for the first heartbeat and has claimed nothing. -/
def new (nodeId heartbeatMillis : UInt64) (now : ℕ) : FailoverController :=
  ⟨nodeId, heartbeatMillis.toNat * 1000000, now, false⟩

/-- `record_heartbeat`: the present is the last heartbeat. -/
def recordHeartbeat (c : FailoverController) (now : ℕ) : FailoverController :=
  { c with lastLeaderHeartbeat := now }

/-- The decision of `check_and_claim_lease`. The time elapsed is `0` if the clock lags behind. -/
def claim (c : FailoverController) (elapsed : ℕ) : Bool × FailoverController :=
  if elapsed > c.heartbeatInterval * 2 then (true, { c with activeLease := true })
  else (c.activeLease, c)

/-- `check_and_claim_lease`, in one piece: the age of the last heartbeat is compared with the
timeout. -/
def checkAndClaimLease (c : FailoverController) (now : ℕ) : Bool × FailoverController :=
  c.claim (now - c.lastLeaderHeartbeat)

/-! ## One call after the other -/

/-- The two requests that tasks make of the controller. -/
inductive Request
  | recordHeartbeat
  | checkAndClaimLease
deriving DecidableEq, Repr

/-- A request of a task, with the instant at which it reads the clock: the moment at which it
counts. -/
structure Effect (ι : Type) where
  task : ι
  request : Request
  now : ℕ

/-- The answer of a check; a heartbeat has none. -/
def serve {ι : Type} (c : FailoverController) (e : Effect ι) : Option Bool × FailoverController :=
  match e.request with
  | .recordHeartbeat => (none, c.recordHeartbeat e.now)
  | .checkAndClaimLease => (some (c.checkAndClaimLease e.now).1, (c.checkAndClaimLease e.now).2)

section History

variable {ι : Type}

/-- The instant of the last heartbeat, at first that of the start. -/
def lastBeat (start : ℕ) : List (Effect ι) → ℕ
  | [] => start
  | e :: es => lastBeat (if e.request = .recordHeartbeat then e.now else start) es

/-- Some check came more than two intervals after the heartbeat before it. -/
def Lapsed (interval start : ℕ) (es : List (Effect ι)) : Prop :=
  ∃ before e after, es = before ++ e :: after ∧ e.request = .checkAndClaimLease ∧
    lastBeat start before + interval * 2 < e.now

/-- A longer history has its own last heartbeat if it ends with one. -/
theorem lastBeat_concat (start : ℕ) (es : List (Effect ι)) (e : Effect ι) :
    lastBeat start (es ++ [e]) =
      if e.request = .recordHeartbeat then e.now else lastBeat start es := by
  induction es generalizing start with
  | nil => rfl
  | cons e' es ih => exact ih _

/-- A longer history has lapsed if it had before, or if its last request is a check that comes too
late. -/
theorem lapsed_concat {interval start : ℕ} {es : List (Effect ι)} {e : Effect ι} :
    Lapsed interval start (es ++ [e]) ↔ Lapsed interval start es ∨
      e.request = .checkAndClaimLease ∧ lastBeat start es + interval * 2 < e.now := by
  constructor
  · rintro ⟨before, e', after, hes, hrequest, hlate⟩
    obtain rfl | ⟨after', x, rfl⟩ := List.eq_nil_or_concat' after
    · obtain ⟨rfl, rfl⟩ := List.append_singleton_inj.mp hes
      exact Or.inr ⟨hrequest, hlate⟩
    · rw [← List.cons_append, ← List.append_assoc] at hes
      obtain ⟨rfl, rfl⟩ := List.append_singleton_inj.mp hes
      exact Or.inl ⟨before, e', after', rfl, hrequest, hlate⟩
  · rintro (⟨before, e', after, rfl, hrequest, hlate⟩ | ⟨hrequest, hlate⟩)
    · exact ⟨before, e', after ++ [e], by simp, hrequest, hlate⟩
    · exact ⟨es, e, [], rfl, hrequest, hlate⟩

/-- What a sequence of calls leaves: the lease is claimed exactly if some check came late, and no
heartbeat takes it back. -/
theorem final_serve (c : FailoverController) (hlease : c.activeLease = false) (es : List (Effect ι)) :
    (Mealy.final serve c es).heartbeatInterval = c.heartbeatInterval ∧
      (Mealy.final serve c es).lastLeaderHeartbeat = lastBeat c.lastLeaderHeartbeat es ∧
      ((Mealy.final serve c es).activeLease = true ↔
        Lapsed c.heartbeatInterval c.lastLeaderHeartbeat es) := by
  induction es using List.reverseRecOn with
  | nil =>
    refine ⟨rfl, rfl, ?_⟩
    simp [hlease, Lapsed]
  | append_singleton es e ih =>
    obtain ⟨hinterval, hbeat, hclaimed⟩ := ih
    rw [Mealy.final_concat, lastBeat_concat, lapsed_concat]
    cases hrequest : e.request with
    | recordHeartbeat =>
      simp [serve, hrequest, recordHeartbeat, hinterval, hclaimed]
    | checkAndClaimLease =>
      simp only [serve, hrequest, checkAndClaimLease, claim, hinterval, hbeat, reduceCtorEq,
        ↓reduceIte, true_and]
      -- a check claims the lease exactly if it is late itself; an earlier claim is not undone
      split_ifs with helapsed
      · refine ⟨rfl, rfl, ?_⟩
        simp only [true_iff]
        exact Or.inr (by omega)
      · refine ⟨hinterval, hbeat, ?_⟩
        rw [hclaimed]
        have hnot : ¬lastBeat c.lastLeaderHeartbeat es + c.heartbeatInterval * 2 < e.now := by omega
        simp [hnot]

/-- The answer of a check: has any check up to this one come late? -/
theorem answer_check {c : FailoverController} (hlease : c.activeLease = false) {es : List (Effect ι)}
    {e : Effect ι} (hrequest : e.request = .checkAndClaimLease) :
    ∃ answer, (serve (Mealy.final serve c es) e).1 = some answer ∧
      (answer = true ↔ Lapsed c.heartbeatInterval c.lastLeaderHeartbeat (es ++ [e])) := by
  have hafter := (final_serve c hlease (es ++ [e])).2.2
  rw [Mealy.final_concat] at hafter
  refine ⟨_, by rw [serve, hrequest], ?_⟩
  rw [← hafter, serve, hrequest, checkAndClaimLease, claim]
  split_ifs <;> simp

end History

/-! ## Many callers -/

/-- Where a task stands: between two requests, in a heartbeat or a check with the first lock, in a
check that has read the clock (at the instant `now`), or there with both locks. -/
inductive Point
  | idle
  | beating
  | checking
  | timed (now elapsed : ℕ)
  | claiming (now elapsed : ℕ)

/-- The instant that a check has read, and the time it has computed from it. -/
def Point.HasRead (p : Point) (now elapsed : ℕ) : Prop :=
  p = .timed now elapsed ∨ p = .claiming now elapsed

/-- The controller with its two mutexes, the clock, and where each task stands in its requests. -/
structure Session (ι : Type) where
  controller : FailoverController
  clock : ℕ
  lastLock : Option ι
  leaseLock : Option ι
  point : ι → Point
  requests : ι → List Request

/-- The turn of a task, some time after the turn before it. -/
structure Turn (ι : Type) where
  task : ι
  pause : ℕ

namespace Session

variable {ι : Type} [DecidableEq ι]

/-- Task `i` goes on to the given point. -/
def moveTo (s : Session ι) (i : ι) (p : Point) : Session ι :=
  { s with point := Function.update s.point i p }

/-- A turn of a task: the next lock, the read of the clock, or the end of the request. A task that
finds a lock taken waits. -/
def step (s : Session ι) (turn : Turn ι) : Option (Effect ι × Option Bool) × Session ι :=
  let s := { s with clock := s.clock + turn.pause }
  let i := turn.task
  match s.point i with
  | .idle =>
      match s.requests i with
      | [] => (none, s)
      | request :: rest =>
          if s.lastLock = none then
            let s := { s with lastLock := some i, requests := Function.update s.requests i rest }
            match request with
            | .recordHeartbeat => (none, s.moveTo i .beating)
            | .checkAndClaimLease => (none, s.moveTo i .checking)
          else (none, s)
  | .beating =>
      (some (⟨i, .recordHeartbeat, s.clock⟩, none),
        { s.moveTo i .idle with
          controller := s.controller.recordHeartbeat s.clock
          lastLock := none })
  | .checking =>
      (none, s.moveTo i (.timed s.clock (s.clock - s.controller.lastLeaderHeartbeat)))
  | .timed now elapsed =>
      if s.leaseLock = none then
        (none, { s.moveTo i (.claiming now elapsed) with leaseLock := some i })
      else (none, s)
  | .claiming now elapsed =>
      let (held, controller) := s.controller.claim elapsed
      (some (⟨i, .checkAndClaimLease, now⟩, some held),
        { s.moveTo i .idle with
          controller := controller
          lastLock := none
          leaseLock := none })

/-- Tasks with their requests on a new controller, both mutexes free. -/
def start (nodeId heartbeatMillis : UInt64) (now : ℕ) (requests : ι → List Request) : Session ι :=
  ⟨.new nodeId heartbeatMillis now, now, none, none, fun _ => .idle, requests⟩

/-! ## What a turn can do -/

/-- A turn waits, takes the first lock for a request, ends a heartbeat, reads the clock, takes the
second lock, or ends a check. -/
inductive Moves (s : Session ι) (turn : Turn ι) :
    Option (Effect ι × Option Bool) → Session ι → Prop
  | waits (h : s.point turn.task = .idle ∧ (s.requests turn.task = [] ∨ s.lastLock ≠ none) ∨
        (∃ now elapsed, s.point turn.task = .timed now elapsed) ∧ s.leaseLock ≠ none) :
      Moves s turn none { s with clock := s.clock + turn.pause }
  | locks (request : Request) (rest : List Request) (p : Point) (hidle : s.point turn.task = .idle)
      (hrequests : s.requests turn.task = request :: rest) (hfree : s.lastLock = none)
      (hp : request = .recordHeartbeat ∧ p = .beating ∨
        request = .checkAndClaimLease ∧ p = .checking) :
      Moves s turn none
        { s with
          clock := s.clock + turn.pause
          lastLock := some turn.task
          requests := Function.update s.requests turn.task rest
          point := Function.update s.point turn.task p }
  | beats (hpoint : s.point turn.task = .beating) :
      Moves s turn (some (⟨turn.task, .recordHeartbeat, s.clock + turn.pause⟩, none))
        { s with
          controller := s.controller.recordHeartbeat (s.clock + turn.pause)
          clock := s.clock + turn.pause
          lastLock := none
          point := Function.update s.point turn.task .idle }
  | reads (hpoint : s.point turn.task = .checking) :
      Moves s turn none
        { s with
          clock := s.clock + turn.pause
          point := Function.update s.point turn.task
            (.timed (s.clock + turn.pause)
              (s.clock + turn.pause - s.controller.lastLeaderHeartbeat)) }
  | takes (now elapsed : ℕ) (hpoint : s.point turn.task = .timed now elapsed)
      (hfree : s.leaseLock = none) :
      Moves s turn none
        { s with
          clock := s.clock + turn.pause
          leaseLock := some turn.task
          point := Function.update s.point turn.task (.claiming now elapsed) }
  | claims (now elapsed : ℕ) (hpoint : s.point turn.task = .claiming now elapsed) :
      Moves s turn (some (⟨turn.task, .checkAndClaimLease, now⟩, some (s.controller.claim elapsed).1))
        { s with
          controller := (s.controller.claim elapsed).2
          clock := s.clock + turn.pause
          lastLock := none
          leaseLock := none
          point := Function.update s.point turn.task .idle }

/-- A turn does nothing but what `Moves` lists. -/
theorem moves_step (s : Session ι) (turn : Turn ι) : Moves s turn (s.step turn).1 (s.step turn).2 := by
  rw [step]
  cases hpoint : s.point turn.task with
  | idle =>
    simp only
    cases hrequests : s.requests turn.task with
    | nil => exact .waits (Or.inl ⟨hpoint, Or.inl hrequests⟩)
    | cons request rest =>
      simp only
      split_ifs with hfree
      · cases request with
        | recordHeartbeat =>
          exact .locks .recordHeartbeat rest .beating hpoint hrequests hfree (Or.inl ⟨rfl, rfl⟩)
        | checkAndClaimLease =>
          exact .locks .checkAndClaimLease rest .checking hpoint hrequests hfree (Or.inr ⟨rfl, rfl⟩)
      · exact .waits (Or.inl ⟨hpoint, Or.inr hfree⟩)
  | beating =>
    simp only
    exact .beats hpoint
  | checking =>
    simp only
    exact .reads hpoint
  | timed now elapsed =>
    simp only
    split_ifs with hfree
    · exact .takes now elapsed hpoint hfree
    · exact .waits (Or.inr ⟨⟨now, elapsed, hpoint⟩, hfree⟩)
  | claiming now elapsed =>
    simp only
    exact .claims now elapsed hpoint

/-! ## The locks -/

/-- Who is in a call has the first lock; who has the second one is about to decide. The time
computed from the clock is still right, as nobody else can have recorded a heartbeat. -/
structure Inv (s : Session ι) : Prop where
  lastLock : ∀ i, s.lastLock = some i ↔ s.point i ≠ .idle
  leaseLock : ∀ i, s.leaseLock = some i ↔ ∃ now elapsed, s.point i = .claiming now elapsed
  elapsed : ∀ i now elapsed, (s.point i).HasRead now elapsed →
    elapsed = now - s.controller.lastLeaderHeartbeat

variable {s : Session ι} {turn : Turn ι}

omit [DecidableEq ι] in
/-- If the first lock is free, nobody is in a call. -/
theorem Inv.idle_of_free (h : Inv s) (hfree : s.lastLock = none) (i : ι) : s.point i = .idle := by
  by_contra hpoint
  rw [(h.lastLock i).mpr hpoint] at hfree
  cases hfree

omit [DecidableEq ι] in
/-- Two tasks are never in their calls at the same time. -/
theorem Inv.idle_of_ne (h : Inv s) {i j : ι} (hpoint : s.point i ≠ .idle) (hne : j ≠ i) :
    s.point j = .idle := by
  by_contra hj
  have hi := (h.lastLock i).mpr hpoint
  rw [(h.lastLock j).mpr hj, Option.some.injEq] at hi
  exact hne hi

omit [DecidableEq ι] in
/-- The second lock is taken only by a task that is about to decide. -/
theorem Inv.leaseLock_eq_none (h : Inv s) {i : ι} (hpoint : s.point i ≠ .idle)
    (hclaiming : ∀ now elapsed, s.point i ≠ .claiming now elapsed) : s.leaseLock = none := by
  cases hlease : s.leaseLock with
  | none => rfl
  | some j =>
    obtain ⟨now, elapsed, hj⟩ := (h.leaseLock j).mp hlease
    obtain rfl : j = i := by
      by_contra hne
      rw [h.idle_of_ne hpoint hne] at hj
      cases hj
    exact absurd hj (hclaiming now elapsed)

/-- After a turn of a task that nobody else was in the way of, the invariant is about that task
alone. -/
theorem inv_of_update {s' : Session ι} {i : ι} {p : Point}
    (hpoint : s'.point = Function.update s.point i p) (hothers : ∀ j, j ≠ i → s.point j = .idle)
    (hlast : ∀ j, s'.lastLock = some j ↔ j = i ∧ p ≠ .idle)
    (hlease : ∀ j, s'.leaseLock = some j ↔ j = i ∧ ∃ now elapsed, p = .claiming now elapsed)
    (helapsed : ∀ now elapsed, p.HasRead now elapsed →
      elapsed = now - s'.controller.lastLeaderHeartbeat) : Inv s' := by
  have hself : s'.point i = p := by rw [hpoint, Function.update_self]
  have hother : ∀ j, j ≠ i → s'.point j = .idle := by
    intro j hj
    rw [hpoint, Function.update_of_ne hj, hothers j hj]
  refine ⟨fun j => ?_, fun j => ?_, fun j now elapsed hread => ?_⟩
  · by_cases hj : j = i
    · subst hj
      simp [hlast, hself]
    · simp [hlast, hj, hother j hj]
  · by_cases hj : j = i
    · subst hj
      simp [hlease, hself]
    · simp [hlease, hj, hother j hj]
  · by_cases hj : j = i
    · subst hj
      rw [hself] at hread
      exact helapsed now elapsed hread
    · rw [hother j hj] at hread
      rcases hread with hread | hread <;> cases hread

/-- Every turn keeps the invariant, whichever task it is of and whatever that task waits for. -/
theorem Inv.step (h : Inv s) (turn : Turn ι) : Inv (s.step turn).2 := by
  have hmoves := moves_step s turn
  generalize (s.step turn).1 = effect at hmoves
  generalize (s.step turn).2 = s' at hmoves
  cases hmoves with
  | waits _ => exact ⟨h.lastLock, h.leaseLock, h.elapsed⟩
  | locks request rest p hidle hrequests hfree hp =>
    -- the second lock is only ever taken by a task that has the first one
    have hlease : s.leaseLock = none := by
      cases hlease : s.leaseLock with
      | none => rfl
      | some j =>
        obtain ⟨now, elapsed, hj⟩ := (h.leaseLock j).mp hlease
        rw [h.idle_of_free hfree] at hj
        cases hj
    refine inv_of_update rfl (fun j _ => h.idle_of_free hfree j) (fun j => ?_) (fun j => ?_) ?_
    · rcases hp with ⟨-, rfl⟩ | ⟨-, rfl⟩ <;> simp [eq_comm]
    · rcases hp with ⟨-, rfl⟩ | ⟨-, rfl⟩ <;> simp [hlease]
    · intro now elapsed hread
      rcases hp with ⟨-, rfl⟩ | ⟨-, rfl⟩ <;> rcases hread with hread | hread <;> cases hread
  | beats hpoint =>
    have hbusy : s.point turn.task ≠ .idle := by simp [hpoint]
    have hlease := h.leaseLock_eq_none hbusy (by simp [hpoint])
    refine inv_of_update rfl (fun j => h.idle_of_ne hbusy) (by simp) (by simp [hlease]) ?_
    rintro now elapsed (hread | hread) <;> cases hread
  | reads hpoint =>
    have hbusy : s.point turn.task ≠ .idle := by simp [hpoint]
    have hlease := h.leaseLock_eq_none hbusy (by simp [hpoint])
    have hlock := (h.lastLock turn.task).mpr hbusy
    refine inv_of_update rfl (fun j => h.idle_of_ne hbusy) (by simp [hlock, eq_comm])
      (by simp [hlease]) ?_
    rintro now elapsed (hread | hread) <;> cases hread
    rfl
  | takes now elapsed hpoint hfree =>
    have hbusy : s.point turn.task ≠ .idle := by simp [hpoint]
    have hlock := (h.lastLock turn.task).mpr hbusy
    refine inv_of_update rfl (fun j => h.idle_of_ne hbusy) (by simp [hlock, eq_comm])
      (by simp [eq_comm]) ?_
    rintro now' elapsed' (hread | hread) <;> cases hread
    exact h.elapsed turn.task now elapsed (Or.inl hpoint)
  | claims now elapsed hpoint =>
    have hbusy : s.point turn.task ≠ .idle := by simp [hpoint]
    refine inv_of_update rfl (fun j => h.idle_of_ne hbusy) (by simp) (by simp) ?_
    rintro now elapsed (hread | hread) <;> cases hread

/-- Each turn is silent or makes one call of the controller at once: a heartbeat when it stores, a
check when it decides. -/
theorem linearized :
    Mealy.Linearized (Session.step (ι := ι)) serve fun s c => Inv s ∧ s.controller = c where
  silent := by
    rintro s c turn ⟨h, rfl⟩ hnone
    refine ⟨h.step turn, ?_⟩
    have hmoves := moves_step s turn
    rw [hnone] at hmoves
    generalize (s.step turn).2 = s' at hmoves
    cases hmoves <;> rfl
  effect := by
    rintro s c turn e answer ⟨h, rfl⟩ heffect
    have hinv := h.step turn
    have hmoves := moves_step s turn
    rw [heffect] at hmoves
    generalize (s.step turn).2 = s' at hmoves hinv
    cases hmoves with
    | beats hpoint => exact ⟨rfl, hinv, rfl⟩
    | claims now elapsed hpoint =>
      obtain rfl := h.elapsed turn.task now elapsed (Or.inr hpoint)
      exact ⟨rfl, hinv, rfl⟩

/-! ## The order in time -/

/-- No instant before `floor` is read any more. -/
structure Above (floor : ℕ) (s : Session ι) : Prop where
  clock : floor ≤ s.clock
  read : ∀ i now elapsed, (s.point i).HasRead now elapsed → floor ≤ now ∧ now ≤ s.clock

/-- A turn without an effect reads the clock no earlier than before. -/
theorem Above.silent {floor : ℕ} (ha : Above floor s) (hnone : (s.step turn).1 = none) :
    Above floor (s.step turn).2 := by
  have hclock := ha.clock
  have hmoves := moves_step s turn
  rw [hnone] at hmoves
  generalize (s.step turn).2 = s' at hmoves
  have hold : ∀ i now elapsed, (s.point i).HasRead now elapsed →
      floor ≤ now ∧ now ≤ s.clock + turn.pause := by
    intro i now elapsed hread
    have := ha.read i now elapsed hread
    omega
  -- only the task of the turn can have read the clock anew
  have hupdate : ∀ p : Point, (∀ now elapsed, p.HasRead now elapsed →
      floor ≤ now ∧ now ≤ s.clock + turn.pause) → ∀ i now elapsed,
      (Function.update s.point turn.task p i).HasRead now elapsed →
        floor ≤ now ∧ now ≤ s.clock + turn.pause := by
    intro p hp i now elapsed hread
    by_cases hi : i = turn.task
    · subst hi
      rw [Function.update_self] at hread
      exact hp now elapsed hread
    · rw [Function.update_of_ne hi] at hread
      exact hold i now elapsed hread
  cases hmoves with
  | waits _ => exact ⟨Nat.le_add_right_of_le hclock, hold⟩
  | locks request rest p hidle hrequests hfree hp =>
    refine ⟨Nat.le_add_right_of_le hclock, hupdate p ?_⟩
    intro now elapsed hread
    rcases hp with ⟨-, rfl⟩ | ⟨-, rfl⟩ <;> rcases hread with hread | hread <;> cases hread
  | reads hpoint =>
    refine ⟨Nat.le_add_right_of_le hclock, hupdate _ ?_⟩
    rintro now elapsed (hread | hread) <;> cases hread
    omega
  | takes now elapsed hpoint hfree =>
    refine ⟨Nat.le_add_right_of_le hclock, hupdate _ ?_⟩
    rintro now' elapsed' (hread | hread) <;> cases hread
    exact hold turn.task now elapsed (Or.inl hpoint)

/-- The clock was read before the call gave the lock back, so whoever comes next reads it later. -/
theorem Above.effect {floor : ℕ} (ha : Above floor s) (h : Inv s) {e : Effect ι}
    {answer : Option Bool} (heffect : (s.step turn).1 = some (e, answer)) :
    floor ≤ e.now ∧ Above e.now (s.step turn).2 := by
  have hclock := ha.clock
  have hmoves := moves_step s turn
  rw [heffect] at hmoves
  generalize (s.step turn).2 = s' at hmoves
  -- the others are outside their calls, and the task is now too: no read is left over
  have hidle : s.point turn.task ≠ .idle → ∀ i now elapsed,
      ¬(Function.update s.point turn.task .idle i).HasRead now elapsed := by
    intro hbusy i now elapsed hread
    by_cases hi : i = turn.task
    · subst hi
      rw [Function.update_self] at hread
      rcases hread with hread | hread <;> cases hread
    · rw [Function.update_of_ne hi, h.idle_of_ne hbusy hi] at hread
      rcases hread with hread | hread <;> cases hread
  cases hmoves with
  | beats hpoint =>
    refine ⟨Nat.le_add_right_of_le hclock, le_refl _, fun i now elapsed hread => ?_⟩
    exact absurd hread (hidle (by simp [hpoint]) i now elapsed)
  | claims now elapsed hpoint =>
    obtain ⟨hfloor, hnow⟩ := ha.read turn.task now elapsed (Or.inr hpoint)
    refine ⟨hfloor, Nat.le_add_right_of_le hnow, fun i now elapsed hread => ?_⟩
    exact absurd hread (hidle (by simp [hpoint]) i now elapsed)

/-- The requests take effect in the order of the instants that they have read. -/
theorem history_inTime {floor : ℕ} (h : Inv s) (ha : Above floor s) (turns : List (Turn ι)) :
    (∀ e ∈ Mealy.history Session.step s turns, floor ≤ e.1.now) ∧
      (Mealy.history Session.step s turns).Pairwise fun e e' => e.1.now ≤ e'.1.now := by
  induction turns generalizing s floor with
  | nil => exact ⟨fun e he => (by cases he), List.Pairwise.nil⟩
  | cons turn turns ih =>
    rw [Mealy.history_cons]
    cases hstep : (s.step turn).1 with
    | none => exact ih (h.step turn) (ha.silent hstep)
    | some effect =>
      obtain ⟨e, answer⟩ := effect
      obtain ⟨hfloor, ha'⟩ := ha.effect h hstep
      obtain ⟨hlater, hpairwise⟩ := ih (h.step turn) ha'
      refine ⟨?_, List.pairwise_cons.mpr ⟨hlater, hpairwise⟩⟩
      rintro e' he'
      rcases List.mem_cons.mp he' with rfl | he'
      · exact hfloor
      · exact hfloor.trans (hlater e' he')

/-! ## Each request is served -/

/-- What a task still has to do: the request it is in, and those after it. -/
def unserved (s : Session ι) (i : ι) : List Request :=
  match s.point i with
  | .idle => s.requests i
  | .beating => .recordHeartbeat :: s.requests i
  | _ => .checkAndClaimLease :: s.requests i

/-- The requests of a task that took effect, in order. -/
def servedOf (i : ι) (effects : List (Effect ι × Option Bool)) : List Request :=
  Mealy.servedOf Effect.task Effect.request i effects

/-- What takes effect and what is left of a task's requests are, together, what was left before. -/
theorem served_step (s : Session ι) (turn : Turn ι) (i : ι) :
    servedOf i (s.step turn).1.toList ++ (s.step turn).2.unserved i = s.unserved i := by
  have hmoves := moves_step s turn
  generalize (s.step turn).1 = effect at hmoves
  generalize (s.step turn).2 = s' at hmoves
  by_cases hi : i = turn.task
  · subst hi
    cases hmoves with
    | waits _ => rfl
    | locks request rest p hidle hrequests hfree hp =>
      rcases hp with ⟨rfl, rfl⟩ | ⟨rfl, rfl⟩ <;>
        simp [servedOf, Mealy.servedOf, unserved, hidle, hrequests]
    | beats hpoint => simp [servedOf, Mealy.servedOf, unserved, hpoint]
    | reads hpoint => simp [servedOf, Mealy.servedOf, unserved, hpoint]
    | takes now elapsed hpoint hfree => simp [servedOf, Mealy.servedOf, unserved, hpoint]
    | claims now elapsed hpoint => simp [servedOf, Mealy.servedOf, unserved, hpoint]
  · cases hmoves <;>
      simp [servedOf, Mealy.servedOf, unserved, Function.update_of_ne hi, Ne.symm hi]

/-- Who is in a call gets to its end without waiting for anybody. -/
theorem exists_release (h : Inv s) :
    ∃ turns, (Mealy.final Session.step s turns).lastLock = none ∧
      (Mealy.final Session.step s turns).requests = s.requests := by
  cases hlast : s.lastLock with
  | none => exact ⟨[], hlast, rfl⟩
  | some i =>
    have hbusy := (h.lastLock i).mp hlast
    cases hpoint : s.point i with
    | idle => exact absurd hpoint hbusy
    | beating => exact ⟨[⟨i, 0⟩], by simp [Session.step, hpoint, moveTo]⟩
    | checking =>
      have hlease := h.leaseLock_eq_none hbusy (by simp [hpoint])
      exact ⟨[⟨i, 0⟩, ⟨i, 0⟩, ⟨i, 0⟩], by simp [Session.step, hpoint, moveTo, hlease]⟩
    | timed now elapsed =>
      have hlease := h.leaseLock_eq_none hbusy (by simp [hpoint])
      exact ⟨[⟨i, 0⟩, ⟨i, 0⟩], by simp [Session.step, hpoint, moveTo, hlease]⟩
    | claiming now elapsed => exact ⟨[⟨i, 0⟩], by simp [Session.step, hpoint, moveTo]⟩

/-- The invariant holds after every schedule, by induction over its turns. -/
theorem Inv.final (h : Inv s) (turns : List (Turn ι)) : Inv (Mealy.final Session.step s turns) := by
  induction turns generalizing s with
  | nil => exact h
  | cons turn turns ih => exact ih (h.step turn)

/-- From wherever a run has come, a task can still be served: the locks never block for good. -/
theorem exists_served (h : Inv s) (i : ι) :
    ∃ turns, (Mealy.final Session.step s turns).unserved i = [] := by
  suffices hfree : ∃ turns, (Mealy.final Session.step s turns).lastLock = none ∧
      (Mealy.final Session.step s turns).requests i = [] by
    obtain ⟨turns, hlast, hrequests⟩ := hfree
    exact ⟨turns, by rw [unserved, (h.final turns).idle_of_free hlast, hrequests]⟩
  -- induction on the requests that are left; the task may find the lock taken by another one
  generalize hleft : s.requests i = left
  induction left generalizing s with
  | nil =>
    obtain ⟨turns, hlast, hrequests⟩ := exists_release h
    exact ⟨turns, hlast, by rw [hrequests, hleft]⟩
  | cons request rest ih =>
    obtain ⟨turns, hlast, hrequests⟩ := exists_release h
    have hidle := (h.final turns).idle_of_free hlast i
    have hnext : (Mealy.final Session.step s turns).requests i = request :: rest := by
      rw [hrequests, hleft]
    have hrest : ((Mealy.final Session.step s turns).step ⟨i, 0⟩).2.requests i = rest := by
      cases request <;> simp [Session.step, hidle, hnext, hlast, moveTo]
    obtain ⟨more, hdone⟩ := ih ((h.final turns).step ⟨i, 0⟩) hrest
    exact ⟨turns ++ ⟨i, 0⟩ :: more, by rw [Mealy.final_append, Mealy.final_cons]; exact hdone⟩

/-! ## The protocol -/

/-- The requests that took effect in a run, in this order, with the answers. -/
def effects (s : Session ι) (turns : List (Turn ι)) : List (Effect ι × Option Bool) :=
  Mealy.history Session.step s turns

/-- What holds of every run of tasks on a new controller: a check claims the lease exactly if it or
an earlier one came too late, calls count in the order of the clock, and no task can be locked out. -/
structure LeaseProtocol (nodeId heartbeatMillis : UInt64) (now : ℕ) (requests : ι → List Request)
    (turns : List (Turn ι)) : Prop where
  /-- A check is answered, with `true` exactly if it or an earlier check came too late. -/
  answers : ∀ before e answer after,
    (start nodeId heartbeatMillis now requests).effects turns = before ++ (e, answer) :: after →
    e.request = .checkAndClaimLease →
    ∃ held, answer = some held ∧
      (held = true ↔ Lapsed (heartbeatMillis.toNat * 1000000) now (before.map Prod.fst ++ [e]))
  /-- The calls are ordered as the instants that they read. -/
  inTime : ((start nodeId heartbeatMillis now requests).effects turns).Pairwise
    fun e e' => e.1.now ≤ e'.1.now
  /-- The requests of a task take effect in their order. -/
  inOrder : ∀ i, servedOf i ((start nodeId heartbeatMillis now requests).effects turns) <+: requests i
  /-- No run is stuck: any task can be served in the end. -/
  served : ∀ i, ∃ more,
    servedOf i ((start nodeId heartbeatMillis now requests).effects (turns ++ more)) = requests i

omit [DecidableEq ι] in
/-- At the start nobody is in a call. -/
theorem inv_start (nodeId heartbeatMillis : UInt64) (now : ℕ) (requests : ι → List Request) :
    Inv (start nodeId heartbeatMillis now requests) := by
  refine ⟨fun i => by simp [start], fun i => by simp [start], ?_⟩
  rintro i now elapsed (hread | hread) <;> cases hread

omit [DecidableEq ι] in
/-- At the start nothing has been read. -/
theorem above_start (nodeId heartbeatMillis : UInt64) (now : ℕ) (requests : ι → List Request) :
    Above 0 (start nodeId heartbeatMillis now requests) := by
  refine ⟨Nat.zero_le _, ?_⟩
  rintro i now elapsed (hread | hread) <;> cases hread

/-- **The lease in every interleaving of heartbeats and checks.** The answers are those of the calls
made one after the other, in the order of the clock, and no interleaving ends in a deadlock. -/
theorem lease_protocol (nodeId heartbeatMillis : UInt64) (now : ℕ) (requests : ι → List Request)
    (turns : List (Turn ι)) : LeaseProtocol nodeId heartbeatMillis now requests turns := by
  have hinv := inv_start nodeId heartbeatMillis now requests
  have hserved := fun turns => Mealy.servedOf_history served_step
    (start nodeId heartbeatMillis now requests) turns
  refine ⟨fun before e answer after hsplit hrequest => ?_, ?_, fun i => ⟨_, hserved turns i⟩,
    fun i => ?_⟩
  · have hanswer := linearized.answer_eq ⟨hinv, rfl⟩ hsplit
    obtain ⟨held, hheld, hiff⟩ :=
      answer_check (c := new nodeId heartbeatMillis now) rfl hrequest
    exact ⟨held, hanswer.trans hheld, hiff⟩
  · exact (history_inTime hinv (above_start nodeId heartbeatMillis now requests) turns).2
  · obtain ⟨more, hmore⟩ := exists_served (hinv.final turns) i
    have hall := hserved (turns ++ more) i
    rw [Mealy.final_append, hmore, List.append_nil] at hall
    exact ⟨more, hall⟩

end Session

end FailoverController

end Caminus

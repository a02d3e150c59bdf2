import Caminus.Common.Interleave
import Caminus.Source.EventText
import Caminus.Sync.Coordinator
import Mathlib.Logic.Relation

/-!
# Forwarding between clusters

A cluster that holds an event hands it to a `ClusterForwarderSink` (`src/sink/forwarder.rs`) for each
active peer. The sink sends the event as it is, and no cluster ever adds the tag that
`should_forward` looks for, so an event that its peers can read circulates as far as they lead. It comes
back to its origin exactly if a chain of forwarding clusters does (`neverForwardsAgain_iff`).
-/

namespace Caminus

/-- The errors of a forwarder. The source never returns the first one. -/
inductive ForwarderSinkError
  | unreachable (reason : String)
  | serialization (reason : String)

/-- The text of an event; the writer's error is passed on with a prefix. -/
def serializeEvent (serde : EventSerde) (event : ChangeEvent) : Except String String :=
  match serde.writeEvent event with
  | .ok text => .ok text
  | .error reason => .error ("simd-json serialization error: " ++ reason)

/-- The sink that sends to one cluster. -/
structure ClusterForwarderSink where
  targetClusterId : String
  targetEndpoint : String

/-- An event on its way to a cluster, as the text that was serialised for it. -/
structure Message where
  target : String
  payload : String

/-- What a call of `send` puts on its way: the event as it is. No tag of the sending cluster is
added to its transaction id, so no cluster can recognise it. -/
def ClusterForwarderSink.send (serde : EventSerde) (sink : ClusterForwarderSink)
    (event : ChangeEvent) : Except ForwarderSinkError Message :=
  match serializeEvent serde event with
  | .ok serialized => .ok ⟨sink.targetClusterId, serialized⟩
  | .error reason => .error (.serialization reason)

/-- The clusters of a deployment, with the peers each of them has registered. -/
structure Deployment where
  clusters : List SyncCoordinator

namespace Deployment

variable (serde : EventSerde) (d : Deployment)

def cluster? (clusterId : String) : Option SyncCoordinator :=
  d.clusters.find? (·.localClusterId == clusterId)

/-- The messages in flight, and the ids of the clusters that forwarded the event, in order. A
cluster that forwards twice is in the list twice. -/
structure State where
  inFlight : List Message
  forwards : List String

/-- One message for each active peer; a failed `send` is dropped. -/
def outgoing (c : SyncCoordinator) (event : ChangeEvent) : List Message :=
  (c.remotePeers.filter (·.isActive)).filterMap fun peer =>
    (ClusterForwarderSink.send serde ⟨peer.clusterId, peer.endpointUrl⟩ event).toOption

/-- A cluster that holds an event forwards it to its active peers, if it should. -/
def hold (c : SyncCoordinator) (event : ChangeEvent) (s : State) : State :=
  if c.shouldForward event then
    ⟨s.inFlight ++ outgoing serde c event, s.forwards ++ [c.localClusterId]⟩
  else s

/-- The peer reads the event and treats it as one of its own; a text it cannot read is dropped, and
so is a message to a cluster that is not there. -/
def receive (m : Message) (s : State) : State :=
  match d.cluster? m.target, serde.readEvent m.payload with
  | some c, some event => hold serde c event s
  | _, _ => s

/-- Delivery of the message at position `k`; nothing happens if there is none. -/
def deliver (k : ℕ) (s : State) : State :=
  match s.inFlight[k]? with
  | some m => d.receive serde m { s with inFlight := s.inFlight.eraseIdx k }
  | none => s

/-- The origin holds the event, and forwards it for the first time if it should. -/
def start (origin : String) (event : ChangeEvent) : State :=
  match d.cluster? origin with
  | some c => hold serde c event ⟨[], []⟩
  | none => ⟨[], []⟩

/-- The state after deliveries in some order, which also stands for how fast each connection is. -/
abbrev run (origin : String) (event : ChangeEvent) (order : List ℕ) : State :=
  Interleave.run (d.deliver serde) (d.start serde origin event) order

/-- The origin does not forward the event a second time, whatever the order of deliveries. -/
def NeverForwardsAgain (origin : String) (event : ChangeEvent) : Prop :=
  ∀ order, (d.run serde origin event order).forwards.count origin ≤ 1

/-- Cluster `a` forwards the event and has `b` as an active peer. -/
def ForwardsTo (event : ChangeEvent) (a b : String) : Prop :=
  ∃ c, d.cluster? a = some c ∧ c.shouldForward event = true ∧
    ∃ peer ∈ c.remotePeers, peer.isActive = true ∧ peer.clusterId = b

variable {serde d} {origin : String} {event : ChangeEvent} {s : State} {m : Message}

/-! ## One message -/

/-- The message carries the event, as far as forwarding looks at it: an event of the same transaction is
read from it, and can be read again after it was forwarded. -/
def Carries (serde : EventSerde) (event : ChangeEvent) (m : Message) : Prop :=
  ∃ received, serde.readEvent m.payload = some received ∧
    received.transactionId = event.transactionId ∧ serde.ReadsBack received

/-- Whether an event is forwarded depends on its transaction id alone. -/
theorem shouldForward_congr {event' : ChangeEvent} (c : SyncCoordinator)
    (h : event'.transactionId = event.transactionId) :
    c.shouldForward event' = c.shouldForward event := by
  rw [SyncCoordinator.shouldForward, SyncCoordinator.shouldForward, h]

/-- What carries an event also carries one of the same transaction. -/
theorem Carries.congr {event' : ChangeEvent} (h : Carries serde event' m)
    (hid : event'.transactionId = event.transactionId) : Carries serde event m := by
  obtain ⟨received, hreceived, htransaction, hread⟩ := h
  exact ⟨received, hreceived, htransaction.trans hid, hread⟩

/-- A sink sends a message that carries the event to its cluster. -/
theorem exists_send (sink : ClusterForwarderSink) (hread : serde.ReadsBack event) :
    ∃ m, sink.send serde event = .ok m ∧ m.target = sink.targetClusterId ∧ Carries serde event m := by
  obtain ⟨text, hwrite, hreceived⟩ := hread.readEvent
  refine ⟨⟨sink.targetClusterId, text⟩, ?_, rfl, event.withoutNulls, hreceived, rfl,
    hread.withoutNulls⟩
  rw [ClusterForwarderSink.send, serializeEvent, hwrite]

/-- A message on its way carries the event to an active peer. -/
theorem mem_outgoing {c : SyncCoordinator} (hread : serde.ReadsBack event)
    (h : m ∈ outgoing serde c event) :
    Carries serde event m ∧ ∃ peer ∈ c.remotePeers, peer.isActive = true ∧
      peer.clusterId = m.target := by
  obtain ⟨peer, hpeer, hsend⟩ := List.mem_filterMap.mp h
  obtain ⟨hmem, hactive⟩ := List.mem_filter.mp hpeer
  obtain ⟨m', hok, htarget, hcarries⟩ :=
    exists_send ⟨peer.clusterId, peer.endpointUrl⟩ hread
  rw [hok] at hsend
  obtain rfl : m' = m := Option.some.inj hsend
  exact ⟨hcarries, peer, hmem, hactive, htarget.symm⟩

/-- Every active peer is sent a message, one for each time it is registered. -/
theorem exists_mem_outgoing {c : SyncCoordinator} {peer : ClusterNode} (hread : serde.ReadsBack event)
    (hpeer : peer ∈ c.remotePeers) (hactive : peer.isActive = true) :
    ∃ m ∈ outgoing serde c event, m.target = peer.clusterId ∧ Carries serde event m := by
  obtain ⟨m, hok, htarget, hcarries⟩ := exists_send ⟨peer.clusterId, peer.endpointUrl⟩ hread
  refine ⟨m, List.mem_filterMap.mpr ⟨peer, List.mem_filter.mpr ⟨hpeer, hactive⟩, ?_⟩, htarget,
    hcarries⟩
  rw [hok]
  rfl

/-- The cluster found for an id has that id. -/
theorem localClusterId_of_cluster? {id : String} {c : SyncCoordinator}
    (h : d.cluster? id = some c) : c.localClusterId = id := by
  simpa using List.find?_some h

/-- A cluster that can read the message holds what it has read. -/
theorem receive_eq_hold {c : SyncCoordinator} {received : ChangeEvent}
    (hc : d.cluster? m.target = some c) (hread : serde.readEvent m.payload = some received)
    (s : State) : d.receive serde m s = hold serde c received s := by
  rw [receive, hc, hread]

/-- A delivery takes its message out of flight before the receiver handles it. -/
theorem deliver_eq_receive {k : ℕ} (hk : s.inFlight[k]? = some m) : d.deliver serde k s =
    d.receive serde m { s with inFlight := s.inFlight.eraseIdx k } := by
  rw [deliver, hk]

/-- There is nothing to deliver at a position beyond the messages. -/
theorem deliver_eq_self {k : ℕ} (hk : s.inFlight[k]? = none) : d.deliver serde k s = s := by
  rw [deliver, hk]

/-- The origin holds the event before anything is in flight. -/
theorem start_eq_hold {c : SyncCoordinator} (hc : d.cluster? origin = some c) :
    d.start serde origin event = hold serde c event ⟨[], []⟩ := by
  rw [start, hc]

/-- Without the origin nothing is ever sent. -/
theorem start_eq_empty (hc : d.cluster? origin = none) :
    d.start serde origin event = ⟨[], []⟩ := by
  rw [start, hc]

/-- What the receiver of a message does: nothing, or it forwards what it read. -/
theorem receive_cases (d : Deployment) (hm : Carries serde event m) (s : State) :
    (∀ c, d.cluster? m.target = some c → c.shouldForward event = false) ∧
      d.receive serde m s = s ∨
    ∃ c received, d.cluster? m.target = some c ∧ c.shouldForward event = true ∧
      received.transactionId = event.transactionId ∧ serde.ReadsBack received ∧
      d.receive serde m s =
        ⟨s.inFlight ++ outgoing serde c received, s.forwards ++ [m.target]⟩ := by
  obtain ⟨received, hreceived, hid, hread⟩ := hm
  cases hc : d.cluster? m.target with
  | none => exact Or.inl ⟨fun c hc' => (Option.some_ne_none c hc'.symm).elim, by rw [receive, hc]⟩
  | some c =>
    rw [receive_eq_hold hc hreceived, hold, shouldForward_congr c hid]
    cases hforward : c.shouldForward event with
    | false =>
      refine Or.inl ⟨fun b hb => ?_, if_neg Bool.false_ne_true⟩
      rw [← Option.some.inj hb, hforward]
    | true =>
      refine Or.inr ⟨c, received, rfl, hforward, hid, hread, ?_⟩
      rw [if_pos rfl, localClusterId_of_cluster? hc]

/-! ## Without a chain back -/

/-- Every message in flight has come along a chain of forwarding clusters. -/
def OnChains (serde : EventSerde) (d : Deployment) (origin : String) (event : ChangeEvent)
    (s : State) : Prop :=
  ∀ m ∈ s.inFlight, Carries serde event m ∧ Relation.TransGen (d.ForwardsTo event) origin m.target

/-- What a cluster at the end of a chain sends makes the chain longer by one. -/
theorem outgoing_onChains {c : SyncCoordinator} {a : String} {received : ChangeEvent}
    (hread : serde.ReadsBack received) (hc : d.cluster? a = some c) (hforward : c.shouldForward event = true)
    (hid : received.transactionId = event.transactionId)
    (hchain : ∀ b, d.ForwardsTo event a b → Relation.TransGen (d.ForwardsTo event) origin b) :
    ∀ m ∈ outgoing serde c received, Carries serde event m ∧
      Relation.TransGen (d.ForwardsTo event) origin m.target := by
  intro m hm
  obtain ⟨hcarries, peer, hpeer, hactive, htarget⟩ := mem_outgoing hread hm
  exact ⟨hcarries.congr hid, hchain _ ⟨c, hc, hforward, peer, hpeer, hactive, htarget⟩⟩

/-- The first messages go along chains of one step. -/
theorem start_onChains (hread : serde.ReadsBack event) :
    OnChains serde d origin event (d.start serde origin event) := by
  cases hc : d.cluster? origin with
  | none =>
    rw [start_eq_empty hc]
    exact fun m hm => by cases hm
  | some c =>
    rw [start_eq_hold hc, hold]
    split_ifs with hforward
    · exact outgoing_onChains hread hc hforward rfl fun b => Relation.TransGen.single
    · exact fun m hm => by cases hm

/-- A delivery keeps the messages on chains: what the receiver sends goes one step further. -/
theorem OnChains.deliver (h : OnChains serde d origin event s) (k : ℕ) :
    OnChains serde d origin event (d.deliver serde k s) := by
  cases hk : s.inFlight[k]? with
  | none =>
    rw [deliver_eq_self hk]
    exact h
  | some m =>
    rw [deliver_eq_receive hk]
    obtain ⟨hcarries, hchain⟩ := h m (List.mem_of_getElem? hk)
    have hrest : OnChains serde d origin event { s with inFlight := s.inFlight.eraseIdx k } :=
      fun b hb => h b (List.mem_of_mem_eraseIdx hb)
    -- the receiver keeps the event, or it forwards it along the chain that the message has come by
    rcases receive_cases d hcarries { s with inFlight := s.inFlight.eraseIdx k } with
      ⟨-, hsame⟩ | ⟨c, received, hc, hforward, hid, hread, hnew⟩
    · rw [hsame]
      exact hrest
    · rw [hnew]
      intro b hb
      rcases List.mem_append.mp hb with hb | hb
      · exact hrest b hb
      · exact outgoing_onChains hread hc hforward hid (fun _ hstep => hchain.tail hstep) b hb

/-- Without a chain back to the origin, a delivery does not make the origin forward. -/
theorem count_deliver_le (h : OnChains serde d origin event s)
    (hnone : ¬Relation.TransGen (d.ForwardsTo event) origin origin) (k : ℕ) :
    (d.deliver serde k s).forwards.count origin ≤ s.forwards.count origin := by
  cases hk : s.inFlight[k]? with
  | none => rw [deliver_eq_self hk]
  | some m =>
    rw [deliver_eq_receive hk]
    obtain ⟨hcarries, hchain⟩ := h m (List.mem_of_getElem? hk)
    rcases receive_cases d hcarries { s with inFlight := s.inFlight.eraseIdx k } with
      ⟨-, hsame⟩ | ⟨c, received, hc, hforward, hid, -, hnew⟩
    · rw [hsame]
    -- the message has come along a chain, so its receiver is not the origin
    · have hne : m.target ≠ origin := by
        rintro rfl
        exact hnone hchain
      rw [hnew, List.count_append, List.count_singleton, if_neg (by simpa using hne)]
      exact le_rfl

/-- At the start the origin has forwarded at most once. -/
theorem count_start_le (origin : String) (event : ChangeEvent) :
    (d.start serde origin event).forwards.count origin ≤ 1 := by
  cases hc : d.cluster? origin with
  | none =>
    rw [start_eq_empty hc]
    exact Nat.zero_le 1
  | some c =>
    rw [start_eq_hold hc, hold]
    split_ifs
    · exact List.count_le_length
    · exact Nat.zero_le 1

/-- Without a chain back to it, the origin forwards at most once in every order of deliveries. -/
theorem neverForwardsAgain_of_no_chain (hread : serde.ReadsBack event)
    (hnone : ¬Relation.TransGen (d.ForwardsTo event) origin origin) :
    d.NeverForwardsAgain serde origin event := by
  intro order
  have hstep : ∀ (k : ℕ) (s : State),
      OnChains serde d origin event s ∧ s.forwards.count origin ≤ 1 →
      OnChains serde d origin event (d.deliver serde k s) ∧
        (d.deliver serde k s).forwards.count origin ≤ 1 :=
    fun k s h => ⟨h.1.deliver k, (count_deliver_le h.1 hnone k).trans h.2⟩
  exact (Interleave.run_invariant hstep ⟨start_onChains hread, count_start_le origin event⟩ order).2

/-! ## Along a chain -/

/-- The event reaches every cluster at the end of a chain: for some order of deliveries a message to
it is in flight. -/
theorem exists_order_of_chain (hread : serde.ReadsBack event) {a : String}
    (h : Relation.TransGen (d.ForwardsTo event) origin a) :
    ∃ order, ∃ m ∈ (d.run serde origin event order).inFlight,
      m.target = a ∧ Carries serde event m := by
  -- by induction on the chain: deliver the message to its end, which then sends to the next cluster
  induction h with
  | single hstep =>
    obtain ⟨c, hc, hforward, peer, hpeer, hactive, rfl⟩ := hstep
    obtain ⟨m, hm, htarget, hcarries⟩ := exists_mem_outgoing hread hpeer hactive
    refine ⟨[], m, ?_, htarget, hcarries⟩
    rw [run, Interleave.run_nil, start_eq_hold hc, hold, if_pos hforward]
    exact hm
  | tail _ hstep ih =>
    obtain ⟨order, m, hm, htarget, hcarries⟩ := ih
    obtain ⟨c, hc, hforward, peer, hpeer, hactive, rfl⟩ := hstep
    obtain ⟨k, hk⟩ := List.getElem?_of_mem hm
    rw [← htarget] at hc
    rcases receive_cases d hcarries
        { d.run serde origin event order with
            inFlight := (d.run serde origin event order).inFlight.eraseIdx k } with
      ⟨hkeeps, -⟩ | ⟨b, received, hb, -, hid, hback, hnew⟩
    · rw [hkeeps c hc] at hforward
      cases hforward
    · obtain rfl := Option.some.inj (hb.symm.trans hc)
      obtain ⟨m', hm', htarget', hcarries'⟩ := exists_mem_outgoing hback hpeer hactive
      refine ⟨order ++ [k], m', ?_, htarget', hcarries'.congr hid⟩
      rw [run, Interleave.run_concat, deliver_eq_receive hk, hnew]
      exact List.mem_append_right _ hm'

/-- Holding an event adds to the log of forwarders, or leaves it. -/
theorem forwards_hold (c : SyncCoordinator) (event : ChangeEvent) (s : State) :
    s.forwards <+: (hold serde c event s).forwards := by
  rw [hold]
  split_ifs
  · exact List.prefix_append _ _
  · exact List.prefix_refl _

/-- What was forwarded stays forwarded: deliveries only add to the log. -/
theorem forwards_deliver (d : Deployment) (k : ℕ) (s : State) :
    s.forwards <+: (d.deliver serde k s).forwards := by
  cases hk : s.inFlight[k]? with
  | none => rw [deliver_eq_self hk]
  | some m =>
    rw [deliver_eq_receive hk, receive]
    split
    · exact forwards_hold _ _ { s with inFlight := s.inFlight.eraseIdx k }
    · exact List.prefix_refl _

/-- The origin of a chain has forwarded the event before any delivery. -/
theorem one_le_count_run {a : String} (h : d.ForwardsTo event origin a) (order : List ℕ) :
    1 ≤ (d.run serde origin event order).forwards.count origin := by
  obtain ⟨c, hc, hforward, -⟩ := h
  have hstart : 1 ≤ (d.start serde origin event).forwards.count origin := by
    rw [start_eq_hold hc, hold, if_pos hforward, localClusterId_of_cluster? hc]
    exact List.count_pos_iff.mpr (List.mem_append_right _ List.mem_cons_self)
  have hstep : ∀ (k : ℕ) (s : State), 1 ≤ s.forwards.count origin →
      1 ≤ (d.deliver serde k s).forwards.count origin :=
    fun k s h => h.trans ((forwards_deliver d k s).sublist.count_le origin)
  exact Interleave.run_invariant hstep hstart order

/-- Along a chain back to it the event is read by its origin again, which forwards it once more. -/
theorem not_neverForwardsAgain_of_chain (hread : serde.ReadsBack event)
    (h : Relation.TransGen (d.ForwardsTo event) origin origin) :
    ¬d.NeverForwardsAgain serde origin event := by
  intro hnever
  obtain ⟨a, hfirst, -⟩ := Relation.TransGen.head'_iff.mp h
  obtain ⟨order, m, hm, htarget, hcarries⟩ := exists_order_of_chain hread h
  obtain ⟨k, hk⟩ := List.getElem?_of_mem hm
  have honce := @one_le_count_run serde _ _ _ _ hfirst order
  have htwice := hnever (order ++ [k])
  rw [run, Interleave.run_concat, deliver_eq_receive hk] at htwice
  -- the origin forwards what it reads, since it forwarded an event of the same transaction at the
  -- start
  rcases receive_cases d hcarries
      { d.run serde origin event order with
          inFlight := (d.run serde origin event order).inFlight.eraseIdx k } with
    ⟨hkeeps, -⟩ | ⟨b, received, hb, -, hid, -, hnew⟩
  · obtain ⟨c, hc, hforward, -⟩ := hfirst
    rw [hkeeps c (htarget ▸ hc)] at hforward
    cases hforward
  · rw [hnew, htarget, List.count_append, List.count_singleton_self] at htwice
    change (d.run serde origin event order).forwards.count origin + 1 ≤ 1 at htwice
    omega

/-- **The origin never forwards an event again exactly if no chain of forwarding clusters leads back
to it**, where the peers receive the event as it was sent. -/
theorem neverForwardsAgain_iff (serde : EventSerde) (d : Deployment) (origin : String)
    (event : ChangeEvent) (hread : serde.ReadsBack event) :
    d.NeverForwardsAgain serde origin event ↔
      ¬Relation.TransGen (d.ForwardsTo event) origin origin := by
  constructor
  · intro hnever hchain
    exact not_neverForwardsAgain_of_chain hread hchain hnever
  · exact neverForwardsAgain_of_no_chain hread

/-- Two clusters that have registered each other. -/
def activeActive : Deployment where
  clusters :=
    [(SyncCoordinator.new "us-east-1").registerPeer "eu-west-1" "https://eu.caminus.io:9000",
      (SyncCoordinator.new "eu-west-1").registerPeer "us-east-1" "https://us.caminus.io:9000"]

/-- The event of the multi-cluster tests: an account is updated in `us-east-1`. -/
def accountUpdate : ChangeEvent where
  id := "evt-us-100"
  sourceDatabase := "users_db"
  sourceTableOrCollection := "accounts"
  operation := .update
  timestamp := 0
  key := .obj [("account_id", .nat 42)]
  before := none
  after := some (.obj [("balance", .nat 1500)])
  transactionId := some "tx-us-100"
  offset := "us-offset-100"

/-- It has no floats and no deep nesting, so it is read as it was written. -/
theorem readsBack_accountUpdate : EventSerde.compact.ReadsBack accountUpdate :=
  .of_plain (by decide) (by decide) (by decide)

/-- With two clusters as mutual peers `us-east-1` forwards its own update a second time. -/
theorem not_neverForwardsAgain_activeActive :
    ¬activeActive.NeverForwardsAgain EventSerde.compact "us-east-1" accountUpdate := by
  apply not_neverForwardsAgain_of_chain readsBack_accountUpdate
  have hthere : activeActive.ForwardsTo accountUpdate "us-east-1" "eu-west-1" :=
    ⟨_, rfl, by decide, _, List.mem_cons_self, rfl, rfl⟩
  have hback : activeActive.ForwardsTo accountUpdate "eu-west-1" "us-east-1" :=
    ⟨_, rfl, by decide, _, List.mem_cons_self, rfl, rfl⟩
  exact (Relation.TransGen.single hthere).tail hback

/-- A cluster with a standby that has no peers of its own. -/
def activePassive : Deployment where
  clusters :=
    [(SyncCoordinator.new "us-east-1").registerPeer "eu-west-1" "https://eu.caminus.io:9000",
      SyncCoordinator.new "eu-west-1"]

/-- Only the first cluster forwards, and to the second one. -/
theorem target_activePassive {a b : String} (h : activePassive.ForwardsTo accountUpdate a b) :
    b = "eu-west-1" := by
  obtain ⟨c, hc, -, peer, hpeer, -, rfl⟩ := h
  have hmem := List.mem_of_find?_eq_some hc
  simp only [activePassive, List.mem_cons, List.not_mem_nil, or_false] at hmem
  rcases hmem with rfl | rfl
  · rw [List.mem_singleton.mp hpeer]
  · cases hpeer

/-- A standby without peers sends nothing back. -/
theorem neverForwardsAgain_activePassive :
    activePassive.NeverForwardsAgain EventSerde.compact "us-east-1" accountUpdate := by
  refine (neverForwardsAgain_iff .compact activePassive "us-east-1" accountUpdate
    readsBack_accountUpdate).mpr fun hchain => ?_
  obtain ⟨a, -, hlast⟩ := Relation.TransGen.tail'_iff.mp hchain
  exact absurd (target_activePassive hlast) (by decide)

end Deployment

end Caminus

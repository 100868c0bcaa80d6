import HftLob.Engine.Inv
import HftLob.Lib.Machine

/-!
# Routing execution reports back to connections

`GatewayServer` names a session by its file descriptor: `dispatch` stamps it on every
event, the matcher copies it into every ack, and `drain_acks` looks it up in
`connections_` when the ack comes back. The kernel hands a closed descriptor out
again, and neither the events and acks under way nor the orders of the old connection
go away when it closes.

To tell two connections with one descriptor apart, the model numbers connections in
the order they are accepted. The numbers that ride along with events, acks and reports
are not data of the program: no step looks at them. A descriptor and the session id
made from it are one `UInt32` here.

The events pushed and not yet applied are one queue, whichever of the input queue, the
sequencer and the ring they are in. What is sent on a connection besides execution
reports, and the sequence numbers of its frames, are left out.
-/

namespace HftLob.Gateway

open HftLob.Book HftLob.Engine HftLob.Lib MatchingEngineConsumer

structure NewOrderMsg where
  clientOrderId : UInt64
  side : UInt8
  price : UInt32
  quantity : UInt32
  deriving DecidableEq, Repr

structure ExecutionReportMsg where
  clientOrderId : UInt64
  exchangeOrderId : UInt64
  status : ExecStatus
  fillPrice : UInt32
  fillQuantity : UInt32
  leavesQuantity : UInt32
  deriving DecidableEq, Repr

/-- The report `drain_acks` makes of an ack. -/
def executionReport (ack : OutboundAck) : ExecutionReportMsg where
  clientOrderId := ack.clientOrderId
  exchangeOrderId := ack.exchangeOrderId
  status := ack.status
  fillPrice := ack.fillPrice
  fillQuantity := ack.fillQuantity
  leavesQuantity := ack.leavesQuantity

/-- The `Rejected` that `dispatch` sends itself when the input queue is full. -/
def rejectedReport (clientOrderId : UInt64) : ExecutionReportMsg where
  clientOrderId := clientOrderId
  exchangeOrderId := 0
  status := .rejected
  fillPrice := 0
  fillQuantity := 0
  leavesQuantity := 0

/-- A report as it was written: to which connection, and on which connection the order
or cancel request it is about was received. -/
structure Report where
  connection : Nat
  message : ExecutionReportMsg
  concerns : Option Nat
  deriving DecidableEq, Repr

structure World (cap : PoolCapacity) where
  /-- `connections_`, with the number of the connection for its state. -/
  connections : UMap UInt32 Nat
  /-- How many connections have been accepted. -/
  accepted : Nat
  /-- Events pushed and not yet applied, each with the connection it came in on. -/
  pending : List (SequencedEvent × Nat)
  /-- Events applied, likewise. -/
  applied : List (SequencedEvent × Nat)
  engine : MatchingEngineConsumer cap
  /-- The ack queue, each ack with the connection its order or cancel came in on. -/
  acks : List (OutboundAck × Option Nat)
  /-- The reports written so far. -/
  reports : List Report
  /-- For each order that a cancel removed, the connection it came in on and the one
  the cancel came in on. -/
  removals : List (Option Nat × Nat)

def World.init (cap : PoolCapacity) : World cap where
  connections := ∅
  accepted := 0
  pending := []
  applied := []
  engine := MatchingEngineConsumer.init cap
  acks := []
  reports := []
  removals := []

/-- The connection an order came in on. -/
def submitter (applied : List (SequencedEvent × Nat)) (x : OrderId) : Option Nat :=
  (applied.find? (fun p => Submits p.1 x)).map Prod.snd

/-- What an ack of the event `ev` is about: the order it names if `ev` is a new order,
and otherwise the cancel request that `ev` is. -/
def concerns (applied : List (SequencedEvent × Nat)) (ev : SequencedEvent) (conn : Nat)
    (ack : OutboundAck) : Option Nat :=
  if ev.type = .newOrder then submitter applied ack.exchangeOrderId else some conn

inductive Action where
  /-- `accept_new_connection`; the kernel chooses the descriptor. -/
  | accept (fd : UInt32)
  | close (fd : UInt32)
  /-- `dispatch` of a `NewOrder` frame; `queued` is what `push` returned. -/
  | newOrder (fd : UInt32) (order : NewOrderMsg) (queued : Bool)
  | cancelOrder (fd : UInt32) (clientOrderId : UInt64) (queued : Bool)
  /-- The sequencer stamps the next event and the matcher applies it. -/
  | process (sequenceTsNs : UInt64)
  /-- One turn of the loop in `drain_acks`. -/
  | drain

namespace World

variable {cap : PoolCapacity}

/-- The end of `dispatch` for an order or a cancel: push the event, or reject at once. -/
def pushEvent (w : World cap) (fd : UInt32) (ev : SequencedEvent) (queued : Bool) :
    Option (World cap) :=
  match w.connections.lookup fd with
  | none => none
  | some conn =>
      if queued then some { w with pending := w.pending ++ [(ev, conn)] }
      else some { w with
        reports := w.reports ++ [⟨conn, rejectedReport ev.clientOrderId, some conn⟩] }

/-- The event `dispatch` makes of a `NewOrder` frame. -/
def newOrderEvent (fd : UInt32) (order : NewOrderMsg) : SequencedEvent :=
  { type := .newOrder, sessionId := fd, clientOrderId := order.clientOrderId,
    side := order.side, price := order.price, quantity := order.quantity }

def cancelOrderEvent (fd : UInt32) (clientOrderId : UInt64) : SequencedEvent :=
  { type := .cancelOrder, sessionId := fd, clientOrderId := clientOrderId }

/-- An event as the sequencer publishes it. -/
def stamp (w : World cap) (sequenceTsNs : UInt64) (ev : SequencedEvent) : SequencedEvent :=
  { ev with seqNum := UInt64.ofNat (w.applied.length + 1), sequenceTsNs := sequenceTsNs,
            producer := .gateway }

/-- The matcher applies an event that came in on `conn`. -/
def applyEvent (w : World cap) (ev : SequencedEvent) (conn : Nat) : World cap :=
  let applied := w.applied ++ [(ev, conn)]
  let r := w.engine.apply ev
  { w with
    applied := applied
    engine := r.1
    acks := w.acks ++ r.2.map (fun ack => (ack, concerns applied ev conn ack))
    removals := w.removals ++ (r.2.filter (fun ack => ack.status = .canceled)).map
      (fun ack => (submitter applied ack.exchangeOrderId, conn)) }

def step (w : World cap) : Action → Option (World cap)
  | .accept fd =>
      match w.connections.lookup fd with
      | none => some { w with connections := w.connections.insert fd w.accepted
                              accepted := w.accepted + 1 }
      | some _ => none -- the descriptor is not free
  | .close fd =>
      match w.connections.lookup fd with
      | none => none
      | some _ => some { w with connections := w.connections.erase fd }
  | .newOrder fd order queued => w.pushEvent fd (newOrderEvent fd order) queued
  | .cancelOrder fd clientOrderId queued =>
      w.pushEvent fd (cancelOrderEvent fd clientOrderId) queued
  | .process sequenceTsNs =>
      match w.pending with
      | [] => none
      | (ev, conn) :: pending =>
          some ({ w with pending := pending }.applyEvent (w.stamp sequenceTsNs ev) conn)
  | .drain =>
      match w.acks with
      | [] => none
      | (ack, about) :: acks =>
          match w.connections.lookup ack.sessionId with
          | none => some { w with acks := acks } -- disconnected before its ack arrived
          | some conn => some { w with
              acks := acks
              reports := w.reports ++ [⟨conn, executionReport ack, about⟩] }

/-! ## What a step can do -/

variable {w w' : World cap}

theorem accept_cases {fd : UInt32} (hw : w.step (.accept fd) = some w') :
    w.connections.lookup fd = none ∧ w' = { w with
      connections := w.connections.insert fd w.accepted
      accepted := w.accepted + 1 } := by
  dsimp only [step] at hw
  cases hc : w.connections.lookup fd with
  | none => rw [hc] at hw; exact ⟨rfl, (Option.some.inj hw).symm⟩
  | some conn => rw [hc] at hw; exact absurd hw (by simp)

theorem close_cases {fd : UInt32} (hw : w.step (.close fd) = some w') :
    w' = { w with connections := w.connections.erase fd } := by
  dsimp only [step] at hw
  cases hc : w.connections.lookup fd with
  | none => rw [hc] at hw; exact absurd hw (by simp)
  | some conn => rw [hc] at hw; exact (Option.some.inj hw).symm

theorem pushEvent_cases {fd : UInt32} {ev : SequencedEvent} {queued : Bool}
    (hw : w.pushEvent fd ev queued = some w') :
    ∃ conn, w.connections.lookup fd = some conn
      ∧ ((queued = true ∧ w' = { w with pending := w.pending ++ [(ev, conn)] })
        ∨ (queued = false ∧ w' = { w with
            reports := w.reports ++ [⟨conn, rejectedReport ev.clientOrderId, some conn⟩] })) := by
  unfold pushEvent at hw
  cases hc : w.connections.lookup fd with
  | none => rw [hc] at hw; exact absurd hw (by simp)
  | some conn =>
      rw [hc] at hw
      refine ⟨conn, rfl, ?_⟩
      cases queued with
      | true => exact Or.inl ⟨rfl, (Option.some.inj hw).symm⟩
      | false => exact Or.inr ⟨rfl, (Option.some.inj hw).symm⟩

theorem process_cases {ts : UInt64} (hw : w.step (.process ts) = some w') :
    ∃ ev conn pending, w.pending = (ev, conn) :: pending
      ∧ w' = { w with pending := pending }.applyEvent (w.stamp ts ev) conn := by
  dsimp only [step] at hw
  cases hp : w.pending with
  | nil => rw [hp] at hw; exact absurd hw (by simp)
  | cons p pending =>
      rw [hp] at hw
      exact ⟨p.1, p.2, pending, rfl, (Option.some.inj hw).symm⟩

theorem drain_cases (hw : w.step .drain = some w') :
    ∃ ack about acks, w.acks = (ack, about) :: acks
      ∧ ((w.connections.lookup ack.sessionId = none ∧ w' = { w with acks := acks })
        ∨ ∃ conn, w.connections.lookup ack.sessionId = some conn ∧ w' = { w with
            acks := acks
            reports := w.reports ++ [⟨conn, executionReport ack, about⟩] }) := by
  dsimp only [step] at hw
  cases ha : w.acks with
  | nil => rw [ha] at hw; exact absurd hw (by simp)
  | cons p acks =>
      obtain ⟨ack, about⟩ := p
      rw [ha] at hw
      dsimp only at hw
      refine ⟨ack, about, acks, rfl, ?_⟩
      cases hc : w.connections.lookup ack.sessionId with
      | none => rw [hc] at hw; exact Or.inl ⟨rfl, (Option.some.inj hw).symm⟩
      | some conn => rw [hc] at hw; exact Or.inr ⟨conn, rfl, (Option.some.inj hw).symm⟩

/-- What is reported in a step goes to an open connection. -/
theorem step_reports {a : Action} (hw : w.step a = some w') :
    ∃ more, w'.reports = w.reports ++ more
      ∧ ∀ r ∈ more, ∃ fd, w.connections.lookup fd = some r.connection := by
  have hnone : w'.reports = w.reports → ∃ more, w'.reports = w.reports ++ more
      ∧ ∀ r ∈ more, ∃ fd, w.connections.lookup fd = some r.connection :=
    fun h => ⟨[], by rw [h, List.append_nil], by simp⟩
  cases a with
  | accept fd => exact hnone (by rw [(accept_cases hw).2])
  | close fd => exact hnone (by rw [close_cases hw])
  | newOrder fd _ queued | cancelOrder fd _ queued =>
      obtain ⟨conn, hconn, ⟨-, rfl⟩ | ⟨-, rfl⟩⟩ := pushEvent_cases hw
      · exact hnone rfl
      · refine ⟨_, rfl, fun r hr => ?_⟩
        rw [List.mem_singleton.mp hr]
        exact ⟨fd, hconn⟩
  | process ts =>
      obtain ⟨ev, conn, pending, -, rfl⟩ := process_cases hw
      exact hnone rfl
  | drain =>
      obtain ⟨ack, about, acks, -, ⟨-, rfl⟩ | ⟨conn, hconn, rfl⟩⟩ := drain_cases hw
      · exact hnone rfl
      · refine ⟨_, rfl, fun r hr => ?_⟩
        rw [List.mem_singleton.mp hr]
        exact ⟨ack.sessionId, hconn⟩

/-- What is pushed in a step came in on the connection that its descriptor leads to. -/
theorem step_pending {a : Action} (hw : w.step a = some w') {p : SequencedEvent × Nat}
    (hp : p ∈ w'.pending) :
    p ∈ w.pending ∨ w.connections.lookup p.1.sessionId = some p.2 := by
  cases a with
  | accept fd => exact .inl (by rwa [(accept_cases hw).2] at hp)
  | close fd => exact .inl (by rwa [close_cases hw] at hp)
  | newOrder fd _ queued | cancelOrder fd _ queued =>
      obtain ⟨conn, hconn, ⟨-, rfl⟩ | ⟨-, rfl⟩⟩ := pushEvent_cases hw
      · rcases List.mem_append.mp hp with hold | hnew
        · exact .inl hold
        · rw [List.mem_singleton.mp hnew]
          exact .inr hconn
      · exact .inl hp
  | process ts =>
      obtain ⟨ev, conn, pending, hpending, rfl⟩ := process_cases hw
      exact .inl (hpending ▸ List.mem_cons_of_mem _ hp)
  | drain =>
      obtain ⟨_, _, _, -, ⟨-, rfl⟩ | ⟨_, -, rfl⟩⟩ := drain_cases hw <;> exact .inl hp

/-- A connection stays until it is closed. -/
theorem step_connected {a : Action} (hw : w.step a = some w') {fd : UInt32} {conn : Nat}
    (hconn : w.connections.lookup fd = some conn) (hopen : a ≠ .close fd) :
    w'.connections.lookup fd = some conn := by
  cases a with
  | accept fd' =>
      obtain ⟨hfree, rfl⟩ := accept_cases hw
      have hne : fd ≠ fd' := by
        rintro rfl
        exact absurd (hconn.symm.trans hfree) (by simp)
      exact (Finmap.lookup_insert_of_ne _ hne).trans hconn
  | close fd' =>
      obtain rfl := close_cases hw
      have hne : fd ≠ fd' := by
        rintro rfl
        exact hopen rfl
      exact (Finmap.lookup_erase_ne hne).trans hconn
  | newOrder fd' _ queued | cancelOrder fd' _ queued =>
      obtain ⟨_, -, ⟨-, rfl⟩ | ⟨-, rfl⟩⟩ := pushEvent_cases hw <;> exact hconn
  | process ts =>
      obtain ⟨_, _, _, -, rfl⟩ := process_cases hw
      exact hconn
  | drain =>
      obtain ⟨_, _, _, -, ⟨-, rfl⟩ | ⟨_, -, rfl⟩⟩ := drain_cases hw <;> exact hconn

end World

end HftLob.Gateway

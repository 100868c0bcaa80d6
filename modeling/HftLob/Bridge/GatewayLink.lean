import HftLob.Bridge.Blotter
import HftLob.Bridge.Codec
import HftLob.Gateway.Channel

/-!
# The blotter at the end of a connection

In `Blotter` a request goes to the gateway, and a report to the reader thread, as it is. Here
both go as frames. The bridge sends its logon first, and requests once the answer to it has
come in; `dispatch` takes each frame apart like any other. Back come all the frames that the
gateway sends on the connection, and from those that are reports `_handle` unpacks the fields.
How frames are cut out of the bytes is in `Codec`, and which numbers the requests carry in
`WireOrder`; here they may carry any.

A cancel can come too late here as in `Blotter`; the condition is one on frames and acks.
-/

namespace HftLob.Bridge

open HftLob.Book HftLob.Engine HftLob.Gateway HftLob.Lib HftLob.Lib.Struct
open HftLob.Wire (ClientMsg Frame MsgType execStatusByte)

/-! ## Frames -/

/-- `b"UI".ljust(8, b"\0")`, the symbol of every order. -/
def symbolUI : Vector UInt8 8 := #v[85, 73, 0, 0, 0, 0, 0, 0]

/-- The logon that `_connect_and_pump` sends. -/
def logonFrame (clientId : UInt64) : Frame := ClientMsg.frame 1 (.logon ⟨clientId, 5000, 0⟩)

def Request.msg : Request → ClientMsg
  | newOrder order =>
      .newOrder ⟨order.clientOrderId, symbolUI, order.side, order.price, order.quantity⟩
  | cancelOrder clientOrderId => .cancelOrder ⟨clientOrderId⟩

/-- `EXEC_STATUS`. The gateway sends no other byte. -/
def statusNamed : Int → Option ExecStatus
  | 1 => some .accepted
  | 2 => some .rejected
  | 3 => some .filled
  | 4 => some .partialFill
  | 5 => some .canceled
  | _ => none

/-- The report in a body, as `_handle` unpacks it. -/
def readReport (body : List UInt8) : Option ExecutionReportMsg :=
  match unpack execReportFmt body with
  | some [.int clientOrderId, .int exchangeOrderId, .int status, .int fillPrice, .int fillQty,
      .int leavesQty] =>
      (statusNamed status).map fun status =>
        ⟨.ofNat clientOrderId.toNat, .ofNat exchangeOrderId.toNat, status,
          .ofNat fillPrice.toNat, .ofNat fillQty.toNat, .ofNat leavesQty.toNat⟩
  | _ => none -- `struct.error`

theorem readReport_wireReport (m : ExecutionReportMsg) :
    readReport (wireReport m).bytes = some m := by
  have hstatus : statusNamed (execStatusByte m.status).toNat = some m.status := by
    cases m.status <;> rfl
  unfold readReport
  rw [unpack_report]
  simp [reportValues, wireReport, hstatus]

/-- The reports in the frames are what was put there. -/
theorem readReports_of_carries {messages : List ExecutionReportMsg} {frames : List Frame}
    (h : List.Forall₂ Carries messages frames) :
    frames.filterMap (fun f => readReport f.body) = messages := by
  induction h with
  | nil => rfl
  | @cons m f messages frames hf _ ih =>
      obtain ⟨n, rfl⟩ := hf
      have hread : readReport (executionReportFrame n (wireReport m)).body = some m :=
        readReport_wireReport m
      rw [List.filterMap_cons, hread, ih]

/-! ## The link -/

/-- `GatewayLink`, and the gateway at the other end of its connection. -/
structure GatewayLink (cap : PoolCapacity) where
  exchange : Exchange cap
  /-- The descriptor of the connection in the gateway. -/
  fd : UInt32
  clientId : UInt64
  /-- The answer to the logon has been handled. -/
  connected : Bool
  orderCounter : Nat
  /-- Orders that have their number and are not in `orders` yet. -/
  drawn : List NewOrderMsg
  /-- Calls that have yet to send. -/
  unsent : List Request
  /-- Frames sent and not yet dispatched. -/
  wire : List Frame
  /-- The frames that the gateway has sent on the connection, and how many of them the reader
  thread has handled. -/
  received : List Frame
  handled : Nat
  orders : UInt64 → Option BlotterOrder

inductive LinkAction where
  /-- `next_client_order_id`, and the body is packed. -/
  | draw (side : Side) (price quantity : Int)
  /-- The order is entered. -/
  | enter (i : Nat) (now : Int)
  /-- `submit_cancel`. -/
  | cancel (clientOrderId : UInt64)
  /-- The frame is sent, under whatever number `self.seq` was. -/
  | send (i : Nat) (seq : UInt32)
  /-- `_send_frame` that finds the session not logged on yet, or fails. -/
  | refuse (i : Nat)
  /-- The gateway dispatches the next frame. -/
  | dispatch (m : Moment)
  /-- Anything the gateway does besides: other sessions, heartbeats, the engine, acks. -/
  | gateway (a : ExchangeAction)
  /-- The reader thread handles the next frame. -/
  | handle (now : Int)

/-- The gateway reads from another connection, and does not give this one up. -/
def LeavesOpen {cap : PoolCapacity} (s : Exchange cap) (fd : UInt32) : ExchangeAction → Prop
  | .frame fd' _ _ | .close fd' => fd' ≠ fd
  | .heartbeat fd' now => fd' = fd → s.server.findsDead fd now = false
  | .accept _ | .process _ | .deliver _ => True

instance {cap : PoolCapacity} (s : Exchange cap) (fd : UInt32) (a : ExchangeAction) :
    Decidable (LeavesOpen s fd a) :=
  match a with
  | .frame fd' _ _ | .close fd' => inferInstanceAs (Decidable (fd' ≠ fd))
  | .heartbeat fd' _ => inferInstanceAs (Decidable (fd' = fd → _))
  | .accept _ | .process _ | .deliver _ => .isTrue trivial

namespace GatewayLink

variable {cap : PoolCapacity}

/-- The bridge has connected and sent its logon. -/
def start (e : Exchange cap) (fd : UInt32) (clientId : UInt64) : GatewayLink cap :=
  ⟨e, fd, clientId, false, 0, [], [], [logonFrame clientId], [], 0, fun _ => none⟩

/-- The gateway takes a step. What it sends on the connection is for the bridge to read. -/
def atGateway (s : GatewayLink cap) (a : ExchangeAction) : Option (GatewayLink cap) :=
  (s.exchange.step a).map fun e => { s with
    exchange := e
    received := s.received
      ++ sentOn s.fd (e.server.outputs.drop s.exchange.server.outputs.length) }

def step (s : GatewayLink cap) : LinkAction → Option (GatewayLink cap)
  | .draw side price quantity =>
      match drawOrder (s.orderCounter + 1) side price quantity with
      | none => some { s with orderCounter := s.orderCounter + 1 } -- the number is spent
      | some order => some { s with
          orderCounter := s.orderCounter + 1
          drawn := s.drawn ++ [order] }
  | .enter i now =>
      match s.drawn[i]? with
      | none => none
      | some order => some { s with
          drawn := s.drawn.eraseIdx i
          unsent := s.unsent ++ [.newOrder order]
          orders := Function.update s.orders order.clientOrderId (some (submittedOrder order now)) }
  | .cancel clientOrderId => some { s with unsent := s.unsent ++ [.cancelOrder clientOrderId] }
  | .send i seq =>
      match s.unsent[i]? with
      | none => none
      | some r =>
          if s.connected then some { s with
            unsent := s.unsent.eraseIdx i
            wire := s.wire ++ [r.msg.frame seq] }
          else none
  | .refuse i =>
      match s.unsent[i]? with
      | none => none
      | some _ => some { s with unsent := s.unsent.eraseIdx i }
  | .dispatch m =>
      match s.wire with
      | [] => none
      | f :: wire => { s with wire := wire }.atGateway (.frame s.fd f m)
  | .gateway a => if LeavesOpen s.exchange s.fd a then s.atGateway a else none
  | .handle now =>
      match s.received[s.handled]? with
      | none => none
      | some f =>
          if f.msgType = MsgType.logon.byte then
            some { s with handled := s.handled + 1, connected := true }
          else if IsReport f then
            (readReport f.body).map fun report => { s with
              handled := s.handled + 1
              orders := Function.update s.orders report.clientOrderId
                (some (handleReport (s.orders report.clientOrderId) report now)) }
          else some { s with handled := s.handled + 1 }

/-! ## Cancels that come too late -/

/-- The reports that have been sent to the bridge. -/
def reported (s : GatewayLink cap) : List ExecutionReportMsg :=
  (s.received.filter IsReport).filterMap fun f => readReport f.body

/-- The reports that are still in the ack queue. -/
def owed (s : GatewayLink cap) : List ExecutionReportMsg :=
  (s.exchange.acks.filter fun ack => ack.sessionId = s.fd).map executionReport

/-- No cancel is answered behind the end of the order it names: none is turned away by a full
queue once a report that the order is filled or canceled has been sent, and none is applied
once such a report has been sent or is in the ack queue. -/
def InTime (s : GatewayLink cap) : LinkAction → Prop
  | .dispatch m => m.queueRoom = false → ∀ f ∈ s.wire.head?, IsCancelOrder f →
      StillOpen s.reported (eventOf s.fd f).clientOrderId
  | .gateway (.process _) => ∀ ev ∈ s.exchange.pending.head?, ev.sessionId = s.fd →
      ev.type = .cancelOrder → StillOpen (s.reported ++ s.owed) ev.clientOrderId
  | _ => True

instance (s : GatewayLink cap) (a : LinkAction) : Decidable (s.InTime a) :=
  match a with
  | .dispatch m => inferInstanceAs (Decidable (m.queueRoom = false → ∀ f ∈ s.wire.head?, _))
  | .gateway (.process _) => inferInstanceAs (Decidable (∀ ev ∈ s.exchange.pending.head?, _))
  | .draw _ _ _ | .enter _ _ | .cancel _ | .send _ _ | .refuse _ | .handle _ => .isTrue trivial
  | .gateway (.accept _) | .gateway (.frame _ _ _) | .gateway (.close _)
  | .gateway (.heartbeat _ _) | .gateway (.deliver _) => .isTrue trivial

end GatewayLink

end HftLob.Bridge

import HftLob.Gateway.SessionReports

/-!
# The bridge's blotter

`GatewayLink.orders`: what the bridge knows of the orders it has submitted. A handler thread
draws a number from the order counter, enters the order as submitted and sends it; a cancel is
sent for whatever number the browser names. The reader thread takes the execution reports of
the session one by one and writes each into the entry with its client order id, whatever is
there and whatever the report is an answer to.

Beside the gateway as it is in `Routing`, the state has the calls of the handler threads that
are not done yet, and what is on the socket. It starts when the gateway has accepted the
bridge's connection, which lasts as long as the run. The threads of one kind need not
take their turns in the order in which they came.
-/

namespace HftLob.Bridge

open HftLob.Book HftLob.Engine HftLob.Gateway HftLob.Lib

/-! ## Orders -/

/-- An order is shown as submitted, and then with the status of its latest report. -/
inductive OrderStatus where
  | submitted
  | reported (status : ExecStatus)
  deriving DecidableEq, Repr

/-- The value under a client order id in `orders`. -/
structure BlotterOrder where
  clientOrderId : UInt64
  exchangeOrderId : UInt64
  /-- `"?"` if the order is not one that was submitted here. -/
  side : Option Side
  price : UInt32
  quantity : UInt32
  status : OrderStatus
  fillPrice : UInt32
  fillQuantity : UInt32
  leavesQuantity : UInt32
  ts : Int
  deriving DecidableEq, Repr

/-- `SIDE`. -/
def sideCode : Side → UInt8
  | .buy => 0
  | .sell => 1

/-- `SIDE_NAME`, in which other bytes have no name. -/
def sideNamed (b : UInt8) : Option Side :=
  if b = 0 then some .buy else if b = 1 then some .sell else none

/-- The body that `submit_new_order` packs when the counter has given it `n`; `none` is
`struct.error`. -/
def drawOrder (n : Nat) (side : Side) (price quantity : Int) : Option NewOrderMsg :=
  if n < 2 ^ 64 ∧ (0 ≤ price ∧ price < 2 ^ 32) ∧ (0 ≤ quantity ∧ quantity < 2 ^ 32) then
    some ⟨UInt64.ofNat n, sideCode side, UInt32.ofNat price.toNat, UInt32.ofNat quantity.toNat⟩
  else none

theorem drawOrder_id {n : Nat} {side : Side} {price quantity : Int} {order : NewOrderMsg}
    (h : drawOrder n side price quantity = some order) :
    order.clientOrderId = UInt64.ofNat n ∧ n < 2 ^ 64 := by
  unfold drawOrder at h
  split at h
  case isTrue hfits => cases h; exact ⟨rfl, hfits.1⟩
  case isFalse hfits => exact absurd h (by simp)

/-- The order that `submit_new_order` enters, under the side that it has packed the code of. -/
def submittedOrder (order : NewOrderMsg) (now : Int) : BlotterOrder where
  clientOrderId := order.clientOrderId
  exchangeOrderId := 0
  side := sideNamed order.side
  price := order.price
  quantity := order.quantity
  status := .submitted
  fillPrice := 0
  fillQuantity := 0
  leavesQuantity := order.quantity
  ts := now

theorem submittedOrder_side {n : Nat} {side : Side} {price quantity : Int} {order : NewOrderMsg}
    (h : drawOrder n side price quantity = some order) (now : Int) :
    (submittedOrder order now).side = some side := by
  unfold drawOrder at h
  split at h
  case isTrue hfits =>
    cases h
    cases side <;> rfl
  case isFalse hfits => exact absurd h (by simp)

/-- `_handle` of an execution report: the entry under its client order id. -/
def handleReport (entry : Option BlotterOrder) (report : ExecutionReportMsg) (now : Int) :
    BlotterOrder where
  clientOrderId := match entry with
    | some order => order.clientOrderId
    | none => report.clientOrderId
  exchangeOrderId := report.exchangeOrderId
  side := entry.bind BlotterOrder.side
  price := match entry with
    | some order => order.price
    | none => 0
  quantity := match entry with
    | some order => order.quantity
    | none => 0
  status := .reported report.status
  fillPrice := report.fillPrice
  fillQuantity := report.fillQuantity
  leavesQuantity := report.leavesQuantity
  ts := now

/-- The order is shown as filled or canceled. -/
def BlotterOrder.Finished (order : BlotterOrder) : Prop :=
  order.status = .reported .filled ∨ order.status = .reported .canceled

instance (order : BlotterOrder) : Decidable order.Finished :=
  inferInstanceAs (Decidable (_ ∨ _))

/-! ## The bridge and the gateway -/

/-- A frame that a handler thread sends. -/
inductive Request where
  | newOrder (order : NewOrderMsg)
  | cancelOrder (clientOrderId : UInt64)
  deriving DecidableEq, Repr

structure Blotter (cap : PoolCapacity) where
  world : World cap
  /-- The descriptor of the bridge's connection in the gateway, and its number. -/
  fd : UInt32
  conn : Nat
  orderCounter : Nat
  /-- Orders that have their number and are not in `orders` yet. -/
  drawn : List NewOrderMsg
  /-- Calls that have yet to send. -/
  unsent : List Request
  /-- Frames sent and not yet dispatched. -/
  wire : List Request
  /-- How many of the reports written to the connection the reader thread has handled. -/
  handled : Nat
  orders : UInt64 → Option BlotterOrder

inductive BlotterAction where
  /-- `next_client_order_id`, and the body is packed. -/
  | draw (side : Side) (price quantity : Int)
  /-- The order is entered. -/
  | enter (i : Nat) (now : Int)
  /-- `submit_cancel`. -/
  | cancel (clientOrderId : UInt64)
  | send (i : Nat)
  /-- `_send_frame` that finds the session not logged on yet, or fails. -/
  | refuse (i : Nat)
  /-- The gateway dispatches the next frame; `queued` is what `push` returns. -/
  | dispatch (queued : Bool)
  /-- Anything the gateway does besides: other sessions, the engine, delivering acks. -/
  | gateway (a : Action)
  /-- The reader thread handles the next report. -/
  | handle (now : Int)

/-- What the gateway makes of a frame. -/
def Request.action (fd : UInt32) (queued : Bool) : Request → Action
  | newOrder order => .newOrder fd order queued
  | cancelOrder clientOrderId => .cancelOrder fd clientOrderId queued

/-- The gateway reads from another connection, or from none. -/
def Elsewhere (fd : UInt32) : Action → Prop
  | .close fd' | .newOrder fd' _ _ | .cancelOrder fd' _ _ => fd' ≠ fd
  | .accept _ | .process _ | .drain => True

instance (fd : UInt32) (a : Action) : Decidable (Elsewhere fd a) :=
  match a with
  | .close fd' | .newOrder fd' _ _ | .cancelOrder fd' _ _ => inferInstanceAs (Decidable (fd' ≠ fd))
  | .accept _ | .process _ | .drain => .isTrue trivial

namespace Blotter

variable {cap : PoolCapacity}

/-- The bridge when its connection has been accepted. -/
def start (w : World cap) (fd : UInt32) (conn : Nat) : Blotter cap :=
  ⟨w, fd, conn, 0, [], [], [], 0, fun _ => none⟩

def step (s : Blotter cap) : BlotterAction → Option (Blotter cap)
  | .draw side price quantity =>
      match drawOrder (s.orderCounter + 1) side price quantity with
      | none => some { s with orderCounter := s.orderCounter + 1 } -- the number is spent
      | some order => some { s with
          orderCounter := s.orderCounter + 1
          drawn := s.drawn ++ [order] }
  | .enter i now =>
      match s.drawn[i]? with
      | none => none
      | some order => some { s with
          drawn := s.drawn.eraseIdx i
          unsent := s.unsent ++ [.newOrder order]
          orders := Function.update s.orders order.clientOrderId (some (submittedOrder order now)) }
  | .cancel clientOrderId => some { s with unsent := s.unsent ++ [.cancelOrder clientOrderId] }
  | .send i =>
      match s.unsent[i]? with
      | none => none
      | some r => some { s with unsent := s.unsent.eraseIdx i, wire := s.wire ++ [r] }
  | .refuse i =>
      match s.unsent[i]? with
      | none => none
      | some _ => some { s with unsent := s.unsent.eraseIdx i }
  | .dispatch queued =>
      match s.wire with
      | [] => none
      | r :: wire =>
          (s.world.step (r.action s.fd queued)).map fun w => { s with world := w, wire := wire }
  | .gateway a =>
      if Elsewhere s.fd a then (s.world.step a).map fun w => { s with world := w } else none
  | .handle now =>
      match (written s.world s.conn)[s.handled]? with
      | none => none
      | some report => some { s with
          handled := s.handled + 1
          orders := Function.update s.orders report.clientOrderId
            (some (handleReport (s.orders report.clientOrderId) report now)) }

/-- What a step can do. -/
inductive Moves (s : Blotter cap) : BlotterAction → Blotter cap → Prop
  | spend (side : Side) (price quantity : Int) :
      s.Moves (.draw side price quantity) { s with orderCounter := s.orderCounter + 1 }
  | draw {side : Side} {price quantity : Int} {order : NewOrderMsg}
      (horder : drawOrder (s.orderCounter + 1) side price quantity = some order) :
      s.Moves (.draw side price quantity)
        { s with orderCounter := s.orderCounter + 1, drawn := s.drawn ++ [order] }
  | enter {i : Nat} {order : NewOrderMsg} (hi : s.drawn[i]? = some order) (now : Int) :
      s.Moves (.enter i now) { s with
        drawn := s.drawn.eraseIdx i
        unsent := s.unsent ++ [.newOrder order]
        orders := Function.update s.orders order.clientOrderId (some (submittedOrder order now)) }
  | cancel (clientOrderId : UInt64) :
      s.Moves (.cancel clientOrderId) { s with unsent := s.unsent ++ [.cancelOrder clientOrderId] }
  | send {i : Nat} {r : Request} (hi : s.unsent[i]? = some r) :
      s.Moves (.send i) { s with unsent := s.unsent.eraseIdx i, wire := s.wire ++ [r] }
  | refuse {i : Nat} {r : Request} (hi : s.unsent[i]? = some r) :
      s.Moves (.refuse i) { s with unsent := s.unsent.eraseIdx i }
  | dispatch {r : Request} {wire : List Request} {queued : Bool} {w : World cap}
      (hwire : s.wire = r :: wire) (hw : s.world.step (r.action s.fd queued) = some w) :
      s.Moves (.dispatch queued) { s with world := w, wire := wire }
  | gateway {a : Action} {w : World cap} (helse : Elsewhere s.fd a)
      (hw : s.world.step a = some w) : s.Moves (.gateway a) { s with world := w }
  | handle {report : ExecutionReportMsg}
      (hnext : (written s.world s.conn)[s.handled]? = some report) (now : Int) :
      s.Moves (.handle now) { s with
        handled := s.handled + 1
        orders := Function.update s.orders report.clientOrderId
          (some (handleReport (s.orders report.clientOrderId) report now)) }

theorem moves_of_step {s s' : Blotter cap} {a : BlotterAction} (hs : s.step a = some s') :
    s.Moves a s' := by
  cases a with
  | draw side price quantity =>
      dsimp only [step] at hs
      split at hs
      case h_1 => cases hs; exact .spend side price quantity
      case h_2 order horder => cases hs; exact .draw horder
  | enter i now =>
      dsimp only [step] at hs
      split at hs
      case h_1 => exact absurd hs (by simp)
      case h_2 order hi => cases hs; exact .enter hi now
  | cancel clientOrderId => cases hs; exact .cancel clientOrderId
  | send i =>
      dsimp only [step] at hs
      split at hs
      case h_1 => exact absurd hs (by simp)
      case h_2 r hi => cases hs; exact .send hi
  | refuse i =>
      dsimp only [step] at hs
      split at hs
      case h_1 => exact absurd hs (by simp)
      case h_2 r hi => cases hs; exact .refuse hi
  | dispatch queued =>
      dsimp only [step] at hs
      split at hs
      case h_1 => exact absurd hs (by simp)
      case h_2 r wire hwire =>
        obtain ⟨w, hw, rfl⟩ := Option.map_eq_some_iff.mp hs
        exact .dispatch hwire hw
  | gateway a =>
      dsimp only [step] at hs
      split at hs
      case isTrue helse =>
        obtain ⟨w, hw, rfl⟩ := Option.map_eq_some_iff.mp hs
        exact .gateway helse hw
      case isFalse => exact absurd hs (by simp)
  | handle now =>
      dsimp only [step] at hs
      split at hs
      case h_1 => exact absurd hs (by simp)
      case h_2 report hnext => cases hs; exact .handle hnext now

end Blotter

/-! ## Cancels that come too late -/

/-- None of the reports says that the order with this id is filled or canceled. -/
def StillOpen (reports : List ExecutionReportMsg) (clientOrderId : UInt64) : Prop :=
  ∀ r ∈ reports, closes r.status → r.clientOrderId ≠ clientOrderId

instance (reports : List ExecutionReportMsg) (clientOrderId : UInt64) :
    Decidable (StillOpen reports clientOrderId) :=
  inferInstanceAs (Decidable (∀ r ∈ reports, _))

/-- The id that a cancel names. -/
def Request.canceled : Request → Option UInt64
  | newOrder _ => none
  | cancelOrder clientOrderId => some clientOrderId

/-- If the next frame is a cancel, its order has not been reported as closed yet. -/
def NextRefusable {cap : PoolCapacity} (s : Blotter cap) : Prop :=
  ∀ c ∈ s.wire.head?.bind Request.canceled, StillOpen (written s.world s.conn) c

instance {cap : PoolCapacity} (s : Blotter cap) : Decidable (NextRefusable s) :=
  inferInstanceAs (Decidable (∀ c ∈ s.wire.head?.bind Request.canceled, _))

/-- If the next event is a cancel of the bridge, the engine has not closed its order yet. -/
def NextApplicable {cap : PoolCapacity} (s : Blotter cap) : Prop :=
  ∀ p ∈ s.world.pending.head?, p.2 = s.conn → p.1.type = .cancelOrder →
    StillOpen (allReports s.world s.fd s.conn) p.1.clientOrderId

instance {cap : PoolCapacity} (s : Blotter cap) : Decidable (NextApplicable s) :=
  inferInstanceAs (Decidable (∀ p ∈ s.world.pending.head?, _))

/-- No cancel of the bridge is answered behind the end of the order it names: none is applied
once the engine has reported the order as filled or canceled, and none is turned away by a
full queue once that report has been written. -/
def CancelsInTime {cap : PoolCapacity} (s : Blotter cap) : BlotterAction → Prop
  | .dispatch false => NextRefusable s
  | .gateway (.process _) => NextApplicable s
  | _ => True

instance {cap : PoolCapacity} (s : Blotter cap) (a : BlotterAction) :
    Decidable (CancelsInTime s a) :=
  match a with
  | .dispatch false => inferInstanceAs (Decidable (NextRefusable s))
  | .gateway (.process _) => inferInstanceAs (Decidable (NextApplicable s))
  | .draw _ _ _ | .enter _ _ | .cancel _ | .send _ | .refuse _ | .dispatch true | .handle _ =>
      .isTrue trivial
  | .gateway (.accept _) | .gateway (.close _) | .gateway (.newOrder _ _ _)
  | .gateway (.cancelOrder _ _ _) | .gateway .drain => .isTrue trivial

end HftLob.Bridge

import Mathlib.Data.Finmap

/-!
# The records that cross thread and module boundaries

`types.hpp`, `event.hpp`, `outbound_ack.hpp` and the enumerations of
`gateway_protocol.hpp`. Identifiers, timestamps and quantities keep the width
the source gives them, so arithmetic on them wraps exactly where the C++ does.
A `Price` is an `int64_t` that the book only ever compares, and is an `Int` here.
-/

namespace HftLob

/-- `enum class Side`, as the book tells its values apart: it only ever asks for `Side::Buy`. -/
inductive Side where
  | buy
  | sell
  deriving DecidableEq, Repr, Inhabited

/-- What the book takes a `Side` for. Beneath the enumeration is a `uint8_t`, so that one which
was copied from a message can be any byte. -/
def Side.ofByte (b : UInt8) : Side := if b = 0 then .buy else .sell

abbrev OrderId := UInt64
abbrev Price := Int
abbrev Qty := UInt32
abbrev Nanos := UInt64

/-- A resting order; `qty` is what is still unfilled. -/
structure Order where
  id : OrderId := 0
  side : Side := .buy
  price : Price := 0
  qty : Qty := 0
  tsNs : Nanos := 0
  deriving DecidableEq, Repr, Inhabited

structure Trade where
  buyOrderId : OrderId := 0
  sellOrderId : OrderId := 0
  price : Price := 0
  qty : Qty := 0
  tsNs : Nanos := 0
  deriving DecidableEq, Repr, Inhabited

/-- `std::unordered_map`: no modelled function depends on its iteration order. -/
abbrev UMap (κ v : Type) := Finmap (fun _ : κ => v)

/-! ## The sequenced stream -/

inductive EventType where
  | newOrder
  | cancelOrder
  | marketDataOrder
  | admin
  deriving DecidableEq, Repr, Inhabited

/-- `ProducerId::Count` is the number of constructors, not one of them. -/
inductive ProducerId where
  | gateway
  | feedReplay
  | admin
  deriving DecidableEq, Repr, Inhabited

structure SequencedEvent where
  seqNum : UInt64 := 0
  ingressTsNs : UInt64 := 0
  sequenceTsNs : UInt64 := 0
  type : EventType := .newOrder
  producer : ProducerId := .gateway
  sessionId : UInt32 := 0
  clientOrderId : UInt64 := 0
  /-- As it came in: nobody checks that it is one of the two names of `Side`. -/
  side : UInt8 := 0
  price : UInt32 := 0
  quantity : UInt32 := 0
  deriving DecidableEq, Repr, Inhabited

/-- The side that the book puts the order of an event on. -/
def SequencedEvent.bookSide (ev : SequencedEvent) : Side := .ofByte ev.side

/-! ## Execution reports -/

inductive ExecStatus where
  | accepted
  | rejected
  | filled
  | partialFill
  | canceled
  deriving DecidableEq, Repr, Inhabited

/-- What the matcher tells the gateway; `sessionId` routes it to a connection. -/
structure OutboundAck where
  sessionId : UInt32
  clientOrderId : UInt64
  /-- `0` if the request never reached the book. -/
  exchangeOrderId : UInt64
  status : ExecStatus
  fillPrice : UInt32
  fillQuantity : UInt32
  leavesQuantity : UInt32
  deriving DecidableEq, Repr, Inhabited

end HftLob

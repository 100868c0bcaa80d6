import HftLob.Book.OrderBook
import HftLob.Lib.Mealy

/-!
# The matching engine

`MatchingEngineConsumer<PoolCapacity>::apply`. The engine owns the book and two
maps beside it: `resting_` from an exchange id to the owner of the order and a
second copy of its remaining quantity, and `by_client_` from what a client calls
its order to the exchange id. The exchange id of an order is the sequence number
of its `NewOrder` event.

An ack is emitted by returning it; what the two ack queues then make of it is not
part of this module. `Qty` arithmetic wraps, as in the source.
-/

namespace HftLob.Engine

open HftLob.Book HftLob.Lib

structure OrderKey where
  sessionId : UInt32
  clientOrderId : UInt64
  deriving DecidableEq, Repr

structure RestingOrderInfo where
  sessionId : UInt32
  clientOrderId : UInt64
  remainingQty : Qty
  deriving DecidableEq, Repr

def RestingOrderInfo.key (info : RestingOrderInfo) : OrderKey :=
  ⟨info.sessionId, info.clientOrderId⟩

/-- What a client calls the order an event is about. -/
def orderKey (ev : SequencedEvent) : OrderKey := ⟨ev.sessionId, ev.clientOrderId⟩

structure MatchingEngineConsumer (cap : PoolCapacity) where
  book : OrderBook cap
  byClient : UMap OrderKey OrderId
  resting : UMap OrderId RestingOrderInfo

/-- What the loop over the trades of one event updates. -/
structure FillState where
  filledOnIncoming : Qty
  byClient : UMap OrderKey OrderId
  resting : UMap OrderId RestingOrderInfo
  acks : List OutboundAck

/-- The other leg of a trade of the order `exchangeId`. -/
def counterparty (exchangeId : OrderId) (t : Trade) : OrderId :=
  if t.buyOrderId = exchangeId then t.sellOrderId else t.buyOrderId

/-- The ack to the owner of a resting order, `qty` of which was just filled. -/
def fillAck (exchangeId : OrderId) (info : RestingOrderInfo) (price : Price) (qty : Qty) :
    OutboundAck where
  sessionId := info.sessionId
  clientOrderId := info.clientOrderId
  exchangeOrderId := exchangeId
  status := if info.remainingQty - qty = 0 then .filled else .partialFill
  fillPrice := UInt32.ofInt price
  fillQuantity := qty
  leavesQuantity := info.remainingQty - qty

/-- One turn of the loop: settle the resting order of the trade and ack its owner. -/
def ackTrade (exchangeId : OrderId) (st : FillState) (t : Trade) : FillState :=
  match st.resting.lookup (counterparty exchangeId t) with
  | none => { st with filledOnIncoming := st.filledOnIncoming + t.qty } -- `continue`
  | some info =>
      let acks := st.acks ++ [fillAck (counterparty exchangeId t) info t.price t.qty]
      if info.remainingQty - t.qty = 0 then
        { filledOnIncoming := st.filledOnIncoming + t.qty
          byClient := st.byClient.erase info.key
          resting := st.resting.erase (counterparty exchangeId t)
          acks := acks }
      else
        { filledOnIncoming := st.filledOnIncoming + t.qty
          byClient := st.byClient
          resting := st.resting.insert (counterparty exchangeId t)
            { info with remainingQty := info.remainingQty - t.qty }
          acks := acks }

namespace MatchingEngineConsumer

variable {cap : PoolCapacity}

def init (cap : PoolCapacity) : MatchingEngineConsumer cap where
  book := OrderBook.init cap
  byClient := ∅
  resting := ∅

/-- `book_.add_limit_order(...)` for an event, into a cleared `trades_`. -/
def addOrder (e : MatchingEngineConsumer cap) (ev : SequencedEvent) :
    OrderBook cap × List Trade :=
  e.book.addLimitOrder ev.seqNum ev.bookSide ev.price.toNat ev.quantity ev.sequenceTsNs []

/-- The loop over `trades_`. -/
def settle (e : MatchingEngineConsumer cap) (ev : SequencedEvent) (trades : List Trade) :
    FillState :=
  trades.foldl (ackTrade ev.seqNum) ⟨0, e.byClient, e.resting, []⟩

/-- The one aggregated ack for the incoming order, at the price of its last trade. -/
def incomingAck (ev : SequencedEvent) (trades : List Trade) (filledOnIncoming leaves : Qty) :
    OutboundAck where
  sessionId := ev.sessionId
  clientOrderId := ev.clientOrderId
  exchangeOrderId := ev.seqNum
  status := if filledOnIncoming = 0 then .accepted else if leaves = 0 then .filled else .partialFill
  fillPrice := match trades.getLast? with
    | none => 0
    | some t => UInt32.ofInt t.price
  fillQuantity := filledOnIncoming
  leavesQuantity := leaves

def applyNewOrder (e : MatchingEngineConsumer cap) (ev : SequencedEvent) :
    MatchingEngineConsumer cap × List OutboundAck :=
  let (book, trades) := e.addOrder ev
  let st := e.settle ev trades
  let leaves := ev.quantity - st.filledOnIncoming
  let acks := st.acks ++ [incomingAck ev trades st.filledOnIncoming leaves]
  -- decided from the trades alone, whether or not the book had a slot for the rest
  if leaves > 0 then
    ({ book := book
       byClient := st.byClient.insert (orderKey ev) ev.seqNum
       resting := st.resting.insert ev.seqNum ⟨ev.sessionId, ev.clientOrderId, leaves⟩ }, acks)
  else ({ book := book, byClient := st.byClient, resting := st.resting }, acks)

/-- The ack of a cancel, which carries no fill. -/
def cancelAck (ev : SequencedEvent) (exchangeId : OrderId) (status : ExecStatus) :
    OutboundAck where
  sessionId := ev.sessionId
  clientOrderId := ev.clientOrderId
  exchangeOrderId := exchangeId
  status := status
  fillPrice := 0
  fillQuantity := 0
  leavesQuantity := 0

def applyCancelOrder (e : MatchingEngineConsumer cap) (ev : SequencedEvent) :
    MatchingEngineConsumer cap × List OutboundAck :=
  match e.byClient.lookup (orderKey ev) with
  | none => (e, [cancelAck ev 0 .rejected])
  | some exchangeId =>
      -- both maps forget the order whatever the book answers
      let (book, removed) := e.book.cancel exchangeId
      ({ book := book
         byClient := e.byClient.erase (orderKey ev)
         resting := e.resting.erase exchangeId },
       [cancelAck ev exchangeId (if removed then .canceled else .rejected)])

def apply (e : MatchingEngineConsumer cap) (ev : SequencedEvent) :
    MatchingEngineConsumer cap × List OutboundAck :=
  match ev.type with
  | .newOrder => e.applyNewOrder ev
  | .cancelOrder => e.applyCancelOrder ev
  | .marketDataOrder => (e, []) -- no producer feeds these two yet
  | .admin => (e, [])

/-- Every event in turn, with all the acks in the order they are constructed. -/
def replay (e : MatchingEngineConsumer cap) (evs : List SequencedEvent) :
    MatchingEngineConsumer cap × List OutboundAck :=
  Mealy.run apply e evs

theorem replay_concat (e : MatchingEngineConsumer cap) (evs : List SequencedEvent)
    (ev : SequencedEvent) :
    e.replay (evs ++ [ev])
      = (((e.replay evs).1.apply ev).1, (e.replay evs).2 ++ ((e.replay evs).1.apply ev).2) :=
  Mealy.run_concat e evs ev

end MatchingEngineConsumer

/-- The stamps a sequencer gives: from one on, strictly increasing. -/
def Sequenced (evs : List SequencedEvent) : Prop :=
  (∀ ev ∈ evs, 1 ≤ ev.seqNum) ∧ evs.Pairwise (fun ev ev' => ev.seqNum < ev'.seqNum)

instance (evs : List SequencedEvent) : Decidable (Sequenced evs) :=
  inferInstanceAs (Decidable (_ ∧ _))

end HftLob.Engine

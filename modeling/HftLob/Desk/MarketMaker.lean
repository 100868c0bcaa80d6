import HftLob.Book.OrderBook

/-!
# The market maker, and an engine with one on it

`MarketMaker::on_tick` looks at the top of the book and moves its two quotes when the mid
price has moved far enough. `hft_lob` and `engine_subscriber` run the same body over their
orders: the order goes into the book, then the market maker gets its tick.

Prices are integers here. Where the source adds or subtracts two of them the result is
brought back to 64 bits; the overflow itself, which the language leaves undefined, wraps.
-/

namespace HftLob.Desk

open HftLob.Book

variable {cap : PoolCapacity}

/-- The value of an `int64_t` expression. -/
def int64 (x : Int) : Price := Int.bmod x (2 ^ 64)

theorem int64_of_range {x : Int} (hlo : -2 ^ 63 ≤ x) (hhi : x < 2 ^ 63) : int64 x = x :=
  Int.bmod_eq_of_le (by omega) (by omega)

structure MarketMaker where
  halfSpread : Price
  quoteSize : Qty
  requoteThreshold : Price
  quoting : Bool := false
  lastMid : Price := 0
  myBidId : OrderId := 0
  myAskId : OrderId := 0

/-- What a call of `on_tick` leaves behind. -/
structure Tick (cap : PoolCapacity) where
  maker : MarketMaker
  book : OrderBook cap
  nextId : OrderId
  trades : List Trade

/-- The books between the calls that move the quotes; the last two with the trades so far. -/
structure Requote (cap : PoolCapacity) where
  bidGone : OrderBook cap
  askGone : OrderBook cap
  bidPlaced : OrderBook cap × List Trade
  askPlaced : OrderBook cap × List Trade

namespace MarketMaker

/-- `(bid_px + ask_px) / 2`, which is rounded toward zero. -/
def midOf (bidPx askPx : Price) : Price := (int64 (bidPx + askPx)).tdiv 2

/-- `|mid - last_mid_|`. -/
def delta (mm : MarketMaker) (mid : Price) : Price :=
  if int64 (mid - mm.lastMid) < 0 then int64 (-int64 (mid - mm.lastMid))
  else int64 (mid - mm.lastMid)

/-- Where the quotes move to; `none` if they stay as they are. -/
def target (mm : MarketMaker) (book : OrderBook cap) : Option Price :=
  match book.bestBid, book.bestAsk with
  | some (bidPx, _), some (askPx, _) =>
      if mm.quoting ∧ mm.delta (midOf bidPx askPx) < mm.requoteThreshold then none
      else some (midOf bidPx askPx)
  | _, _ => none

def requote (mm : MarketMaker) (book : OrderBook cap) (nextId : OrderId) (mid : Price)
    (tsNs : Nanos) (tradesOut : List Trade) : Requote cap :=
  let bidGone := if mm.quoting then (book.cancel mm.myBidId).1 else book
  let askGone := if mm.quoting then (bidGone.cancel mm.myAskId).1 else bidGone
  let bidPlaced := askGone.addLimitOrder nextId .buy (int64 (mid - mm.halfSpread)) mm.quoteSize
    tsNs tradesOut
  let askPlaced := bidPlaced.1.addLimitOrder (nextId + 1) .sell (int64 (mid + mm.halfSpread))
    mm.quoteSize tsNs bidPlaced.2
  ⟨bidGone, askGone, bidPlaced, askPlaced⟩

def onTick (mm : MarketMaker) (book : OrderBook cap) (nextId : OrderId) (tsNs : Nanos)
    (tradesOut : List Trade) : Tick cap :=
  match mm.target book with
  | none => ⟨mm, book, nextId, tradesOut⟩
  | some mid =>
      ⟨{ mm with quoting := true, lastMid := mid, myBidId := nextId, myAskId := nextId + 1 },
       (mm.requote book nextId mid tsNs tradesOut).askPlaced.1, nextId + 1 + 1,
       (mm.requote book nextId mid tsNs tradesOut).askPlaced.2⟩

end MarketMaker

/-- What the engine's loop keeps. -/
structure TickEngine (cap : PoolCapacity) where
  book : OrderBook cap
  maker : MarketMaker
  strategyIdCursor : OrderId
  processed : Nat
  tradeCount : Nat
  /-- Every trade so far; the source only counts them. -/
  trades : List Trade

namespace TickEngine

def init (cap : PoolCapacity) : TickEngine cap where
  book := OrderBook.init cap
  maker := { halfSpread := 3, quoteSize := 10, requoteThreshold := 2 }
  strategyIdCursor := 1000000000
  processed := 0
  tradeCount := 0
  trades := []

/-- The body of the loop, at the time the program goes by. -/
def process (e : TickEngine cap) (order : Order) (tsNs : Nanos) : TickEngine cap :=
  let added := e.book.addLimitOrder order.id order.side order.price order.qty tsNs []
  let tick := e.maker.onTick added.1 e.strategyIdCursor tsNs added.2
  { book := tick.book
    maker := tick.maker
    strategyIdCursor := tick.nextId
    processed := e.processed + 1
    tradeCount := e.tradeCount + tick.trades.length
    trades := e.trades ++ tick.trades }

/-- The orders in turn, each with its time. -/
def processAll (e : TickEngine cap) (orders : List (Order × Nanos)) : TickEngine cap :=
  orders.foldl (fun e o => e.process o.1 o.2) e

end TickEngine

end HftLob.Desk

import HftLob.Book.Pool
import HftLob.Lib.SortedMap
import Mathlib.Order.Interval.Set.Basic

/-!
# The order book

`OrderBook<PoolCapacity>`: two maps of price levels with opposite comparators,
the pool the orders live in, and the index `locate_` that `cancel` goes through.
A level is a `std::deque<Order*>`, here the list of its slots from front to back.

The two loops of `match_against` walk levels and orders from the front, and the
recursion follows them. An iteration that does not pop the front order has used
up the incoming quantity (`fillFront_reduce`), so the loop test that follows it
fails: the recursion stops there.
-/

namespace HftLob.Book

open HftLob.Lib

/-- Price levels, best first: `std::greater` for bids, `std::less` for asks. -/
abbrev LevelMap (lt : Price → Price → Prop) := SortedMap Price (List Nat) lt

structure OrderBook (cap : PoolCapacity) where
  bids : LevelMap (· > ·)
  asks : LevelMap (· < ·)
  pool : ObjectPool Order cap
  locate : UMap OrderId (Side × Price)

/-- What the matching loops update: the incoming quantity, the pool, `locate_`
and the trades appended so far. -/
structure MatchState (cap : PoolCapacity) where
  qty : Qty
  pool : ObjectPool Order cap
  locate : UMap OrderId (Side × Price)
  trades : List Trade

namespace OrderBook

variable {cap : PoolCapacity}

/-- A default-constructed book. -/
def init (cap : PoolCapacity) : OrderBook cap where
  bids := SortedMap.empty
  asks := SortedMap.empty
  pool := ObjectPool.init cap
  locate := ∅

/-! ## Matching -/

/-- The trade of an incoming order against `resting`, at the resting level's price. -/
def tradeWith (id : OrderId) (side : Side) (tsNs : Nanos) (px : Price) (resting : OrderId)
    (fill : Qty) : Trade where
  buyOrderId := if side = .buy then id else resting
  sellOrderId := if side = .buy then resting else id
  price := px
  qty := fill
  tsNs := tsNs

/-- The body of the inner loop, on the order at the front of the level. The flag
says whether the order was filled to nothing and popped. -/
def fillFront (id : OrderId) (side : Side) (tsNs : Nanos) (px : Price) (slot : Nat)
    (m : MatchState cap) : MatchState cap × Bool :=
  let resting := m.pool.storage slot
  let fill := min m.qty resting.qty
  let trades := m.trades ++ [tradeWith id side tsNs px resting.id fill]
  let pool := m.pool.write slot { resting with qty := resting.qty - fill }
  -- a filled order leaves the queue, the index and the pool together
  if resting.qty - fill = 0 then
    (⟨m.qty - fill, pool.release slot, m.locate.erase resting.id, trades⟩, true)
  else
    (⟨m.qty - fill, pool, m.locate, trades⟩, false)

/-- The inner loop: `while (qty > 0 && !dq.empty())`. -/
def matchLevel (id : OrderId) (side : Side) (tsNs : Nanos) (px : Price) :
    List Nat → MatchState cap → List Nat × MatchState cap
  | [], m => ([], m)
  | slot :: dq, m =>
      if m.qty > 0 then
        if (fillFront id side tsNs px slot m).2 then
          matchLevel id side tsNs px dq (fillFront id side tsNs px slot m).1
        else (slot :: dq, (fillFront id side tsNs px slot m).1)
      else (slot :: dq, m)

/-- The outer loop: `while (qty > 0 && !opposite.empty())`. -/
def matchLevels (crosses : Price → Price → Bool) (id : OrderId) (side : Side) (price : Price)
    (tsNs : Nanos) : List (Price × List Nat) → MatchState cap →
      List (Price × List Nat) × MatchState cap
  | [], m => ([], m)
  | (px, dq) :: levels, m =>
      if m.qty > 0 then
        if crosses px price then
          -- `opposite.erase(level_it)`, and on to the next best level
          if (matchLevel id side tsNs px dq m).1 = [] then
            matchLevels crosses id side price tsNs levels (matchLevel id side tsNs px dq m).2
          else
            ((px, (matchLevel id side tsNs px dq m).1) :: levels,
             (matchLevel id side tsNs px dq m).2)
        else ((px, dq) :: levels, m) -- no more crossing prices
      else ((px, dq) :: levels, m)

/-- The loops only ever erase levels from the front. -/
theorem matchLevels_keys (crosses : Price → Price → Bool) (id : OrderId) (side : Side)
    (price : Price) (tsNs : Nanos) (levels : List (Price × List Nat)) (m : MatchState cap) :
    (matchLevels crosses id side price tsNs levels m).1.map Prod.fst
      <:+ levels.map Prod.fst := by
  induction levels generalizing m with
  | nil => exact List.suffix_rfl
  | cons l levels ih =>
      rw [matchLevels]
      split
      · split
        · split
          · exact (ih _).trans (List.suffix_cons _ _)
          · exact List.suffix_rfl
        · exact List.suffix_rfl
      · exact List.suffix_rfl

/-- With nothing to match the loops do nothing. -/
theorem matchLevels_zero (crosses : Price → Price → Bool) (id : OrderId) (side : Side)
    (price : Price) (tsNs : Nanos) (levels : List (Price × List Nat)) {m : MatchState cap}
    (hq : m.qty = 0) : matchLevels crosses id side price tsNs levels m = (levels, m) := by
  have hpos : ¬ m.qty > 0 := by rw [hq]; decide
  cases levels with
  | nil => rfl
  | cons l levels => rw [matchLevels, if_neg hpos]

def matchAgainst {lt : Price → Price → Prop} (opposite : LevelMap lt) (id : OrderId)
    (side : Side) (price : Price) (tsNs : Nanos) (crosses : Price → Price → Bool)
    (m : MatchState cap) : LevelMap lt × MatchState cap :=
  (⟨(matchLevels crosses id side price tsNs opposite.entries m).1,
    opposite.sorted.sublist
      (matchLevels_keys crosses id side price tsNs opposite.entries m).sublist⟩,
   (matchLevels crosses id side price tsNs opposite.entries m).2)

/-- Put what is left of an order at the back of its level. An exhausted pool drops it. -/
def rest {lt : Price → Price → Prop} [DecidableRel lt] [IsStrictTotalOrder Price lt]
    (book : LevelMap lt) (pool : ObjectPool Order cap) (locate : UMap OrderId (Side × Price))
    (id : OrderId) (side : Side) (price : Price) (qty : Qty) (tsNs : Nanos) :
    LevelMap lt × ObjectPool Order cap × UMap OrderId (Side × Price) :=
  match pool.acquire { id := id, side := side, price := price, qty := qty, tsNs := tsNs } with
  -- a null pointer: the function returns, and its caller does not learn of it
  | none => (book, pool, locate)
  | some (slot, pool') =>
      (book.insert price ((book.find? price).getD [] ++ [slot]), pool',
       locate.insert id (side, price))

/-- Match against the opposite side first; any remainder rests. The trades are
appended to `tradesOut`. -/
def addLimitOrder (b : OrderBook cap) (id : OrderId) (side : Side) (price : Price) (qty : Qty)
    (tsNs : Nanos) (tradesOut : List Trade) : OrderBook cap × List Trade :=
  if side = .buy then
    let (asks, m) := matchAgainst b.asks id side price tsNs
      (fun bookPx orderPx => bookPx ≤ orderPx) ⟨qty, b.pool, b.locate, tradesOut⟩
    if m.qty > 0 then
      let (bids, pool, locate) := rest b.bids m.pool m.locate id side price m.qty tsNs
      (⟨bids, asks, pool, locate⟩, m.trades)
    else (⟨b.bids, asks, m.pool, m.locate⟩, m.trades)
  else
    let (bids, m) := matchAgainst b.bids id side price tsNs
      (fun bookPx orderPx => bookPx ≥ orderPx) ⟨qty, b.pool, b.locate, tradesOut⟩
    if m.qty > 0 then
      let (asks, pool, locate) := rest b.asks m.pool m.locate id side price m.qty tsNs
      (⟨bids, asks, pool, locate⟩, m.trades)
    else (⟨bids, b.asks, m.pool, m.locate⟩, m.trades)

/-- An order for nothing trades with nobody. -/
theorem addLimitOrder_zero_trades (b : OrderBook cap) (id : OrderId) (side : Side) (price : Price)
    (tsNs : Nanos) (tradesOut : List Trade) :
    (b.addLimitOrder id side price 0 tsNs tradesOut).2 = tradesOut := by
  have hzero : ∀ (crosses : Price → Price → Bool) levels,
      matchLevels crosses id side price tsNs levels ⟨0, b.pool, b.locate, tradesOut⟩
        = (levels, ⟨0, b.pool, b.locate, tradesOut⟩) :=
    fun crosses levels => matchLevels_zero crosses id side price tsNs levels rfl
  unfold addLimitOrder matchAgainst
  simp only [hzero]
  split <;> rfl

/-! ## Canceling -/

/-- Erase the first order of the level with this id, and the level if it empties;
`none` is the return value `false`, which leaves everything as it was. -/
def removeFrom {lt : Price → Price → Prop} [DecidableRel lt] [IsStrictTotalOrder Price lt]
    (book : LevelMap lt) (pool : ObjectPool Order cap) (price : Price) (id : OrderId) :
    Option (LevelMap lt × ObjectPool Order cap) :=
  match book.find? price with
  | none => none
  | some dq =>
      match dq.find? (fun slot => (pool.storage slot).id = id) with
      | none => none
      | some slot =>
          let dq' := dq.eraseP (fun slot => (pool.storage slot).id = id)
          some (if dq' = [] then book.erase price else book.insert price dq', pool.release slot)

/-- Cancel a resting order by id; the flag says whether it was found and removed. -/
def cancel (b : OrderBook cap) (id : OrderId) : OrderBook cap × Bool :=
  match b.locate.lookup id with
  | none => (b, false)
  | some (side, price) =>
      if side = .buy then
        match removeFrom b.bids b.pool price id with
        | none => (b, false)
        | some (bids, pool) => (⟨bids, b.asks, pool, b.locate.erase id⟩, true)
      else
        match removeFrom b.asks b.pool price id with
        | none => (b, false)
        | some (asks, pool) => (⟨b.bids, asks, pool, b.locate.erase id⟩, true)

/-! ## The top of the book -/

/-- The best price of a side and the quantity at it. -/
def bestOf {lt : Price → Price → Prop} (book : LevelMap lt) (pool : ObjectPool Order cap) :
    Option (Price × Qty) :=
  book.entries.head?.map fun l => (l.1, l.2.foldl (fun qty s => qty + (pool.storage s).qty) 0)

def bestBid (b : OrderBook cap) : Option (Price × Qty) := bestOf b.bids b.pool

def bestAsk (b : OrderBook cap) : Option (Price × Qty) := bestOf b.asks b.pool

end OrderBook

end HftLob.Book

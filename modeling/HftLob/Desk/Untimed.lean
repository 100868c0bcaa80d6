import HftLob.Desk.MarketMaker
import HftLob.Book.View

/-!
# Timestamps decide nothing

The book stores the time of an order and puts the time of the incoming order on its
trades, and nobody reads either again. Here that is a homomorphism: forgetting every
timestamp commutes with each operation, from the pool up to the engine, so two engines
that differ in their timestamps alone stay equal up to timestamps.

No invariant of the book is used, and ids may collide.
-/

namespace HftLob.Book

variable {T U : Type} {cap : PoolCapacity}

namespace ObjectPool

def map (f : T → U) (p : ObjectPool T cap) : ObjectPool U cap where
  storage := fun s => f (p.storage s)
  nextFree := p.nextFree
  freeHead := p.freeHead

@[simp] theorem map_storage (f : T → U) (p : ObjectPool T cap) (s : Nat) :
    (p.map f).storage s = f (p.storage s) := rfl

theorem write_map (f : T → U) (p : ObjectPool T cap) (slot : Nat) (obj : T) :
    (p.map f).write slot (f obj) = (p.write slot obj).map f := by
  unfold write map
  congr 1
  exact (Function.comp_update f p.storage slot obj).symm

theorem release_map (f : T → U) (p : ObjectPool T cap) (slot : Nat) :
    (p.map f).release slot = (p.release slot).map f := by
  simp only [release, map]

theorem acquire_map (f : T → U) (p : ObjectPool T cap) (obj : T) :
    (p.map f).acquire (f obj) = (p.acquire obj).map (fun r => (r.1, r.2.map f)) := by
  have hupdate : ∀ slot, Function.update (fun s => f (p.storage s)) slot (f obj)
      = fun s => f (Function.update p.storage slot obj s) :=
    fun slot => (Function.comp_update f p.storage slot obj).symm
  unfold acquire map
  dsimp only
  split
  · rfl
  · rw [hupdate]
    rfl

end ObjectPool

/-! ## The book -/

def untimedOrder (o : Order) : Order := { o with tsNs := 0 }

def untimedTrade (t : Trade) : Trade := { t with tsNs := 0 }

def MatchState.untimed (m : MatchState cap) : MatchState cap :=
  ⟨m.qty, m.pool.map untimedOrder, m.locate, m.trades.map untimedTrade⟩

namespace OrderBook

def untimed (b : OrderBook cap) : OrderBook cap := { b with pool := b.pool.map untimedOrder }

variable (id : OrderId) (side : Side) (tsNs : Nanos)

theorem fillFront_untimed (px : Price) (slot : Nat) (m : MatchState cap) :
    fillFront id side 0 px slot m.untimed
      = ((fillFront id side tsNs px slot m).1.untimed, (fillFront id side tsNs px slot m).2) := by
  have hwrite : ∀ q : Qty, m.untimed.pool.write slot { m.untimed.pool.storage slot with qty := q }
      = (m.pool.write slot { m.pool.storage slot with qty := q }).map untimedOrder :=
    fun q => ObjectPool.write_map untimedOrder m.pool slot { m.pool.storage slot with qty := q }
  have htrade : ∀ fill : Qty,
      m.untimed.trades ++ [tradeWith id side 0 px (m.untimed.pool.storage slot).id fill]
        = (m.trades ++ [tradeWith id side tsNs px (m.pool.storage slot).id fill]).map
            untimedTrade := by
    intro fill
    rw [List.map_append]
    rfl
  unfold fillFront
  dsimp only
  rw [hwrite, htrade]
  have hqty : (m.untimed.pool.storage slot).qty = (m.pool.storage slot).qty := rfl
  rw [hqty, show m.untimed.qty = m.qty from rfl]
  split
  · rw [ObjectPool.release_map]
    rfl
  · rfl

theorem matchLevel_untimed (px : Price) (dq : List Nat) (m : MatchState cap) :
    matchLevel id side 0 px dq m.untimed
      = ((matchLevel id side tsNs px dq m).1, (matchLevel id side tsNs px dq m).2.untimed) := by
  induction dq generalizing m with
  | nil => rfl
  | cons slot dq ih =>
      rw [matchLevel, matchLevel, fillFront_untimed id side tsNs,
        show m.untimed.qty = m.qty from rfl]
      dsimp only
      split
      · split
        · exact ih _
        · rfl
      · rfl

theorem matchLevels_untimed (crosses : Price → Price → Bool) (price : Price)
    (levels : List (Price × List Nat)) (m : MatchState cap) :
    matchLevels crosses id side price 0 levels m.untimed
      = ((matchLevels crosses id side price tsNs levels m).1,
         (matchLevels crosses id side price tsNs levels m).2.untimed) := by
  induction levels generalizing m with
  | nil => rfl
  | cons l levels ih =>
      rw [matchLevels, matchLevels, matchLevel_untimed id side tsNs,
        show m.untimed.qty = m.qty from rfl]
      dsimp only
      split
      · split
        · split
          · exact ih _
          · rfl
        · rfl
      · rfl

theorem matchAgainst_untimed {lt : Price → Price → Prop} (opposite : LevelMap lt) (price : Price)
    (crosses : Price → Price → Bool) (m : MatchState cap) :
    matchAgainst opposite id side price 0 crosses m.untimed
      = ((matchAgainst opposite id side price tsNs crosses m).1,
         (matchAgainst opposite id side price tsNs crosses m).2.untimed) := by
  unfold matchAgainst
  dsimp only
  simp only [matchLevels_untimed id side tsNs]

theorem rest_untimed {lt : Price → Price → Prop} [DecidableRel lt] [IsStrictTotalOrder Price lt]
    (book : LevelMap lt) (pool : ObjectPool Order cap) (locate : UMap OrderId (Side × Price))
    (price : Price) (qty : Qty) :
    rest book (pool.map untimedOrder) locate id side price qty 0
      = ((rest book pool locate id side price qty tsNs).1,
         (rest book pool locate id side price qty tsNs).2.1.map untimedOrder,
         (rest book pool locate id side price qty tsNs).2.2) := by
  have hacquire := ObjectPool.acquire_map untimedOrder pool
    { id := id, side := side, price := price, qty := qty, tsNs := tsNs }
  have hnew : untimedOrder { id := id, side := side, price := price, qty := qty, tsNs := tsNs }
      = { id := id, side := side, price := price, qty := qty, tsNs := 0 } := rfl
  unfold rest
  rw [← hnew, hacquire]
  cases pool.acquire { id := id, side := side, price := price, qty := qty, tsNs := tsNs } with
  | none => rfl
  | some r => rfl

theorem addLimitOrder_untimed (b : OrderBook cap) (price : Price) (qty : Qty) (out : List Trade) :
    b.untimed.addLimitOrder id side price qty 0 (out.map untimedTrade)
      = ((b.addLimitOrder id side price qty tsNs out).1.untimed,
         (b.addLimitOrder id side price qty tsNs out).2.map untimedTrade) := by
  have hstart : (⟨qty, b.untimed.pool, b.untimed.locate, out.map untimedTrade⟩ : MatchState cap)
      = MatchState.untimed ⟨qty, b.pool, b.locate, out⟩ := rfl
  unfold addLimitOrder
  rw [hstart]
  split
  · rw [show b.untimed.asks = b.asks from rfl, matchAgainst_untimed id side tsNs]
    dsimp only [MatchState.untimed]
    rw [rest_untimed id side tsNs]
    split
    · rfl
    · rfl
  · rw [show b.untimed.bids = b.bids from rfl, matchAgainst_untimed id side tsNs]
    dsimp only [MatchState.untimed]
    rw [rest_untimed id side tsNs]
    split
    · rfl
    · rfl

theorem removeFrom_untimed {lt : Price → Price → Prop} [DecidableRel lt]
    [IsStrictTotalOrder Price lt] (book : LevelMap lt) (pool : ObjectPool Order cap)
    (price : Price) :
    removeFrom book (pool.map untimedOrder) price id
      = (removeFrom book pool price id).map (fun r => (r.1, r.2.map untimedOrder)) := by
  have hid : ∀ slot, ((pool.map untimedOrder).storage slot).id = (pool.storage slot).id :=
    fun _ => rfl
  unfold removeFrom
  simp only [hid, ObjectPool.release_map]
  split
  · rfl
  · split
    · rfl
    · rfl

theorem cancel_untimed (b : OrderBook cap) :
    b.untimed.cancel id = ((b.cancel id).1.untimed, (b.cancel id).2) := by
  unfold cancel
  rw [show b.untimed.locate = b.locate from rfl]
  cases b.locate.lookup id with
  | none => rfl
  | some at_ =>
      obtain ⟨side, price⟩ := at_
      have hbids := removeFrom_untimed id b.bids b.pool price
      have hasks := removeFrom_untimed id b.asks b.pool price
      dsimp only [untimed]
      rw [hbids, hasks]
      split
      · cases removeFrom b.bids b.pool price id with
        | none => rfl
        | some r => rfl
      · cases removeFrom b.asks b.pool price id with
        | none => rfl
        | some r => rfl

/-- What can be seen of a book has no timestamp in it. -/
theorem view_untimed (b : OrderBook cap) : b.untimed.view = b.view := rfl

end OrderBook

end HftLob.Book

/-! ## The engine -/

namespace HftLob.Desk

open HftLob.Book

variable {cap : PoolCapacity}

theorem target_untimed (mm : MarketMaker) (b : OrderBook cap) :
    mm.target b.untimed = mm.target b := rfl

theorem requote_untimed (mm : MarketMaker) (b : OrderBook cap) (nextId : OrderId) (mid : Price)
    (tsNs : Nanos) (out : List Trade) :
    (mm.requote b.untimed nextId mid 0 (out.map untimedTrade)).askPlaced
      = ((mm.requote b nextId mid tsNs out).askPlaced.1.untimed,
         (mm.requote b nextId mid tsNs out).askPlaced.2.map untimedTrade) := by
  -- the quotes are pulled alike, whether or not there are any
  have hgone : ∀ (c : OrderBook cap) (id : OrderId),
      (if mm.quoting then (c.untimed.cancel id).1 else c.untimed)
        = (if mm.quoting then (c.cancel id).1 else c).untimed := by
    intro c id
    rw [OrderBook.cancel_untimed]
    split
    · rfl
    · rfl
  unfold MarketMaker.requote
  dsimp only
  rw [hgone, hgone, OrderBook.addLimitOrder_untimed nextId .buy tsNs]
  dsimp only
  rw [OrderBook.addLimitOrder_untimed (nextId + 1) .sell tsNs]

def Tick.untimed (t : Tick cap) : Tick cap :=
  { t with book := t.book.untimed, trades := t.trades.map untimedTrade }

theorem onTick_untimed (mm : MarketMaker) (b : OrderBook cap) (nextId : OrderId) (tsNs : Nanos)
    (out : List Trade) :
    mm.onTick b.untimed nextId 0 (out.map untimedTrade)
      = (mm.onTick b nextId tsNs out).untimed := by
  unfold MarketMaker.onTick
  rw [target_untimed]
  cases mm.target b with
  | none => rfl
  | some mid =>
      dsimp only
      rw [requote_untimed mm b nextId mid tsNs out]
      rfl

namespace TickEngine

def untimed (e : TickEngine cap) : TickEngine cap :=
  { e with book := e.book.untimed, trades := e.trades.map untimedTrade }

theorem process_untimed (e : TickEngine cap) (o : Order) (tsNs : Nanos) :
    (e.process o tsNs).untimed = e.untimed.process (untimedOrder o) 0 := by
  unfold process
  dsimp only [untimed, untimedOrder]
  have hadd := OrderBook.addLimitOrder_untimed o.id o.side tsNs e.book o.price o.qty []
  rw [List.map_nil] at hadd
  rw [hadd]
  dsimp only
  rw [onTick_untimed e.maker _ e.strategyIdCursor tsNs]
  dsimp only [Tick.untimed]
  rw [List.length_map, List.map_append]

/-- **Engines that process the same orders at different times** end up equal, timestamps
apart. -/
theorem processAll_untimed (e : TickEngine cap) (orders : List (Order × Nanos)) :
    (e.processAll orders).untimed
      = (orders.map (fun o => untimedOrder o.1)).foldl (fun e o => e.process o 0) e.untimed := by
  unfold processAll
  induction orders generalizing e with
  | nil => rfl
  | cons o orders ih =>
      rw [List.foldl_cons, ih, List.map_cons, List.foldl_cons, process_untimed]

end TickEngine

end HftLob.Desk

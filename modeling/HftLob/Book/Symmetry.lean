import HftLob.Lib.Relabel
import HftLob.Book.Refine

/-!
# The book does not care what its orders are called

Nothing in `order_book.hpp` depends on an order's identifier beyond equality, on a
price beyond its order, or on the clock at all, and the two sides run the same
code with the comparison turned round. So renaming the orders, moving or
stretching the price axis, or looking at the market in a mirror changes nothing
but the names in the answers. This holds of the level maps, the pool and the index
together because it holds of the flat book they refine.
-/

namespace HftLob.Book

open HftLob.Lib HftLob.Lib.PriceTime

/--
A change of names the book cannot notice. With `flips` set the price axis is turned
round and bids become asks.
-/
structure Relabeling where
  id : OrderId → OrderId
  price : Price → Price
  time : Nanos → Nanos
  flips : Bool
  id_injective : Function.Injective id
  price_lt : ∀ a b, price a < price b ↔ if flips then b < a else a < b

namespace Relabeling

def side (r : Relabeling) (side : Side) : Side :=
  match r.flips, side with
  | false, side => side
  | true, .buy => .sell
  | true, .sell => .buy

def entry (r : Relabeling) : Entry OrderId Price → Entry OrderId Price :=
  Entry.relabel r.id r.price

/-- In a mirror the buyer of a trade is its seller. -/
def trade (r : Relabeling) (t : Trade) : Trade where
  buyOrderId := r.id (if r.flips then t.sellOrderId else t.buyOrderId)
  sellOrderId := r.id (if r.flips then t.buyOrderId else t.sellOrderId)
  price := r.price t.price
  qty := t.qty
  tsNs := r.time t.tsNs

def flatTrade (r : Relabeling) (t : FlatTrade) : FlatTrade where
  buyOrderId := r.id (if r.flips then t.sellOrderId else t.buyOrderId)
  sellOrderId := r.id (if r.flips then t.buyOrderId else t.sellOrderId)
  price := r.price t.price
  qty := t.qty
  tsNs := r.time t.tsNs

def call (r : Relabeling) : Call → Call
  | .add id side price qty tsNs tradesOut =>
      .add (r.id id) (r.side side) (r.price price) qty (r.time tsNs) (tradesOut.map r.trade)
  | .cancel id => .cancel (r.id id)

def flat (r : Relabeling) (f : Flat) : Flat :=
  if r.flips then ⟨f.asks.map r.entry, f.bids.map r.entry⟩
  else ⟨f.bids.map r.entry, f.asks.map r.entry⟩

/-! ## What the book asks of a price and of a side -/

theorem own_flat (r : Relabeling) (f : Flat) (side : Side) :
    (r.flat f).own (r.side side) = (f.own side).map r.entry := by
  cases hflips : r.flips <;> cases side <;> simp [flat, Relabeling.side, hflips, Flat.own]

theorem opposite_flat (r : Relabeling) (f : Flat) (side : Side) :
    (r.flat f).opposite (r.side side) = (f.opposite side).map r.entry := by
  cases hflips : r.flips <;> cases side <;>
    simp [flat, Relabeling.side, hflips, Flat.opposite]

theorem better_side (r : Relabeling) (side : Side) (a b : Price) :
    Flat.better (r.side side) (r.price a) (r.price b) ↔ Flat.better side a b := by
  cases hflips : r.flips <;> cases side <;>
    simp [Relabeling.side, hflips, Flat.better, r.price_lt]

/-- A price crosses a limit unless it is on the far side of it. -/
theorem crosses_eq (side : Side) (price px : Price) :
    Flat.crosses side price px = decide (¬ Flat.better side px price) := by
  cases side <;> simp [Flat.crosses, Flat.better]

theorem crosses_side (r : Relabeling) (side : Side) (price px : Price) :
    Flat.crosses (r.side side) (r.price price) (r.price px) = Flat.crosses side price px := by
  rw [crosses_eq, crosses_eq]
  exact decide_eq_decide.mpr (not_congr (r.better_side side px price))

/-! ## One call -/

theorem addWalk_flat (r : Relabeling) (f : Flat) (side : Side) (price : Price) (qty : Nat) :
    (r.flat f).addWalk (r.side side) (r.price price) qty
      = (f.addWalk side price qty).relabel r.id r.price := by
  rw [Flat.addWalk, opposite_flat]
  exact walk_relabel (r.crosses_side side price) qty (f.opposite side)

theorem rests_flat (r : Relabeling) (capacity : Nat) (f : Flat) (side : Side) (price : Price)
    (qty : Nat) :
    (r.flat f).Rests capacity (r.side side) (r.price price) qty
      ↔ f.Rests capacity side price qty := by
  rw [Flat.Rests, Flat.Rests, addWalk_flat, own_flat, List.length_map]
  simp only [Walk.relabel, List.length_map]

theorem add_flat (r : Relabeling) (capacity : Nat) (f : Flat) (id : OrderId) (side : Side)
    (price : Price) (qty : Nat) :
    ((r.flat f).add capacity (r.id id) (r.side side) (r.price price) qty).1
      = r.flat (f.add capacity id side price qty).1 := by
  refine Flat.ext_side (r.side side) ?_ ?_
  · rw [Flat.add_own, own_flat, own_flat, Flat.add_own, addWalk_flat]
    by_cases hrests : f.Rests capacity side price qty
    · rw [if_pos hrests, if_pos ((r.rests_flat capacity f side price qty).mpr hrests)]
      exact insert_relabel (f := r.id) (r.better_side side)
        ⟨id, price, (f.addWalk side price qty).left⟩ (f.own side)
    · rw [if_neg hrests, if_neg (mt (r.rests_flat capacity f side price qty).mp hrests)]
  · rw [Flat.add_opposite, opposite_flat, Flat.add_opposite, addWalk_flat]
    rfl

theorem fills_flat (r : Relabeling) (capacity : Nat) (f : Flat) (id : OrderId) (side : Side)
    (price : Price) (qty : Nat) :
    ((r.flat f).add capacity (r.id id) (r.side side) (r.price price) qty).2
      = (f.add capacity id side price qty).2.map r.entry := by
  rw [Flat.add_fills, Flat.add_fills, addWalk_flat]
  rfl

theorem trade_entry (r : Relabeling) (id : OrderId) (side : Side) (tsNs : Nanos)
    (fill : Entry OrderId Price) :
    Flat.trade (r.id id) (r.side side) (r.time tsNs) (r.entry fill)
      = r.flatTrade (Flat.trade id side tsNs fill) := by
  cases hflips : r.flips <;> cases side <;>
    simp [Relabeling.side, Relabeling.flatTrade, Flat.trade, entry, Entry.relabel, hflips]

theorem flatTrade_trade (r : Relabeling) (t : Trade) :
    Book.flatTrade (r.trade t) = r.flatTrade (Book.flatTrade t) := by
  cases hflips : r.flips <;> simp [Book.flatTrade, Relabeling.trade, Relabeling.flatTrade, hflips]

theorem mem_ids_flat (r : Relabeling) (f : Flat) (id : OrderId) :
    r.id id ∈ (r.flat f).ids ↔ id ∈ f.ids := by
  have hside : ∀ l : List (Entry OrderId Price),
      r.id id ∈ (l.map r.entry).map Entry.id ↔ id ∈ l.map Entry.id := by
    intro l
    have hids : (l.map r.entry).map Entry.id = (l.map Entry.id).map r.id := by
      rw [List.map_map, List.map_map]
      rfl
    rw [hids, List.mem_map_of_injective r.id_injective]
  rw [Flat.mem_ids_side (r.side .buy), own_flat, opposite_flat, hside, hside,
    ← Flat.mem_ids_side]

theorem cancel_flat (r : Relabeling) (f : Flat) (id : OrderId) :
    (r.flat f).cancel (r.id id) = (r.flat (f.cancel id).1, (f.cancel id).2) := by
  have hown : ∀ side, ((r.flat f).cancel (r.id id)).1.own (r.side side)
      = (r.flat (f.cancel id).1).own (r.side side) := by
    intro side
    rw [Flat.own_cancel, own_flat, own_flat, Flat.own_cancel]
    exact remove_relabel r.id_injective id (f.own side)
  refine Prod.ext ?_ (decide_eq_decide.mpr (r.mem_ids_flat f id))
  cases hflips : r.flips with
  | false =>
      have hbuy := hown .buy
      have hsell := hown .sell
      simp only [Relabeling.side, hflips] at hbuy hsell
      exact Flat.ext_side .buy hbuy hsell
  | true =>
      have hbuy := hown .buy
      have hsell := hown .sell
      simp only [Relabeling.side, hflips] at hbuy hsell
      exact Flat.ext_side .buy hsell hbuy

/-- **One call under other names** does what the call does, under those names. -/
theorem call_flat (r : Relabeling) (capacity : Nat) (f : Flat) (c : Call) :
    (r.flat f).call capacity (r.call c)
      = (r.flat (f.call capacity c).1, (f.call capacity c).2.map r.flatTrade) := by
  cases c with
  | add id side price qty tsNs tradesOut =>
      have hold : (tradesOut.map r.trade).map Book.flatTrade
          = (tradesOut.map Book.flatTrade).map r.flatTrade := by
        rw [List.map_map, List.map_map]
        exact List.map_congr_left fun t _ => r.flatTrade_trade t
      have hnew : ((f.add capacity id side price qty.toNat).2.map r.entry).map
            (Flat.trade (r.id id) (r.side side) (r.time tsNs))
          = ((f.add capacity id side price qty.toNat).2.map (Flat.trade id side tsNs)).map
            r.flatTrade := by
        rw [List.map_map, List.map_map]
        exact List.map_congr_left fun fill _ => r.trade_entry id side tsNs fill
      simp only [call, Flat.call, Answer.map]
      rw [add_flat, fills_flat, hold, hnew, List.map_append]
  | cancel id =>
      simp only [call, Flat.call, Answer.map]
      rw [cancel_flat]

theorem fresh_flat (r : Relabeling) (f : Flat) (c : Call) :
    (r.flat f).Fresh (r.call c) ↔ f.Fresh c := by
  cases c with
  | add id side price qty tsNs tradesOut => exact not_congr (r.mem_ids_flat f id)
  | cancel id => exact Iff.rfl

/-! ## A run -/

theorem run_flat (r : Relabeling) (capacity : Nat) (calls : List Call) : ∀ f : Flat,
    (r.flat f).run capacity (calls.map r.call)
      = (r.flat (f.run capacity calls).1,
         (f.run capacity calls).2.map (Answer.map r.flatTrade)) := by
  induction calls with
  | nil =>
      intro f
      rfl
  | cons c calls ih =>
      intro f
      simp only [List.map_cons, Flat.run, call_flat, ih]

theorem freshRun_flat (r : Relabeling) (capacity : Nat) (calls : List Call) : ∀ f : Flat,
    f.FreshRun capacity calls → (r.flat f).FreshRun capacity (calls.map r.call) := by
  induction calls with
  | nil =>
      intro f _
      trivial
  | cons c calls ih =>
      intro f hfresh
      rw [List.map_cons, Flat.FreshRun, call_flat]
      exact ⟨(r.fresh_flat f c).mpr hfresh.1, ih _ hfresh.2⟩

end Relabeling

theorem flatTrade_injective : Function.Injective flatTrade := by
  rintro ⟨buy, sell, price, qty, ts⟩ ⟨buy', sell', price', qty', ts'⟩ h
  simp only [flatTrade, FlatTrade.mk.injEq, UInt32.toNat_inj] at h
  obtain ⟨rfl, rfl, rfl, rfl, rfl⟩ := h
  rfl

theorem Answer.map_injective {τ τ' : Type} {f : τ → τ'} (hf : Function.Injective f) :
    Function.Injective (Answer.map f) := by
  rintro (out | found) (out' | found') h <;> simp only [Answer.map, reduceCtorEq] at h
  · exact congrArg Answer.trades (hf.list_map (Answer.trades.inj h))
  · exact congrArg Answer.removed (Answer.removed.inj h)

theorem Answer.map_comp {τ τ' τ'' : Type} (f : τ → τ') (g : τ' → τ'') (a : Answer τ) :
    (a.map f).map g = a.map (g ∘ f) := by
  cases a <;> simp [Answer.map]

/--
**The order book under other names.** Two books of one capacity, one given some
calls and the other the same calls under other names: at the end one holds what
the other holds, and every answer on the way was the same answer, under those
names.
-/
theorem orderBook_relabels (cap : PoolCapacity) (r : Relabeling) (calls : List Call)
    (hfresh : Flat.empty.FreshRun cap.slots calls) :
    ((OrderBook.init cap).run (calls.map r.call)).1.flat
        = r.flat ((OrderBook.init cap).run calls).1.flat
      ∧ ((OrderBook.init cap).run (calls.map r.call)).2
        = ((OrderBook.init cap).run calls).2.map (Answer.map r.trade) := by
  have hempty : r.flat Flat.empty = Flat.empty := by
    cases hflips : r.flips <;> simp [Relabeling.flat, Flat.empty, hflips]
  have hfresh' : Flat.empty.FreshRun cap.slots (calls.map r.call) := by
    have h := r.freshRun_flat cap.slots calls Flat.empty hfresh
    rwa [hempty] at h
  have hrun := r.run_flat cap.slots calls Flat.empty
  rw [hempty] at hrun
  obtain ⟨-, hflat, hanswers⟩ := run_spec (@bookInv_init cap) hfresh
  obtain ⟨-, hflat', hanswers'⟩ := run_spec (@bookInv_init cap) hfresh'
  change _ = (Flat.empty.run cap.slots calls).1 at hflat
  change _ = (Flat.empty.run cap.slots calls).2 at hanswers
  change _ = (Flat.empty.run cap.slots (calls.map r.call)).1 at hflat'
  change _ = (Flat.empty.run cap.slots (calls.map r.call)).2 at hanswers'
  constructor
  · rw [hflat', hrun, hflat]
  · -- The trades of the two books are the same numbers, and a trade is its numbers.
    refine (Answer.map_injective flatTrade_injective).list_map ?_
    rw [hanswers', hrun, ← hanswers, List.map_map, List.map_map]
    refine List.map_congr_left fun a _ => ?_
    rw [Function.comp_apply, Function.comp_apply, Answer.map_comp, Answer.map_comp]
    exact congrArg (fun g => Answer.map g a) (funext fun t => (r.flatTrade_trade t).symm)

/-- The market seen in a mirror held at price 200. -/
def mirrorAt200 : Relabeling where
  id := fun id => id + 1000
  price := fun p => 200 - p
  time := fun t => t
  flips := true
  id_injective := fun _ _ h => UInt64.add_left_inj _ |>.mp h
  price_lt := by
    intro a b
    simp

/-- A bid swept by two asks and a late cancel, and the same day in the mirror. -/
theorem orderBook_relabels_mirror :
    let cap : PoolCapacity := ⟨4, by decide⟩
    let calls : List Call :=
      [.add 1 .buy 99 5 10 [], .add 2 .buy 98 5 11 [], .add 3 .sell 98 7 12 [], .cancel 2]
    Flat.empty.FreshRun cap.slots calls
      ∧ ((OrderBook.init cap).run (calls.map mirrorAt200.call)).2
        = [.trades [], .trades [],
           .trades [⟨1003, 1001, 101, 5, 12⟩, ⟨1003, 1002, 102, 2, 12⟩], .removed true] := by
  intro cap calls
  have hfresh : Flat.empty.FreshRun cap.slots calls := by decide
  refine ⟨hfresh, ?_⟩
  rw [(orderBook_relabels cap mirrorAt200 calls hfresh).2]
  decide +kernel

end HftLob.Book

import HftLob.Types
import HftLob.Lib.PriceTime

/-!
# What an order book is for

A flat price-time priority book: per side one list, best price first and by
arrival within a price. This is the abstract component; `Book.Refine` shows that
`OrderBook`, with its level maps, pool and index, does exactly this.
-/

namespace HftLob.Book

open HftLob.Lib HftLob.Lib.PriceTime

structure Flat where
  bids : List (Entry OrderId Price)
  asks : List (Entry OrderId Price)
  deriving DecidableEq, Repr

namespace Flat

def empty : Flat := ⟨[], []⟩

def orders (f : Flat) : List (Entry OrderId Price) := f.bids ++ f.asks

def ids (f : Flat) : List OrderId := f.orders.map Entry.id

/--
Walk the opposite side, then append what is left behind everything of its own side
that is at least as good, unless `capacity` orders are resting already.
-/
def add (capacity : Nat) (f : Flat) (id : OrderId) (side : Side) (price : Price) (qty : Nat) :
    Flat × List (Entry OrderId Price) :=
  match side with
  | .buy =>
      let w := walk (fun px => decide (px ≤ price)) qty f.asks
      (⟨if 0 < w.left ∧ f.bids.length + w.rest.length < capacity then
          PriceTime.insert (· > ·) ⟨id, price, w.left⟩ f.bids
        else f.bids, w.rest⟩, w.fills)
  | .sell =>
      let w := walk (fun px => decide (px ≥ price)) qty f.bids
      (⟨w.rest, if 0 < w.left ∧ f.asks.length + w.rest.length < capacity then
          PriceTime.insert (· < ·) ⟨id, price, w.left⟩ f.asks
        else f.asks⟩, w.fills)

/-- The list an order of this side joins. -/
def own (f : Flat) : Side → List (Entry OrderId Price)
  | .buy => f.bids
  | .sell => f.asks

/-- The list an order of this side trades against. -/
def opposite (f : Flat) : Side → List (Entry OrderId Price)
  | .buy => f.asks
  | .sell => f.bids

/-- Whether an order with this limit may trade at `px`. -/
def crosses (side : Side) (price px : Price) : Bool :=
  match side with
  | .buy => decide (px ≤ price)
  | .sell => decide (px ≥ price)

/-- The walk an incoming order takes. -/
def addWalk (f : Flat) (side : Side) (price : Price) (qty : Nat) : Walk OrderId Price :=
  walk (crosses side price) qty (f.opposite side)

/-- Some of the order is left after the walk, and there is room for it. -/
def Rests (capacity : Nat) (f : Flat) (side : Side) (price : Price) (qty : Nat) : Prop :=
  0 < (f.addWalk side price qty).left
    ∧ (f.own side).length + (f.addWalk side price qty).rest.length < capacity

instance (capacity : Nat) (f : Flat) (side : Side) (price : Price) (qty : Nat) :
    Decidable (f.Rests capacity side price qty) := inferInstanceAs (Decidable (_ ∧ _))

/-- Delete the entry with this id; the flag says whether there was one. -/
def cancel (f : Flat) (id : OrderId) : Flat × Bool :=
  (⟨remove id f.bids, remove id f.asks⟩, decide (id ∈ f.ids))

theorem orders_perm (f : Flat) (side : Side) :
    f.orders.Perm (f.own side ++ f.opposite side) := by
  cases side with
  | buy => exact List.Perm.refl _
  | sell => exact List.perm_append_comm

theorem add_fills (capacity : Nat) (f : Flat) (id : OrderId) (side : Side) (price : Price)
    (qty : Nat) : (f.add capacity id side price qty).2 = (f.addWalk side price qty).fills := by
  cases side <;> rfl

/-- What rests after an order that joined its side, in no particular order. -/
theorem add_orders_of_rests {capacity : Nat} {f : Flat} {id : OrderId} {side : Side}
    {price : Price} {qty : Nat} (h : f.Rests capacity side price qty) :
    (f.add capacity id side price qty).1.orders.Perm
      (⟨id, price, (f.addWalk side price qty).left⟩
        :: (f.own side ++ (f.addWalk side price qty).rest)) := by
  cases side with
  | buy =>
      have hbids : (f.add capacity id .buy price qty).1.bids
          = PriceTime.insert (· > ·) ⟨id, price, (f.addWalk .buy price qty).left⟩ f.bids :=
        if_pos h
      rw [orders, hbids]
      exact (insert_perm _ _).append_right _
  | sell =>
      have hasks : (f.add capacity id .sell price qty).1.asks
          = PriceTime.insert (· < ·) ⟨id, price, (f.addWalk .sell price qty).left⟩ f.asks :=
        if_pos h
      rw [orders, hasks]
      exact List.perm_append_comm.trans ((insert_perm _ _).append_right _)

/-- What rests after an order of which nothing joined its side. -/
theorem add_orders_of_not_rests {capacity : Nat} {f : Flat} {id : OrderId} {side : Side}
    {price : Price} {qty : Nat} (h : ¬ f.Rests capacity side price qty) :
    (f.add capacity id side price qty).1.orders.Perm
      (f.own side ++ (f.addWalk side price qty).rest) := by
  cases side with
  | buy =>
      have hbids : (f.add capacity id .buy price qty).1.bids = f.bids := if_neg h
      rw [orders, hbids]
      exact List.Perm.refl _
  | sell =>
      have hasks : (f.add capacity id .sell price qty).1.asks = f.asks := if_neg h
      rw [orders, hasks]
      exact List.perm_append_comm

theorem cancel_orders (f : Flat) (id : OrderId) :
    (f.cancel id).1.orders = remove id f.orders := by
  simp [cancel, orders, remove]

theorem own_cancel (f : Flat) (id : OrderId) (side : Side) :
    (f.cancel id).1.own side = remove id (f.own side) := by
  cases side <;> rfl

/-! ## Side by side -/

/-- Whether the first price is the better one for an order of this side. -/
def better (side : Side) : Price → Price → Prop :=
  match side with
  | .buy => (· > ·)
  | .sell => (· < ·)

instance (side : Side) : DecidableRel (better side) :=
  match side with
  | .buy => inferInstanceAs (DecidableRel (· > ·))
  | .sell => inferInstanceAs (DecidableRel (· < ·))

instance (side : Side) : IsStrictTotalOrder Price (better side) :=
  match side with
  | .buy => inferInstanceAs (IsStrictTotalOrder Price (· > ·))
  | .sell => inferInstanceAs (IsStrictTotalOrder Price (· < ·))

theorem ext_side {f g : Flat} (side : Side) (hown : f.own side = g.own side)
    (hopp : f.opposite side = g.opposite side) : f = g := by
  cases side with
  | buy => exact congrArg₂ Flat.mk hown hopp
  | sell => exact congrArg₂ Flat.mk hopp hown

theorem own_of_ne {f : Flat} {s side : Side} (h : s ≠ side) : f.own s = f.opposite side := by
  cases s <;> cases side <;> first | rfl | exact absurd rfl h

theorem add_opposite (capacity : Nat) (f : Flat) (id : OrderId) (side : Side) (price : Price)
    (qty : Nat) :
    (f.add capacity id side price qty).1.opposite side = (f.addWalk side price qty).rest := by
  cases side <;> rfl

theorem add_own (capacity : Nat) (f : Flat) (id : OrderId) (side : Side) (price : Price)
    (qty : Nat) :
    (f.add capacity id side price qty).1.own side
      = if f.Rests capacity side price qty then
          PriceTime.insert (better side) ⟨id, price, (f.addWalk side price qty).left⟩ (f.own side)
        else f.own side := by
  cases side <;> rfl

theorem mem_ids_side {f : Flat} {x : OrderId} (side : Side) :
    x ∈ f.ids ↔ x ∈ (f.own side).map Entry.id ∨ x ∈ (f.opposite side).map Entry.id := by
  rw [ids, ((f.orders_perm side).map Entry.id).mem_iff, List.map_append, List.mem_append]

theorem not_mem_ids {f : Flat} {id : OrderId} (h : ∀ side, ∀ x ∈ f.own side, x.id ≠ id) :
    id ∉ f.ids := by
  have hno : ∀ side, id ∉ (f.own side).map Entry.id := by
    intro side hin
    obtain ⟨x, hx, hid⟩ := List.mem_map.mp hin
    exact h side x hx hid
  rw [mem_ids_side .buy, not_or]
  exact ⟨hno .buy, hno .sell⟩

/-- An id rests after an add only if it rested before or is the one added. -/
theorem ids_add {capacity : Nat} {f : Flat} {id x : OrderId} {side : Side} {price : Price}
    {qty : Nat} (h : x ∈ (f.add capacity id side price qty).1.ids) : x = id ∨ x ∈ f.ids := by
  rw [mem_ids_side side, add_own, add_opposite] at h
  rcases h with hown | hopp
  · split at hown
    · rw [((insert_perm _ _).map Entry.id).mem_iff, List.map_cons, List.mem_cons] at hown
      exact hown.imp_right fun h => (mem_ids_side side).mpr (Or.inl h)
    · exact Or.inr ((mem_ids_side side).mpr (Or.inl hown))
  · have hkeys := ((walk_rest_keys (crosses side price) qty (f.opposite side)).sublist.map
      Prod.fst).subset
    simp only [List.map_map, Function.comp_def] at hkeys
    exact Or.inr ((mem_ids_side side).mpr (Or.inr (hkeys hopp)))

theorem ids_cancel {f : Flat} {id x : OrderId} :
    x ∈ (f.cancel id).1.ids ↔ x ∈ f.ids ∧ x ≠ id := by
  rw [ids, cancel_orders, ids, List.mem_map, List.mem_map]
  constructor
  · rintro ⟨y, hy, rfl⟩
    have hy := List.mem_filter.mp hy
    exact ⟨⟨y, hy.1, rfl⟩, by simpa using hy.2⟩
  · rintro ⟨⟨y, hy, rfl⟩, hne⟩
    exact ⟨y, List.mem_filter.mpr ⟨hy, by simpa using hne⟩, rfl⟩

end Flat

/-! ## Calls and their answers -/

/-- A trade with its quantity as a number. -/
structure FlatTrade where
  buyOrderId : OrderId
  sellOrderId : OrderId
  price : Price
  qty : Nat
  tsNs : Nanos
  deriving DecidableEq, Repr

/-- A call on a book; `add` carries the vector its trades are appended to. -/
inductive Call where
  | add (id : OrderId) (side : Side) (price : Price) (qty : Qty) (tsNs : Nanos)
      (tradesOut : List Trade)
  | cancel (id : OrderId)

/-- What a call gives back: the vector of trades, or whether the order was found. -/
inductive Answer (τ : Type) where
  | trades (out : List τ)
  | removed (found : Bool)
  deriving DecidableEq, Repr

def Answer.map {τ τ' : Type} (f : τ → τ') : Answer τ → Answer τ'
  | .trades out => .trades (out.map f)
  | .removed found => .removed found

namespace Flat

/-- The fill of an incoming order, with the buyer and the seller on their sides. -/
def trade (id : OrderId) (side : Side) (tsNs : Nanos) (fill : Entry OrderId Price) :
    FlatTrade where
  buyOrderId := if side = .buy then id else fill.id
  sellOrderId := if side = .buy then fill.id else id
  price := fill.price
  qty := fill.qty
  tsNs := tsNs

end Flat

/-- The number a machine quantity stands for. -/
def flatTrade (t : Trade) : FlatTrade :=
  ⟨t.buyOrderId, t.sellOrderId, t.price, t.qty.toNat, t.tsNs⟩

namespace Flat

def call (capacity : Nat) (f : Flat) : Call → Flat × Answer FlatTrade
  | .add id side price qty tsNs tradesOut =>
      ((f.add capacity id side price qty.toNat).1,
       .trades (tradesOut.map flatTrade
         ++ (f.add capacity id side price qty.toNat).2.map (trade id side tsNs)))
  | .cancel id => ((f.cancel id).1, .removed (f.cancel id).2)

def run (capacity : Nat) (f : Flat) : List Call → Flat × List (Answer FlatTrade)
  | [] => (f, [])
  | c :: calls =>
      ((run capacity (f.call capacity c).1 calls).1,
       (f.call capacity c).2 :: (run capacity (f.call capacity c).1 calls).2)

/-- An added id is not already resting. -/
def Fresh (f : Flat) : Call → Prop
  | .add id _ _ _ _ _ => id ∉ f.ids
  | .cancel _ => True

instance (f : Flat) (c : Call) : Decidable (f.Fresh c) :=
  match c with
  | .add id _ _ _ _ _ => inferInstanceAs (Decidable (id ∉ f.ids))
  | .cancel _ => .isTrue trivial

/-- No call of the sequence adds an id that is resting when it is made. -/
def FreshRun (capacity : Nat) : Flat → List Call → Prop
  | _, [] => True
  | f, c :: calls => f.Fresh c ∧ FreshRun capacity (f.call capacity c).1 calls

instance decidableFreshRun (capacity : Nat) :
    ∀ (f : Flat) (calls : List Call), Decidable (FreshRun capacity f calls)
  | _, [] => .isTrue trivial
  | f, c :: calls =>
      have := decidableFreshRun capacity (f.call capacity c).1 calls
      inferInstanceAs (Decidable (f.Fresh c ∧ FreshRun capacity (f.call capacity c).1 calls))

end Flat

end HftLob.Book

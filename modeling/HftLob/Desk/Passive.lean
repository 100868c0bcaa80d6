import HftLob.Desk.MarketMaker
import HftLob.Book.View
import HftLob.Lib.Mealy

/-!
# The market maker quotes passively

The mid price lies between the best bid and the best ask, whichever way it is rounded, so
a quote half a spread away from it on either side does not reach the other side of the
book. And each side of the book holds orders of the feed and at most the one quote that
the market maker remembers, which it takes out before it places the next.

`Holdings` is that second fact, for any book on the way through `on_tick`.
-/

namespace HftLob.Desk

open HftLob.Book HftLob.Lib HftLob.Lib.PriceTime

variable {cap : PoolCapacity}

/-! ## Runs -/

structure Session (cap : PoolCapacity) where
  book : OrderBook cap
  maker : MarketMaker
  nextId : OrderId

inductive Action where
  /-- An order of the feed goes into the book. -/
  | order (o : Order)
  | tick (tsNs : Nanos)

namespace Session

/-- A fresh market maker at an empty book. -/
def init (cap : PoolCapacity) (halfSpread : Price) (quoteSize : Qty) (requoteThreshold : Price)
    (start : OrderId) : Session cap where
  book := OrderBook.init cap
  maker := { halfSpread := halfSpread, quoteSize := quoteSize,
             requoteThreshold := requoteThreshold }
  nextId := start

/-- The new state, and the trades of the call. -/
def act (d : Session cap) : Action → Session cap × List Trade
  | .order o =>
      let r := d.book.addLimitOrder o.id o.side o.price o.qty o.tsNs []
      ({ d with book := r.1 }, r.2)
  | .tick tsNs =>
      let t := d.maker.onTick d.book d.nextId tsNs []
      (⟨t.book, t.maker, t.nextId⟩, t.trades)

def run (d : Session cap) (actions : List Action) : Session cap × List Trade :=
  Mealy.run act d actions

end Session

/-- Of magnitude below `n`. -/
def Within (n x : Int) : Prop := -n < x ∧ x < n

instance (n x : Int) : Decidable (Within n x) := inferInstanceAs (Decidable (_ ∧ _))

/-- The orders of the feed in a run. -/
def feedOrders (actions : List Action) : List Order :=
  actions.filterMap fun
    | .order o => some o
    | .tick _ => none

def ticks (actions : List Action) : Nat :=
  actions.countP fun
    | .order _ => false
    | .tick _ => true

/-- At most one bid and at most one ask has an id of the strategy. -/
def OneQuote (start : OrderId) (b : OrderBook cap) : Prop :=
  ∀ side, ((b.flat.own side).filter (fun x => start ≤ x.id)).length ≤ 1

/-- What a tick does in this state, whatever vector it is given. -/
structure PassiveTick (start : OrderId) (d : Session cap) (tsNs : Nanos) : Prop where
  noTrade : ∀ out, (d.maker.onTick d.book d.nextId tsNs out).trades = out
  bidBelow : ∀ mid, d.maker.target d.book = some mid →
    ∀ y ∈ d.book.flat.asks, int64 (mid - d.maker.halfSpread) < y.price
  /-- Above the bids that are there before, and above the new one. -/
  askAbove : ∀ mid out, d.maker.target d.book = some mid →
    ∀ x ∈ d.book.flat.bids
        ++ (d.maker.requote d.book d.nextId mid tsNs out).bidPlaced.1.flat.bids,
      x.price < int64 (mid + d.maker.halfSpread)
  /-- After each of the calls that move the quotes. -/
  oneQuote : ∀ mid out, d.maker.target d.book = some mid →
    OneQuote start (d.maker.requote d.book d.nextId mid tsNs out).bidGone
      ∧ OneQuote start (d.maker.requote d.book d.nextId mid tsNs out).askGone
      ∧ OneQuote start (d.maker.requote d.book d.nextId mid tsNs out).bidPlaced.1
      ∧ OneQuote start (d.maker.requote d.book d.nextId mid tsNs out).askPlaced.1

/-! ## Whose orders are in the book -/

/-- An order of the feed, under an id seen before. -/
def FromFeed (start : OrderId) (seen : List OrderId) (x : Entry OrderId Price) : Prop :=
  x.id < start ∧ x.id ∈ seen ∧ Within (2 ^ 61) x.price

/-- Each side has orders of the feed, and at most the quote that is given for it. -/
structure Holdings (start : OrderId) (seen : List OrderId) (quote : Side → Option (OrderId × Price))
    (b : OrderBook cap) : Prop where
  book : BookInv b
  own : ∀ side, ∀ x ∈ b.flat.own side,
    FromFeed start seen x ∨ quote side = some (x.id, x.price)

variable {start id : OrderId} {seen : List OrderId} {quote : Side → Option (OrderId × Price)}
  {b : OrderBook cap} {side : Side} {price : Price}

theorem Holdings.oneQuote (h : Holdings start seen quote b) : OneQuote start b := by
  intro side
  -- whatever has an id of the strategy on this side has the id of the quote
  have hquote : ∀ x ∈ b.flat.own side, start ≤ x.id → quote side = some (x.id, x.price) := by
    intro x hx hge
    rcases h.own side x hx with hfeed | hq
    · exact absurd hfeed.1 (UInt64.not_lt.mpr hge)
    · exact hq
  cases hq : quote side with
  | none =>
      rw [List.filter_eq_nil_iff.mpr]
      · simp
      · intro x hx hge
        have hsome := hquote x hx (of_decide_eq_true hge)
        rw [hq] at hsome
        exact absurd hsome nofun
  | some v =>
      have hsub : ((b.flat.own side).filter (fun x => start ≤ x.id)).length
          ≤ ((b.flat.own side).filter (fun x => x.id = v.1)).length := by
        rw [← List.countP_eq_length_filter, ← List.countP_eq_length_filter]
        refine List.countP_mono_left fun x hx hge => ?_
        have hsome := hquote x hx (of_decide_eq_true hge)
        rw [hq] at hsome
        exact decide_eq_true (congrArg Prod.fst (Option.some.inj hsome)).symm
      have hside : ((b.flat.own side).filter (fun x => x.id = v.1)).length
          ≤ (b.flat.orders.filter (fun x => x.id = v.1)).length := by
        rw [((b.flat.orders_perm side).filter _).length_eq, List.filter_append, List.length_append]
        omega
      have hone := h.book.length_filter_id_le v.1
      omega

/-- An id of the strategy that no quote has is not in the book. -/
theorem Holdings.fresh (h : Holdings start seen quote b) (hid : start ≤ id)
    (hquote : ∀ side p, quote side ≠ some (id, p)) : id ∉ b.flat.ids := by
  refine Flat.not_mem_ids fun side x hx => ?_
  rintro rfl
  rcases h.own side x hx with hfeed | hq
  · exact absurd hfeed.1 (UInt64.not_lt.mpr hid)
  · exact hquote side x.price hq

/-- A new order of the feed is not in the book. -/
theorem Holdings.fresh_feed (h : Holdings start seen quote b) (hid : id < start) (hnew : id ∉ seen)
    (hquote : ∀ side i p, quote side = some (i, p) → start ≤ i) : id ∉ b.flat.ids := by
  refine Flat.not_mem_ids fun side x hx => ?_
  rintro rfl
  rcases h.own side x hx with hfeed | hq
  · exact hnew hfeed.2.1
  · exact absurd hid (UInt64.not_lt.mpr (hquote side _ _ hq))

theorem Holdings.cancel (h : Holdings start seen quote b) (hquote : quote side = some (id, price)) :
    Holdings start seen (Function.update quote side none) (b.cancel id).1 := by
  obtain ⟨hinv, hflat, _⟩ := cancel_spec id h.book
  refine ⟨hinv, fun s x hx => ?_⟩
  rw [hflat, Flat.own_cancel] at hx
  obtain ⟨hx, hne⟩ := List.mem_filter.mp hx
  refine (h.own s x hx).imp_right fun hq => ?_
  have hs : s ≠ side := by
    rintro rfl
    rw [hquote] at hq
    have hid : id = x.id := congrArg Prod.fst (Option.some.inj hq)
    exact of_decide_eq_true hne hid.symm
  rw [Function.update_of_ne hs]
  exact hq

/-- **A quote that crosses nothing** is placed without a trade. -/
theorem Holdings.place (side : Side) (h : Holdings start seen quote b) (hnone : quote side = none)
    (hfresh : id ∉ b.flat.ids) (qty : Qty) (tsNs : Nanos) (out : List Trade)
    (hno : ∀ y ∈ b.flat.opposite side, ¬ Flat.crosses side price y.price) :
    Holdings start seen (Function.update quote side (some (id, price)))
        (b.addLimitOrder id side price qty tsNs out).1
      ∧ (b.addLimitOrder id side price qty tsNs out).2 = out
      ∧ (∀ x ∈ (b.addLimitOrder id side price qty tsNs out).1.flat.own side,
          x ∈ b.flat.own side ∨ x.price = price) := by
  obtain ⟨hinv, hflat, htrades⟩ := addLimitOrder_spec h.book hfresh
  have hwalk : b.flat.addWalk side price qty.toNat
      = ⟨[], qty.toNat, b.flat.opposite side⟩ := walk_uncrossed hno
  have hopp : (b.flat.add cap.slots id side price qty.toNat).1.opposite side
      = b.flat.opposite side := by rw [Flat.add_opposite, hwalk]
  have hown : ∀ x ∈ (b.flat.add cap.slots id side price qty.toNat).1.own side,
      x ∈ b.flat.own side ∨ (x.id = id ∧ x.price = price) := by
    intro x hx
    rw [Flat.add_own] at hx
    split at hx
    · rcases List.mem_cons.mp ((insert_perm _ _).mem_iff.mp hx) with rfl | hx
      · exact Or.inr ⟨rfl, rfl⟩
      · exact Or.inl hx
    · exact Or.inl hx
  refine ⟨⟨hinv, fun s x hx => ?_⟩, ?_, ?_⟩
  · rw [hflat] at hx
    by_cases hs : s = side
    · subst hs
      rw [Function.update_self]
      rcases hown x hx with hold | ⟨hid, hprice⟩
      · refine (h.own s x hold).imp_right fun hq => ?_
        rw [hnone] at hq
        exact absurd hq (by simp)
      · exact Or.inr (by rw [hid, hprice])
    · rw [Function.update_of_ne hs]
      refine h.own s x ?_
      rw [Flat.own_of_ne hs] at hx ⊢
      rw [hopp] at hx
      exact hx
  · rw [htrades, Flat.add_fills, hwalk]
    exact List.append_nil out
  · intro x hx
    rw [hflat] at hx
    exact (hown x hx).imp_right And.right

/-- **An order of the feed** may fill the quotes, and joins the others. -/
theorem Holdings.feed {o : Order} (h : Holdings start seen quote b) (hbelow : o.id < start)
    (hprice : Within (2 ^ 61) o.price) (hfresh : o.id ∉ b.flat.ids) (tsNs : Nanos)
    (out : List Trade) :
    Holdings start (seen ++ [o.id]) quote
      (b.addLimitOrder o.id o.side o.price o.qty tsNs out).1 := by
  obtain ⟨hinv, hflat, _⟩ := addLimitOrder_spec h.book hfresh
  have hold : ∀ s x, x ∈ b.flat.own s →
      FromFeed start (seen ++ [o.id]) x ∨ quote s = some (x.id, x.price) := by
    intro s x hx
    refine (h.own s x hx).imp_left fun hfeed => ?_
    exact ⟨hfeed.1, List.mem_append_left _ hfeed.2.1, hfeed.2.2⟩
  refine ⟨hinv, fun s x hx => ?_⟩
  rw [hflat] at hx
  by_cases hs : s = o.side
  · subst hs
    rw [Flat.add_own] at hx
    split at hx
    · rcases List.mem_cons.mp ((insert_perm _ _).mem_iff.mp hx) with rfl | hx
      · exact Or.inl ⟨hbelow, by simp, hprice⟩
      · exact hold _ x hx
    · exact hold _ x hx
  · rw [Flat.own_of_ne hs, Flat.add_opposite] at hx
    -- what the walk leaves has the id and the price it had
    have hkey : (x.id, x.price)
        ∈ (b.flat.opposite o.side).map (fun y => (y.id, y.price)) :=
      (walk_rest_keys _ _ _).subset (List.mem_map_of_mem hx)
    obtain ⟨y, hy, hkey⟩ := List.mem_map.mp hkey
    have hid : y.id = x.id := congrArg Prod.fst hkey
    have hpx : y.price = x.price := congrArg Prod.snd hkey
    rw [← Flat.own_of_ne hs] at hy
    have hyold := hold s y hy
    unfold FromFeed at hyold ⊢
    rw [hid, hpx] at hyold
    exact hyold

/-! ## The mid price -/

theorem tdiv_two_between {a c : Int} (h : a < c) : a ≤ (a + c).tdiv 2 ∧ (a + c).tdiv 2 ≤ c := by
  rcases Int.le_total 0 (a + c) with hpos | hneg
  · rw [Int.tdiv_eq_ediv_of_nonneg hpos]
    omega
  · have hflip : (a + c).tdiv 2 = -((-(a + c)) / 2) := by
      rw [← Int.tdiv_eq_ediv_of_nonneg (by omega), Int.neg_tdiv, Int.neg_neg]
    rw [hflip]
    omega

theorem Within.tdiv_two {n x : Int} (h : Within (2 * n) x) : Within n (x.tdiv 2) := by
  obtain ⟨hlo, hhi⟩ := h
  unfold Within
  rcases Int.le_total 0 x with hpos | hneg
  · rw [Int.tdiv_eq_ediv_of_nonneg hpos]
    omega
  · have hflip : x.tdiv 2 = -((-x) / 2) := by
      rw [← Int.tdiv_eq_ediv_of_nonneg (by omega), Int.neg_tdiv, Int.neg_neg]
    rw [hflip]
    omega

theorem Within.int64 {x : Int} (h : Within (2 ^ 63) x) : int64 x = x :=
  int64_of_range (Int.le_of_lt h.1) h.2

/-- The quotes of a market maker, by side. -/
def MarketMaker.standing (mm : MarketMaker) (side : Side) : Option (OrderId × Price) :=
  if mm.quoting then
    some (match side with
      | .buy => (mm.myBidId, mm.lastMid - mm.halfSpread)
      | .sell => (mm.myAskId, mm.lastMid + mm.halfSpread))
  else none

theorem standing_buy {mm : MarketMaker} {i : OrderId} {p : Price}
    (h : mm.standing .buy = some (i, p)) : p = mm.lastMid - mm.halfSpread := by
  unfold MarketMaker.standing at h
  split at h
  · exact (congrArg Prod.snd (Option.some.inj h)).symm
  · exact absurd h nofun

theorem standing_sell {mm : MarketMaker} {i : OrderId} {p : Price}
    (h : mm.standing .sell = some (i, p)) : p = mm.lastMid + mm.halfSpread := by
  unfold MarketMaker.standing at h
  split at h
  · exact (congrArg Prod.snd (Option.some.inj h)).symm
  · exact absurd h nofun

/-- The prices stay where no sum of two of them overflows. -/
structure InRange (mm : MarketMaker) : Prop where
  spread : Within (2 ^ 61) mm.halfSpread
  mid : Within (2 ^ 62) mm.lastMid

theorem sum_within {mm : MarketMaker} (h : InRange mm) {bid ask : Int}
    (hbid : Within (2 ^ 61) bid ∨ bid = mm.lastMid - mm.halfSpread)
    (hask : Within (2 ^ 61) ask ∨ ask = mm.lastMid + mm.halfSpread) :
    Within (2 ^ 63) (bid + ask) := by
  obtain ⟨⟨hs₁, hs₂⟩, hm₁, hm₂⟩ := h
  unfold Within at *
  rcases hbid with hb | hb <;> rcases hask with ha | ha <;> omega

/-- The new quotes are on either side of the mid price. -/
theorem quotes_around {mm : MarketMaker} (h : InRange mm) (hspread : 1 ≤ mm.halfSpread)
    {mid : Price} (hmid : Within (2 ^ 62) mid) :
    mid - mm.halfSpread < mid ∧ int64 (mid - mm.halfSpread) = mid - mm.halfSpread
      ∧ mid < mid + mm.halfSpread ∧ int64 (mid + mm.halfSpread) = mid + mm.halfSpread := by
  obtain ⟨⟨hs₁, hs₂⟩, _⟩ := h
  obtain ⟨hm₁, hm₂⟩ := hmid
  have hpos : (1 : Int) ≤ mm.halfSpread := hspread
  refine ⟨Int.sub_lt_self _ hpos, Within.int64 ⟨?_, ?_⟩, Int.lt_add_of_pos_right _ hpos,
    Within.int64 ⟨?_, ?_⟩⟩ <;> omega

/-- **Where the quotes move to**: between the best prices, and back in range. -/
theorem Holdings.target_spec {mm : MarketMaker} (h : Holdings start seen mm.standing b)
    (hrange : InRange mm) {mid : Price} (htarget : mm.target b = some mid) :
    (∀ x ∈ b.flat.bids, x.price ≤ mid) ∧ (∀ y ∈ b.flat.asks, mid ≤ y.price)
      ∧ Within (2 ^ 62) mid := by
  unfold MarketMaker.target at htarget
  cases hbid : b.bestBid with
  | none => rw [hbid] at htarget; exact absurd htarget nofun
  | some bid =>
      cases hask : b.bestAsk with
      | none => rw [hbid, hask] at htarget; exact absurd htarget nofun
      | some ask =>
          rw [hbid, hask] at htarget
          dsimp only at htarget
          split at htarget
          · exact absurd htarget nofun
          · obtain ⟨⟨x, hx, hxp⟩, hbids⟩ := h.book.bestBid_spec hbid
            obtain ⟨⟨y, hy, hyp⟩, hasks⟩ := h.book.bestAsk_spec hask
            have hlt : bid.1 < ask.1 := by
              rw [← hxp, ← hyp]
              exact h.book.flat_uncrossed x hx y hy
            -- each of the two prices is one of the feed's, or the quote's
            have hbidPx : Within (2 ^ 61) bid.1 ∨ bid.1 = mm.lastMid - mm.halfSpread := by
              rw [← hxp]
              exact (h.own .buy x hx).imp (fun hfeed => hfeed.2.2) standing_buy
            have haskPx : Within (2 ^ 61) ask.1 ∨ ask.1 = mm.lastMid + mm.halfSpread := by
              rw [← hyp]
              exact (h.own .sell y hy).imp (fun hfeed => hfeed.2.2) standing_sell
            have hsum : Within (2 ^ 63) (bid.1 + ask.1) :=
              sum_within hrange hbidPx haskPx
            have hmid : mid = (bid.1 + ask.1).tdiv 2 := by
              rw [← Option.some.inj htarget, MarketMaker.midOf,
                hsum.int64]
            obtain ⟨hge, hle⟩ := tdiv_two_between hlt
            rw [hmid]
            exact ⟨fun x hx => Int.le_trans (hbids x hx) hge,
              fun y hy => Int.le_trans hle (hasks y hy), Within.tdiv_two (n := 2 ^ 62) hsum⟩

/-! ## One tick -/

/-- Taking a quote out, if there is one to take out. -/
theorem Holdings.retire (c : Bool) (h : Holdings start seen quote b)
    (hquote : quote side = if c then some (id, price) else none) :
    Holdings start seen (Function.update quote side none) (if c then (b.cancel id).1 else b)
      ∧ ∀ s, (if c then (b.cancel id).1 else b).flat.own s ⊆ b.flat.own s := by
  cases c with
  | true =>
      refine ⟨h.cancel hquote, fun s x hx => ?_⟩
      obtain ⟨_, hflat, _⟩ := cancel_spec id h.book
      rw [if_pos rfl, hflat, Flat.own_cancel] at hx
      exact (List.mem_filter.mp hx).1
  | false =>
      refine ⟨?_, fun s x hx => hx⟩
      have hsame : Function.update quote side none = quote := by
        rw [← show quote side = none from hquote, Function.update_eq_self]
      rw [hsame]
      exact h

theorem toNat_succ_id {i : OrderId} (h : i.toNat + 1 < 2 ^ 64) : (i + 1).toNat = i.toNat + 1 := by
  rw [UInt64.toNat_add, UInt64.toNat_one, Nat.mod_eq_of_lt h]

theorem lt_succ_id {i : OrderId} (h : i.toNat + 1 < 2 ^ 64) : i < i + 1 := by
  rw [UInt64.lt_iff_toNat_lt, toNat_succ_id h]
  exact Nat.lt_succ_self _

/-- The two quotes that a move of the quotes leaves. -/
def newQuotes (nextId : OrderId) (bidPx askPx : Price) : Side → Option (OrderId × Price)
  | .buy => some (nextId, bidPx)
  | .sell => some (nextId + 1, askPx)

theorem update_newQuotes (nextId : OrderId) (bidPx askPx : Price) :
    Function.update (Function.update (fun _ : Side => none) .buy (some (nextId, bidPx))) .sell
      (some (nextId + 1, askPx)) = newQuotes nextId bidPx askPx := by
  funext s
  cases s <;> rfl

/-- What moving the quotes leaves at each of its four calls. -/
structure Requoted (start : OrderId) (seen : List OrderId) (quote : Side → Option (OrderId × Price))
    (askPx : Price) (out : List Trade) (r : Requote cap) : Prop where
  bidGone : OneQuote start r.bidGone
  askGone : OneQuote start r.askGone
  bidPlaced : OneQuote start r.bidPlaced.1
  below : ∀ x ∈ r.bidPlaced.1.flat.bids, x.price < askPx
  askPlaced : Holdings start seen quote r.askPlaced.1
  noTrade : r.askPlaced.2 = out

/-- **Moving the quotes**, from any book in which nothing of the other side is at the new
prices. -/
theorem Holdings.requote {mm : MarketMaker} (h : Holdings start seen mm.standing b)
    {nextId : OrderId}
    (hstart : start ≤ nextId) (hroom : nextId.toNat + 2 ≤ 2 ^ 64) {mid bidPx askPx : Price}
    (hbid : int64 (mid - mm.halfSpread) = bidPx) (hask : int64 (mid + mm.halfSpread) = askPx)
    (hspread : bidPx < askPx) (hbids : ∀ x ∈ b.flat.bids, x.price < askPx)
    (hasks : ∀ y ∈ b.flat.asks, bidPx < y.price) (tsNs : Nanos) (out : List Trade) :
    Requoted start seen (newQuotes nextId bidPx askPx) askPx out
      (mm.requote b nextId mid tsNs out) := by
  have hsucc : nextId < nextId + 1 := lt_succ_id (by omega)
  have hstart' : start ≤ nextId + 1 := UInt64.le_trans hstart (UInt64.le_of_lt hsucc)
  unfold MarketMaker.requote
  dsimp only
  rw [hbid, hask]
  -- out with the old quotes
  have hbuy : mm.standing .buy
      = if mm.quoting then some (mm.myBidId, mm.lastMid - mm.halfSpread) else none := rfl
  obtain ⟨hgone₁, hsub₁⟩ := h.retire mm.quoting hbuy
  have hsell : Function.update mm.standing .buy none .sell
      = if mm.quoting then some (mm.myAskId, mm.lastMid + mm.halfSpread) else none := rfl
  obtain ⟨hgone₂, hsub₂⟩ := hgone₁.retire mm.quoting hsell
  have hempty : Function.update (Function.update mm.standing .buy none) .sell none
      = fun _ => none := by
    funext s
    cases s <;> rfl
  rw [hempty] at hgone₂
  generalize (if mm.quoting then (b.cancel mm.myBidId).1 else b) = bidGone at *
  generalize (if mm.quoting then (bidGone.cancel mm.myAskId).1 else bidGone) = askGone at *
  -- in with the new bid
  have hnoAsk : ∀ y ∈ askGone.flat.opposite .buy, ¬ Flat.crosses .buy bidPx y.price := by
    intro y hy hcross
    have hlt := hasks y (hsub₁ .sell (hsub₂ .sell hy))
    exact absurd (of_decide_eq_true hcross) (Int.not_le.mpr hlt)
  obtain ⟨hplaced₁, hout₁, hown₁⟩ := hgone₂.place .buy rfl
    (hgone₂.fresh hstart nofun) mm.quoteSize tsNs out hnoAsk
  have hbelow : ∀ x ∈ (askGone.addLimitOrder nextId .buy bidPx mm.quoteSize tsNs out).1.flat.bids,
      x.price < askPx := by
    intro x hx
    rcases hown₁ x hx with hold | hprice
    · exact hbids x (hsub₁ .buy (hsub₂ .buy hold))
    · rw [hprice]
      exact hspread
  -- and with the new ask
  have hnoBid : ∀ x ∈ (askGone.addLimitOrder nextId .buy bidPx mm.quoteSize tsNs
      out).1.flat.opposite .sell, ¬ Flat.crosses .sell askPx x.price := by
    intro x hx hcross
    exact absurd (of_decide_eq_true hcross) (Int.not_le.mpr (hbelow x hx))
  have hother : ∀ s p, Function.update (fun _ => none) Side.buy (some (nextId, bidPx)) s
      ≠ some (nextId + 1, p) := by
    intro s p hq
    cases s with
    | buy => exact UInt64.ne_of_lt hsucc (congrArg Prod.fst (Option.some.inj hq))
    | sell => exact absurd hq nofun
  obtain ⟨hplaced₂, hout₂, _⟩ := hplaced₁.place .sell rfl
    (hplaced₁.fresh hstart' hother) mm.quoteSize tsNs
    (askGone.addLimitOrder nextId .buy bidPx mm.quoteSize tsNs out).2 hnoBid
  rw [update_newQuotes] at hplaced₂
  exact ⟨hgone₁.oneQuote, hgone₂.oneQuote, hplaced₁.oneQuote, hbelow, hplaced₂,
    hout₂.trans hout₁⟩

/-- What holds between the actions of a run, with at most `left` ticks still to come. -/
structure SessionInv (start : OrderId) (seen : List OrderId) (left : Nat) (d : Session cap) :
    Prop where
  holdings : Holdings start seen d.maker.standing d.book
  range : InRange d.maker
  spread : 1 ≤ d.maker.halfSpread
  ours : ∀ side i p, d.maker.standing side = some (i, p) → start ≤ i
  /-- The ids do not run out. -/
  ids : 0 < left → start ≤ d.nextId ∧ d.nextId.toNat + 2 * left ≤ 2 ^ 64

/-- A tick that leaves the quotes where they are. -/
theorem SessionInv.tick_stays {left : Nat} {d : Session cap}
    (h : SessionInv start seen (left + 1) d)
    (tsNs : Nanos) (htarget : d.maker.target d.book = none) :
    PassiveTick start d tsNs ∧ SessionInv start seen left (d.act (.tick tsNs)).1 := by
  obtain ⟨hstart, hroom⟩ := h.ids (Nat.succ_pos left)
  have hstay : ∀ out, d.maker.onTick d.book d.nextId tsNs out
      = ⟨d.maker, d.book, d.nextId, out⟩ := by
    intro out
    rw [MarketMaker.onTick, htarget]
  refine ⟨⟨fun out => by rw [hstay], ?_, ?_, ?_⟩, ?_⟩
  · exact fun mid hmid => absurd (htarget.symm.trans hmid) nofun
  · exact fun mid out hmid => absurd (htarget.symm.trans hmid) nofun
  · exact fun mid out hmid => absurd (htarget.symm.trans hmid) nofun
  · rw [Session.act, hstay]
    have hfewer : d.nextId.toNat + 2 * left ≤ 2 ^ 64 := by omega
    exact ⟨h.holdings, h.range, h.spread, h.ours, fun _ => ⟨hstart, hfewer⟩⟩

/-- A tick that moves them. -/
theorem SessionInv.tick_moves {left : Nat} {d : Session cap}
    (h : SessionInv start seen (left + 1) d)
    (tsNs : Nanos) {mid : Price} (htarget : d.maker.target d.book = some mid) :
    PassiveTick start d tsNs ∧ SessionInv start seen left (d.act (.tick tsNs)).1 := by
  obtain ⟨hstart, hroom⟩ := h.ids (Nat.succ_pos left)
  obtain ⟨hbids, hasks, hmid⟩ := h.holdings.target_spec h.range htarget
  obtain ⟨hlow, hbid, hhigh, hask⟩ := quotes_around h.range h.spread hmid
  have hsucc : d.nextId < d.nextId + 1 := lt_succ_id (by omega)
  have hmove := fun out => h.holdings.requote hstart (by omega) hbid hask
    (Int.lt_trans hlow hhigh) (fun x hx => Int.lt_of_le_of_lt (hbids x hx) hhigh)
    (fun y hy => Int.lt_of_lt_of_le hlow (hasks y hy)) tsNs out
  have hmoved : ∀ out, d.maker.onTick d.book d.nextId tsNs out
      = ⟨{ d.maker with quoting := true, lastMid := mid, myBidId := d.nextId,
                        myAskId := d.nextId + 1 },
          (d.maker.requote d.book d.nextId mid tsNs out).askPlaced.1, d.nextId + 1 + 1,
          (d.maker.requote d.book d.nextId mid tsNs out).askPlaced.2⟩ := by
    intro out
    rw [MarketMaker.onTick, htarget]
  refine ⟨⟨fun out => by rw [hmoved]; exact (hmove out).noTrade, ?_, ?_, ?_⟩, ?_⟩
  · intro mid' htarget' y hy
    obtain rfl := Option.some.inj (htarget.symm.trans htarget')
    rw [hbid]
    exact Int.lt_of_lt_of_le hlow (hasks y hy)
  · intro mid' out htarget' x hx
    obtain rfl := Option.some.inj (htarget.symm.trans htarget')
    rw [hask]
    rcases List.mem_append.mp hx with hx | hx
    · exact Int.lt_of_le_of_lt (hbids x hx) hhigh
    · exact (hmove out).below x hx
  · intro mid' out htarget'
    obtain rfl := Option.some.inj (htarget.symm.trans htarget')
    exact ⟨(hmove out).bidGone, (hmove out).askGone, (hmove out).bidPlaced,
      (hmove out).askPlaced.oneQuote⟩
  · rw [Session.act, hmoved]
    dsimp only
    refine ⟨?_, ⟨h.range.spread, hmid⟩, h.spread, ?_, fun hleft => ?_⟩
    · have hquotes : MarketMaker.standing { d.maker with
          quoting := true, lastMid := mid, myBidId := d.nextId, myAskId := d.nextId + 1 }
          = newQuotes d.nextId (mid - d.maker.halfSpread) (mid + d.maker.halfSpread) := by
        funext side
        cases side <;> rfl
      rw [hquotes]
      exact (hmove []).askPlaced
    · intro side i p hq
      cases side with
      | buy =>
          obtain rfl : d.nextId = i := congrArg Prod.fst (Option.some.inj hq)
          exact hstart
      | sell =>
          obtain rfl : d.nextId + 1 = i := congrArg Prod.fst (Option.some.inj hq)
          exact UInt64.le_trans hstart (UInt64.le_of_lt hsucc)
    · have hone := toNat_succ_id (i := d.nextId) (by omega)
      have htwo := toNat_succ_id (i := d.nextId + 1) (by omega)
      have hnext : start ≤ d.nextId + 1 + 1 := by
        rw [UInt64.le_iff_toNat_le] at hstart ⊢
        omega
      have hfewer : (d.nextId + 1 + 1).toNat + 2 * left ≤ 2 ^ 64 := by omega
      exact ⟨hnext, hfewer⟩

/-- **A tick** appends no trade, and leaves at most its own two quotes. -/
theorem SessionInv.tick {left : Nat} {d : Session cap} (h : SessionInv start seen (left + 1) d)
    (tsNs : Nanos) :
    PassiveTick start d tsNs ∧ SessionInv start seen left (d.act (.tick tsNs)).1 := by
  cases htarget : d.maker.target d.book with
  | none => exact h.tick_stays tsNs htarget
  | some mid => exact h.tick_moves tsNs htarget

/-- **An order of the feed**, whatever it trades with. -/
theorem SessionInv.order {left : Nat} {d : Session cap} {o : Order}
    (h : SessionInv start seen left d)
    (hbelow : o.id < start) (hprice : Within (2 ^ 61) o.price) (hnew : o.id ∉ seen) :
    SessionInv start (seen ++ [o.id]) left (d.act (.order o)).1 :=
  ⟨h.holdings.feed hbelow hprice (h.holdings.fresh_feed hbelow hnew h.ours) o.tsNs [],
    h.range, h.spread, h.ours, h.ids⟩

/-! ## Whole runs -/

theorem SessionInv.run {left : Nat} {actions : List Action} {d : Session cap}
    (h : SessionInv start seen (ticks actions + left) d)
    (hids : (seen ++ (feedOrders actions).map Order.id).Nodup)
    (hfeed : ∀ o ∈ feedOrders actions, o.id < start ∧ Within (2 ^ 61) o.price) :
    SessionInv start (seen ++ (feedOrders actions).map Order.id) left (d.run actions).1 := by
  induction actions generalizing d seen with
  | nil => simpa [feedOrders, ticks, Session.run] using h
  | cons a actions ih =>
      rw [Session.run, Mealy.run_cons]
      cases a with
      | order o =>
          have hcons : feedOrders (.order o :: actions) = o :: feedOrders actions := rfl
          have hcount : ticks (.order o :: actions) = ticks actions := rfl
          rw [hcons, List.map_cons] at hids ⊢
          rw [hcons] at hfeed
          rw [hcount] at h
          obtain ⟨hbelow, hprice⟩ := hfeed o List.mem_cons_self
          have hnew : o.id ∉ seen := fun hin =>
            (List.nodup_append.mp hids).2.2 o.id hin o.id List.mem_cons_self rfl
          rw [List.append_cons] at hids ⊢
          exact ih (h.order hbelow hprice hnew) hids
            fun o' ho' => hfeed o' (List.mem_cons_of_mem _ ho')
      | tick tsNs =>
          have hcount : ticks (.tick tsNs :: actions) + left = ticks actions + left + 1 := by
            rw [ticks, List.countP_cons_of_pos rfl, ticks]
            omega
          rw [hcount] at h
          exact ih (h.tick tsNs).2 hids hfeed

theorem sessionInv_init (cap : PoolCapacity) {halfSpread : Price} (hspread : 1 ≤ halfSpread)
    (hsmall : Within (2 ^ 61) halfSpread) (quoteSize : Qty) (requoteThreshold : Price)
    {left : Nat} (hroom : start.toNat + 2 * left ≤ 2 ^ 64) :
    SessionInv start [] left (Session.init cap halfSpread quoteSize requoteThreshold start) := by
  have hzero : Within (2 ^ 62) 0 := by decide
  refine ⟨⟨bookInv_init, fun side x hx => ?_⟩, ⟨hsmall, hzero⟩, hspread, nofun,
    fun _ => ⟨UInt64.le_refl start, hroom⟩⟩
  cases side <;> exact absurd hx List.not_mem_nil

/--
**The market maker trades with nobody on its own account, and has one quote a side.** The
feed's orders have ids of their own below the strategy's, of which there are enough for the
ticks. Then before every action of the run at most one bid and one ask of the strategy are
in the book, and every tick appends no trade, whatever the sign of the prices.
-/
theorem market_maker_passive (cap : PoolCapacity) (halfSpread : Price) (quoteSize : Qty)
    (requoteThreshold : Price) (start : OrderId) (actions : List Action)
    (hspread : 1 ≤ halfSpread) (hsmall : Within (2 ^ 61) halfSpread)
    (hids : ((feedOrders actions).map Order.id).Nodup)
    (hbelow : ∀ o ∈ feedOrders actions, o.id < start)
    (hprices : ∀ o ∈ feedOrders actions, Within (2 ^ 61) o.price)
    (hroom : start.toNat + 2 * ticks actions ≤ 2 ^ 64) :
    ∀ done todo, actions = done ++ todo →
      let d := ((Session.init cap halfSpread quoteSize requoteThreshold start).run done).1
      OneQuote start d.book ∧
        ∀ tsNs rest, todo = .tick tsNs :: rest → PassiveTick start d tsNs := by
  rintro done todo rfl
  have hcount : ticks (done ++ todo) = ticks done + ticks todo := List.countP_append
  have horders : feedOrders (done ++ todo) = feedOrders done ++ feedOrders todo :=
    List.filterMap_append
  rw [hcount] at hroom
  rw [horders] at hids hbelow hprices
  rw [List.map_append] at hids
  have hinv := (sessionInv_init cap hspread hsmall quoteSize requoteThreshold hroom).run
    hids.of_append_left fun o ho =>
      ⟨hbelow o (List.mem_append_left _ ho), hprices o (List.mem_append_left _ ho)⟩
  refine ⟨hinv.holdings.oneQuote, ?_⟩
  rintro tsNs rest rfl
  have hleft : ticks (.tick tsNs :: rest) = ticks rest + 1 := List.countP_cons_of_pos rfl
  rw [hleft] at hinv
  exact (hinv.tick tsNs).1

/-- Between a bid at -8 and an ask at -3 the mid price is -5, and the quotes are -6 and -4. -/
theorem market_maker_passive_below_zero :
    let cap : PoolCapacity := ⟨4, by decide⟩
    let d := ((Session.init cap 1 10 1 1000).run
      [.order ⟨1, .buy, -8, 5, 0⟩, .order ⟨2, .sell, -3, 5, 0⟩]).1
    d.maker.target d.book = some (-5) ∧ OneQuote 1000 d.book ∧ PassiveTick 1000 d 7 := by
  intro cap d
  have htarget : d.maker.target d.book = some (-5) := by decide +kernel
  obtain ⟨hone, hpassive⟩ := market_maker_passive cap 1 10 1 1000
    [.order ⟨1, .buy, -8, 5, 0⟩, .order ⟨2, .sell, -3, 5, 0⟩, .tick 7]
    (by decide) (by decide) (by decide) (by decide) (by decide) (by decide)
    [.order ⟨1, .buy, -8, 5, 0⟩, .order ⟨2, .sell, -3, 5, 0⟩] [.tick 7] rfl
  exact ⟨htarget, hone, hpassive 7 [] rfl⟩

end HftLob.Desk

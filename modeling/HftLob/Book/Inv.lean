import HftLob.Book.Levels
import HftLob.Book.Flat

/-!
# The representation invariant, and what each call does

`BookInv` is the whole invariant of an `OrderBook`: the four structures agree, the
levels are filed and non-empty, and no bid reaches an ask. `addLimitOrder_spec` and
`cancel_spec` say at once that a call keeps it and that on the flat book the call
is the abstract one; every later result about the book goes through these two.

The buying and the selling branch of `add_limit_order` are one function of the two
maps, `place`, at two pairs of comparators.
-/

namespace HftLob.Book

open HftLob.Lib HftLob.Lib.PriceTime OrderBook

variable {cap : PoolCapacity}

/-- The slots of every resting order. -/
def OrderBook.slots (b : OrderBook cap) : List Nat :=
  slotsOf b.bids.entries ++ slotsOf b.asks.entries

/-- The book as the two flat lists of its orders. -/
def OrderBook.flat (b : OrderBook cap) : Flat where
  bids := flatOf b.pool.storage b.bids.entries
  asks := flatOf b.pool.storage b.asks.entries

structure BookInv (b : OrderBook cap) : Prop where
  consistent : Consistent b.pool b.locate b.slots
  bids : LevelsOk b.pool.storage .buy b.bids.entries
  asks : LevelsOk b.pool.storage .sell b.asks.entries
  /-- Every bid is strictly below every ask. -/
  uncrossed : ∀ x ∈ b.bids.entries, ∀ y ∈ b.asks.entries, x.1 < y.1

theorem OrderBook.flat_ids (b : OrderBook cap) :
    b.flat.ids = b.slots.map (fun s => (b.pool.storage s).id) := by
  simp [Flat.ids, Flat.orders, flat, flatOf, slots, entryOf, Function.comp_def]

theorem OrderBook.length_orders (b : OrderBook cap) : b.flat.orders.length = b.slots.length := by
  simp [Flat.orders, OrderBook.flat, OrderBook.slots, flatOf]

@[simp] theorem OrderBook.slots_init : (OrderBook.init cap).slots = [] := rfl

@[simp] theorem OrderBook.orders_init : (OrderBook.init cap).flat.orders = [] := rfl

theorem bookInv_init : BookInv (OrderBook.init cap) where
  consistent := by
    refine ⟨ObjectPool.holds_init, by simp, ?_, ?_⟩
    · intro s hs
      simp at hs
    · intro i side price
      rw [OrderBook.slots_init]
      simp [OrderBook.init]
  bids := ⟨by simp [OrderBook.init, SortedMap.empty], by simp [OrderBook.init, SortedMap.empty]⟩
  asks := ⟨by simp [OrderBook.init, SortedMap.empty], by simp [OrderBook.init, SortedMap.empty]⟩
  uncrossed := by simp [OrderBook.init, SortedMap.empty]

/-! ## Adding an order -/

section Place

variable {ltO ltM : Price → Price → Prop} [DecidableRel ltO] [IsStrictTotalOrder Price ltO]

/-- Match against `opp`, then rest what is left in `own`: both branches of `add_limit_order`. -/
def place (own : LevelMap ltO) (opp : LevelMap ltM) (crosses : Price → Price → Bool)
    (id : OrderId) (side : Side) (price : Price) (tsNs : Nanos) (m : MatchState cap) :
    LevelMap ltO × LevelMap ltM × MatchState cap :=
  let r := matchAgainst opp id side price tsNs crosses m
  if r.2.qty > 0 then
    let o := rest own r.2.pool r.2.locate id side price r.2.qty tsNs
    (o.1, r.1, ⟨r.2.qty, o.2.1, o.2.2, r.2.trades⟩)
  else (own, r.1, r.2)

/-- The flat walk that `place` carries out. -/
def placeWalk (opp : LevelMap ltM) (crosses : Price → Price → Bool) (price : Price)
    (m : MatchState cap) : Walk OrderId Price :=
  walk (fun px => crosses px price) m.qty.toNat (flatOf m.pool.storage opp.entries)

structure Placed (own own' : LevelMap ltO) (opp opp' : LevelMap ltM)
    (crosses : Price → Price → Bool) (id : OrderId) (side oppSide : Side) (price : Price)
    (tsNs : Nanos) (m m' : MatchState cap) : Prop where
  consistent : Consistent m'.pool m'.locate (slotsOf own'.entries ++ slotsOf opp'.entries)
  levelsOwn : LevelsOk m'.pool.storage side own'.entries
  levelsOpp : LevelsOk m'.pool.storage oppSide opp'.entries
  flatOpp : flatOf m'.pool.storage opp'.entries = (placeWalk opp crosses price m).rest
  flatOwn : flatOf m'.pool.storage own'.entries =
    if 0 < (placeWalk opp crosses price m).left
        ∧ (flatOf m.pool.storage own.entries).length
          + (placeWalk opp crosses price m).rest.length < cap.slots then
      PriceTime.insert ltO ⟨id, price, (placeWalk opp crosses price m).left⟩
        (flatOf m.pool.storage own.entries)
    else flatOf m.pool.storage own.entries
  trades : m'.trades
    = m.trades ++ (placeWalk opp crosses price m).fills.map (tradeOf id side tsNs)
  keysOpp : ∀ l ∈ opp'.entries, ∃ k ∈ opp.entries, k.1 = l.1
  /-- A level of the order's own side is an old one, or the new order's, and then
  nothing on the other side crosses it any more. -/
  keysOwn : ∀ l ∈ own'.entries, (∃ k ∈ own.entries, k.1 = l.1)
    ∨ (l.1 = price ∧ ∀ y ∈ opp'.entries, ¬ crosses y.1 price)

/-- Past the best level of a side nothing crosses that the best level does not. -/
theorem not_crosses_of_head {opp : LevelMap ltM} {crosses : Price → Price → Bool} {price : Price}
    (hmono : ∀ p q, ltM p q → ¬ crosses p price → ¬ crosses q price)
    (hhead : ∀ l ∈ opp.entries.head?, ¬ crosses l.1 price) :
    ∀ y ∈ opp.entries, ¬ crosses y.1 price := by
  intro y hy
  have hs := opp.sorted
  cases he : opp.entries with
  | nil => rw [he] at hy; exact absurd hy (by simp)
  | cons l levels =>
      rw [he] at hy hhead hs
      have hl : ¬ crosses l.1 price := hhead l (by simp)
      rcases List.mem_cons.mp hy with h | h
      · rw [h]; exact hl
      · exact hmono l.1 y.1 ((List.pairwise_cons.mp hs).1 _ (List.mem_map_of_mem h)) hl

theorem matchAgainst_spec {opp : LevelMap ltM} {crosses : Price → Price → Bool}
    (id : OrderId) (side : Side) {oppSide : Side} {price : Price} (tsNs : Nanos)
    {m : MatchState cap} {others : List Nat}
    (hc : Consistent m.pool m.locate (slotsOf opp.entries ++ others))
    (hopp : LevelsOk m.pool.storage oppSide opp.entries)
    (hmono : ∀ p q, ltM p q → ¬ crosses p price → ¬ crosses q price) :
    ∃ (opp' : LevelMap ltM) (m' : MatchState cap),
      matchAgainst opp id side price tsNs crosses m = (opp', m')
      ∧ Matched (fun px => crosses px price) id side tsNs others (slotsOf opp.entries)
          (slotsOf opp'.entries) m m'
      ∧ LevelsOk m'.pool.storage oppSide opp'.entries
      ∧ (∀ l ∈ opp'.entries, ∃ k ∈ opp.entries, k.1 = l.1)
      ∧ (0 < m'.qty → ∀ y ∈ opp'.entries, ¬ crosses y.1 price) := by
  obtain ⟨hm, hok, hstop⟩ := matchLevels_matched crosses id side price tsNs opp.entries m hc hopp
  refine ⟨_, _, rfl, hm, hok, ?_, fun hq => not_crosses_of_head hmono (hstop hq)⟩
  intro l hl
  exact List.mem_map.mp ((matchLevels_keys crosses id side price tsNs opp.entries m).subset
    (List.mem_map_of_mem hl))

theorem place_spec {own : LevelMap ltO} {opp : LevelMap ltM} (crosses : Price → Price → Bool)
    {id : OrderId} {side oppSide : Side} (price : Price) (tsNs : Nanos) (m : MatchState cap)
    (hc : Consistent m.pool m.locate (slotsOf own.entries ++ slotsOf opp.entries))
    (hown : LevelsOk m.pool.storage side own.entries)
    (hopp : LevelsOk m.pool.storage oppSide opp.entries)
    (hfresh : ∀ s ∈ slotsOf own.entries ++ slotsOf opp.entries, (m.pool.storage s).id ≠ id)
    (hmono : ∀ p q, ltM p q → ¬ crosses p price → ¬ crosses q price) :
    Placed own (place own opp crosses id side price tsNs m).1 opp
      (place own opp crosses id side price tsNs m).2.1 crosses id side oppSide price tsNs m
      (place own opp crosses id side price tsNs m).2.2 := by
  obtain ⟨opp', m₁, heq, hm, hok, hkeys, hno⟩ := matchAgainst_spec id side tsNs
    (hc.perm List.perm_append_comm) hopp hmono
  obtain ⟨fills, hw, ht⟩ := hm.walk
  have hwalk : placeWalk opp crosses price m
      = ⟨fills, m₁.qty.toNat, flatOf m₁.pool.storage opp'.entries⟩ := hw
  have hcons : Consistent m₁.pool m₁.locate (slotsOf own.entries ++ slotsOf opp'.entries) :=
    hm.consistent.perm List.perm_append_comm
  -- the order's own side is next to the run that was matched
  have hdisj : ∀ s ∈ slotsOf own.entries, s ∉ slotsOf opp.entries := by
    intro s hs ho
    exact (List.nodup_append.mp hc.holds.nodup).2.2 s hs s ho rfl
  have hflat : flatOf m₁.pool.storage own.entries = flatOf m.pool.storage own.entries :=
    flatOf_congr (fun s hs => hm.frame s (hdisj s hs))
  have hown' := hm.levelsOk hown
  unfold place
  rw [heq]
  dsimp only
  by_cases hq : m₁.qty > 0
  · rw [if_pos hq]
    have hqn : 0 < m₁.qty.toNat := by simpa using UInt32.lt_iff_toNat_lt.mp hq
    have hfresh' : ∀ s ∈ slotsOf own.entries ++ slotsOf opp'.entries,
        (m₁.pool.storage s).id ≠ id := by
      intro s hs
      rw [(hm.fields s).1]
      refine hfresh s ?_
      rcases List.mem_append.mp hs with hs | hs
      · exact List.mem_append_left _ hs
      · exact List.mem_append_right _ (hm.suffix.subset hs)
    have hlen : (flatOf m.pool.storage own.entries).length
        + (flatOf m₁.pool.storage opp'.entries).length
        = (slotsOf own.entries ++ slotsOf opp'.entries).length := by
      simp [flatOf]
    rcases rest_spec tsNs hcons hown' hq hfresh' with ⟨hr, hfull⟩ | ⟨hroom, hr⟩
    · -- the pool is exhausted and the remainder is dropped
      rw [hr]
      refine ⟨hcons, hown', hok, by rw [hwalk], ?_, by rw [hwalk]; exact ht, hkeys, ?_⟩
      · rw [hwalk, if_neg]
        · exact hflat
        · rintro ⟨-, hlt⟩
          dsimp only at hlt
          omega
      · exact fun l hl => Or.inl ⟨l, hl, rfl⟩
    · -- the remainder rests behind its level
      refine ⟨hr.consistent, hr.levels, ?_, ?_, ?_, by rw [hwalk]; exact ht, hkeys, ?_⟩
      · refine hok.congr fun s hs => ?_
        rw [hr.frame s hs]
        exact ⟨rfl, rfl⟩
      · rw [hwalk, flatOf_congr (fun s hs => hr.frame s hs)]
      · rw [hwalk, if_pos ⟨hqn, by dsimp only; omega⟩, hr.flat, hflat]
      · intro l hl
        rcases hr.keys l hl with h | h
        · exact Or.inr ⟨h, hno hq⟩
        · exact Or.inl h
  · -- nothing is left to rest
    rw [if_neg hq]
    have hz : m₁.qty = 0 := UInt32.le_zero_iff.mp (UInt32.not_lt.mp hq)
    refine ⟨hcons, hown', hok, by rw [hwalk], ?_, by rw [hwalk]; exact ht, hkeys, ?_⟩
    · rw [hwalk, if_neg (by simp [hz])]
      exact hflat
    · exact fun l hl => Or.inl ⟨l, hl, rfl⟩

end Place

/-- The buying branch. -/
theorem addLimitOrder_buy (b : OrderBook cap) (id : OrderId) (price : Price) (qty : Qty)
    (tsNs : Nanos) (out : List Trade) :
    addLimitOrder b id .buy price qty tsNs out =
      let r := place b.bids b.asks (fun bookPx orderPx => decide (bookPx ≤ orderPx)) id .buy
        price tsNs ⟨qty, b.pool, b.locate, out⟩
      (⟨r.1, r.2.1, r.2.2.pool, r.2.2.locate⟩, r.2.2.trades) := by
  unfold addLimitOrder place
  rw [if_pos rfl]
  dsimp only
  split <;> rfl

/-- The selling branch. -/
theorem addLimitOrder_sell (b : OrderBook cap) (id : OrderId) (price : Price) (qty : Qty)
    (tsNs : Nanos) (out : List Trade) :
    addLimitOrder b id .sell price qty tsNs out =
      let r := place b.asks b.bids (fun bookPx orderPx => decide (bookPx ≥ orderPx)) id .sell
        price tsNs ⟨qty, b.pool, b.locate, out⟩
      (⟨r.2.1, r.1, r.2.2.pool, r.2.2.locate⟩, r.2.2.trades) := by
  unfold addLimitOrder place
  rw [if_neg (by simp)]
  dsimp only
  split <;> rfl

/--
**`add_limit_order` is the abstract one.**

It keeps the representation invariant, it does to the flat book what `Flat.add`
does, and it appends the trades of that walk to the vector it was given.
-/
theorem addLimitOrder_spec {b : OrderBook cap} {id : OrderId} {side : Side} {price : Price}
    {qty : Qty} {tsNs : Nanos} {out : List Trade} (hb : BookInv b) (hfresh : id ∉ b.flat.ids) :
    BookInv (addLimitOrder b id side price qty tsNs out).1
      ∧ (addLimitOrder b id side price qty tsNs out).1.flat
        = (b.flat.add cap.slots id side price qty.toNat).1
      ∧ (addLimitOrder b id side price qty tsNs out).2
        = out ++ (b.flat.add cap.slots id side price qty.toNat).2.map (tradeOf id side tsNs) := by
  have hids : ∀ s ∈ b.slots, (b.pool.storage s).id ≠ id := by
    intro s hs he
    rw [b.flat_ids] at hfresh
    exact hfresh (List.mem_map.mpr ⟨s, hs, he⟩)
  cases side with
  | buy =>
      have hp := place_spec (fun bookPx orderPx => decide (bookPx ≤ orderPx)) price tsNs
        ⟨qty, b.pool, b.locate, out⟩ hb.consistent hb.bids hb.asks hids (by
          -- behind an ask that is too dear every ask is
          intro p q hpq hp
          simp only [decide_eq_true_eq, not_le] at hp ⊢
          exact lt_trans hp hpq)
      rw [addLimitOrder_buy]
      refine ⟨⟨hp.consistent, hp.levelsOwn, hp.levelsOpp, ?_⟩, ?_, hp.trades⟩
      · intro x hx y hy
        -- a bid level that was there was uncrossed before; a new one means that the
        -- walk over the asks stopped at its price
        rcases hp.keysOwn x hx with ⟨k, hk, hkx⟩ | ⟨hpx, hno⟩
        · obtain ⟨k', hk', hky⟩ := hp.keysOpp y hy
          rw [← hkx, ← hky]
          exact hb.uncrossed k hk k' hk'
        · rw [hpx]
          simpa using hno y hy
      · exact congrArg₂ Flat.mk hp.flatOwn hp.flatOpp
  | sell =>
      have hp := place_spec (fun bookPx orderPx => decide (bookPx ≥ orderPx)) price tsNs
        ⟨qty, b.pool, b.locate, out⟩ (hb.consistent.perm List.perm_append_comm) hb.asks hb.bids
        (fun s hs => hids s (List.perm_append_comm.mem_iff.mp hs)) (by
          intro p q hpq hp
          simp only [decide_eq_true_eq, ge_iff_le, not_le] at hp ⊢
          exact lt_trans hpq hp)
      rw [addLimitOrder_sell]
      refine ⟨⟨hp.consistent.perm List.perm_append_comm, hp.levelsOpp, hp.levelsOwn, ?_⟩, ?_,
        hp.trades⟩
      · intro x hx y hy
        rcases hp.keysOwn y hy with ⟨k, hk, hky⟩ | ⟨hpx, hno⟩
        · obtain ⟨k', hk', hkx⟩ := hp.keysOpp x hx
          rw [← hkx, ← hky]
          exact hb.uncrossed k' hk' k hk
        · rw [hpx]
          simpa using hno x hx
      · exact congrArg₂ Flat.mk hp.flatOpp hp.flatOwn

/-! ## Canceling an order -/

/-- Where an id that `locate_` knows rests. -/
theorem BookInv.located {b : OrderBook cap} (hb : BookInv b) {id : OrderId} {side : Side}
    {price : Price} (h : b.locate.lookup id = some (side, price)) :
    ∃ s, (b.pool.storage s).id = id ∧ (b.pool.storage s).price = price
      ∧ ((side = .buy ∧ s ∈ slotsOf b.bids.entries)
        ∨ (side = .sell ∧ s ∈ slotsOf b.asks.entries)) := by
  obtain ⟨s, hs, hid, hside, hprice⟩ := (hb.consistent.index id side price).mp h
  refine ⟨s, hid, hprice, ?_⟩
  rcases List.mem_append.mp hs with hs | hs
  · exact Or.inl ⟨hside.symm.trans (hb.bids.side_of_mem hs), hs⟩
  · exact Or.inr ⟨hside.symm.trans (hb.asks.side_of_mem hs), hs⟩

/-- The order of a slot on one side is not among those of the other. -/
theorem BookInv.ids_apart {b : OrderBook cap} (hb : BookInv b) {s t : Nat}
    (hs : s ∈ slotsOf b.bids.entries) (ht : t ∈ slotsOf b.asks.entries) :
    (b.pool.storage s).id ≠ (b.pool.storage t).id := by
  intro he
  have hst : s = t := hb.consistent.slot_inj (List.mem_append_left _ hs)
    (List.mem_append_right _ ht) he
  exact (List.nodup_append.mp hb.consistent.holds.nodup).2.2 s hs t ht hst

theorem BookInv.mem_ids {b : OrderBook cap} {s : Nat} (hs : s ∈ b.slots) :
    (b.pool.storage s).id ∈ b.flat.ids := by
  rw [b.flat_ids]
  exact List.mem_map.mpr ⟨s, hs, rfl⟩

/--
**`cancel` is the abstract one.**

It keeps the representation invariant, deletes from the flat book exactly the entry
with this id, and returns whether there was one.
-/
theorem cancel_spec {b : OrderBook cap} (id : OrderId) (hb : BookInv b) :
    BookInv (cancel b id).1
      ∧ (cancel b id).1.flat = (b.flat.cancel id).1
      ∧ (cancel b id).2 = (b.flat.cancel id).2 := by
  unfold OrderBook.cancel
  cases hf : b.locate.lookup id with
  | none =>
      -- an id that `locate_` does not know is on neither side
      have hno := hb.consistent.lookup_none hf
      refine ⟨hb, ?_, ?_⟩
      · have hbids : remove id b.flat.bids = b.flat.bids := by
          refine remove_absent fun x hx => ?_
          obtain ⟨s, hs, rfl⟩ := List.mem_map.mp hx
          exact hno s (List.mem_append_left _ hs)
        have hasks : remove id b.flat.asks = b.flat.asks := by
          refine remove_absent fun x hx => ?_
          obtain ⟨s, hs, rfl⟩ := List.mem_map.mp hx
          exact hno s (List.mem_append_right _ hs)
        exact congrArg₂ Flat.mk hbids.symm hasks.symm
      · have hids : id ∉ b.flat.ids := by
          rw [b.flat_ids]
          intro hm
          obtain ⟨s, hs, he⟩ := List.mem_map.mp hm
          exact hno s hs he
        simp [Flat.cancel, hids]
  | some v =>
      obtain ⟨side, price⟩ := v
      obtain ⟨s, hid, hprice, hcase⟩ := hb.located hf
      subst hid; subst hprice
      rcases hcase with ⟨hside, hs⟩ | ⟨hside, hs⟩
      · subst hside
        obtain ⟨bids', hrem, hr⟩ := removeFrom_spec hb.consistent hb.bids hs
        dsimp only
        rw [if_pos rfl, hrem]
        refine ⟨⟨hr.consistent, hr.levels, hb.asks, ?_⟩, ?_, ?_⟩
        · intro x hx y hy
          obtain ⟨k, hk, hkx⟩ := hr.keys x hx
          rw [← hkx]
          exact hb.uncrossed k hk y hy
        · -- no ask shares the id, so removing it there changes nothing
          refine congrArg₂ Flat.mk hr.flat (remove_absent fun x hx => ?_).symm
          obtain ⟨t, ht, rfl⟩ := List.mem_map.mp hx
          exact (hb.ids_apart hs ht).symm
        · simp [Flat.cancel, BookInv.mem_ids (List.mem_append_left _ hs)]
      · subst hside
        obtain ⟨asks', hrem, hr⟩ := removeFrom_spec
          (hb.consistent.perm List.perm_append_comm) hb.asks hs
        dsimp only
        rw [if_neg (by simp), hrem]
        refine ⟨⟨hr.consistent.perm List.perm_append_comm, hb.bids, hr.levels, ?_⟩, ?_, ?_⟩
        · intro x hx y hy
          obtain ⟨k, hk, hky⟩ := hr.keys y hy
          rw [← hky]
          exact hb.uncrossed x hx k hk
        · refine congrArg₂ Flat.mk (remove_absent fun x hx => ?_).symm hr.flat
          obtain ⟨t, ht, rfl⟩ := List.mem_map.mp hx
          exact hb.ids_apart ht hs
        · simp [Flat.cancel, BookInv.mem_ids (List.mem_append_right _ hs)]

end HftLob.Book

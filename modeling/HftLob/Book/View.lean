import HftLob.Book.Refine

/-!
# What can be seen of a book

Two books may keep the same orders in different slots of their pools. What is left when
the slots are forgotten is the `BookView`: the levels of each side with their queues, and
`locate_`. Under the representation invariant the flat book determines it, so results
about the flat book are results about what can be seen.
-/

namespace HftLob.Book

open HftLob.Lib HftLob.Lib.PriceTime OrderBook

variable {cap : PoolCapacity} {storage storage' : Nat → Order} {side side' : Side}

/-- A queue, front to back. -/
def queueView (storage : Nat → Order) (dq : List Nat) : List (OrderId × Qty) :=
  dq.map (fun s => ((storage s).id, (storage s).qty))

def levelsView (storage : Nat → Order) (levels : List (Price × List Nat)) :
    List (Price × List (OrderId × Qty)) :=
  levels.map (fun l => (l.1, queueView storage l.2))

/-- The levels of a side, best first, each with its queue, and `locate_`. -/
structure BookView where
  bids : List (Price × List (OrderId × Qty))
  asks : List (Price × List (OrderId × Qty))
  locate : UMap OrderId (Side × Price)
  deriving DecidableEq

def OrderBook.view (b : OrderBook cap) : BookView where
  bids := levelsView b.pool.storage b.bids.entries
  asks := levelsView b.pool.storage b.asks.entries
  locate := b.locate

def BookView.levels (v : BookView) : Side → List (Price × List (OrderId × Qty))
  | .buy => v.bids
  | .sell => v.asks

/-- The queue at a price, empty if there is no such level. -/
def queueAt (levels : List (Price × List (OrderId × Qty))) (price : Price) :
    List (OrderId × Qty) :=
  ((levels.find? (fun l => l.1 = price)).map Prod.snd).getD []

/-- The id and quantity of an entry. -/
def entryView (x : Entry OrderId Price) : OrderId × Qty := (x.id, UInt32.ofNat x.qty)

theorem queueView_eq (dq : List Nat) :
    queueView storage dq = (dq.map (entryOf storage)).map entryView := by
  simp [queueView, entryView, entryOf]

/-! ## The view of the flat list -/

/-- The orders at the price of the first level are that level, and the others the rest. -/
theorem LevelsOk.filter_head {l : Price × List Nat} {levels : List (Price × List Nat)}
    (h : LevelsOk storage side (l :: levels)) (hkeys : ∀ k ∈ levels.map Prod.fst, k ≠ l.1) :
    (flatOf storage (l :: levels)).filter (fun x => x.price = l.1) = l.2.map (entryOf storage)
      ∧ (flatOf storage (l :: levels)).filter (fun x => x.price ≠ l.1)
        = flatOf storage levels := by
  have hfront : ∀ x ∈ l.2.map (entryOf storage), x.price = l.1 := by
    intro x hx
    obtain ⟨s, hs, rfl⟩ := List.mem_map.mp hx
    exact (h.filed l List.mem_cons_self s hs).2
  have hback : ∀ x ∈ flatOf storage levels, x.price ≠ l.1 := by
    intro x hx
    obtain ⟨s, hs, rfl⟩ := List.mem_map.mp hx
    obtain ⟨k, hk, _, hpx⟩ := h.tail.price_of_mem hs
    rw [entryOf, hpx]
    exact hkeys k.1 (List.mem_map_of_mem hk)
  have hflat : flatOf storage (l :: levels) = l.2.map (entryOf storage) ++ flatOf storage levels :=
    List.map_append
  rw [hflat, List.filter_append, List.filter_append]
  constructor
  · rw [List.filter_eq_self.mpr fun x hx => by simpa using hfront x hx,
      List.filter_eq_nil_iff.mpr fun x hx => by simpa using hback x hx, List.append_nil]
  · rw [List.filter_eq_nil_iff.mpr fun x hx => by simpa using hfront x hx,
      List.filter_eq_self.mpr fun x hx => by simpa using hback x hx, List.nil_append]

/-- The queue at a price is what the flat list has at that price. -/
theorem LevelsOk.queueAt_eq {levels : List (Price × List Nat)} (h : LevelsOk storage side levels)
    (hkeys : (levels.map Prod.fst).Nodup) (price : Price) :
    queueAt (levelsView storage levels) price
      = ((flatOf storage levels).filter (fun x => x.price = price)).map entryView := by
  induction levels with
  | nil => rfl
  | cons l levels ih =>
      rw [List.map_cons, List.nodup_cons] at hkeys
      obtain ⟨hfront, hback⟩ := h.filter_head fun k hk he => hkeys.1 (he ▸ hk)
      have hview : levelsView storage (l :: levels)
          = (l.1, queueView storage l.2) :: levelsView storage levels := rfl
      by_cases hp : l.1 = price
      · subst hp
        rw [hfront, ← queueView_eq, hview, queueAt, List.find?_cons_of_pos (by simp)]
        rfl
      · have hskip : queueAt (levelsView storage (l :: levels)) price
            = queueAt (levelsView storage levels) price := by
          rw [hview, queueAt, List.find?_cons_of_neg (by simpa using hp), queueAt]
        -- what is at this price is not in the first level
        have hrest : (flatOf storage (l :: levels)).filter (fun x => x.price = price)
            = (flatOf storage levels).filter (fun x => x.price = price) := by
          rw [← hback, List.filter_filter]
          refine List.filter_congr fun x _ => ?_
          by_cases hx : x.price = price
          · simp [hx, Ne.symm hp]
          · simp [hx]
        rw [hskip, ih h.tail hkeys.2, hrest]

/-- **The flat list determines the levels.** -/
theorem levelsView_eq_of_flat {levels levels' : List (Price × List Nat)}
    (h : LevelsOk storage side levels) (h' : LevelsOk storage' side' levels')
    (hkeys : (levels.map Prod.fst).Nodup) (hkeys' : (levels'.map Prod.fst).Nodup)
    (hflat : flatOf storage levels = flatOf storage' levels') :
    levelsView storage levels = levelsView storage' levels' := by
  induction levels generalizing levels' with
  | nil =>
      cases levels' with
      | nil => rfl
      | cons l' levels' =>
          obtain ⟨s, hs⟩ := List.exists_mem_of_ne_nil _ (h'.nonempty l' List.mem_cons_self)
          have hin : entryOf storage' s ∈ flatOf storage' (l' :: levels') :=
            List.mem_map_of_mem (List.mem_append_left _ hs)
          rw [← hflat] at hin
          exact absurd hin (by simp [flatOf, slotsOf])
  | cons l levels ih =>
      cases levels' with
      | nil =>
          obtain ⟨s, hs⟩ := List.exists_mem_of_ne_nil _ (h.nonempty l List.mem_cons_self)
          have hin : entryOf storage s ∈ flatOf storage (l :: levels) :=
            List.mem_map_of_mem (List.mem_append_left _ hs)
          rw [hflat] at hin
          exact absurd hin (by simp [flatOf, slotsOf])
      | cons l' levels' =>
          rw [List.map_cons, List.nodup_cons] at hkeys hkeys'
          -- the first order of the flat list is in the first level of both
          have hprice : l.1 = l'.1 := by
            obtain ⟨s, dq, hdq⟩ := List.exists_cons_of_ne_nil (h.nonempty l List.mem_cons_self)
            obtain ⟨s', dq', hdq'⟩ :=
              List.exists_cons_of_ne_nil (h'.nonempty l' List.mem_cons_self)
            have hs := (h.filed l List.mem_cons_self s (by simp [hdq])).2
            have hs' := (h'.filed l' List.mem_cons_self s' (by simp [hdq'])).2
            have hhead : (flatOf storage (l :: levels)).head?
                = (flatOf storage' (l' :: levels')).head? := by rw [hflat]
            simp only [flatOf, slotsOf, List.flatMap_cons, hdq, hdq', List.cons_append,
              List.map_cons, List.head?_cons, Option.some.injEq, entryOf] at hhead
            rw [← hs, ← hs']
            exact congrArg Entry.price hhead
          obtain ⟨hfront, hback⟩ := h.filter_head fun k hk he => hkeys.1 (he ▸ hk)
          obtain ⟨hfront', hback'⟩ := h'.filter_head fun k hk he => hkeys'.1 (he ▸ hk)
          have hqueue : queueView storage l.2 = queueView storage' l'.2 := by
            rw [queueView_eq, queueView_eq, ← hfront, ← hfront', hflat, hprice]
          have hrest : flatOf storage levels = flatOf storage' levels' := by
            rw [← hback, ← hback', hflat, hprice]
          show (l.1, queueView storage l.2) :: levelsView storage levels
            = (l'.1, queueView storage' l'.2) :: levelsView storage' levels'
          rw [hprice, hqueue, ih h.tail h'.tail hkeys.2 hkeys'.2 hrest]

/-! ## The top of the book -/

/-- The best price of a side is that of an order, and none is better. -/
theorem bestOf_eq_some {lt : Price → Price → Prop} [IsStrictTotalOrder Price lt] {m : LevelMap lt}
    {pool : ObjectPool Order cap} (h : LevelsOk pool.storage side m.entries) {price : Price}
    {qty : Qty} (hbest : bestOf m pool = some (price, qty)) :
    (∃ x ∈ flatOf pool.storage m.entries, x.price = price)
      ∧ ∀ x ∈ flatOf pool.storage m.entries, ¬ lt x.price price := by
  obtain ⟨l, hl, hpair⟩ := Option.map_eq_some_iff.mp hbest
  have hprice : l.1 = price := congrArg Prod.fst hpair
  obtain ⟨levels, hlevels⟩ := List.head?_eq_some_iff.mp hl
  have hmem : l ∈ m.entries := by rw [hlevels]; exact List.mem_cons_self
  constructor
  · obtain ⟨s, hs⟩ := List.exists_mem_of_ne_nil _ (h.nonempty l hmem)
    refine ⟨entryOf pool.storage s, List.mem_map_of_mem (mem_slotsOf.mpr ⟨l, hmem, hs⟩), ?_⟩
    exact (h.filed l hmem s hs).2.trans hprice
  · intro x hx hlt
    obtain ⟨s, hs, rfl⟩ := List.mem_map.mp hx
    obtain ⟨k, hk, _, hpx⟩ := h.price_of_mem hs
    have hsorted := m.sorted
    rw [hlevels] at hk hsorted
    rw [entryOf, hpx, ← hprice] at hlt
    -- every other level is behind the first
    rcases List.mem_cons.mp hk with rfl | hk
    · exact irrefl _ hlt
    · exact asymm ((List.pairwise_cons.mp hsorted).1 k.1 (List.mem_map_of_mem hk)) hlt

theorem BookInv.bestBid_spec {b : OrderBook cap} (hb : BookInv b) {price : Price} {qty : Qty}
    (hbest : b.bestBid = some (price, qty)) :
    (∃ x ∈ b.flat.bids, x.price = price) ∧ ∀ x ∈ b.flat.bids, x.price ≤ price := by
  obtain ⟨hmem, hno⟩ := bestOf_eq_some hb.bids hbest
  exact ⟨hmem, fun x hx => not_lt.mp (hno x hx)⟩

theorem BookInv.bestAsk_spec {b : OrderBook cap} (hb : BookInv b) {price : Price} {qty : Qty}
    (hbest : b.bestAsk = some (price, qty)) :
    (∃ x ∈ b.flat.asks, x.price = price) ∧ ∀ x ∈ b.flat.asks, price ≤ x.price := by
  obtain ⟨hmem, hno⟩ := bestOf_eq_some hb.asks hbest
  exact ⟨hmem, fun x hx => not_lt.mp (hno x hx)⟩

/-! ## The view of the flat book -/

theorem LevelMap.nodup_keys {lt : Price → Price → Prop} [IsStrictTotalOrder Price lt]
    (m : LevelMap lt) : (m.entries.map Prod.fst).Nodup := by
  refine m.sorted.imp ?_
  intro p q hlt he
  subst he
  exact irrefl p hlt

theorem BookInv.levels_ok {b : OrderBook cap} (hb : BookInv b) (side : Side) :
    ∃ levels : List (Price × List Nat), b.view.levels side = levelsView b.pool.storage levels
      ∧ b.flat.own side = flatOf b.pool.storage levels ∧ LevelsOk b.pool.storage side levels
      ∧ (levels.map Prod.fst).Nodup := by
  cases side with
  | buy => exact ⟨b.bids.entries, rfl, rfl, hb.bids, LevelMap.nodup_keys b.bids⟩
  | sell => exact ⟨b.asks.entries, rfl, rfl, hb.asks, LevelMap.nodup_keys b.asks⟩

/-- Every bid is strictly below every ask. -/
theorem BookInv.flat_uncrossed {b : OrderBook cap} (hb : BookInv b) :
    ∀ x ∈ b.flat.bids, ∀ y ∈ b.flat.asks, x.price < y.price := by
  intro x hx y hy
  obtain ⟨s, hs, rfl⟩ := List.mem_map.mp hx
  obtain ⟨t, ht, rfl⟩ := List.mem_map.mp hy
  obtain ⟨k, hk, _, hpk⟩ := hb.bids.price_of_mem hs
  obtain ⟨l, hl, _, hpl⟩ := hb.asks.price_of_mem ht
  rw [entryOf, entryOf, hpk, hpl]
  exact hb.uncrossed k hk l hl

theorem BookInv.queueAt_eq {b : OrderBook cap} (hb : BookInv b) (side : Side) (price : Price) :
    queueAt (b.view.levels side) price
      = ((b.flat.own side).filter (fun x => x.price = price)).map entryView := by
  obtain ⟨levels, hview, hflat, hok, hkeys⟩ := hb.levels_ok side
  rw [hview, hflat]
  exact hok.queueAt_eq hkeys price

/-- What `locate_` knows, read off the flat book. -/
theorem BookInv.located_iff {b : OrderBook cap} (hb : BookInv b) (id : OrderId) (side : Side)
    (price : Price) :
    b.locate.lookup id = some (side, price)
      ↔ ∃ x ∈ b.flat.own side, x.id = id ∧ x.price = price := by
  constructor
  · intro hfound
    obtain ⟨s, hid, hprice, hcase⟩ := hb.located hfound
    rcases hcase with ⟨rfl, hs⟩ | ⟨rfl, hs⟩
    · exact ⟨_, List.mem_map_of_mem hs, hid, hprice⟩
    · exact ⟨_, List.mem_map_of_mem hs, hid, hprice⟩
  · rintro ⟨x, hx, hid, hprice⟩
    refine (hb.consistent.index id side price).mpr ?_
    cases side with
    | buy =>
        obtain ⟨s, hs, rfl⟩ := List.mem_map.mp hx
        exact ⟨s, List.mem_append_left _ hs, hid, hb.bids.side_of_mem hs, hprice⟩
    | sell =>
        obtain ⟨s, hs, rfl⟩ := List.mem_map.mp hx
        exact ⟨s, List.mem_append_right _ hs, hid, hb.asks.side_of_mem hs, hprice⟩

/-- **Books with one flat book look the same.** -/
theorem BookInv.view_eq_of_flat {b b' : OrderBook cap} (hb : BookInv b) (hb' : BookInv b')
    (hflat : b.flat = b'.flat) : b.view = b'.view := by
  have hbids : b.view.bids = b'.view.bids :=
    levelsView_eq_of_flat hb.bids hb'.bids (LevelMap.nodup_keys _) (LevelMap.nodup_keys _)
      (congrArg Flat.bids hflat)
  have hasks : b.view.asks = b'.view.asks :=
    levelsView_eq_of_flat hb.asks hb'.asks (LevelMap.nodup_keys _) (LevelMap.nodup_keys _)
      (congrArg Flat.asks hflat)
  have hlocate : b.view.locate = b'.view.locate := by
    refine Finmap.ext_lookup fun id => Option.ext fun ⟨side, price⟩ => ?_
    rw [show b.view.locate = b.locate from rfl, show b'.view.locate = b'.locate from rfl]
    exact (hb.located_iff id side price).trans
      (hflat ▸ (hb'.located_iff id side price).symm)
  cases hv : b.view
  cases hv' : b'.view
  rw [hv, hv'] at hbids hasks hlocate
  exact congrArg₂ (fun f l => f l) (congrArg₂ BookView.mk hbids hasks) hlocate

/-- Ids are distinct, so at most one order has a given one. -/
theorem BookInv.length_filter_id_le {b : OrderBook cap} (hb : BookInv b) (x : OrderId) :
    (b.flat.orders.filter (fun y => y.id = x)).length ≤ 1 := by
  have hids : (b.flat.orders.map Entry.id).Nodup := by
    have hnodup := hb.consistent.ids
    rwa [← OrderBook.flat_ids] at hnodup
  have hcount : (b.flat.orders.map Entry.id).count x ≤ 1 := List.nodup_iff_count_le_one.mp hids x
  rw [List.count, List.countP_map, List.countP_eq_length_filter] at hcount
  refine le_trans (le_of_eq ?_) hcount
  refine congrArg List.length (List.filter_congr fun y _ => ?_)
  exact (beq_eq_decide y.id x).symm

/-- A cancel takes the order out of its queue and leaves every queue otherwise as it was. -/
theorem BookInv.queueAt_cancel {b : OrderBook cap} (hb : BookInv b) (id : OrderId) (side : Side)
    (price : Price) :
    queueAt ((b.cancel id).1.view.levels side) price
      = (queueAt (b.view.levels side) price).filter (fun o => o.1 ≠ id) := by
  obtain ⟨hb', hflat, _⟩ := cancel_spec id hb
  have hown : (b.cancel id).1.flat.own side = remove id (b.flat.own side) := by
    rw [hflat]
    cases side <;> rfl
  rw [hb'.queueAt_eq, hb.queueAt_eq, hown, remove, List.filter_map, List.filter_filter,
    List.filter_filter]
  refine congrArg (List.map entryView) (List.filter_congr fun x _ => ?_)
  by_cases hid : x.id = id
  · simp [entryView, hid]
  · by_cases hprice : x.price = price
    · simp [entryView, hid, hprice]
    · simp [entryView, hid, hprice]

end HftLob.Book

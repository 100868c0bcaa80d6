import HftLob.Book.Inv

/-!
# `OrderBook` refines the flat book

Each call keeps the representation invariant and does to the flat book what the
abstract call does (`Book.Inv`). Here that is carried along whole sequences of
calls: the flat view and every answer agree with the abstract run, and the
invariant holds in every state reached.
-/

namespace HftLob.Book

open HftLob.Lib HftLob.Lib.PriceTime OrderBook

variable {cap : PoolCapacity}

namespace OrderBook

def call (b : OrderBook cap) : Call → OrderBook cap × Answer Trade
  | .add id side price qty tsNs tradesOut =>
      ((b.addLimitOrder id side price qty tsNs tradesOut).1,
       .trades (b.addLimitOrder id side price qty tsNs tradesOut).2)
  | .cancel id => ((b.cancel id).1, .removed (b.cancel id).2)

def run (b : OrderBook cap) : List Call → OrderBook cap × List (Answer Trade)
  | [] => (b, [])
  | c :: calls => ((run (b.call c).1 calls).1, (b.call c).2 :: (run (b.call c).1 calls).2)

end OrderBook

/-! ## One call -/

theorem add_fill_le {capacity : Nat} {f : Flat} {id : OrderId} {side : Side} {price : Price}
    {q : Nat} {e : Entry OrderId Price} (he : e ∈ (f.add capacity id side price q).2) :
    e.qty ≤ q := by
  cases side with
  | buy => exact walk_fill_le he
  | sell => exact walk_fill_le he

/-- The machine trade of a fill is the abstract trade. -/
theorem flatTrade_tradeOf {id : OrderId} {side : Side} {tsNs : Nanos} {f : Entry OrderId Price}
    (h : f.qty < 2 ^ 32) : flatTrade (tradeOf id side tsNs f) = Flat.trade id side tsNs f := by
  have hq : (UInt32.ofNat f.qty).toNat = f.qty := by
    rw [UInt32.toNat_ofNat']
    exact Nat.mod_eq_of_lt h
  simp [flatTrade, tradeOf, tradeWith, Flat.trade, hq]

/-- **One call simulates one abstract call.** -/
theorem call_spec {b : OrderBook cap} {c : Call} (hb : BookInv b) (hc : b.flat.Fresh c) :
    BookInv (b.call c).1
      ∧ (b.call c).1.flat = (b.flat.call cap.slots c).1
      ∧ (b.call c).2.map flatTrade = (b.flat.call cap.slots c).2 := by
  cases c with
  | add id side price qty tsNs out =>
      refine ⟨(addLimitOrder_spec hb hc).1, (addLimitOrder_spec hb hc).2.1, ?_⟩
      have htrades : (b.addLimitOrder id side price qty tsNs out).2 = _ :=
        (addLimitOrder_spec hb hc).2.2
      simp only [call, Flat.call, Answer.map, htrades, List.map_append, List.map_map]
      congr 2
      refine List.map_congr_left fun e he => flatTrade_tradeOf ?_
      exact Nat.lt_of_le_of_lt (add_fill_le he) qty.toNat_lt
  | cancel id =>
      obtain ⟨h1, h2, h3⟩ := cancel_spec id hb
      exact ⟨h1, h2, congrArg Answer.removed h3⟩

/-! ## Whole runs -/

theorem run_spec {calls : List Call} : ∀ {b : OrderBook cap}, BookInv b →
    b.flat.FreshRun cap.slots calls →
    BookInv (b.run calls).1
      ∧ (b.run calls).1.flat = (b.flat.run cap.slots calls).1
      ∧ (b.run calls).2.map (Answer.map flatTrade) = (b.flat.run cap.slots calls).2 := by
  induction calls with
  | nil =>
      intro b hb _
      exact ⟨hb, rfl, rfl⟩
  | cons c calls ih =>
      intro b hb hfresh
      obtain ⟨hinv, hflat, hanswer⟩ := call_spec hb hfresh.1
      obtain ⟨hinv', hflat', hanswers⟩ := ih hinv (by rw [hflat]; exact hfresh.2)
      refine ⟨hinv', ?_, ?_⟩
      · rw [OrderBook.run, Flat.run, ← hflat]
        exact hflat'
      · rw [OrderBook.run, Flat.run, ← hflat, List.map_cons, hanswer, hanswers]

/-- Within a side no entry stands behind a worse one. -/
theorem LevelsOk.flat_sorted {storage : Nat → Order} {side : Side} {lt : Price → Price → Prop}
    [IsStrictTotalOrder Price lt] (levels : LevelMap lt)
    (h : LevelsOk storage side levels.entries) :
    (flatOf storage levels.entries).Pairwise (fun x y => ¬ lt y.price x.price) := by
  obtain ⟨entries, hsorted⟩ := levels
  dsimp only at h ⊢
  induction entries with
  | nil => exact List.Pairwise.nil
  | cons l levels ih =>
      rw [List.map_cons, List.pairwise_cons] at hsorted
      rw [flatOf, slotsOf_cons, List.map_append, List.pairwise_append]
      have hl : ∀ e ∈ l.2.map (entryOf storage), e.price = l.1 := by
        intro e he
        obtain ⟨s, hs, rfl⟩ := List.mem_map.mp he
        exact (h.filed l List.mem_cons_self s hs).2
      refine ⟨?_, ih hsorted.2 h.tail, ?_⟩
      · -- one level: equal prices
        refine List.pairwise_of_forall_mem_list fun x hx y hy hlt => ?_
        rw [hl x hx, hl y hy] at hlt
        exact irrefl _ hlt
      · -- a later level is keyed by a worse price
        intro x hx y hy hlt
        obtain ⟨s, hs, rfl⟩ := List.mem_map.mp hy
        obtain ⟨k, hk, _, hpx⟩ := h.tail.price_of_mem hs
        have hlk := hsorted.1 k.1 (List.mem_map_of_mem hk)
        rw [hl x hx, entryOf, hpx] at hlt
        exact asymm hlk hlt

/-- The order a flat book is kept in: best price first. Within a price it is the
order of arrival, which `Flat.add` and `Flat.cancel` keep by construction. -/
def Flat.Sorted (f : Flat) : Prop :=
  f.bids.Pairwise (fun x y => x.price ≥ y.price) ∧ f.asks.Pairwise (fun x y => x.price ≤ y.price)

theorem BookInv.flat_sorted {b : OrderBook cap} (hb : BookInv b) : b.flat.Sorted :=
  ⟨(LevelsOk.flat_sorted b.bids hb.bids).imp not_lt.mp,
   (LevelsOk.flat_sorted b.asks hb.asks).imp not_lt.mp⟩

/-- On the other side, what is within a limit is in front of what is not. -/
theorem Flat.Sorted.crosses_first {f : Flat} (hs : f.Sorted) (side : Side) (price : Price) :
    (f.opposite side).Pairwise
      (fun x y => Flat.crosses side price y.price → Flat.crosses side price x.price) := by
  cases side with
  | buy =>
      refine hs.2.imp fun {x y} hxy hc => ?_
      simp only [Flat.crosses, decide_eq_true_eq] at hc ⊢
      exact le_trans hxy hc
  | sell =>
      refine hs.1.imp fun {x y} hxy hc => ?_
      simp only [Flat.crosses, decide_eq_true_eq] at hc ⊢
      exact le_trans hc hxy

/-- **The order book refines the flat one**: along every run of calls that add no id
already resting, the resting orders, the trades and the return values are those of
the flat book. -/
theorem orderBook_refines_flat (cap : PoolCapacity) (calls : List Call)
    (hfresh : Flat.empty.FreshRun cap.slots calls) :
    ((OrderBook.init cap).run calls).1.flat = (Flat.empty.run cap.slots calls).1
      ∧ ((OrderBook.init cap).run calls).2.map (Answer.map flatTrade)
          = (Flat.empty.run cap.slots calls).2
      ∧ (Flat.empty.run cap.slots calls).1.Sorted := by
  obtain ⟨hinv, hflat, hanswers⟩ := run_spec (@bookInv_init cap) hfresh
  exact ⟨hflat, hanswers, hflat ▸ hinv.flat_sorted⟩

/-- Two bids at one price, a sell through the first into the second, a bid that
finds the pool of two exhausted, a cancel that hits and one that misses. -/
theorem orderBook_refines_flat_pool_of_two :
    let cap : PoolCapacity := ⟨2, by decide⟩
    let calls : List Call :=
      [.add 1 .buy 100 10 0 [], .add 2 .buy 100 5 1 [], .add 3 .sell 99 12 2 [],
       .add 4 .buy 99 1 3 [], .add 5 .buy 98 1 4 [], .cancel 2, .cancel 9]
    Flat.empty.FreshRun cap.slots calls
      ∧ ((OrderBook.init cap).run calls).1.flat = (Flat.empty.run cap.slots calls).1
      ∧ ((OrderBook.init cap).run calls).2.map (Answer.map flatTrade)
          = (Flat.empty.run cap.slots calls).2
      ∧ (Flat.empty.run cap.slots calls).1.Sorted :=
  ⟨by decide, orderBook_refines_flat ⟨2, by decide⟩ _ (by decide)⟩

/-! ## Every reachable state -/

/-- The ids of the resting orders. -/
def OrderBook.ids (b : OrderBook cap) : List OrderId :=
  b.slots.map (fun s => (b.pool.storage s).id)

/-- What some sequence of calls makes of an empty book, ids that already rest excluded. -/
inductive Reachable (cap : PoolCapacity) : OrderBook cap → Prop where
  | init : Reachable cap (OrderBook.init cap)
  | add {b : OrderBook cap} (id : OrderId) (side : Side) (price : Price) (qty : Qty)
      (tsNs : Nanos) (tradesOut : List Trade) : Reachable cap b → id ∉ b.ids →
      Reachable cap (b.addLimitOrder id side price qty tsNs tradesOut).1
  | cancel {b : OrderBook cap} (id : OrderId) : Reachable cap b → Reachable cap (b.cancel id).1

theorem bookInv_reachable {b : OrderBook cap} (h : Reachable cap b) : BookInv b := by
  induction h with
  | init => exact bookInv_init
  | add id side price qty tsNs out _ hid ih =>
      exact (addLimitOrder_spec ih (by rw [OrderBook.flat_ids]; exact hid)).1
  | cancel id _ ih => exact (cancel_spec id ih).1

/-- The representation, field by field. -/
structure WellFormed (b : OrderBook cap) : Prop where
  levels_nonempty : ∀ l ∈ b.bids.entries ++ b.asks.entries, l.2 ≠ []
  bids_filed : ∀ l ∈ b.bids.entries, ∀ s ∈ l.2, (b.pool.storage s).price = l.1
    ∧ (b.pool.storage s).side = .buy ∧ 0 < (b.pool.storage s).qty
  asks_filed : ∀ l ∈ b.asks.entries, ∀ s ∈ l.2, (b.pool.storage s).price = l.1
    ∧ (b.pool.storage s).side = .sell ∧ 0 < (b.pool.storage s).qty
  ids_nodup : b.ids.Nodup
  /-- `locate_` has exactly the resting ids, each at its true side and price. -/
  located : ∀ id side price, b.locate.lookup id = some (side, price) ↔
    ∃ s ∈ b.slots, (b.pool.storage s).id = id ∧ (b.pool.storage s).side = side
      ∧ (b.pool.storage s).price = price
  /-- Neither crossed nor locked. -/
  uncrossed : ∀ x ∈ b.bids.entries, ∀ y ∈ b.asks.entries, x.1 < y.1
  /-- No slot is leaked, shared, or free while in use. -/
  slots_accounted : b.slots.Nodup
    ∧ ∃ free, ObjectPool.FreeList b.pool.nextFree b.pool.freeHead free
    ∧ free.Nodup ∧ (∀ s ∈ b.slots, s ∉ free) ∧ free.length + b.slots.length = cap.slots

theorem BookInv.filed {b : OrderBook cap} (hb : BookInv b) {side : Side}
    {levels : List (Price × List Nat)} (h : LevelsOk b.pool.storage side levels)
    (hsub : ∀ s ∈ slotsOf levels, s ∈ b.slots) :
    ∀ l ∈ levels, ∀ s ∈ l.2, (b.pool.storage s).price = l.1
      ∧ (b.pool.storage s).side = side ∧ 0 < (b.pool.storage s).qty := by
  intro l hl s hs
  obtain ⟨hside, hprice⟩ := h.filed l hl s hs
  exact ⟨hprice, hside, hb.consistent.pos s (hsub s (mem_slotsOf.mpr ⟨l, hl, hs⟩))⟩

theorem ObjectPool.Holds.accounted {T : Type} {p : ObjectPool T cap} {live : List Nat}
    (h : p.Holds live) : live.Nodup ∧ ∃ free, FreeList p.nextFree p.freeHead free
      ∧ free.Nodup ∧ (∀ s ∈ live, s ∉ free) ∧ free.length + live.length = cap.slots := by
  obtain ⟨free, hfree, hperm⟩ := h
  have hnodup := List.nodup_append.mp (hperm.nodup_iff.mpr List.nodup_range)
  refine ⟨hnodup.2.1, free, hfree, hnodup.1, ?_, ?_⟩
  · intro s hs hf
    exact hnodup.2.2 s hf s hs rfl
  · rw [← List.length_append, hperm.length_eq, List.length_range]

/-- **Every reachable book is well formed**, over any pool of at most `2 ^ 31` slots: the pool
keeps its links in an `int32_t`. -/
theorem reachable_wellFormed (cap : PoolCapacity) (b : OrderBook cap) (h : Reachable cap b) :
    WellFormed b := by
  have hb := bookInv_reachable h
  refine ⟨?_, ?_, ?_, hb.consistent.ids, hb.consistent.index, hb.uncrossed,
    hb.consistent.holds.accounted⟩
  · intro l hl
    cases List.mem_append.mp hl with
    | inl hbid => exact hb.bids.nonempty l hbid
    | inr hask => exact hb.asks.nonempty l hask
  · exact hb.filed hb.bids fun s hs => List.mem_append_left _ hs
  · exact hb.filed hb.asks fun s hs => List.mem_append_right _ hs

/-- A quantity of zero is allowed too: it matches and rests nothing. -/
theorem reachable_wellFormed_fill_and_cancel :
    let b₀ := OrderBook.init ⟨4, by decide⟩
    let b₁ := (b₀.addLimitOrder 1 .buy 100 10 0 []).1
    let b₂ := (b₁.addLimitOrder 2 .sell 100 4 0 []).1
    let b₃ := (b₂.addLimitOrder 3 .sell 101 0 0 []).1
    Reachable _ (b₃.cancel 1).1 ∧ WellFormed (b₃.cancel 1).1 := by
  intro b₀ b₁ b₂ b₃
  have h₁ : Reachable _ b₁ := .add 1 .buy 100 10 0 [] .init (by decide)
  have h₂ : Reachable _ b₂ := .add 2 .sell 100 4 0 [] h₁ (by decide)
  have h₃ : Reachable _ b₃ := .add 3 .sell 101 0 0 [] h₂ (by decide)
  exact ⟨.cancel 1 h₃, reachable_wellFormed _ _ (.cancel 1 h₃)⟩

end HftLob.Book

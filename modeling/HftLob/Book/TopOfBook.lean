import HftLob.Book.Repeats
import HftLob.Book.View
import Mathlib.Algebra.GroupWithZero.Nat

/-!
# The top of the book

`best_of` reports the first level of a side: its price, and the quantities of its queue
added up. The price is right in every book that calls can lead to. The sum is kept in a
`Qty`, the type of a single order's quantity, while a level holds as many orders as the
pool has slots, so what is reported is the sum modulo `2 ^ 32`.
-/

namespace HftLob.Book

open HftLob.Lib HftLob.Lib.PriceTime OrderBook

variable {cap : PoolCapacity}

/-- What rests at a price. -/
def qtyAt (orders : List (Entry OrderId Price)) (price : Price) : Nat :=
  ((orders.filter (fun x => x.price = price)).map Entry.qty).sum

/-- What `best_of` reports of a side is there, is the best there is and is all of it. -/
structure Truthful (lt : Price → Price → Prop) (orders : List (Entry OrderId Price))
    (best : Option (Price × Qty)) : Prop where
  reported : best.isSome ↔ orders ≠ []
  price : ∀ p q, best = some (p, q) →
    (∃ x ∈ orders, x.price = p) ∧ ∀ x ∈ orders, ¬ lt x.price p
  qty : ∀ p q, best = some (p, q) → q.toNat = qtyAt orders p ∧ 0 < q

/-- What rests at the best price is a number of 32 bits. -/
def BestFits (lt : Price → Price → Prop) (orders : List (Entry OrderId Price)) : Prop :=
  ∀ x ∈ orders, (∀ y ∈ orders, ¬ lt y.price x.price) → qtyAt orders x.price < 2 ^ 32

/-- The sum of a queue, as the loop of `best_of` makes it. -/
theorem foldl_qty (storage : Nat → Order) (dq : List Nat) (q : Qty) :
    (dq.foldl (fun qty s => qty + (storage s).qty) q).toNat
      = (q.toNat + ((dq.map (entryOf storage)).map Entry.qty).sum) % 2 ^ 32 := by
  induction dq generalizing q with
  | nil => exact (Nat.mod_eq_of_lt q.toNat_lt).symm
  | cons s dq ih =>
      rw [List.foldl_cons, ih, UInt32.toNat_add, Nat.mod_add_mod, List.map_cons, List.map_cons,
        List.sum_cons, Nat.add_assoc]
      rfl

theorem qtyAt_pos {orders : List (Entry OrderId Price)} (hpos : ∀ x ∈ orders, 0 < x.qty)
    {p : Price} (h : ∃ x ∈ orders, x.price = p) : 0 < qtyAt orders p := by
  obtain ⟨x, hx, hp⟩ := h
  have hmem : x.qty ∈ (orders.filter (fun y => y.price = p)).map Entry.qty :=
    List.mem_map_of_mem (List.mem_filter.mpr ⟨hx, decide_eq_true hp⟩)
  have hle := List.single_le_sum (fun _ _ => Nat.zero_le _) _ hmem
  have hx := hpos x hx
  unfold qtyAt
  omega

section Side

variable {lt : Price → Price → Prop} {side : Side} {m : LevelMap lt} {pool : ObjectPool Order cap}

theorem bestOf_none_iff (h : LevelsOk pool.storage side m.entries) :
    bestOf m pool = none ↔ flatOf pool.storage m.entries = [] := by
  unfold bestOf
  cases he : m.entries with
  | nil => simp [flatOf, slotsOf]
  | cons l levels =>
      rw [he] at h
      obtain ⟨s, dq, hdq⟩ := List.exists_cons_of_ne_nil (h.nonempty l List.mem_cons_self)
      simp [flatOf, slotsOf, hdq]

variable [IsStrictTotalOrder Price lt]

/-- **What is reported** is what rests at the price, modulo the width of a quantity. -/
theorem bestOf_qty (h : LevelsOk pool.storage side m.entries) {p : Price} {q : Qty}
    (hbest : bestOf m pool = some (p, q)) :
    q.toNat = qtyAt (flatOf pool.storage m.entries) p % 2 ^ 32 := by
  obtain ⟨l, hl, hpair⟩ := Option.map_eq_some_iff.mp hbest
  obtain ⟨levels, hlevels⟩ := List.head?_eq_some_iff.mp hl
  obtain ⟨rfl, rfl⟩ := Prod.mk.inj hpair
  have hkeys := LevelMap.nodup_keys m
  rw [hlevels] at h hkeys ⊢
  rw [List.map_cons, List.nodup_cons] at hkeys
  -- the orders at the best price are the first level
  obtain ⟨hfront, _⟩ := h.filter_head fun k hk he => hkeys.1 (he ▸ hk)
  rw [foldl_qty, UInt32.toNat_zero, Nat.zero_add, qtyAt, hfront]

/-- **The top of a side is truthful exactly if what rests there fits.** -/
theorem bestOf_truthful_iff (h : LevelsOk pool.storage side m.entries)
    (hpos : ∀ x ∈ flatOf pool.storage m.entries, 0 < x.qty) :
    Truthful lt (flatOf pool.storage m.entries) (bestOf m pool)
      ↔ BestFits lt (flatOf pool.storage m.entries) := by
  constructor
  · intro htruthful x hx hbest
    -- some price is reported, and it is that of `x`: neither is better than the other
    have hsome : (bestOf m pool).isSome := htruthful.reported.mpr (List.ne_nil_of_mem hx)
    obtain ⟨⟨p, q⟩, hpq⟩ := Option.isSome_iff_exists.mp hsome
    obtain ⟨⟨y, hy, hyp⟩, hno⟩ := htruthful.price p q hpq
    have hxp : x.price = p := by
      rcases trichotomous (r := lt) x.price p with hlt | heq | hgt
      · exact absurd hlt (hno x hx)
      · exact heq
      · exact absurd (hyp ▸ hgt) (hbest y hy)
    rw [hxp, ← (htruthful.qty p q hpq).1]
    exact q.toNat_lt
  · intro hfits
    have hqty : ∀ p q, bestOf m pool = some (p, q) →
        q.toNat = qtyAt (flatOf pool.storage m.entries) p := by
      intro p q hpq
      obtain ⟨⟨x, hx, hxp⟩, hno⟩ := bestOf_eq_some h hpq
      have hlt := hfits x hx (hxp ▸ hno)
      rw [hxp] at hlt
      rw [bestOf_qty h hpq, Nat.mod_eq_of_lt hlt]
    refine ⟨?_, fun p q hpq => bestOf_eq_some h hpq, fun p q hpq => ⟨hqty p q hpq, ?_⟩⟩
    · rw [Option.isSome_iff_ne_none, ne_eq, ne_eq, bestOf_none_iff h]
    · rw [UInt32.lt_iff_toNat_lt, hqty p q hpq]
      exact qtyAt_pos hpos (bestOf_eq_some h hpq).1

end Side

theorem StockedBook.qty_pos {b : OrderBook cap} (hb : StockedBook b)
    {levels : List (Price × List Nat)} (hsub : ∀ s ∈ slotsOf levels, s ∈ b.slots) :
    ∀ x ∈ flatOf b.pool.storage levels, 0 < x.qty := by
  intro x hx
  obtain ⟨s, hs, rfl⟩ := List.mem_map.mp hx
  exact UInt32.lt_iff_toNat_lt.mp (hb.stocked.pos s (hsub s hs))

/--
**When the top of the book is truthful.**

After every sequence of calls, whatever the ids, `best_bid` is truthful exactly if the bids
at the highest price add up to less than `2 ^ 32`, and `best_ask` exactly if the asks at
the lowest price do.
-/
theorem top_of_book_truthful_iff (cap : PoolCapacity) (calls : List Call) :
    let b := ((OrderBook.init cap).run calls).1
    (Truthful (· > ·) b.flat.bids b.bestBid ↔ BestFits (· > ·) b.flat.bids)
      ∧ (Truthful (· < ·) b.flat.asks b.bestAsk ↔ BestFits (· < ·) b.flat.asks) := by
  intro b
  have hb : StockedBook b := run_stocked calls stockedBook_init
  exact ⟨bestOf_truthful_iff hb.bids (hb.qty_pos fun s hs => List.mem_append_left _ hs),
    bestOf_truthful_iff hb.asks (hb.qty_pos fun s hs => List.mem_append_right _ hs)⟩

/-- Two bids for `2 ^ 31` at one price are reported as a best bid for nothing. -/
theorem two_large_bids_reported_as_zero :
    let calls : List Call := [.add 1 .buy 100 2147483648 0 [], .add 2 .buy 100 2147483648 0 []]
    let b := ((OrderBook.init ⟨4, by decide⟩).run calls).1
    b.bestBid = some (100, 0) ∧ qtyAt b.flat.bids 100 = 2 ^ 32
      ∧ ¬ Truthful (· > ·) b.flat.bids b.bestBid := by
  intro calls b
  have hbest : b.bestBid = some (100, 0) := by decide +kernel
  refine ⟨hbest, by decide +kernel, fun htruthful => ?_⟩
  exact absurd (htruthful.qty 100 0 hbest).2 (by decide)

end HftLob.Book

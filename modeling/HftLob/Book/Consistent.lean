import HftLob.Book.OrderBook
import HftLob.Lib.PriceTime

/-!
# Pool, index and queues agree

Inside the matching loops the book is in pieces: the levels already emptied are
gone, the one in hand may be empty, the others are untouched. What holds
throughout does not depend on how the live slots are arranged into levels, so it
is stated of the list of live slots alone.

`Stocked` says that the pool holds exactly the slots in that list and that their orders
have something left to fill, `Consistent` also that these have distinct ids and that
`locate_` knows exactly those ids, each at its side and price. Three lemmas each say how
they move: an order is popped, reduced, or put to rest.
-/

namespace HftLob.Book

open HftLob.Lib

theorem min_qty_of_le {a b : Qty} (h : b ≤ a) : min a b = b := by
  show (if a ≤ b then a else b) = b
  split
  · rename_i hab; exact UInt32.le_antisymm hab h
  · rfl

theorem min_qty_of_lt {a b : Qty} (h : a < b) : min a b = a := if_pos (UInt32.le_of_lt h)

variable {cap : PoolCapacity}

/-- What the pool owes to the live slots, whatever the ids in them. -/
structure Stocked (pool : ObjectPool Order cap) (live : List Nat) : Prop where
  holds : pool.Holds live
  pos : ∀ s ∈ live, 0 < (pool.storage s).qty

namespace Stocked

variable {pool : ObjectPool Order cap} {live : List Nat}

theorem perm {live' : List Nat} (h : Stocked pool live) (hp : live.Perm live') :
    Stocked pool live' where
  holds := h.holds.perm hp
  pos := fun s hs => h.pos s (hp.mem_iff.mpr hs)

/-- Nothing live but the slot itself is written when it is popped. -/
theorem storage_pop {slot : Nat} (h : Stocked pool (slot :: live)) (o : Order) :
    ∀ s ∈ live, ((pool.write slot o).release slot).storage s = pool.storage s := by
  intro s hs
  have hnot : slot ∉ live := (List.nodup_cons.mp h.holds.nodup).1
  exact pool.write_storage_ne o (fun he => hnot (he ▸ hs))

theorem pop {slot : Nat} {o : Order} (h : Stocked pool (slot :: live)) :
    Stocked ((pool.write slot o).release slot) live := by
  refine ⟨ObjectPool.holds_release h.holds, fun s hs => ?_⟩
  rw [h.storage_pop o s hs]
  exact h.pos s (List.mem_cons_of_mem _ hs)

/-- The same when the order was not written to first. -/
theorem release {slot : Nat} (h : Stocked pool (slot :: live)) :
    Stocked (pool.release slot) live :=
  ⟨ObjectPool.holds_release h.holds, fun s hs => h.pos s (List.mem_cons_of_mem _ hs)⟩

theorem reduce {slot : Nat} {q : Qty} (h : Stocked pool live) (hq : 0 < q) :
    Stocked (pool.write slot { pool.storage slot with qty := q }) live := by
  refine ⟨h.holds, fun s hs => ?_⟩
  by_cases he : s = slot
  · subst he
    rw [ObjectPool.write_storage_self]
    exact hq
  · rw [pool.write_storage_ne _ he]
    exact h.pos s hs

/-- Nothing live is written when a slot is acquired. -/
theorem storage_acquire {pool' : ObjectPool Order cap} {o : Order} {slot : Nat}
    (h : Stocked pool live) (ha : pool.acquire o = some (slot, pool')) :
    pool'.storage slot = o ∧ ∀ s ∈ live, pool'.storage s = pool.storage s := by
  obtain ⟨hnot, -, hupd⟩ := ObjectPool.acquire_some h.holds ha
  refine ⟨by rw [hupd, Function.update_self], fun s hs => ?_⟩
  have hne : s ≠ slot := fun he => hnot (he ▸ hs)
  rw [hupd, Function.update_of_ne hne]

theorem acquire {pool' : ObjectPool Order cap} {o : Order} {slot : Nat}
    (h : Stocked pool live) (ha : pool.acquire o = some (slot, pool')) (hq : 0 < o.qty) :
    Stocked pool' (slot :: live) := by
  obtain ⟨hself, hst⟩ := h.storage_acquire ha
  refine ⟨(ObjectPool.acquire_some h.holds ha).2.1, fun s hs => ?_⟩
  rcases List.mem_cons.mp hs with rfl | hs
  · rw [hself]
    exact hq
  · rw [hst s hs]
    exact h.pos s hs

end Stocked

structure Consistent (pool : ObjectPool Order cap) (locate : UMap OrderId (Side × Price))
    (live : List Nat) : Prop where
  /-- The pool's free list is everything else. -/
  holds : pool.Holds live
  /-- No id rests twice. -/
  ids : (live.map (fun s => (pool.storage s).id)).Nodup
  /-- A resting order has something left to fill. -/
  pos : ∀ s ∈ live, 0 < (pool.storage s).qty
  /-- `locate_` knows the resting ids, each at its true side and price. -/
  index : ∀ (i : OrderId) (side : Side) (price : Price),
    locate.lookup i = some (side, price) ↔
      ∃ s ∈ live, (pool.storage s).id = i ∧ (pool.storage s).side = side
        ∧ (pool.storage s).price = price

namespace Consistent

variable {pool : ObjectPool Order cap} {locate : UMap OrderId (Side × Price)} {live : List Nat}

theorem perm {live' : List Nat} (h : Consistent pool locate live) (hp : live.Perm live') :
    Consistent pool locate live' where
  holds := h.holds.perm hp
  ids := (hp.map _).nodup_iff.mp h.ids
  pos := fun s hs => h.pos s (hp.mem_iff.mpr hs)
  index := by
    intro i side price
    rw [h.index]
    constructor
    · rintro ⟨s, hs, hrest⟩; exact ⟨s, hp.mem_iff.mp hs, hrest⟩
    · rintro ⟨s, hs, hrest⟩; exact ⟨s, hp.mem_iff.mpr hs, hrest⟩

theorem stocked (h : Consistent pool locate live) : Stocked pool live := ⟨h.holds, h.pos⟩

/-- Two live slots with the same id are the same slot. -/
theorem slot_inj (h : Consistent pool locate live) {s t : Nat} (hs : s ∈ live) (ht : t ∈ live)
    (he : (pool.storage s).id = (pool.storage t).id) : s = t :=
  List.inj_on_of_nodup_map h.ids hs ht he

/-- **Popping an order** takes its slot, its id and nothing else. -/
theorem pop {slot : Nat} {o : Order} (h : Consistent pool locate (slot :: live)) :
    Consistent ((pool.write slot o).release slot) (locate.erase (pool.storage slot).id) live := by
  have hst := h.stocked.storage_pop o
  have hpop : Stocked ((pool.write slot o).release slot) live := h.stocked.pop
  obtain ⟨hid, hids⟩ := List.nodup_cons.mp h.ids
  refine ⟨hpop.holds, ?_, hpop.pos, ?_⟩
  · rw [List.map_congr_left (fun s hs => by rw [hst s hs])]
    exact hids
  · intro i side price
    by_cases hi : i = (pool.storage slot).id
    · -- the erased id: no other live order carries it
      subst hi
      rw [Finmap.lookup_erase]
      constructor
      · intro hc; exact absurd hc (by simp)
      · rintro ⟨s, hs, he, -⟩
        rw [hst s hs] at he
        exact absurd (List.mem_map.mpr ⟨s, hs, he⟩) hid
    · rw [Finmap.lookup_erase_ne hi, h.index]
      constructor
      · rintro ⟨s, hs, he, hrest⟩
        rcases List.mem_cons.mp hs with rfl | hs
        · exact absurd he.symm hi
        · exact ⟨s, hs, by rw [hst s hs]; exact he, by rw [hst s hs]; exact hrest⟩
      · rintro ⟨s, hs, he, hrest⟩
        rw [hst s hs] at he hrest
        exact ⟨s, List.mem_cons_of_mem _ hs, he, hrest⟩

/-- The same when the order was not written to first. -/
theorem release {slot : Nat} (h : Consistent pool locate (slot :: live)) :
    Consistent (pool.release slot) (locate.erase (pool.storage slot).id) live := by
  have hsame : pool.write slot (pool.storage slot) = pool := by
    simp only [ObjectPool.write, Function.update_eq_self]
  have := h.pop (o := pool.storage slot)
  rwa [hsame] at this

/-- **Reducing an order** leaves every structure as it was, down to its quantity. -/
theorem reduce {slot : Nat} {q : Qty} (h : Consistent pool locate live) (hq : 0 < q) :
    Consistent (pool.write slot { pool.storage slot with qty := q }) locate live := by
  have hst : ∀ s, ((pool.write slot { pool.storage slot with qty := q }).storage s).id
        = (pool.storage s).id
      ∧ ((pool.write slot { pool.storage slot with qty := q }).storage s).side
        = (pool.storage s).side
      ∧ ((pool.write slot { pool.storage slot with qty := q }).storage s).price
        = (pool.storage s).price := by
    intro s
    by_cases hs : s = slot
    · subst hs; simp
    · rw [pool.write_storage_ne _ hs]; exact ⟨rfl, rfl, rfl⟩
  refine ⟨h.holds, ?_, (h.stocked.reduce hq).pos, ?_⟩
  · rw [List.map_congr_left (fun s _ => (hst s).1)]
    exact h.ids
  · intro i side price
    rw [h.index]
    refine exists_congr fun s => and_congr_right fun _ => ?_
    rw [(hst s).1, (hst s).2.1, (hst s).2.2]

/-- **Putting an order to rest** adds one slot under an id that was not there. -/
theorem acquire {pool' : ObjectPool Order cap} {o : Order} {slot : Nat}
    (h : Consistent pool locate live) (ha : pool.acquire o = some (slot, pool'))
    (hq : 0 < o.qty) (hfresh : ∀ s ∈ live, (pool.storage s).id ≠ o.id) :
    Consistent pool' (locate.insert o.id (o.side, o.price)) (slot :: live) := by
  obtain ⟨hself, hst⟩ := h.stocked.storage_acquire ha
  have hacquired : Stocked pool' (slot :: live) := h.stocked.acquire ha hq
  refine ⟨hacquired.holds, ?_, hacquired.pos, ?_⟩
  · rw [List.map_cons, hself, List.map_congr_left (fun s hs => by rw [hst s hs])]
    refine List.nodup_cons.mpr ⟨fun hm => ?_, h.ids⟩
    obtain ⟨s, hs, he⟩ := List.mem_map.mp hm
    exact hfresh s hs he
  · intro i side price
    by_cases hi : i = o.id
    · -- the new id: every older order carries another one
      subst hi
      rw [Finmap.lookup_insert]
      constructor
      · intro he
        obtain ⟨h1, h2⟩ := Prod.mk.inj (Option.some.inj he)
        exact ⟨slot, List.mem_cons_self, by rw [hself], by rw [hself]; exact h1,
          by rw [hself]; exact h2⟩
      · rintro ⟨s, hs, he, h1, h2⟩
        rcases List.mem_cons.mp hs with rfl | hs
        · rw [hself] at h1 h2; rw [h1, h2]
        · rw [hst s hs] at he; exact absurd he (hfresh s hs)
    · rw [Finmap.lookup_insert_of_ne _ hi, h.index]
      constructor
      · rintro ⟨s, hs, he, hrest⟩
        exact ⟨s, List.mem_cons_of_mem _ hs, by rw [hst s hs]; exact he,
          by rw [hst s hs]; exact hrest⟩
      · rintro ⟨s, hs, he, hrest⟩
        rcases List.mem_cons.mp hs with rfl | hs
        · rw [hself] at he; exact absurd he.symm hi
        · rw [hst s hs] at he hrest; exact ⟨s, hs, he, hrest⟩

/-- An id `locate_` does not know rests nowhere. -/
theorem lookup_none (h : Consistent pool locate live) {i : OrderId}
    (hi : locate.lookup i = none) : ∀ s ∈ live, (pool.storage s).id ≠ i := by
  intro s hs he
  have := (h.index i _ _).mpr ⟨s, hs, he, rfl, rfl⟩
  rw [hi] at this
  exact absurd this (by simp)

end Consistent

end HftLob.Book

import HftLob.Engine.Coherent
import HftLob.Book.Refine

/-!
# Orders in limbo

Whether the remainder of an order really rests is decided inside `OrderBook::rest`,
which drops it when the pool is exhausted. The engine does not learn that: it enters
the order in `resting_` and acks it as live. `HasRoom` is the condition on the state
before a new order under which the two agree, and it is exact.
-/

namespace HftLob.Engine

open HftLob.Book HftLob.Lib HftLob.Lib.PriceTime MatchingEngineConsumer

variable {cap : PoolCapacity} {hist : List SequencedEvent} {acks : List OutboundAck}
  {e : MatchingEngineConsumer cap} {ev : SequencedEvent}

/-- `resting_` and the book hold the same ids with the same quantities. -/
def SameOrders (e : MatchingEngineConsumer cap) : Prop :=
  ∀ x q, (∃ info, e.resting.lookup x = some info ∧ info.remainingQty.toNat = q)
    ↔ ∃ y ∈ e.book.flat.orders, y.id = x ∧ y.qty = q

/-- An order whose latest ack says that it is live rests, with the quantity acked. -/
def LiveOrdersRest (acks : List OutboundAck) (e : MatchingEngineConsumer cap) : Prop :=
  ∀ x a, latestAck x acks = some a → isOpen a.status →
    ∃ y ∈ e.book.flat.orders, y.id = x ∧ y.qty = a.leavesQuantity.toNat

/-- There is a free slot, or the incoming order is about to free one: some order on
the other side is within its limit. -/
def HasRoom (e : MatchingEngineConsumer cap) (ev : SequencedEvent) : Prop :=
  e.book.flat.orders.length < cap.slots
    ∨ ∃ y ∈ e.book.flat.opposite ev.bookSide, Flat.crosses ev.bookSide ev.price.toNat y.price

/-! ## When a remainder rests -/

theorem BookInv.orders_le {b : OrderBook cap} (hb : BookInv b) :
    b.flat.orders.length ≤ cap.slots := by
  rw [OrderBook.length_orders]
  exact hb.consistent.holds.length_le

/-- If anything on the other side crosses, the best order there does. -/
theorem crosses_head {f : Flat} (hs : f.Sorted) {side : Side} {price : Price}
    {y z : Entry OrderId Price} {l : List (Entry OrderId Price)}
    (hl : f.opposite side = z :: l) (hy : y ∈ f.opposite side)
    (hc : Flat.crosses side price y.price) : Flat.crosses side price z.price := by
  have hfirst := hs.crosses_first side price
  rw [hl] at hy hfirst
  cases List.mem_cons.mp hy with
  | inl he => exact he ▸ hc
  | inr hin => exact (List.pairwise_cons.mp hfirst).1 y hin hc

/-- **A remainder finds a slot exactly when there was room.** -/
theorem EngineInv.rests_iff (h : EngineInv hist acks e) (hq : 1 ≤ ev.quantity) :
    (0 < (bookWalk e ev).left →
      e.book.flat.Rests cap.slots ev.bookSide ev.price.toNat ev.quantity.toNat) ↔ HasRoom e ev := by
  have hcap := BookInv.orders_le h.book
  have hlen := (e.book.flat.orders_perm ev.bookSide).length_eq
  rw [List.length_append] at hlen
  have hle : (bookWalk e ev).rest.length ≤ (e.book.flat.opposite ev.bookSide).length :=
    walk_rest_length_le _ _ _
  constructor
  · intro hrests
    by_cases hroom : e.book.flat.orders.length < cap.slots
    · exact Or.inl hroom
    · -- the pool is full, so the walk must have freed a slot
      refine Or.inr (by_contra fun hnone => ?_)
      have hwalk : bookWalk e ev
          = ⟨[], ev.quantity.toNat, e.book.flat.opposite ev.bookSide⟩ :=
        walk_uncrossed fun y hy hc => hnone ⟨y, hy, hc⟩
      have hrest : _ + (bookWalk e ev).rest.length < _ := (hrests ?_).2
      · rw [hwalk] at hrest
        dsimp only at hrest
        omega
      · rw [hwalk]
        exact UInt32.le_iff_toNat_le.mp hq
  · intro hroom hleft
    refine ⟨hleft, ?_⟩
    show _ + (bookWalk e ev).rest.length < _
    cases hroom with
    | inl hlt => omega
    -- the walk goes on past the best order only after using it up,
    -- which frees its slot; a remainder means that it did
    | inr hcross =>
        obtain ⟨y, hy, hc⟩ := hcross
        cases hopp : e.book.flat.opposite ev.bookSide with
        | nil => rw [hopp] at hy; simp at hy
        | cons z l =>
            have hz := crosses_head h.book.flat_sorted hopp hy hc
            have hlt : (bookWalk e ev).rest.length < (e.book.flat.opposite ev.bookSide).length := by
              unfold bookWalk Flat.addWalk at hleft ⊢
              rw [hopp] at hleft ⊢
              exact walk_rest_length_lt hz hleft
            omega

/-! ## One event -/

/-- If `resting_` had nothing but the book's orders before the loop over the trades,
it has nothing but those the walk leaves after it. -/
theorem EngineInv.settled_exact (h : EngineInv hist acks e)
    (hlt : ∀ o ∈ hist, o.seqNum < ev.seqNum) (hsame : SameOrders e) {x : OrderId}
    {info : RestingOrderInfo} (hx : (settledState e ev).resting.lookup x = some info) :
    ∃ y ∈ e.book.flat.own ev.bookSide ++ (bookWalk e ev).rest,
      y.id = x ∧ y.qty = info.remainingQty.toNat := by
  have hs := h.settled hlt
  by_cases hfill : x ∈ (bookWalk e ev).fills.map Entry.id
  · -- an order that was hit, and of which something is left
    obtain ⟨f, hf, rfl⟩ := List.mem_map.mp hfill
    obtain ⟨_, _, info₀, hinfo₀, hle⟩ := (h.resolved hlt).found f hf
    rw [hs.hit f hf info₀ hinfo₀, afterFill] at hx
    split at hx
    · exact absurd hx (by simp)
    · rename_i hne
      cases hx
      cases walk_fill_cases hf with
      -- a fill of the whole order would have erased it
      | inl hall =>
          obtain ⟨info₁, hinfo₁, hqty⟩ := h.agree f
            ((e.book.flat.orders_perm ev.bookSide).mem_iff.mpr (List.mem_append_right _ hall))
          rw [hinfo₀] at hinfo₁
          cases hinfo₁
          exact absurd hqty hne
      | inr hpart =>
          obtain ⟨y, hy, _, _, hfy, hrest⟩ := hpart
          have hid : y.id = f.id := by rw [hfy]
          obtain ⟨info₁, hinfo₁, hqty⟩ := h.agree y
            ((e.book.flat.orders_perm ev.bookSide).mem_iff.mpr (List.mem_append_right _ hy))
          rw [hid, hinfo₀] at hinfo₁
          cases hinfo₁
          refine ⟨_, List.mem_append_right _ hrest, hid, ?_⟩
          have hf32 : (UInt32.ofNat f.qty).toNat = f.qty :=
            toNat_ofNat_qty (Nat.lt_of_le_of_lt hle info₀.remainingQty.toNat_lt)
          dsimp only
          rw [UInt32.toNat_sub_of_le, hf32, hqty]
          rw [UInt32.le_iff_toNat_le, hf32]
          exact hle
  · rw [hs.frame x hfill] at hx
    -- not hit, so its entry is as it was and the book had it before the walk
    obtain ⟨y, hy, hid, hqty⟩ := (hsame x info.remainingQty.toNat).mp ⟨info, hx, rfl⟩
    cases List.mem_append.mp ((e.book.flat.orders_perm ev.bookSide).mem_iff.mp hy) with
    | inl hown => exact ⟨y, List.mem_append_left _ hown, hid, hqty⟩
    | inr hopp =>
        have hcases : y ∈ (bookWalk e ev).rest ∨ y ∈ (bookWalk e ev).fills
            ∨ ∃ k, 0 < k ∧ k < y.qty ∧ { y with qty := k } ∈ (bookWalk e ev).fills
              ∧ { y with qty := y.qty - k } ∈ (bookWalk e ev).rest := walk_mem_cases hopp
        rcases hcases with hrest | hall | ⟨k, _, _, hpart, _⟩
        · exact ⟨y, List.mem_append_right _ hrest, hid, hqty⟩
        · exact absurd (hid ▸ List.mem_map_of_mem hall) hfill
        · exact absurd (hid ▸ List.mem_map.mpr ⟨_, hpart, rfl⟩) hfill

/-- The engine has the incoming order in `resting_` exactly if some of it was left. -/
theorem EngineInv.newOrder_self (h : EngineInv hist acks e)
    (hlt : ∀ o ∈ hist, o.seqNum < ev.seqNum) {q : Nat} :
    (∃ info, (e.applyNewOrder ev).1.resting.lookup ev.seqNum = some info
        ∧ info.remainingQty.toNat = q)
      ↔ 0 < (bookWalk e ev).left ∧ (bookWalk e ev).left = q := by
  have hleaves : (leavesOf e ev).toNat = (bookWalk e ev).left := (h.quantities hlt).2
  by_cases hleft : leavesOf e ev > 0
  · rw [applyNewOrder_some hleft]
    have hpos := UInt32.lt_iff_toNat_lt.mp hleft
    rw [hleaves] at hpos
    simp only [Finmap.lookup_insert, Option.some.injEq, exists_eq_left', hleaves]
    exact ⟨fun hq => ⟨hpos, hq⟩, fun hq => hq.2⟩
  · rw [applyNewOrder_all hleft]
    have hzero : ¬ 0 < (bookWalk e ev).left := by
      rw [← hleaves]
      exact fun hp => hleft (UInt32.lt_iff_toNat_lt.mpr hp)
    -- the loop only updates and erases: it makes no entry under a new id
    have hnone : (settledState e ev).resting.lookup ev.seqNum = none := by
      exact (h.settled hlt).ledger.fresh_resting hlt
    simp [hnone, hzero]

theorem EngineInv.sameOrders_newOrder (h : EngineInv hist acks e)
    (hlt : ∀ o ∈ hist, o.seqNum < ev.seqNum) (hq : 1 ≤ ev.quantity) (hsame : SameOrders e) :
    SameOrders (e.applyNewOrder ev).1 ↔ HasRoom e ev := by
  rw [← h.rests_iff hq]
  have hperm := h.orders_after hlt
  constructor
  · -- the engine has the remainder in `resting_`; if the book has it too, it rests
    intro hafter hleft
    obtain ⟨y, hy, hid, _⟩ := (hafter ev.seqNum (bookWalk e ev).left).mp
      ((h.newOrder_self hlt).mpr ⟨hleft, rfl⟩)
    rw [applyNewOrder_book] at hy
    have hy' := hperm.mem_iff.mp hy
    split at hy'
    · assumption
    · exact absurd hid (h.walked_ne hlt y hy')
  · intro hrests x q
    rw [applyNewOrder_book]
    constructor
    · intro hx
      by_cases hxe : x = ev.seqNum
      · subst hxe
        obtain ⟨hleft, rfl⟩ := (h.newOrder_self hlt).mp hx
        rw [if_pos (hrests hleft)] at hperm
        exact ⟨_, hperm.mem_iff.mpr List.mem_cons_self, rfl, rfl⟩
      · obtain ⟨info, hinfo, rfl⟩ := hx
        rw [applyNewOrder_lookup e hxe] at hinfo
        obtain ⟨y, hy, hid, hqty⟩ := h.settled_exact hlt hsame hinfo
        refine ⟨y, hperm.mem_iff.mpr ?_, hid, hqty⟩
        split
        · exact List.mem_cons_of_mem _ hy
        · exact hy
    · intro hy
      obtain ⟨y, hy, rfl, rfl⟩ := hy
      exact h.newOrder_agree hlt y hy

theorem EngineInv.sameOrders_cancelOrder (h : EngineInv hist acks e) (hsame : SameOrders e) :
    SameOrders (e.applyCancelOrder ev).1 := by
  cases hk : e.byClient.lookup (orderKey ev) with
  | none =>
      rw [applyCancelOrder_unknown hk]
      exact hsame
  | some z =>
      rw [applyCancelOrder_found hk]
      intro x q
      simp only [mem_cancel_orders h.book]
      by_cases hxz : x = z
      · subst hxz
        rw [Finmap.lookup_erase]
        constructor
        · intro hx
          exact absurd hx (by simp)
        · intro hy
          obtain ⟨y, hy, hid, _⟩ := hy
          exact absurd hid hy.2
      · rw [Finmap.lookup_erase_ne hxz, hsame x q]
        constructor
        · intro hy
          obtain ⟨y, hy, hid, hqty⟩ := hy
          exact ⟨y, ⟨hy, hid ▸ hxz⟩, hid, hqty⟩
        · intro hy
          obtain ⟨y, hy, hid, hqty⟩ := hy
          exact ⟨y, hy.1, hid, hqty⟩

/-! ## Live acks leave something -/

/-- An ack that says an order is live leaves something of it. -/
def OpenPos (acks : List OutboundAck) : Prop :=
  ∀ a ∈ acks, isOpen a.status → 0 < a.leavesQuantity

theorem OpenPos.append {acks₁ acks₂ : List OutboundAck} (h₁ : OpenPos acks₁)
    (h₂ : OpenPos acks₂) : OpenPos (acks₁ ++ acks₂) := by
  intro a ha
  cases List.mem_append.mp ha with
  | inl h => exact h₁ a h
  | inr h => exact h₂ a h

theorem openPos_apply (e : MatchingEngineConsumer cap)
    (hq : ev.type = .newOrder → 1 ≤ ev.quantity) : OpenPos (e.apply ev).2 := by
  intro a ha hopen
  refine (coherent_apply e (fun hnew => ?_) a ha).2.mpr hopen
  exact UInt32.lt_iff_toNat_lt.mpr (UInt32.le_iff_toNat_le.mp (hq hnew))

theorem openPos_replay {evs : List SequencedEvent}
    (hqty : ∀ ev ∈ evs, ev.type = .newOrder → 1 ≤ ev.quantity) :
    OpenPos ((init cap).replay evs).2 := by
  refine Mealy.run_induction (P := fun _ acks _ => OpenPos acks)
    (fun a ha => absurd ha (by simp)) ?_
  intro is i hp h
  exact h.append (openPos_apply _ (hqty i (hp.subset (by simp))))

/-! ## Every run -/

theorem mem_of_latestAck {x : OrderId} {a : OutboundAck} (h : latestAck x acks = some a) :
    a ∈ acks := List.mem_of_mem_filter (List.mem_of_getLast? h)

/-- What the acks promise and what the maps hold come to the same. -/
theorem EngineInv.liveOrdersRest_iff (h : EngineInv hist acks e) (hpos : OpenPos acks) :
    LiveOrdersRest acks e ↔ SameOrders e := by
  constructor
  · intro hrest x q
    constructor
    · intro hx
      obtain ⟨info, hinfo, rfl⟩ := hx
      obtain ⟨_, a, ha, hopen, hleaves⟩ := (h.ledger.live x info.remainingQty).mp ⟨info, hinfo, rfl⟩
      rw [← hleaves]
      exact hrest x a ha hopen
    · intro hy
      obtain ⟨y, hy, rfl, rfl⟩ := hy
      exact h.agree y hy
  · intro hsame x a ha hopen
    obtain ⟨info, hinfo, hq⟩ := (h.ledger.live x a.leavesQuantity).mpr
      ⟨hpos a (mem_of_latestAck ha) hopen, a, ha, hopen, rfl⟩
    exact (hsame x _).mp ⟨info, hinfo, by rw [hq]⟩

/-- Every new order of the run finds room when it arrives. -/
def RoomThroughout (cap : PoolCapacity) (evs : List SequencedEvent) : Prop :=
  Mealy.Along apply (fun e ev => ev.type = .newOrder → HasRoom e ev) (init cap) evs

theorem sameOrders_init : SameOrders (init cap) := by
  intro x q
  simp [init]

theorem sameOrders_replay_iff {evs : List SequencedEvent} (hseq : Sequenced evs)
    (hqty : ∀ ev ∈ evs, ev.type = .newOrder → 1 ≤ ev.quantity) :
    (∀ pre, pre <+: evs → SameOrders ((init cap).replay pre).1) ↔ RoomThroughout cap evs := by
  rw [RoomThroughout, Mealy.along_iff]
  constructor
  · intro hall pre ev hp hnew
    have hseq' := hseq.of_prefix hp
    have hafter := hall (pre ++ [ev]) hp
    rw [replay_concat, MatchingEngineConsumer.apply, hnew] at hafter
    exact ((engineInv_replay hseq'.init).sameOrders_newOrder hseq'.lt
      (hqty ev (hp.subset (by simp)) hnew) (hall pre ((List.prefix_append _ _).trans hp))).mp hafter
  · intro hroom pre
    induction pre using List.reverseRecOn with
    | nil => exact fun _ => sameOrders_init
    | append_singleton pre ev ih =>
        intro hp
        have hseq' := hseq.of_prefix hp
        have hinv : EngineInv pre ((init cap).replay pre).2 ((init cap).replay pre).1 :=
          engineInv_replay hseq'.init
        have hsame := ih ((List.prefix_append _ _).trans hp)
        rw [replay_concat, MatchingEngineConsumer.apply]
        cases htype : ev.type with
        | newOrder =>
            exact (hinv.sameOrders_newOrder hseq'.lt (hqty ev (hp.subset (by simp)) htype)
              hsame).mpr (hroom pre ev hp htype)
        | cancelOrder => exact hinv.sameOrders_cancelOrder hsame
        | marketDataOrder => exact hsame
        | admin => exact hsame

/-- **No order is in limbo along a run exactly if every new order finds room**, whether
one looks at the acks or at the engine's own map. The pool has at most `2 ^ 31` slots. -/
theorem no_limbo_iff_room (cap : PoolCapacity) (evs : List SequencedEvent)
    (hseq : Sequenced evs) (hqty : ∀ ev ∈ evs, ev.type = .newOrder → 1 ≤ ev.quantity) :
    ((∀ pre, pre <+: evs →
        LiveOrdersRest ((init cap).replay pre).2 ((init cap).replay pre).1)
      ↔ RoomThroughout cap evs)
    ∧ ((∀ pre, pre <+: evs → SameOrders ((init cap).replay pre).1) ↔ RoomThroughout cap evs) := by
  have hsame : (∀ pre, pre <+: evs → SameOrders ((init cap).replay pre).1)
      ↔ RoomThroughout cap evs := sameOrders_replay_iff hseq hqty
  refine ⟨?_, hsame⟩
  rw [← hsame]
  refine forall_congr' fun pre => forall_congr' fun hp => ?_
  exact (engineInv_replay (hseq.of_prefix hp)).liveOrdersRest_iff
    (openPos_replay fun ev hev => hqty ev (hp.subset hev))

/-- A pool of one that is full when the second order arrives, which frees the slot. -/
theorem no_limbo_iff_room_pool_of_one :
    let cap : PoolCapacity := ⟨1, by decide⟩
    let evs : List SequencedEvent :=
      [{ seqNum := 1, sessionId := 1, clientOrderId := 7, price := 100, quantity := 5 },
       { seqNum := 2, sessionId := 2, clientOrderId := 7, side := 1, price := 100, quantity := 8 }]
    Sequenced evs ∧ (∀ ev ∈ evs, ev.type = .newOrder → 1 ≤ ev.quantity)
      ∧ ((∀ pre, pre <+: evs →
            LiveOrdersRest ((init cap).replay pre).2 ((init cap).replay pre).1)
          ↔ RoomThroughout cap evs)
      ∧ ((∀ pre, pre <+: evs → SameOrders ((init cap).replay pre).1) ↔ RoomThroughout cap evs) :=
  ⟨by decide, by decide, no_limbo_iff_room ⟨1, by decide⟩ _ (by decide) (by decide)⟩

/-- A pool of one that stays full: the second order is acked as live with all of its
quantity, and is nowhere in the book. -/
theorem limbo_pool_exhausted :
    let evs : List SequencedEvent :=
      [{ seqNum := 1, sessionId := 1, clientOrderId := 7, price := 100, quantity := 5 },
       { seqNum := 2, sessionId := 1, clientOrderId := 8, price := 99, quantity := 3 }]
    let r := (init ⟨1, by decide⟩).replay evs
    Sequenced evs ∧ (∀ ev ∈ evs, ev.type = .newOrder ∧ 1 ≤ ev.quantity)
      ∧ latestAck 2 r.2 = some ⟨1, 8, 2, .accepted, 0, 0, 3⟩ ∧ r.1.book.flat.ids = [1]
      ∧ ¬ LiveOrdersRest r.2 r.1 ∧ ¬ SameOrders r.1 := by
  intro evs r
  have hids : r.1.book.flat.ids = [1] := by decide
  have hack : latestAck 2 r.2 = some ⟨1, 8, 2, .accepted, 0, 0, 3⟩ := by decide
  have hrest : r.1.resting.lookup 2 = some ⟨1, 8, 3⟩ := by decide
  have hout : ∀ y ∈ r.1.book.flat.orders, y.id ≠ 2 := by
    intro y hy hid
    have : y.id ∈ r.1.book.flat.ids := List.mem_map_of_mem hy
    rw [hids, hid] at this
    exact absurd this (by decide)
  refine ⟨by decide, by decide, hack, hids, ?_, ?_⟩
  · intro hlive
    obtain ⟨y, hy, hid, _⟩ := hlive 2 _ hack rfl
    exact hout y hy hid
  · intro hsame
    obtain ⟨y, hy, hid, _⟩ := (hsame 2 3).mp ⟨_, hrest, rfl⟩
    exact hout y hy hid

end HftLob.Engine

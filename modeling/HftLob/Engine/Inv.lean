import HftLob.Engine.Settle

/-!
# The invariant of the matching engine

The quantities in `resting_` are a second copy of those in the book, kept up to date
by a loop of their own. `EngineInv` ties the two together, and both to the acks sent
so far. It does not say that every order in `resting_` is in the book: an order that
found the pool exhausted is not.
-/

namespace HftLob.Engine

open HftLob.Book HftLob.Lib HftLob.Lib.PriceTime MatchingEngineConsumer

variable {cap : PoolCapacity} {hist : List SequencedEvent} {acks : List OutboundAck}
  {e : MatchingEngineConsumer cap} {ev : SequencedEvent}

/-- Every order of the list is in `resting_`, with the same quantity. -/
def Agree (resting : UMap OrderId RestingOrderInfo) (l : List (Entry OrderId Price)) : Prop :=
  ∀ x ∈ l, ∃ info, resting.lookup x.id = some info ∧ info.remainingQty.toNat = x.qty

/-- Every order of the list was submitted, with the price it is filed under as its limit. -/
def Priced (hist : List SequencedEvent) (l : List (Entry OrderId Price)) : Prop :=
  ∀ x ∈ l, ∃ o ∈ hist, Submits o x.id ∧ (o.price.toNat : Price) = x.price

structure EngineInv (hist : List SequencedEvent) (acks : List OutboundAck)
    (e : MatchingEngineConsumer cap) : Prop where
  ledger : Ledger hist acks e.byClient e.resting
  book : BookInv e.book
  agree : Agree e.resting e.book.flat.orders
  priced : Priced hist e.book.flat.orders

theorem engineInv_init : EngineInv [] [] (init cap) where
  ledger := ledger_init
  book := bookInv_init
  agree := by
    intro x hx
    exact absurd hx (by simp [init])
  priced := by
    intro x hx
    exact absurd hx (by simp [init])

theorem Sequenced.lt (h : Sequenced (hist ++ [ev])) : ∀ o ∈ hist, o.seqNum < ev.seqNum :=
  fun o ho => (List.pairwise_append.mp h.2).2.2 o ho ev (by simp)

theorem Sequenced.pos (h : Sequenced (hist ++ [ev])) : 1 ≤ ev.seqNum := h.1 ev (by simp)

theorem Sequenced.init (h : Sequenced (hist ++ [ev])) : Sequenced hist :=
  ⟨fun o ho => h.1 o (List.mem_append_left _ ho), (List.pairwise_append.mp h.2).1⟩

/-- No two events of a sequenced stream have one number. -/
theorem Sequenced.unique (h : Sequenced hist) {o o' : SequencedEvent} (ho : o ∈ hist)
    (ho' : o' ∈ hist) (he : o.seqNum = o'.seqNum) : o = o' := by
  by_contra hne
  have hpair : hist.Pairwise (fun a b => a.seqNum ≠ b.seqNum) :=
    h.2.imp UInt64.ne_of_lt
  have hsymm : Std.Symm (fun a b : SequencedEvent => a.seqNum ≠ b.seqNum) :=
    ⟨fun _ _ h => h.symm⟩
  exact hpair.forall ho ho' hne he

/-- The stamps of the one sequencer: one, two, three and so on. -/
def Stamped (evs : List SequencedEvent) : Prop :=
  evs.map SequencedEvent.seqNum
    = (List.range evs.length).map (fun i => UInt64.ofNat (i + 1))

theorem Stamped.concat {evs : List SequencedEvent} (h : Stamped evs)
    (hev : ev.seqNum = UInt64.ofNat (evs.length + 1)) : Stamped (evs ++ [ev]) := by
  unfold Stamped at h ⊢
  rw [List.map_append, h, List.length_append, List.length_singleton, List.range_succ,
    List.map_append, List.map_singleton, List.map_singleton, hev]

theorem Stamped.getElem? {evs : List SequencedEvent} (h : Stamped evs) {k : Nat}
    (hk : evs[k]? = some ev) : ev.seqNum = UInt64.ofNat (k + 1) := by
  have hlt : k < evs.length := (List.getElem?_eq_some_iff.mp hk).1
  have hmap := congrArg (fun l => l[k]?) h
  rw [List.getElem?_map, List.getElem?_map, hk, List.getElem?_range hlt] at hmap
  exact Option.some.inj hmap

theorem stamped_of_getElem? {evs : List SequencedEvent}
    (h : ∀ k ev, evs[k]? = some ev → ev.seqNum = UInt64.ofNat (k + 1)) : Stamped evs := by
  refine List.ext_getElem? fun k => ?_
  rw [List.getElem?_map, List.getElem?_map]
  cases hk : evs[k]? with
  | none =>
      have hle : evs.length ≤ k := List.getElem?_eq_none_iff.mp hk
      rw [List.getElem?_eq_none (by rw [List.length_range]; exact hle)]
      rfl
  | some ev =>
      have hlt : k < evs.length := (List.getElem?_eq_some_iff.mp hk).1
      rw [List.getElem?_range hlt, Option.map_some, Option.map_some, h k ev hk]

theorem toNat_ofNat_seq {n : Nat} (h : n < 2 ^ 64) : (UInt64.ofNat n).toNat = n := by
  rw [UInt64.toNat_ofNat']
  exact Nat.mod_eq_of_lt h

/-- Until the counter wraps, stamps increase. -/
theorem Stamped.sequenced {evs : List SequencedEvent} (h : Stamped evs)
    (hlen : evs.length < 2 ^ 64) : Sequenced evs := by
  constructor
  · intro ev hev
    have hin : ev.seqNum ∈ evs.map SequencedEvent.seqNum := List.mem_map_of_mem hev
    rw [h] at hin
    obtain ⟨i, hi, he⟩ := List.mem_map.mp hin
    have hi := List.mem_range.mp hi
    rw [← he, UInt64.le_iff_toNat_le, toNat_ofNat_seq (by omega)]
    show 1 ≤ i + 1
    omega
  · have hpair : (evs.map SequencedEvent.seqNum).Pairwise (· < ·) := by
      rw [h, List.pairwise_map]
      refine List.pairwise_lt_range.imp_of_mem ?_
      intro i j hi hj hij
      have hi := List.mem_range.mp hi
      have hj := List.mem_range.mp hj
      rw [UInt64.lt_iff_toNat_lt, toNat_ofNat_seq (by omega), toNat_ofNat_seq (by omega)]
      omega
    exact List.pairwise_map.mp hpair

/-! ## A new order -/

/-- The walk of an event's order through the book. -/
def bookWalk (e : MatchingEngineConsumer cap) (ev : SequencedEvent) : Walk OrderId Price :=
  e.book.flat.addWalk ev.bookSide ev.price.toNat ev.quantity.toNat

theorem EngineInv.fresh (h : EngineInv hist acks e) (hlt : ∀ o ∈ hist, o.seqNum < ev.seqNum) :
    ev.seqNum ∉ e.book.flat.ids := by
  intro hin
  obtain ⟨x, hx, hid⟩ := List.mem_map.mp hin
  -- whatever rests was submitted by an earlier event, under a smaller number
  obtain ⟨o, ho, hsub, _⟩ := h.priced x hx
  have := hlt o ho
  rw [hsub.2, hid] at this
  exact absurd this (UInt64.lt_irrefl _)

theorem EngineInv.ids_nodup (h : EngineInv hist acks e) (side : Side) :
    ((e.book.flat.own side ++ e.book.flat.opposite side).map Entry.id).Nodup := by
  have hids : e.book.flat.ids.Nodup := by
    rw [OrderBook.flat_ids]
    exact h.book.consistent.ids
  exact ((e.book.flat.orders_perm side).map Entry.id).nodup_iff.mp hids

/-- The trades of the event are the fills of the walk. -/
theorem EngineInv.addOrder_trades (h : EngineInv hist acks e)
    (hlt : ∀ o ∈ hist, o.seqNum < ev.seqNum) :
    (e.addOrder ev).2
      = (bookWalk e ev).fills.map (tradeOf ev.seqNum ev.bookSide ev.sequenceTsNs) := by
  rw [addOrder, (addLimitOrder_spec h.book (h.fresh hlt)).2.2, List.nil_append, Flat.add_fills]
  rfl

theorem EngineInv.resolved (h : EngineInv hist acks e)
    (hlt : ∀ o ∈ hist, o.seqNum < ev.seqNum) :
    Resolved ev.seqNum e.resting (bookWalk e ev).fills where
  nodup := by
    refine walk_fills_nodup ?_
    exact (List.nodup_append.mp (List.map_append ▸ h.ids_nodup ev.bookSide)).2.1
  found := by
    intro f hf
    obtain ⟨x, hx, hid, _, hle, hpos⟩ := walk_fill_mem hf
    have hmem : x ∈ e.book.flat.orders :=
      (e.book.flat.orders_perm ev.bookSide).mem_iff.mpr (List.mem_append_right _ hx)
    obtain ⟨info, hinfo, hqty⟩ := h.agree x hmem
    have hinfo0 := UInt32.lt_iff_toNat_lt.mp (h.ledger.pos hinfo)
    refine ⟨?_, hpos (by rw [← hqty]; exact hinfo0), info, hid ▸ hinfo, by rw [hqty]; exact hle⟩
    intro he
    exact h.fresh hlt (by rw [← he, ← hid]; exact List.mem_map_of_mem hmem)

/-- The loop's initial state, for the acks of an event. -/
def startState (e : MatchingEngineConsumer cap) : FillState := ⟨0, e.byClient, e.resting, []⟩

/-- The maps and acks when the loop over the trades is done. -/
def settledState (e : MatchingEngineConsumer cap) (ev : SequencedEvent) : FillState :=
  e.settle ev (e.addOrder ev).2

theorem fills_room (e : MatchingEngineConsumer cap) (ev : SequencedEvent) :
    (startState e).filledOnIncoming.toNat + ((bookWalk e ev).fills.map Entry.qty).sum
      ≤ ev.quantity.toNat := by
  have hsum : ((bookWalk e ev).fills.map Entry.qty).sum + (bookWalk e ev).left
      = ev.quantity.toNat := walk_sum _ _
  show 0 + _ ≤ _
  omega

theorem EngineInv.settled (h : EngineInv hist acks e)
    (hlt : ∀ o ∈ hist, o.seqNum < ev.seqNum) :
    Settled hist acks (bookWalk e ev).fills (startState e) (settledState e ev) := by
  rw [settledState, h.addOrder_trades hlt]
  refine settle_spec ?_ (h.resolved hlt) ?_
  · rw [startState, List.append_nil]
    exact h.ledger
  · -- `filled_on_incoming` cannot wrap: the walk fills at most the order itself
    exact Nat.lt_of_le_of_lt (fills_room e ev) ev.quantity.toNat_lt

/-- What the engine computes as filled and as left is what the walk filled and left. -/
theorem EngineInv.quantities (h : EngineInv hist acks e)
    (hlt : ∀ o ∈ hist, o.seqNum < ev.seqNum) :
    (settledState e ev).filledOnIncoming ≤ ev.quantity
      ∧ (ev.quantity - (settledState e ev).filledOnIncoming).toNat
        = (bookWalk e ev).left := by
  have hfilled := (h.settled hlt).filled
  have hsum : ((bookWalk e ev).fills.map Entry.qty).sum + (bookWalk e ev).left
      = ev.quantity.toNat := walk_sum _ _
  have hzero : (startState e).filledOnIncoming.toNat = 0 := rfl
  have hle : (settledState e ev).filledOnIncoming ≤ ev.quantity := by
    rw [UInt32.le_iff_toNat_le]
    omega
  refine ⟨hle, ?_⟩
  rw [UInt32.toNat_sub_of_le _ _ hle]
  omega

/-- After the loop `resting_` agrees with what the walk leaves. -/
theorem EngineInv.agree_settled (h : EngineInv hist acks e)
    (hlt : ∀ o ∈ hist, o.seqNum < ev.seqNum) :
    Agree (settledState e ev).resting
      (e.book.flat.own ev.bookSide ++ (bookWalk e ev).rest) := by
  have hs := h.settled hlt
  have hnodup := h.ids_nodup ev.bookSide
  rw [List.map_append, List.nodup_append] at hnodup
  have hold : ∀ x ∈ e.book.flat.own ev.bookSide ++ e.book.flat.opposite ev.bookSide,
      ∃ info, e.resting.lookup x.id = some info ∧ info.remainingQty.toNat = x.qty :=
    fun x hx => h.agree x ((e.book.flat.orders_perm ev.bookSide).mem_iff.mpr hx)
  intro x hx
  cases List.mem_append.mp hx with
  | inl hown =>
      -- the order's own side trades with nobody
      obtain ⟨info, hinfo, hqty⟩ := hold x (List.mem_append_left _ hown)
      refine ⟨info, ?_, hqty⟩
      rw [hs.frame x.id]
      · exact hinfo
      · intro hin
        obtain ⟨f, hf, hid⟩ := List.mem_map.mp hin
        obtain ⟨y, hy, hyid, _⟩ := walk_fill_mem hf
        exact hnodup.2.2 x.id (List.mem_map_of_mem hown) y.id (List.mem_map_of_mem hy)
          (hid.symm.trans hyid.symm)
  | inr hrest =>
      cases walk_rest_mem hnodup.2.1 hrest with
      -- beyond the limit, or behind the order that used up the quantity
      | inl huntouched =>
          obtain ⟨info, hinfo, hqty⟩ := hold x (List.mem_append_right _ huntouched.1)
          refine ⟨info, ?_, hqty⟩
          rw [hs.frame x.id huntouched.2]
          exact hinfo
      -- the one order that was hit and not used up
      | inr hreduced =>
          obtain ⟨y, hy, k, hk, hlt', hfill, rfl⟩ := hreduced
          obtain ⟨info, hinfo, hqty⟩ := hold y (List.mem_append_right _ hy)
          have hleft : ¬ info.remainingQty.toNat = k := by omega
          have hkq : (UInt32.ofNat k).toNat = k := by
            refine toNat_ofNat_qty ?_
            have := info.remainingQty.toNat_lt
            omega
          refine ⟨{ info with remainingQty := info.remainingQty - UInt32.ofNat k }, ?_, ?_⟩
          · rw [hs.hit _ hfill info hinfo, afterFill, if_neg hleft]
          · rw [UInt32.toNat_sub_of_le, hkq, hqty]
            rw [UInt32.le_iff_toNat_le, hkq]
            omega

/-- The loop over the trades changes nobody's name. -/
theorem EngineInv.settled_key (h : EngineInv hist acks e)
    (hlt : ∀ o ∈ hist, o.seqNum < ev.seqNum) {x : OrderId} {info : RestingOrderInfo}
    (hx : (settledState e ev).resting.lookup x = some info) :
    ∃ info₀, e.resting.lookup x = some info₀ ∧ info₀.key = info.key := by
  have hs := h.settled hlt
  by_cases hfill : x ∈ (bookWalk e ev).fills.map Entry.id
  · obtain ⟨f, hf, rfl⟩ := List.mem_map.mp hfill
    obtain ⟨_, _, info₀, hinfo₀, _⟩ := (h.resolved hlt).found f hf
    rw [hs.hit f hf info₀ hinfo₀, afterFill] at hx
    split at hx
    · exact absurd hx (by simp)
    · cases hx
      exact ⟨info₀, hinfo₀, rfl⟩
  · rw [hs.frame x hfill] at hx
    exact ⟨info, hx, rfl⟩

/-- What the walk leaves was there before, under the same id and price. -/
theorem EngineInv.walked_mem (h : EngineInv hist acks e) {x : Entry OrderId Price}
    (hx : x ∈ e.book.flat.own ev.bookSide ++ (bookWalk e ev).rest) :
    ∃ y ∈ e.book.flat.orders, y.id = x.id ∧ y.price = x.price := by
  have hperm := e.book.flat.orders_perm ev.bookSide
  cases List.mem_append.mp hx with
  | inl hown => exact ⟨x, hperm.mem_iff.mpr (List.mem_append_left _ hown), rfl, rfl⟩
  | inr hrest =>
      have hnodup := h.ids_nodup ev.bookSide
      rw [List.map_append, List.nodup_append] at hnodup
      cases walk_rest_mem hnodup.2.1 hrest with
      | inl huntouched =>
          exact ⟨x, hperm.mem_iff.mpr (List.mem_append_right _ huntouched.1), rfl, rfl⟩
      | inr hreduced =>
          obtain ⟨y, hy, k, _, _, _, rfl⟩ := hreduced
          exact ⟨y, hperm.mem_iff.mpr (List.mem_append_right _ hy), rfl, rfl⟩

theorem EngineInv.priced_walk (h : EngineInv hist acks e) :
    Priced hist (e.book.flat.own ev.bookSide ++ (bookWalk e ev).rest) := by
  intro x hx
  obtain ⟨y, hy, hid, hprice⟩ := h.walked_mem hx
  obtain ⟨o, ho, hsub, hpx⟩ := h.priced y hy
  exact ⟨o, ho, hid ▸ hsub, hpx.trans hprice⟩

/-- The quantity of the order that the engine believes is left. -/
def leavesOf (e : MatchingEngineConsumer cap) (ev : SequencedEvent) : Qty :=
  ev.quantity - (settledState e ev).filledOnIncoming

/-- The acks of a new order: one for each trade, and its own. -/
def newOrderAcks (e : MatchingEngineConsumer cap) (ev : SequencedEvent) : List OutboundAck :=
  (settledState e ev).acks
    ++ [incomingAck ev (e.addOrder ev).2 (settledState e ev).filledOnIncoming (leavesOf e ev)]

theorem applyNewOrder_some (h : leavesOf e ev > 0) :
    e.applyNewOrder ev = ({ book := (e.addOrder ev).1
                            byClient := (settledState e ev).byClient.insert (orderKey ev) ev.seqNum
                            resting := (settledState e ev).resting.insert ev.seqNum
                              ⟨ev.sessionId, ev.clientOrderId, leavesOf e ev⟩ },
                          newOrderAcks e ev) := if_pos h

theorem applyNewOrder_all (h : ¬ leavesOf e ev > 0) :
    e.applyNewOrder ev = ({ book := (e.addOrder ev).1
                            byClient := (settledState e ev).byClient
                            resting := (settledState e ev).resting },
                          newOrderAcks e ev) := if_neg h

theorem applyNewOrder_book (e : MatchingEngineConsumer cap) (ev : SequencedEvent) :
    (e.applyNewOrder ev).1.book = (e.addOrder ev).1 := by
  by_cases h : leavesOf e ev > 0
  · rw [applyNewOrder_some h]
  · rw [applyNewOrder_all h]

theorem applyNewOrder_acks (e : MatchingEngineConsumer cap) (ev : SequencedEvent) :
    (e.applyNewOrder ev).2 = newOrderAcks e ev := by
  by_cases h : leavesOf e ev > 0
  · rw [applyNewOrder_some h]
  · rw [applyNewOrder_all h]

/-- The orders that rest once a new order has been through. -/
theorem EngineInv.orders_after (h : EngineInv hist acks e)
    (hlt : ∀ o ∈ hist, o.seqNum < ev.seqNum) :
    (e.addOrder ev).1.flat.orders.Perm
      (if e.book.flat.Rests cap.slots ev.bookSide ev.price.toNat ev.quantity.toNat then
        ⟨ev.seqNum, ev.price.toNat, (bookWalk e ev).left⟩
          :: (e.book.flat.own ev.bookSide ++ (bookWalk e ev).rest)
      else e.book.flat.own ev.bookSide ++ (bookWalk e ev).rest) := by
  rw [addOrder, (addLimitOrder_spec h.book (h.fresh hlt)).2.1]
  split
  · exact Flat.add_orders_of_rests ‹_›
  · exact Flat.add_orders_of_not_rests ‹_›

/-- An order in the book after a new one came in is the new one or was left by the walk. -/
theorem EngineInv.mem_after (h : EngineInv hist acks e)
    (hlt : ∀ o ∈ hist, o.seqNum < ev.seqNum) {x : Entry OrderId Price}
    (hx : x ∈ (e.addOrder ev).1.flat.orders) :
    (x = ⟨ev.seqNum, ev.price.toNat, (bookWalk e ev).left⟩ ∧ 0 < (bookWalk e ev).left)
      ∨ x ∈ e.book.flat.own ev.bookSide ++ (bookWalk e ev).rest := by
  have hx' := (h.orders_after hlt).mem_iff.mp hx
  split at hx'
  · rename_i hrests
    cases List.mem_cons.mp hx' with
    | inl hself => exact Or.inl ⟨hself, hrests.1⟩
    | inr hin => exact Or.inr hin
  · exact Or.inr hx'

/-- `resting_` after a new order: what the loop left, and the order itself if the
engine believes that some of it rests. -/
theorem applyNewOrder_lookup (e : MatchingEngineConsumer cap) {x : OrderId}
    (hx : x ≠ ev.seqNum) :
    (e.applyNewOrder ev).1.resting.lookup x = (settledState e ev).resting.lookup x := by
  by_cases h : leavesOf e ev > 0
  · rw [applyNewOrder_some h]
    exact Finmap.lookup_insert_of_ne _ hx
  · rw [applyNewOrder_all h]

/-- The orders the walk leaves are not the incoming one. -/
theorem EngineInv.walked_ne (h : EngineInv hist acks e)
    (hlt : ∀ o ∈ hist, o.seqNum < ev.seqNum) :
    ∀ x ∈ e.book.flat.own ev.bookSide ++ (bookWalk e ev).rest, x.id ≠ ev.seqNum := by
  intro x hx hid
  obtain ⟨o, ho, hsub, _⟩ := h.priced_walk x hx
  have := hlt o ho
  rw [hsub.2, hid] at this
  exact absurd this (UInt64.lt_irrefl _)

theorem EngineInv.newOrder_ledger (h : EngineInv hist acks e)
    (hseq : Sequenced (hist ++ [ev])) (hnew : ev.type = .newOrder) :
    Ledger (hist ++ [ev]) (acks ++ (e.applyNewOrder ev).2) (e.applyNewOrder ev).1.byClient
      (e.applyNewOrder ev).1.resting := by
  have hledger := (h.settled hseq.lt).ledger
  have hle := (h.quantities hseq.lt).1
  rw [applyNewOrder_acks, newOrderAcks, ← List.append_assoc]
  by_cases hleft : leavesOf e ev > 0
  · rw [applyNewOrder_some hleft]
    exact hledger.submit_some hnew hseq.lt hseq.pos hle hleft
  · rw [applyNewOrder_all hleft]
    exact hledger.submit_all hnew hseq.lt hseq.pos hle hleft

/-- The incoming order is in the book only if the engine has it in `resting_` too. -/
theorem EngineInv.newOrder_agree (h : EngineInv hist acks e)
    (hlt : ∀ o ∈ hist, o.seqNum < ev.seqNum) :
    Agree (e.applyNewOrder ev).1.resting (e.addOrder ev).1.flat.orders := by
  have hold : Agree (e.applyNewOrder ev).1.resting
      (e.book.flat.own ev.bookSide ++ (bookWalk e ev).rest) := by
    intro x hx
    rw [applyNewOrder_lookup e (h.walked_ne hlt x hx)]
    exact h.agree_settled hlt x hx
  intro x hx
  cases h.mem_after hlt hx with
  | inl hself =>
      obtain ⟨rfl, hpos⟩ := hself
      -- it rests, so something was left, which is what the engine tests
      have hleft : leavesOf e ev > 0 := by
        rw [gt_iff_lt, UInt32.lt_iff_toNat_lt, leavesOf, (h.quantities hlt).2]
        exact hpos
      rw [applyNewOrder_some hleft]
      exact ⟨_, Finmap.lookup_insert _, (h.quantities hlt).2⟩
  | inr hin => exact hold x hin

theorem EngineInv.newOrder_priced (h : EngineInv hist acks e)
    (hlt : ∀ o ∈ hist, o.seqNum < ev.seqNum) (hnew : ev.type = .newOrder) :
    Priced (hist ++ [ev]) (e.addOrder ev).1.flat.orders := by
  intro x hx
  cases h.mem_after hlt hx with
  | inl hself =>
      rw [hself.1]
      exact ⟨ev, by simp, ⟨hnew, rfl⟩, rfl⟩
  | inr hin =>
      obtain ⟨o, ho, hrest⟩ := h.priced_walk x hin
      exact ⟨o, List.mem_append_left _ ho, hrest⟩

theorem engineInv_newOrder (h : EngineInv hist acks e) (hseq : Sequenced (hist ++ [ev]))
    (hnew : ev.type = .newOrder) :
    EngineInv (hist ++ [ev]) (acks ++ (e.applyNewOrder ev).2) (e.applyNewOrder ev).1 where
  ledger := h.newOrder_ledger hseq hnew
  book := by
    rw [applyNewOrder_book]
    exact (addLimitOrder_spec h.book (h.fresh hseq.lt)).1
  agree := by
    rw [applyNewOrder_book]
    exact h.newOrder_agree hseq.lt
  priced := by
    rw [applyNewOrder_book]
    exact h.newOrder_priced hseq.lt hnew

/-! ## A cancel -/

theorem applyCancelOrder_found {x : OrderId} (h : e.byClient.lookup (orderKey ev) = some x) :
    e.applyCancelOrder ev = ({ book := (e.book.cancel x).1
                               byClient := e.byClient.erase (orderKey ev)
                               resting := e.resting.erase x },
      [cancelAck ev x (if (e.book.cancel x).2 then .canceled else .rejected)]) := by
  unfold applyCancelOrder
  rw [h]

theorem applyCancelOrder_unknown (h : e.byClient.lookup (orderKey ev) = none) :
    e.applyCancelOrder ev = (e, [cancelAck ev 0 .rejected]) := by
  unfold applyCancelOrder
  rw [h]

theorem mem_cancel_orders {b : OrderBook cap} (hb : BookInv b) {id : OrderId}
    {x : Entry OrderId Price} :
    x ∈ (b.cancel id).1.flat.orders ↔ x ∈ b.flat.orders ∧ x.id ≠ id := by
  rw [(cancel_spec id hb).2.1, Flat.cancel_orders]
  simp [remove]

theorem engineInv_cancelOrder (h : EngineInv hist acks e) (hseq : Sequenced (hist ++ [ev])) :
    EngineInv (hist ++ [ev]) (acks ++ (e.applyCancelOrder ev).2) (e.applyCancelOrder ev).1 := by
  have hledger : Ledger (hist ++ [ev]) acks e.byClient e.resting :=
    h.ledger.mono (fun o ho => List.mem_append_left _ ho)
  have hpriced : Priced (hist ++ [ev]) e.book.flat.orders := by
    intro x hx
    obtain ⟨o, ho, hrest⟩ := h.priced x hx
    exact ⟨o, List.mem_append_left _ ho, hrest⟩
  cases hk : e.byClient.lookup (orderKey ev) with
  | none =>
      rw [applyCancelOrder_unknown hk]
      exact ⟨hledger.cancel_unknown hseq.1, h.book, h.agree, hpriced⟩
  | some x =>
      rw [applyCancelOrder_found hk]
      refine ⟨hledger.cancel_found ?_ hk, (cancel_spec x h.book).1, ?_, ?_⟩
      · split <;> rfl
      · intro y hy
        obtain ⟨hy, hyx⟩ := (mem_cancel_orders h.book).mp hy
        obtain ⟨info, hinfo, hqty⟩ := h.agree y hy
        exact ⟨info, by rw [← hinfo]; exact Finmap.lookup_erase_ne hyx, hqty⟩
      · intro y hy
        exact hpriced y ((mem_cancel_orders h.book).mp hy).1

/-! ## What an event can do to the owners -/

/-- An order in `resting_` was there under the same name, or is the event's own. -/
theorem EngineInv.apply_owner (h : EngineInv hist acks e)
    (hlt : ∀ o ∈ hist, o.seqNum < ev.seqNum) {x : OrderId} {info : RestingOrderInfo}
    (hx : (e.apply ev).1.resting.lookup x = some info) :
    (∃ info₀, e.resting.lookup x = some info₀ ∧ info₀.key = info.key)
      ∨ (Submits ev x ∧ info.key = orderKey ev) := by
  unfold MatchingEngineConsumer.apply at hx
  cases htype : ev.type with
  | newOrder =>
      rw [htype] at hx
      dsimp only at hx
      by_cases hself : x = ev.seqNum
      · -- the id is the event's own, so its entry is the one just made
        subst hself
        by_cases hleft : leavesOf e ev > 0
        · rw [applyNewOrder_some hleft] at hx
          dsimp only at hx
          rw [Finmap.lookup_insert, Option.some.injEq] at hx
          exact Or.inr ⟨⟨htype, rfl⟩, by rw [← hx]; rfl⟩
        · rw [applyNewOrder_all hleft] at hx
          exact Or.inl (h.settled_key hlt hx)
      · rw [applyNewOrder_lookup e hself] at hx
        exact Or.inl (h.settled_key hlt hx)
  | cancelOrder =>
      rw [htype] at hx
      dsimp only at hx
      cases hk : e.byClient.lookup (orderKey ev) with
      | none =>
          rw [applyCancelOrder_unknown hk] at hx
          exact Or.inl ⟨info, hx, rfl⟩
      | some z =>
          rw [applyCancelOrder_found hk] at hx
          by_cases hxz : x = z
          · subst hxz
            dsimp only at hx
            rw [Finmap.lookup_erase] at hx
            exact absurd hx (by simp)
          · exact Or.inl ⟨info, (Finmap.lookup_erase_ne hxz).symm.trans hx, rfl⟩
  | marketDataOrder => rw [htype] at hx; exact Or.inl ⟨info, hx, rfl⟩
  | admin => rw [htype] at hx; exact Or.inl ⟨info, hx, rfl⟩

/-- What the client that gets an ack calls the order it is about. -/
def ackKey (a : OutboundAck) : OrderKey := ⟨a.sessionId, a.clientOrderId⟩

/-- An ack of a new order goes to the owner of a resting order it names, or to the
session of the event and names the event's own order. -/
theorem EngineInv.newOrder_ack (h : EngineInv hist acks e)
    (hlt : ∀ o ∈ hist, o.seqNum < ev.seqNum) {a : OutboundAck}
    (ha : a ∈ (e.applyNewOrder ev).2) :
    (∃ info, e.resting.lookup a.exchangeOrderId = some info ∧ info.key = ackKey a)
      ∨ (a.exchangeOrderId = ev.seqNum ∧ orderKey ev = ackKey a) := by
  rw [applyNewOrder_acks, newOrderAcks] at ha
  cases List.mem_append.mp ha with
  | inl hfill =>
      obtain ⟨new, hnew, hrep⟩ := (h.settled hlt).reports
      rw [hnew] at hfill
      obtain ⟨f, _, info, hinfo, rfl⟩ := exists_of_forall₂_mem hrep hfill
      exact Or.inl ⟨info, hinfo, rfl⟩
  | inr hown =>
      rw [List.mem_singleton.mp hown]
      exact Or.inr ⟨rfl, rfl⟩

/-- No ack of a new order says `Canceled`. -/
theorem EngineInv.newOrder_ack_status (h : EngineInv hist acks e)
    (hlt : ∀ o ∈ hist, o.seqNum < ev.seqNum) {a : OutboundAck}
    (ha : a ∈ (e.applyNewOrder ev).2) : a.status ≠ .canceled := by
  rw [applyNewOrder_acks, newOrderAcks] at ha
  cases List.mem_append.mp ha with
  | inl hfill =>
      obtain ⟨new, hnew, hrep⟩ := (h.settled hlt).reports
      rw [hnew] at hfill
      obtain ⟨f, _, info, _, rfl⟩ := exists_of_forall₂_mem hrep hfill
      unfold fillAck
      dsimp only
      split <;> decide
  | inr hown =>
      rw [List.mem_singleton.mp hown]
      unfold incomingAck
      dsimp only
      split
      · decide
      · split <;> decide

/-- The ack of a cancel goes back to its session, and says something else than `Rejected`
only of an order under the name the cancel gave. -/
theorem EngineInv.cancelOrder_ack (h : EngineInv hist acks e) {a : OutboundAck}
    (ha : a ∈ (e.applyCancelOrder ev).2) :
    orderKey ev = ackKey a ∧ (a.status ≠ .rejected →
      ∃ info, e.resting.lookup a.exchangeOrderId = some info ∧ info.key = ackKey a) := by
  cases hk : e.byClient.lookup (orderKey ev) with
  | none =>
      rw [applyCancelOrder_unknown hk] at ha
      rw [List.mem_singleton.mp ha]
      exact ⟨rfl, fun hs => absurd rfl hs⟩
  | some x =>
      rw [applyCancelOrder_found hk] at ha
      rw [List.mem_singleton.mp ha]
      exact ⟨rfl, fun _ => h.ledger.keyed _ x hk⟩

/-- **What an ack of an event can be about**: a resting order, to its owner; the event's own
order; or a cancel that is rejected. -/
theorem EngineInv.apply_ack (h : EngineInv hist acks e)
    (hlt : ∀ o ∈ hist, o.seqNum < ev.seqNum) {a : OutboundAck} (ha : a ∈ (e.apply ev).2) :
    (∃ info, e.resting.lookup a.exchangeOrderId = some info ∧ info.key = ackKey a)
      ∨ (Submits ev a.exchangeOrderId ∧ orderKey ev = ackKey a)
      ∨ (ev.type = .cancelOrder ∧ orderKey ev = ackKey a ∧ a.status = .rejected) := by
  unfold MatchingEngineConsumer.apply at ha
  cases htype : ev.type with
  | newOrder =>
      rw [htype] at ha
      rcases h.newOrder_ack hlt ha with hfill | ⟨hid, hkey⟩
      · exact Or.inl hfill
      · exact Or.inr (Or.inl ⟨⟨htype, hid.symm⟩, hkey⟩)
  | cancelOrder =>
      rw [htype] at ha
      obtain ⟨hkey, hresting⟩ := h.cancelOrder_ack ha
      by_cases hrejected : a.status = .rejected
      · exact Or.inr (Or.inr ⟨rfl, hkey, hrejected⟩)
      · exact Or.inl (hresting hrejected)
  | marketDataOrder => rw [htype] at ha; exact absurd ha (by simp)
  | admin => rw [htype] at ha; exact absurd ha (by simp)

/-- A cancel has one answer. -/
theorem apply_cancel_singleton (e : MatchingEngineConsumer cap) (htype : ev.type = .cancelOrder) :
    ∃ a, (e.apply ev).2 = [a] := by
  unfold MatchingEngineConsumer.apply
  rw [htype]
  dsimp only
  cases hk : e.byClient.lookup (orderKey ev) with
  | none => rw [applyCancelOrder_unknown hk]; exact ⟨_, rfl⟩
  | some x => rw [applyCancelOrder_found hk]; exact ⟨_, rfl⟩

/-! ## Every run -/

theorem engineInv_step (h : EngineInv hist acks e) (hseq : Sequenced (hist ++ [ev])) :
    EngineInv (hist ++ [ev]) (acks ++ (e.apply ev).2) (e.apply ev).1 := by
  -- market data and admin events pass through without an ack
  have hidle : EngineInv (hist ++ [ev]) (acks ++ []) e := by
    rw [List.append_nil]
    refine ⟨h.ledger.mono (fun o ho => List.mem_append_left _ ho), h.book, h.agree, ?_⟩
    intro x hx
    obtain ⟨o, ho, hrest⟩ := h.priced x hx
    exact ⟨o, List.mem_append_left _ ho, hrest⟩
  unfold MatchingEngineConsumer.apply
  cases htype : ev.type with
  | newOrder => exact engineInv_newOrder h hseq htype
  | cancelOrder => exact engineInv_cancelOrder h hseq
  | marketDataOrder => exact hidle
  | admin => exact hidle

theorem Sequenced.of_prefix {evs evs' : List SequencedEvent} (h : Sequenced evs)
    (hp : evs' <+: evs) : Sequenced evs' :=
  ⟨fun ev hev => h.1 ev (hp.subset hev), h.2.sublist hp.sublist⟩

/-- **The invariant holds after every run.** -/
theorem engineInv_replay {evs : List SequencedEvent} (hseq : Sequenced evs) :
    EngineInv evs ((init cap).replay evs).2 ((init cap).replay evs).1 := by
  -- by induction on the events seen so far, each a later number than those before it
  refine Mealy.run_induction engineInv_init ?_
  intro is i hp h
  exact engineInv_step h (hseq.of_prefix hp)

/-- Every new order is answered with an ack of its own. -/
theorem newOrder_acked {evs : List SequencedEvent} (hev : ev ∈ evs) (hnew : ev.type = .newOrder) :
    ∃ a ∈ ((init cap).replay evs).2, a.exchangeOrderId = ev.seqNum := by
  have hown : ∀ e : MatchingEngineConsumer cap,
      ∃ a ∈ (e.apply ev).2, a.exchangeOrderId = ev.seqNum := by
    intro e
    rw [MatchingEngineConsumer.apply, hnew]
    dsimp only
    rw [applyNewOrder_acks]
    exact ⟨_, List.mem_append_right _ List.mem_cons_self, rfl⟩
  obtain ⟨before, after, rfl⟩ := List.append_of_mem hev
  obtain ⟨a, ha, hid⟩ := hown (Mealy.run MatchingEngineConsumer.apply (init cap) before).1
  refine ⟨a, ?_, hid⟩
  rw [replay, Mealy.run_append, Mealy.run_cons]
  exact List.mem_append_right _ (List.mem_append_left _ ha)

end HftLob.Engine

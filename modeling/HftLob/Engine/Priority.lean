import HftLob.Book.Refine
import HftLob.Engine.Reports
import HftLob.Lib.Priority

/-!
# Price-time priority over whole runs

The engine gives an order the sequence number of its event as its id, so within a price
level the ids increase in order of arrival, whatever was filled or canceled in between. A
new order trades with the best of them first.

The prices in the acks follow: no order is told of a fill beyond its limit, and the one
price in the ack of an incoming order is the worst it traded at.
-/

namespace HftLob.Engine

open HftLob.Book HftLob.Lib HftLob.Lib.PriceTime MatchingEngineConsumer

variable {cap : PoolCapacity} {hist : List SequencedEvent} {acks : List OutboundAck}
  {e : MatchingEngineConsumer cap} {ev : SequencedEvent}

/-! ## The queues -/

/-- Both sides are in priority, and an order is on the side, and at the price, of the event
that submitted it. -/
structure Queued (hist : List SequencedEvent) (f : Flat) : Prop where
  inPriority : ∀ side, InPriority (Flat.better side) (· < ·) (f.own side)
  submitted : ∀ side, ∀ x ∈ f.own side,
    ∃ o ∈ hist, Submits o x.id ∧ o.bookSide = side ∧ (o.price.toNat : Price) = x.price

theorem queued_empty : Queued [] Flat.empty where
  inPriority side := by cases side <;> exact List.Pairwise.nil
  submitted side := by cases side <;> exact fun x hx => absurd hx (by simp [Flat.own, Flat.empty])

theorem Queued.mono {f : Flat} (h : Queued hist f) (ev : SequencedEvent) :
    Queued (hist ++ [ev]) f where
  inPriority := h.inPriority
  submitted side x hx := by
    obtain ⟨o, ho, hsub⟩ := h.submitted side x hx
    exact ⟨o, List.mem_append_left _ ho, hsub⟩

theorem Queued.cancel {f : Flat} (h : Queued hist f) (id : OrderId) :
    Queued hist (f.cancel id).1 where
  inPriority side := by
    rw [Flat.own_cancel]
    exact (h.inPriority side).remove id
  submitted side x hx := by
    rw [Flat.own_cancel] at hx
    exact h.submitted side x (List.mem_of_mem_filter hx)

/-- A new order has the largest number so far. -/
theorem Queued.add {f : Flat} (h : Queued hist f) (capacity : Nat) (hnew : ev.type = .newOrder)
    (hlt : ∀ o ∈ hist, o.seqNum < ev.seqNum) :
    Queued (hist ++ [ev])
      (f.add capacity ev.seqNum ev.bookSide ev.price.toNat ev.quantity.toNat).1 := by
  have hold := h.mono ev
  have hlast : ∀ x ∈ f.own ev.bookSide, x.id < ev.seqNum := by
    intro x hx
    obtain ⟨o, ho, hsub, _⟩ := h.submitted ev.bookSide x hx
    exact hsub.2 ▸ hlt o ho
  have hown := Flat.add_own capacity f ev.seqNum ev.bookSide ev.price.toNat ev.quantity.toNat
  have hopp := Flat.add_opposite capacity f ev.seqNum ev.bookSide ev.price.toNat ev.quantity.toNat
  constructor
  · intro side
    by_cases hside : side = ev.bookSide
    · subst hside
      rw [hown]
      split
      · exact (h.inPriority _).insert hlast
      · exact h.inPriority _
    · rw [Flat.own_of_ne hside, hopp]
      refine InPriority.walk_rest ?_ _ _
      rw [← Flat.own_of_ne hside]
      exact h.inPriority side
  · intro side x hx
    by_cases hside : side = ev.bookSide
    · subst hside
      rw [hown] at hx
      split at hx
      · rcases List.mem_cons.mp ((insert_perm _ _).mem_iff.mp hx) with rfl | hx
        · exact ⟨ev, by simp, ⟨hnew, rfl⟩, rfl, rfl⟩
        · exact hold.submitted _ x hx
      · exact hold.submitted _ x hx
    · rw [Flat.own_of_ne hside, hopp] at hx
      -- the walk leaves keys that were there
      have hkey : (x.id, x.price) ∈ (f.own side).map fun y => (y.id, y.price) := by
        rw [Flat.own_of_ne hside]
        exact (walk_rest_keys _ _ _).subset (List.mem_map_of_mem hx)
      obtain ⟨y, hy, hyx⟩ := List.mem_map.mp hkey
      rw [Prod.mk.injEq] at hyx
      obtain ⟨o, ho, hsub, hoside, hprice⟩ := hold.submitted side y hy
      exact ⟨o, ho, hyx.1 ▸ hsub, hoside, hprice.trans hyx.2⟩

theorem queued_step (h : EngineInv hist acks e) (hq : Queued hist e.book.flat)
    (hseq : Sequenced (hist ++ [ev])) : Queued (hist ++ [ev]) (e.apply ev).1.book.flat := by
  unfold MatchingEngineConsumer.apply
  cases htype : ev.type with
  | newOrder =>
      dsimp only
      rw [applyNewOrder_book, addOrder, (addLimitOrder_spec h.book (h.fresh hseq.lt)).2.1]
      exact hq.add _ htype hseq.lt
  | cancelOrder =>
      dsimp only
      cases hk : e.byClient.lookup (orderKey ev) with
      | none =>
          rw [applyCancelOrder_unknown hk]
          exact hq.mono ev
      | some x =>
          rw [applyCancelOrder_found hk]
          dsimp only
          rw [(cancel_spec x h.book).2.1]
          exact (hq.cancel x).mono ev
  | marketDataOrder => exact hq.mono ev
  | admin => exact hq.mono ev

theorem queued_replay {evs : List SequencedEvent} (hseq : Sequenced evs) :
    Queued evs ((init cap).replay evs).1.book.flat := by
  have hboth : EngineInv evs ((init cap).replay evs).2 ((init cap).replay evs).1
      ∧ Queued evs ((init cap).replay evs).1.book.flat := by
    refine Mealy.run_induction
      (P := fun is os s => EngineInv is os s ∧ Queued is s.book.flat)
      ⟨engineInv_init, queued_empty⟩ ?_
    rintro is i hp ⟨h, hq⟩
    exact ⟨engineInv_step h (hseq.of_prefix hp), queued_step h hq (hseq.of_prefix hp)⟩
  exact hboth.2

/-! ## Who is filled first -/

/-- The first order has the better claim: its limit is better, or as good and it is earlier. -/
def Outranks (o o' : SequencedEvent) : Prop :=
  Flat.better o.bookSide o.price.toNat o'.price.toNat ∨ (o.price = o'.price ∧ o.seqNum < o'.seqNum)

/-- The entry of a resting order is on its side, at its limit. -/
theorem Queued.entry {f : Flat} (h : Queued hist f) (hseq : Sequenced hist) {o : SequencedEvent}
    (ho : o ∈ hist) (hid : o.seqNum ∈ f.ids) :
    ∃ x ∈ f.own o.bookSide, x.id = o.seqNum ∧ x.price = o.price.toNat := by
  have hside : ∃ side, o.seqNum ∈ (f.own side).map Entry.id := by
    rcases (Flat.mem_ids_side .buy).mp hid with hin | hin
    · exact ⟨.buy, hin⟩
    · exact ⟨.sell, hin⟩
  obtain ⟨side, hin⟩ := hside
  obtain ⟨x, hx, hxid⟩ := List.mem_map.mp hin
  obtain ⟨o', ho', hsub, hside, hprice⟩ := h.submitted side x hx
  obtain rfl : o' = o := hseq.unique ho' ho (hsub.2.trans hxid)
  exact ⟨x, hside ▸ hx, hxid, hprice.symm⟩

/-- Fills and acks of an event go in step: what came before an ack is of the fills before. -/
theorem forall₂_split {α β : Type} {R : α → β → Prop} {l : List α} {before after : List β} {b : β}
    (h : List.Forall₂ R l (before ++ b :: after)) :
    ∃ front a back, l = front ++ a :: back ∧ List.Forall₂ R front before ∧ R a b := by
  have hfront := List.forall₂_take_append l before (b :: after) h
  have hback := List.forall₂_drop_append l before (b :: after) h
  obtain ⟨a, back, hab, _, hdrop⟩ := List.forall₂_cons_right_iff.mp hback
  refine ⟨l.take before.length, a, back, ?_, hfront, hab⟩
  rw [← hdrop, List.take_append_drop]

theorem opposite_eq_own (f : Flat) (side : Side) : ∃ side', f.opposite side = f.own side' := by
  cases side with
  | buy => exact ⟨.sell, rfl⟩
  | sell => exact ⟨.buy, rfl⟩

/-- An order filled whole is acked so. -/
theorem fillAck_whole {x : Entry OrderId Price} {info : RestingOrderInfo}
    (hqty : info.remainingQty.toNat = x.qty) :
    (fillAck x.id info x.price (UInt32.ofNat x.qty)).status = .filled
      ∧ (fillAck x.id info x.price (UInt32.ofNat x.qty)).leavesQuantity = 0 := by
  have hzero : info.remainingQty - UInt32.ofNat x.qty = 0 := by
    rw [← hqty, UInt32.ofNat_toNat, UInt32.sub_self]
  exact ⟨if_pos hzero, hzero⟩

/-- **A fill of a resting order comes after the fill of everything that outranks it.** -/
theorem EngineInv.filled_first (h : EngineInv hist acks e) (hq : Queued hist e.book.flat)
    (hseq : Sequenced (hist ++ [ev])) {o o' : SequencedEvent} (ho : o ∈ hist) (ho' : o' ∈ hist)
    (hside : o.bookSide = o'.bookSide) (hrank : Outranks o o') (hrests : o.seqNum ∈ e.book.flat.ids)
    {before after : List OutboundAck} {a : OutboundAck}
    (hacks : (settledState e ev).acks = before ++ a :: after)
    (hfill : a.exchangeOrderId = o'.seqNum) :
    ∃ b ∈ before, b.exchangeOrderId = o.seqNum ∧ b.status = .filled ∧ b.leavesQuantity = 0 := by
  obtain ⟨x, hx, hxid, hxprice⟩ := hq.entry hseq.init ho hrests
  obtain ⟨new, hnew, hrep⟩ := (h.settled hseq.lt).reports
  have hnew' : new = before ++ a :: after := by
    rw [← hacks, hnew]
    rfl
  rw [hnew'] at hrep
  obtain ⟨front, f, back, hfills, hfront, info, _, rfl⟩ := forall₂_split hrep
  -- the order that was hit is on the other side of the book, and so is the one that outranks it
  obtain ⟨y, hy, hyid, hyprice, _⟩ := walk_fill_mem (hfills ▸ by simp : f ∈ (bookWalk e ev).fills)
  obtain ⟨side, hopp⟩ := opposite_eq_own e.book.flat ev.bookSide
  rw [hopp] at hy
  obtain ⟨o'', ho'', hsub, hyside, hylimit⟩ := hq.submitted side y hy
  obtain rfl : o'' = o' := hseq.init.unique ho'' ho' (hsub.2.trans (hyid.trans hfill))
  have hahead : Ahead (Flat.better side) (· < ·) x f := by
    rw [Ahead, hxprice, ← hyprice, ← hylimit, hxid, show f.id = o''.seqNum from hfill]
    rcases hrank with hbetter | ⟨hsame, hearlier⟩
    · exact .inl (hyside ▸ hside ▸ hbetter)
    · exact .inr ⟨by rw [hsame], hearlier⟩
  rw [hside, hyside] at hx
  have hwalk : (walk (Flat.crosses ev.bookSide ev.price.toNat) ev.quantity.toNat
      (e.book.flat.own side)).fills = front ++ f :: back := hopp ▸ hfills
  have hmem := (hq.inPriority side).filled_before hx hwalk hahead
  obtain ⟨b, hb, info', hinfo', rfl⟩ := exists_of_forall₂_mem hfront.flip hmem
  have horder : x ∈ e.book.flat.orders :=
    (e.book.flat.orders_perm side).mem_iff.mpr (List.mem_append_left _ hx)
  obtain ⟨info'', hinfo'', hqty⟩ := h.agree x horder
  obtain rfl : info' = info'' := Option.some.inj (hinfo'.symm.trans hinfo'')
  exact ⟨_, hb, hxid, fillAck_whole hqty⟩

/-- **No order is filled past one that outranks it.** Whenever an event fills a resting
order, every order of the same side that rests with a better claim is filled whole by the
same event, is told so first, and has left the book. -/
theorem fills_respect_priority (cap : PoolCapacity) (evs : List SequencedEvent)
    (ev o o' : SequencedEvent) (hseq : Sequenced (evs ++ [ev])) (hnew : ev.type = .newOrder)
    (ho : o ∈ evs) (ho' : o' ∈ evs) (hside : o.bookSide = o'.bookSide) (hrank : Outranks o o')
    (hrests : o.seqNum ∈ ((init cap).replay evs).1.book.ids) (before after : List OutboundAck)
    (a : OutboundAck) (hacks : (((init cap).replay evs).1.apply ev).2 = before ++ a :: after)
    (hfill : a.exchangeOrderId = o'.seqNum) :
    (∃ b ∈ before, b.exchangeOrderId = o.seqNum ∧ b.status = .filled ∧ b.leavesQuantity = 0)
      ∧ o.seqNum ∉ ((init cap).replay (evs ++ [ev])).1.book.ids := by
  have h : EngineInv evs ((init cap).replay evs).2 ((init cap).replay evs).1 :=
    engineInv_replay hseq.init
  have hnext : EngineInv (evs ++ [ev]) ((init cap).replay (evs ++ [ev])).2
      ((init cap).replay (evs ++ [ev])).1 := engineInv_replay hseq
  have hfirst : ∃ b ∈ before, b.exchangeOrderId = o.seqNum ∧ b.status = .filled
      ∧ b.leavesQuantity = 0 := by
    have hall := hacks
    rw [MatchingEngineConsumer.apply, hnew] at hall
    dsimp only at hall
    rw [applyNewOrder_acks, newOrderAcks] at hall
    -- the last ack is the incoming order's own
    rcases List.eq_nil_or_concat after with rfl | ⟨after, last, rfl⟩
    · obtain ⟨_, hlast⟩ := List.append_inj' hall rfl
      have hown : a.exchangeOrderId = ev.seqNum := by
        rw [← List.singleton_inj.mp hlast]
        rfl
      exact absurd (hseq.lt o' ho') (by rw [← hfill, hown]; exact UInt64.lt_irrefl _)
    · rw [List.concat_eq_append, ← List.cons_append, ← List.append_assoc] at hall
      refine h.filled_first (queued_replay hseq.init) hseq ho ho' hside hrank ?_
        (List.append_inj' hall rfl).1 hfill
      rw [OrderBook.flat_ids]
      exact hrests
  refine ⟨hfirst, fun hin => ?_⟩
  obtain ⟨b, hb, hbid, hfilled, _⟩ := hfirst
  have hmem : b ∈ ((init cap).replay (evs ++ [ev])).2 := by
    rw [replay_concat, hacks]
    exact List.mem_append_right _ (List.mem_append_left _ hb)
  have hgone := hnext.ledger.closed b hmem (by rw [hfilled]; rfl)
  rw [OrderBook.ids, ← OrderBook.flat_ids] at hin
  obtain ⟨x, hx, hxid⟩ := List.mem_map.mp hin
  obtain ⟨info, hinfo, _⟩ := hnext.agree x hx
  rw [hxid, ← hbid, hgone] at hinfo
  exact absurd hinfo (by simp)

/-- Two bids at one price and a sell through the first into the second. -/
theorem fills_respect_priority_same_price :
    let o : SequencedEvent :=
      { seqNum := 1, sessionId := 1, clientOrderId := 7, price := 100, quantity := 5 }
    let o' : SequencedEvent :=
      { seqNum := 2, sessionId := 2, clientOrderId := 7, price := 100, quantity := 5 }
    let ev : SequencedEvent :=
      { seqNum := 3, sessionId := 3, clientOrderId := 1, side := 1, price := 99, quantity := 8 }
    o.seqNum ∉ ((init ⟨4, by decide⟩).replay [o, o', ev]).1.book.ids := by
  intro o o' ev
  have hacks : ((((init ⟨4, by decide⟩).replay [o, o']).1).apply ev).2
      = [⟨1, 7, 1, .filled, 100, 5, 0⟩] ++ ⟨2, 7, 2, .partialFill, 100, 3, 2⟩
        :: [⟨3, 1, 3, .filled, 100, 8, 0⟩] := by decide +kernel
  exact (fills_respect_priority ⟨4, by decide⟩ [o, o'] ev o o' (by decide) rfl (by simp) (by simp)
    rfl (.inr ⟨rfl, by decide⟩) (by decide +kernel) _ _ _ hacks rfl).2

/-! ## At what price -/

theorem crosses_self (side : Side) (price : Price) : Flat.crosses side price price := by
  cases side <;> simp [Flat.crosses]

/-- The price of a fill is the limit of the order that was hit, and fits a `uint32_t`. -/
theorem EngineInv.fill_price (h : EngineInv hist acks e) {f : Entry OrderId Price}
    (hf : f ∈ (bookWalk e ev).fills) :
    ∃ o ∈ hist, Submits o f.id ∧ (o.price.toNat : Price) = f.price
      ∧ UInt32.ofInt f.price = o.price := by
  obtain ⟨x, hx, hid, hprice, _⟩ := walk_fill_mem hf
  obtain ⟨o, ho, hsub, hlimit⟩ := h.priced x
    ((e.book.flat.orders_perm ev.bookSide).mem_iff.mpr (List.mem_append_right _ hx))
  have hf' : (o.price.toNat : Price) = f.price := hlimit.trans hprice
  exact ⟨o, ho, hid ▸ hsub, hf', by rw [← hf', ofInt_toNat]⟩

/-- What the ack of the incoming order says of its price: that of the last fill. -/
theorem EngineInv.incoming_price (h : EngineInv hist acks e)
    (hlt : ∀ o ∈ hist, o.seqNum < ev.seqNum) {front : List (Entry OrderId Price)}
    {f : Entry OrderId Price} (hfills : (bookWalk e ev).fills = front ++ [f])
    (filled leaves : Qty) :
    ((incomingAck ev (e.addOrder ev).2 filled leaves).fillPrice.toNat : Price) = f.price := by
  obtain ⟨o, _, _, hprice, hfits⟩ := h.fill_price (hfills ▸ by simp : f ∈ (bookWalk e ev).fills)
  have hlast : (e.addOrder ev).2.getLast?
      = some (tradeOf ev.seqNum ev.bookSide ev.sequenceTsNs f) := by
    rw [h.addOrder_trades hlt, hfills]
    simp
  have hack : (incomingAck ev (e.addOrder ev).2 filled leaves).fillPrice
      = UInt32.ofInt f.price := by
    rw [incomingAck, hlast]
    rfl
  rw [hack, hfits, hprice]

/-- The fills behind which nothing else comes are at the worst price. -/
theorem Queued.last_worst {f : Flat} (h : Queued hist f) {side : Side} {price : Price} {qty : Nat}
    {front : List (Entry OrderId Price)} {last : Entry OrderId Price}
    (hfills : (f.addWalk side price qty).fills = front ++ [last]) :
    ∀ x ∈ front ++ [last], Flat.crosses side last.price x.price := by
  intro x hx
  rcases List.mem_append.mp hx with hx | hx
  · cases side with
    | buy =>
        have hin := (h.inPriority .sell).walk_fills (Flat.crosses .buy price) qty
        rw [show (walk (Flat.crosses .buy price) qty (f.own .sell)).fills = _ from hfills] at hin
        rcases (List.pairwise_append.mp hin).2.2 x hx last (by simp) with hlt | ⟨heq, _⟩
        · exact decide_eq_true (le_of_lt hlt)
        · exact decide_eq_true (le_of_eq heq)
    | sell =>
        have hin := (h.inPriority .buy).walk_fills (Flat.crosses .sell price) qty
        rw [show (walk (Flat.crosses .sell price) qty (f.own .buy)).fills = _ from hfills] at hin
        rcases (List.pairwise_append.mp hin).2.2 x hx last (by simp) with hlt | ⟨heq, _⟩
        · exact decide_eq_true (le_of_lt hlt)
        · exact decide_eq_true (le_of_eq heq.symm)
  · rw [List.mem_singleton.mp hx]
    exact crosses_self side last.price

/-- **The ack of an incoming order reports the worst price it traded at**: the price of one of
its trades, none better than any other, and within its limit. -/
theorem incoming_ack_reports_worst_price (cap : PoolCapacity) (evs : List SequencedEvent)
    (ev : SequencedEvent) (hseq : Sequenced (evs ++ [ev])) (hnew : ev.type = .newOrder)
    (htraded : (((init cap).replay evs).1.addOrder ev).2 ≠ []) :
    ∃ fills own, (((init cap).replay evs).1.apply ev).2 = fills ++ [own]
      ∧ own.exchangeOrderId = ev.seqNum
      ∧ (∃ t ∈ (((init cap).replay evs).1.addOrder ev).2, t.price = own.fillPrice.toNat)
      ∧ (∀ t ∈ (((init cap).replay evs).1.addOrder ev).2,
          Flat.crosses ev.bookSide own.fillPrice.toNat t.price)
      ∧ Flat.crosses ev.bookSide ev.price.toNat own.fillPrice.toNat := by
  have h : EngineInv evs ((init cap).replay evs).2 ((init cap).replay evs).1 :=
    engineInv_replay hseq.init
  have hacks : (((init cap).replay evs).1.apply ev).2
      = newOrderAcks ((init cap).replay evs).1 ev := by
    rw [MatchingEngineConsumer.apply, hnew]
    exact applyNewOrder_acks _ _
  have htrades := h.addOrder_trades hseq.lt
  rcases List.eq_nil_or_concat (bookWalk ((init cap).replay evs).1 ev).fills with
    hnil | ⟨front, last, hfills⟩
  · exact absurd (by rw [htrades, hnil]; rfl) htraded
  · rw [List.concat_eq_append] at hfills
    have hlast : last ∈ (bookWalk ((init cap).replay evs).1 ev).fills := hfills ▸ by simp
    refine ⟨_, _, hacks, rfl, ?_⟩
    rw [h.incoming_price hseq.lt hfills, htrades]
    refine ⟨⟨_, List.mem_map_of_mem hlast, rfl⟩, fun t ht => ?_, walk_fills_cross hlast⟩
    obtain ⟨f, hf, rfl⟩ := List.mem_map.mp ht
    exact (queued_replay hseq.init).last_worst hfills f (hfills ▸ hf)

/-- A buy through two asks: the ack says 102, though some of it traded at 101. -/
theorem incoming_ack_reports_worst_price_two_levels :
    let evs : List SequencedEvent :=
      [{ seqNum := 1, sessionId := 1, clientOrderId := 7, side := 1, price := 102, quantity := 5 },
       { seqNum := 2, sessionId := 1, clientOrderId := 8, side := 1, price := 101, quantity := 5 }]
    let ev : SequencedEvent := { seqNum := 3, sessionId := 2, price := 105, quantity := 8 }
    (((init ⟨4, by decide⟩).replay evs).1.addOrder ev).2 = [⟨3, 2, 101, 5, 0⟩, ⟨3, 1, 102, 3, 0⟩]
      ∧ ∃ fills own, (((init ⟨4, by decide⟩).replay evs).1.apply ev).2 = fills ++ [own]
        ∧ own.exchangeOrderId = ev.seqNum
        ∧ (∃ t ∈ (((init ⟨4, by decide⟩).replay evs).1.addOrder ev).2,
            t.price = own.fillPrice.toNat)
        ∧ (∀ t ∈ (((init ⟨4, by decide⟩).replay evs).1.addOrder ev).2,
            Flat.crosses ev.bookSide own.fillPrice.toNat t.price)
        ∧ Flat.crosses ev.bookSide ev.price.toNat own.fillPrice.toNat := by
  intro evs ev
  have htrades : (((init ⟨4, by decide⟩).replay evs).1.addOrder ev).2
      = [⟨3, 2, 101, 5, 0⟩, ⟨3, 1, 102, 3, 0⟩] := by decide +kernel
  exact ⟨htrades, incoming_ack_reports_worst_price ⟨4, by decide⟩ evs ev (by decide) rfl
    (by rw [htrades]; simp)⟩

/-- The acks of one event, of orders that traded. -/
theorem EngineInv.apply_within (h : EngineInv hist acks e) (hseq : Sequenced (hist ++ [ev]))
    {a : OutboundAck} (ha : a ∈ (e.apply ev).2) (hqty : 0 < a.fillQuantity) :
    ∃ o ∈ hist ++ [ev], Submits o a.exchangeOrderId
      ∧ Flat.crosses o.bookSide o.price.toNat a.fillPrice.toNat := by
  unfold MatchingEngineConsumer.apply at ha
  cases htype : ev.type with
  | newOrder =>
      rw [htype] at ha
      dsimp only at ha
      rw [applyNewOrder_acks, newOrderAcks] at ha
      rcases List.mem_append.mp ha with hfill | hown
      · -- the owner of a resting order gets its limit
        obtain ⟨new, hnew, hrep⟩ := (h.settled hseq.lt).reports
        rw [hnew] at hfill
        obtain ⟨f, hf, info, _, rfl⟩ := exists_of_forall₂_mem hrep hfill
        obtain ⟨o, ho, hsub, hprice, hfits⟩ := h.fill_price hf
        refine ⟨o, List.mem_append_left _ ho, hsub, ?_⟩
        show Flat.crosses o.bookSide o.price.toNat (UInt32.ofInt f.price).toNat
        rw [hfits]
        exact crosses_self _ _
      · -- the incoming order gets the price of its last fill
        rw [List.mem_singleton] at hown
        refine ⟨ev, by simp, ⟨htype, by rw [hown]; rfl⟩, ?_⟩
        rcases List.eq_nil_or_concat (bookWalk e ev).fills with hnil | ⟨front, last, hfills⟩
        · have hzero := (h.settled hseq.lt).filled
          rw [hnil] at hzero
          have hpos : 0 < (settledState e ev).filledOnIncoming.toNat := by
            rw [hown] at hqty
            exact UInt32.lt_iff_toNat_lt.mp hqty
          have hstart : (startState e).filledOnIncoming.toNat = 0 := rfl
          simp only [List.map_nil, List.sum_nil, hstart] at hzero
          omega
        · rw [List.concat_eq_append] at hfills
          rw [hown, h.incoming_price hseq.lt hfills]
          exact walk_fills_cross (hfills ▸ by simp : last ∈ (bookWalk e ev).fills)
  | cancelOrder =>
      rw [htype] at ha
      dsimp only at ha
      -- no fill in the ack of a cancel
      cases hk : e.byClient.lookup (orderKey ev) with
      | none =>
          rw [applyCancelOrder_unknown hk] at ha
          rw [List.mem_singleton.mp ha] at hqty
          exact absurd hqty (UInt32.lt_irrefl 0)
      | some x =>
          rw [applyCancelOrder_found hk] at ha
          rw [List.mem_singleton.mp ha] at hqty
          exact absurd hqty (UInt32.lt_irrefl 0)
  | marketDataOrder => rw [htype] at ha; exact absurd ha (by simp)
  | admin => rw [htype] at ha; exact absurd ha (by simp)

theorem fills_within_replay {evs : List SequencedEvent} (hseq : Sequenced evs) :
    ∀ a ∈ ((init cap).replay evs).2, 0 < a.fillQuantity → ∃ o ∈ evs, Submits o a.exchangeOrderId
      ∧ Flat.crosses o.bookSide o.price.toNat a.fillPrice.toNat := by
  refine Mealy.run_induction (P := fun (is : List SequencedEvent) (os : List OutboundAck) _ =>
    ∀ a ∈ os, 0 < a.fillQuantity → ∃ o ∈ is, Submits o a.exchangeOrderId
      ∧ Flat.crosses o.bookSide o.price.toNat a.fillPrice.toNat) (by simp) ?_
  intro is i hp hold a ha hqty
  have hseq' := hseq.of_prefix hp
  rcases List.mem_append.mp ha with ha | ha
  · obtain ⟨o, ho, hwithin⟩ := hold a ha hqty
    exact ⟨o, List.mem_append_left _ ho, hwithin⟩
  · exact (engineInv_replay hseq'.init).apply_within hseq' ha hqty

/-- **No order is ever told of a fill beyond its limit.** -/
theorem fills_within_limits (cap : PoolCapacity) (evs : List SequencedEvent)
    (hseq : Sequenced evs) (o : SequencedEvent) (ho : o ∈ evs) (a : OutboundAck)
    (ha : a ∈ ((init cap).replay evs).2) (hid : a.exchangeOrderId = o.seqNum)
    (hqty : 0 < a.fillQuantity) : Flat.crosses o.bookSide o.price.toNat a.fillPrice.toNat := by
  obtain ⟨o', ho', hsub, hwithin⟩ := fills_within_replay hseq a ha hqty
  obtain rfl : o' = o := hseq.unique ho' ho (hsub.2.trans hid)
  exact hwithin

/-- A sell at 99 that meets a bid of 100 gets 100. -/
theorem fills_within_limits_improved :
    let o : SequencedEvent := { seqNum := 2, sessionId := 2, side := 1, price := 99, quantity := 3 }
    let evs : List SequencedEvent :=
      [{ seqNum := 1, sessionId := 1, clientOrderId := 7, price := 100, quantity := 5 }, o]
    let a : OutboundAck := ⟨2, 0, 2, .filled, 100, 3, 0⟩
    a ∈ ((init ⟨4, by decide⟩).replay evs).2
      ∧ Flat.crosses o.bookSide o.price.toNat a.fillPrice.toNat := by
  intro o evs a
  have ha : a ∈ ((init ⟨4, by decide⟩).replay evs).2 := by decide +kernel
  exact ⟨ha, fills_within_limits ⟨4, by decide⟩ evs (by decide) o (by simp [evs]) a ha rfl
    (by decide)⟩

end HftLob.Engine

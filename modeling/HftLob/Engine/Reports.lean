import HftLob.Engine.Inv

/-!
# Execution reports

What a client can rely on when reading its acks: every trade is reported once to the
owner of the resting order, the reported quantities add up, and a closed order is
never heard of again.
-/

namespace HftLob.Engine

open HftLob.Book HftLob.Lib HftLob.Lib.PriceTime MatchingEngineConsumer

variable {cap : PoolCapacity} {hist : List SequencedEvent} {acks : List OutboundAck}
  {e : MatchingEngineConsumer cap} {ev : SequencedEvent}

/-- The ack of a trade: to whoever submitted the resting order, at that order's limit
price, for the quantity traded. -/
def ReportsTrade (hist : List SequencedEvent) (exchangeId : OrderId) (t : Trade)
    (a : OutboundAck) : Prop :=
  ∃ o ∈ hist, Submits o (counterparty exchangeId t) ∧ a.exchangeOrderId = o.seqNum
    ∧ a.sessionId = o.sessionId ∧ a.clientOrderId = o.clientOrderId
    ∧ a.fillPrice = o.price ∧ a.fillQuantity = t.qty

theorem ofInt_toNat (n : UInt32) : UInt32.ofInt (n.toNat : Int) = n := by
  rw [← UInt32.toNat_inj]
  have hlt := n.toNat_lt
  simp only [UInt32.ofInt, Int.reducePow, UInt32.toNat_ofNat', Nat.reducePow]
  omega

/-- A quantity that traded fits the type it is acked in. -/
theorem EngineInv.fill_lt (h : EngineInv hist acks e) (hlt : ∀ o ∈ hist, o.seqNum < ev.seqNum)
    {f : Entry OrderId Price} (hf : f ∈ (bookWalk e ev).fills) : f.qty < 2 ^ 32 := by
  obtain ⟨_, _, info, _, hle⟩ := (h.resolved hlt).found f hf
  exact Nat.lt_of_le_of_lt hle info.remainingQty.toNat_lt

/-- `resting_` and the book lead to one submitting event. -/
theorem EngineInv.fill_owner (h : EngineInv hist acks e) (hseq : Sequenced (hist ++ [ev]))
    {f : Entry OrderId Price} (hf : f ∈ (bookWalk e ev).fills) {info : RestingOrderInfo}
    (hinfo : e.resting.lookup f.id = some info) :
    ∃ o ∈ hist, Submits o f.id ∧ orderKey o = info.key ∧ (o.price.toNat : Price) = f.price := by
  obtain ⟨o, ho, hsub, hkey, _⟩ := h.ledger.owned f.id info hinfo
  obtain ⟨x, hx, hid, hprice, _⟩ := walk_fill_mem hf
  obtain ⟨o', ho', hsub', hprice'⟩ := h.priced x
    ((e.book.flat.orders_perm ev.bookSide).mem_iff.mpr (List.mem_append_right _ hx))
  have hoo : o' = o :=
    hseq.init.unique ho' ho (by rw [hsub'.2, hid, hsub.2])
  subst hoo
  exact ⟨o', ho, hsub, hkey, hprice'.trans hprice⟩

theorem EngineInv.trades_reported (h : EngineInv hist acks e)
    (hseq : Sequenced (hist ++ [ev])) :
    List.Forall₂ (ReportsTrade hist ev.seqNum) (e.addOrder ev).2 (settledState e ev).acks := by
  obtain ⟨new, hnew, hrep⟩ := (h.settled hseq.lt).reports
  have hacks : (settledState e ev).acks = new := by rw [hnew]; rfl
  rw [hacks, h.addOrder_trades hseq.lt, List.forall₂_map_left_iff]
  refine ((List.forall₂_and_left _ _).mpr ⟨fun f hf => hf, hrep⟩).imp ?_
  intro f a hfa
  obtain ⟨hf, info, hinfo, rfl⟩ := hfa
  obtain ⟨o, ho, hsub, hkey, hprice⟩ := h.fill_owner hseq hf hinfo
  have hid : f.id ≠ ev.seqNum := ((h.resolved hseq.lt).found f hf).1
  rw [orderKey, RestingOrderInfo.key, OrderKey.mk.injEq] at hkey
  refine ⟨o, ho, by rw [counterparty_tradeOf hid]; exact hsub, hsub.2.symm, hkey.1.symm,
    hkey.2.symm, ?_, rfl⟩
  show UInt32.ofInt f.price = o.price
  rw [← hprice, ofInt_toNat]

theorem sum_eq_of_forall₂ {fills : List (Entry OrderId Price)} {new : List OutboundAck}
    (h : List.Forall₂ (fun f a => a.fillQuantity.toNat = f.qty) fills new) :
    (new.map (fun a => a.fillQuantity.toNat)).sum = (fills.map Entry.qty).sum := by
  induction h with
  | nil => rfl
  | cons hfa _ ih => rw [List.map_cons, List.map_cons, List.sum_cons, List.sum_cons, hfa, ih]

theorem EngineInv.trades_add_up (h : EngineInv hist acks e)
    (hlt : ∀ o ∈ hist, o.seqNum < ev.seqNum) :
    ((settledState e ev).acks.map (fun a => a.fillQuantity.toNat)).sum
      = (settledState e ev).filledOnIncoming.toNat := by
  have hs := h.settled hlt
  obtain ⟨new, hnew, hrep⟩ := hs.reports
  have hacks : (settledState e ev).acks = new := by rw [hnew]; rfl
  have hzero : (startState e).filledOnIncoming.toNat = 0 := rfl
  rw [hacks, hs.filled, hzero, Nat.zero_add]
  refine sum_eq_of_forall₂ (((List.forall₂_and_left _ _).mpr ⟨fun f hf => hf, hrep⟩).imp ?_)
  intro f a hfa
  obtain ⟨hf, info, _, rfl⟩ := hfa
  exact toNat_ofNat_qty (h.fill_lt hlt hf)

theorem EngineInv.counterparty_found (h : EngineInv hist acks e)
    (hlt : ∀ o ∈ hist, o.seqNum < ev.seqNum) {ts ts' : List Trade} {t : Trade}
    (hts : (e.addOrder ev).2 = ts ++ t :: ts') :
    (e.settle ev ts).resting.lookup (counterparty ev.seqNum t) ≠ none := by
  rw [h.addOrder_trades hlt] at hts
  obtain ⟨done, tail, hfills, rfl, htail⟩ := List.map_eq_append_iff.mp hts
  obtain ⟨f, fills, rfl, rfl, rfl⟩ := List.map_eq_cons_iff.mp htail
  have hres := h.resolved hlt
  have hroom := fills_room e ev
  rw [hfills] at hres hroom
  have hf : f ∈ done ++ f :: fills := by simp
  rw [counterparty_tradeOf (hres.found f hf).1]
  have hledger : Ledger hist (acks ++ (startState e).acks) (startState e).byClient
      (startState e).resting := by
    rw [startState, List.append_nil]
    exact h.ledger
  exact settle_found hledger hres (Nat.lt_of_le_of_lt hroom ev.quantity.toNat_lt)

/--
What the acks of a run say.

The trades of one event are found, reported to the resting orders' owners and add up
to what the incoming order is told. The quantity left in each ack of an order is what
its fills so far leave of it, as numbers, so nothing wraps. After `Filled` or
`Canceled` nothing more is said about an order.
-/
structure ReportsAddUp (cap : PoolCapacity) (evs : List SequencedEvent) : Prop where
  trades : ∀ pre ev post, evs = pre ++ ev :: post → ev.type = .newOrder →
    let e := ((init cap).replay pre).1
    (∀ ts t ts', (e.addOrder ev).2 = ts ++ t :: ts' →
      (e.settle ev ts).resting.lookup (counterparty ev.seqNum t) ≠ none)
    ∧ ∃ fills own, (e.apply ev).2 = fills ++ [own]
      ∧ List.Forall₂ (ReportsTrade pre ev.seqNum) (e.addOrder ev).2 fills
      ∧ own.exchangeOrderId = ev.seqNum ∧ own.sessionId = ev.sessionId
      ∧ own.clientOrderId = ev.clientOrderId
      ∧ (fills.map (fun a => a.fillQuantity.toNat)).sum = own.fillQuantity.toNat
  leaves : ∀ o ∈ evs, o.type = .newOrder → ∀ pre a post,
    ((init cap).replay evs).2 = pre ++ a :: post → a.exchangeOrderId = o.seqNum →
    reportsLeaves a.status →
    a.leavesQuantity.toNat + filledOf o.seqNum (pre ++ [a]) = o.quantity.toNat
  final : ∀ pre a post, ((init cap).replay evs).2 = pre ++ a :: post → closes a.status →
    ∀ b ∈ post, b.exchangeOrderId ≠ a.exchangeOrderId

/-- **The execution reports of every run add up**, over any pool of at most `2 ^ 31` slots. -/
theorem reports_add_up (cap : PoolCapacity) (evs : List SequencedEvent) (hseq : Sequenced evs) :
    ReportsAddUp cap evs where
  trades := by
    intro pre ev post hevs hnew
    have hsplit : pre ++ [ev] <+: evs := by
      rw [hevs]
      exact ⟨post, by simp⟩
    have hseq' : Sequenced (pre ++ [ev]) := hseq.of_prefix hsplit
    have h : EngineInv pre ((init cap).replay pre).2 ((init cap).replay pre).1 :=
      engineInv_replay hseq'.init
    have hacks : (((init cap).replay pre).1.apply ev).2
        = newOrderAcks ((init cap).replay pre).1 ev := by
      rw [MatchingEngineConsumer.apply, hnew]
      exact applyNewOrder_acks _ _
    exact ⟨fun ts t ts' hts => h.counterparty_found hseq'.lt hts, _, incomingAck ev _ _ _, hacks,
      h.trades_reported hseq', rfl, rfl, rfl, h.trades_add_up hseq'.lt⟩
  leaves := by
    intro o ho _ pre a post hacks hid hs
    obtain ⟨o', ho', hsub, hsum⟩ := (engineInv_replay hseq).ledger.leaves pre a post hacks hs
    have hoo : o' = o := hseq.unique ho' ho (hsub.2.trans hid)
    rw [← hid, hsum, hoo]
  final := (engineInv_replay hseq).ledger.final

/-- A pool of one, a client id used twice, a fill in two parts and two cancels. -/
theorem reports_add_up_pool_of_one :
    let evs : List SequencedEvent :=
      [{ seqNum := 1, sessionId := 1, clientOrderId := 7, price := 100, quantity := 5 },
       { seqNum := 2, sessionId := 1, clientOrderId := 7, price := 99, quantity := 5 },
       { seqNum := 4, sessionId := 2, clientOrderId := 7, side := 1, price := 98, quantity := 3 },
       { seqNum := 5, sessionId := 2, clientOrderId := 8, side := 1, price := 100, quantity := 9 },
       { seqNum := 7, type := .cancelOrder, sessionId := 1, clientOrderId := 7 },
       { seqNum := 8, type := .cancelOrder, sessionId := 2, clientOrderId := 8 }]
    Sequenced evs
      ∧ ((init ⟨1, by decide⟩).replay evs).2
        = [⟨1, 7, 1, .accepted, 0, 0, 5⟩, ⟨1, 7, 2, .accepted, 0, 0, 5⟩,
           ⟨1, 7, 1, .partialFill, 100, 3, 2⟩, ⟨2, 7, 4, .filled, 100, 3, 0⟩,
           ⟨1, 7, 1, .filled, 100, 2, 0⟩, ⟨2, 8, 5, .partialFill, 100, 2, 7⟩,
           ⟨1, 7, 0, .rejected, 0, 0, 0⟩, ⟨2, 8, 5, .canceled, 0, 0, 0⟩]
      ∧ ReportsAddUp ⟨1, by decide⟩ evs :=
  ⟨by decide, by decide +kernel, reports_add_up ⟨1, by decide⟩ _ (by decide)⟩

end HftLob.Engine

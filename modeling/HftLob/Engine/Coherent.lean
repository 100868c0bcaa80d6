import HftLob.Engine.Inv

/-!
# What an ack says about what is left

The status of an ack and its `leaves_quantity` are computed apart: the status of the
incoming order from what was filled, and only then from what is left. They agree except
for an order for nothing, which is filled by nothing and acked as live.

No invariant is needed: the agreement is in the way the acks are built.
-/

namespace HftLob.Engine

open HftLob.Book MatchingEngineConsumer

variable {cap : PoolCapacity} {ev : SequencedEvent}

/-! ## The three ways an ack is built -/

section Forall

variable {P : OutboundAck → Prop}

theorem forall_ackTrade (hfill : ∀ x info price qty, P (fillAck x info price qty)) {id : OrderId}
    {st : FillState} {t : Trade} (h : ∀ a ∈ st.acks, P a) :
    ∀ a ∈ (ackTrade id st t).acks, P a := by
  unfold ackTrade
  split
  · exact h
  · rename_i info _
    have hnew : ∀ a ∈ st.acks ++ [fillAck (counterparty id t) info t.price t.qty], P a := by
      intro a ha
      rcases List.mem_append.mp ha with ha | ha
      · exact h a ha
      · rw [List.mem_singleton.mp ha]
        exact hfill _ info _ _
    dsimp only
    split
    · exact hnew
    · exact hnew

theorem forall_settle (hfill : ∀ x info price qty, P (fillAck x info price qty)) {id : OrderId}
    (trades : List Trade) : ∀ st : FillState, (∀ a ∈ st.acks, P a) →
      ∀ a ∈ (trades.foldl (ackTrade id) st).acks, P a := by
  induction trades with
  | nil => exact fun _ h => h
  | cons t trades ih => exact fun st h => ih _ (forall_ackTrade hfill h)

/-- **Every ack of an event** is a fill of a resting order, the one of the event's own order,
or the answer to a cancel. -/
theorem forall_apply (e : MatchingEngineConsumer cap)
    (hfill : ∀ x info price qty, P (fillAck x info price qty))
    (hown : ev.type = .newOrder → ∀ trades filled,
      P (incomingAck ev trades filled (ev.quantity - filled)))
    (hcancel : ∀ x removed, P (cancelAck ev x (if removed = true then .canceled else .rejected))) :
    ∀ a ∈ (e.apply ev).2, P a := by
  unfold MatchingEngineConsumer.apply
  cases htype : ev.type with
  | newOrder =>
      dsimp only
      rw [applyNewOrder_acks]
      intro a ha
      rcases List.mem_append.mp ha with ha | ha
      · exact forall_settle hfill _ _ (by simp) a ha
      · rw [List.mem_singleton.mp ha]
        exact hown htype _ _
  | cancelOrder =>
      dsimp only
      cases hk : e.byClient.lookup (orderKey ev) with
      | none =>
          rw [applyCancelOrder_unknown hk]
          intro a ha
          rw [List.mem_singleton.mp ha]
          exact hcancel 0 false
      | some x =>
          rw [applyCancelOrder_found hk]
          intro a ha
          rw [List.mem_singleton.mp ha]
          exact hcancel x _
  | marketDataOrder => exact fun a ha => absurd ha (by simp)
  | admin => exact fun a ha => absurd ha (by simp)

end Forall

/-! ## Status and quantity -/

/-- A status after which nothing more happens to the order. -/
def terminal : ExecStatus → Bool
  | .filled | .canceled | .rejected => true
  | .accepted | .partialFill => false

/-- Nothing is left exactly under a terminal status, and something exactly under a live one. -/
def Coherent (a : OutboundAck) : Prop :=
  (a.leavesQuantity = 0 ↔ terminal a.status) ∧ (0 < a.leavesQuantity ↔ isOpen a.status)

instance (a : OutboundAck) : Decidable (Coherent a) := inferInstanceAs (Decidable (_ ∧ _))

theorem coherent_done {a : OutboundAck} (hq : a.leavesQuantity = 0)
    (hs : terminal a.status = true) : Coherent a := by
  have hopen : isOpen a.status = false := by
    cases h : a.status <;> rw [h] at hs <;> first | rfl | exact absurd hs (by decide)
  unfold Coherent
  rw [hq, hs, hopen]
  decide

theorem coherent_live {a : OutboundAck} (hq : 0 < a.leavesQuantity) (hs : isOpen a.status = true) :
    Coherent a := by
  have hterm : terminal a.status = false := by
    cases h : a.status <;> rw [h] at hs <;> first | rfl | exact absurd hs (by decide)
  unfold Coherent
  rw [hterm, hs]
  simp [hq, UInt32.pos_iff_ne_zero.mp hq]

theorem coherent_fillAck (x : OrderId) (info : RestingOrderInfo) (price : Price) (qty : Qty) :
    Coherent (fillAck x info price qty) := by
  by_cases hdone : info.remainingQty - qty = 0
  · exact coherent_done hdone (by simp [fillAck, hdone, terminal])
  · exact coherent_live (UInt32.pos_iff_ne_zero.mpr hdone) (by simp [fillAck, hdone, isOpen])

/-- An ack that follows a fill is coherent; one without a fill is coherent if there was
something to fill. -/
theorem coherent_incomingAck (hq : 0 < ev.quantity) (trades : List Trade) (filled : Qty) :
    Coherent (incomingAck ev trades filled (ev.quantity - filled)) := by
  by_cases hnone : filled = 0
  · subst hnone
    refine coherent_live ?_ (by simp [incomingAck, isOpen])
    show 0 < ev.quantity - 0
    rw [UInt32.sub_zero]
    exact hq
  · by_cases hleft : ev.quantity - filled = 0
    · exact coherent_done hleft (by simp [incomingAck, hnone, hleft, terminal])
    · exact coherent_live (UInt32.pos_iff_ne_zero.mpr hleft)
        (by simp [incomingAck, hnone, hleft, isOpen])

theorem coherent_apply (e : MatchingEngineConsumer cap)
    (hq : ev.type = .newOrder → 0 < ev.quantity) : ∀ a ∈ (e.apply ev).2, Coherent a := by
  refine forall_apply e coherent_fillAck (fun hnew => coherent_incomingAck (hq hnew)) ?_
  intro x removed
  refine coherent_done rfl ?_
  cases removed <;> rfl

/-- An order for nothing is acked as accepted, with nothing left. -/
theorem zero_quantity_ack (e : MatchingEngineConsumer cap) (hnew : ev.type = .newOrder)
    (hzero : ev.quantity = 0) :
    ∃ a ∈ (e.apply ev).2, a.status = .accepted ∧ a.leavesQuantity = 0 := by
  have htrades : (e.addOrder ev).2 = [] := by
    rw [addOrder, hzero]
    exact OrderBook.addLimitOrder_zero_trades ..
  have hfilled : (settledState e ev).filledOnIncoming = 0 := by
    rw [settledState, htrades]
    rfl
  rw [MatchingEngineConsumer.apply, hnew]
  dsimp only
  rw [applyNewOrder_acks]
  refine ⟨_, List.mem_append_right _ List.mem_cons_self, ?_, ?_⟩
  · simp [incomingAck, hfilled]
  · simp [incomingAck, leavesOf, hfilled, hzero]

/-- **Status and leaves of every ack of an event agree** exactly if the event is not a new order
for nothing, whatever the state of the engine. -/
theorem acks_coherent_iff (cap : PoolCapacity) (e : MatchingEngineConsumer cap)
    (ev : SequencedEvent) :
    (∀ a ∈ (e.apply ev).2, Coherent a) ↔ (ev.type = .newOrder → 0 < ev.quantity) := by
  constructor
  · intro hall hnew
    refine UInt32.pos_iff_ne_zero.mpr fun hzero => ?_
    obtain ⟨a, ha, hstatus, hleaves⟩ := zero_quantity_ack e hnew hzero
    have hcoh := (hall a ha).1.mp hleaves
    rw [hstatus] at hcoh
    exact absurd hcoh (by decide)
  · exact coherent_apply e

/-- A first order for nothing, at a fresh engine. -/
theorem zero_quantity_incoherent :
    let ev : SequencedEvent :=
      { seqNum := 1, ingressTsNs := 0, sequenceTsNs := 0, type := .newOrder, producer := .gateway,
        sessionId := 5, clientOrderId := 1, side := 0, price := 100, quantity := 0 }
    ∃ a ∈ ((init ⟨4, by decide⟩).apply ev).2, a.status = .accepted ∧ ¬ Coherent a := by
  decide

end HftLob.Engine

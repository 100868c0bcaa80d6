import HftLob.Engine.Inv
import HftLob.Book.View

/-!
# A cancel touches one order of its own session

`by_client_` leads from a session and its name for an order to an exchange id, and
`Keyed` says that the order of that id was submitted by that session under that name.
So whatever the client ids other sessions use, and however often one session uses the
same id, a cancel can only reach an order of its own.

An answer with exchange id 0 is meant to say that nothing was found. It does because the
sequencer numbers events from 1 on: an order stamped 0 would be canceled under that id.
-/

namespace HftLob.Engine

open HftLob.Book HftLob.Lib HftLob.Lib.PriceTime MatchingEngineConsumer

variable {cap : PoolCapacity} {hist : List SequencedEvent} {acks : List OutboundAck}
  {e : MatchingEngineConsumer cap} {ev : SequencedEvent}

/-- The orders that rest in the first book and not, as they are, in the second. -/
def departed (b b' : OrderBook cap) : List (Entry OrderId Price) :=
  b.flat.orders.filter (fun x => x ∉ b'.flat.orders)

/-- What a cancel may do to the engine, and what its answer says about that. -/
structure CancelIsolated (hist : List SequencedEvent) (ev : SequencedEvent)
    (e e' : MatchingEngineConsumer cap) (answers : List OutboundAck) : Prop where
  atMostOne : (departed e.book e'.book).length ≤ 1
  owner : ∀ x ∈ departed e.book e'.book, ∃ o ∈ hist, Submits o x.id
    ∧ o.sessionId = ev.sessionId ∧ o.clientOrderId = ev.clientOrderId
  /-- Every other order keeps its quantity and its place. -/
  queues : ∀ side price, queueAt (e'.book.view.levels side) price
    = (queueAt (e.book.view.levels side) price).filter
        (fun o => o.1 ∉ (departed e.book e'.book).map Entry.id)
  resting : ∀ x, e.byClient.lookup (orderKey ev) ≠ some x →
    e'.resting.lookup x = e.resting.lookup x
  answer : ∃ a, answers = [a] ∧ (a.status = .canceled ↔ departed e.book e'.book ≠ [])
    ∧ (a.exchangeOrderId = 0 → e' = e)

theorem departed_self (b : OrderBook cap) : departed b b = [] := by
  rw [departed, List.filter_eq_nil_iff]
  intro x hx
  simpa using hx

theorem departed_cancel {b : OrderBook cap} (hb : BookInv b) (x : OrderId) :
    departed b (b.cancel x).1 = b.flat.orders.filter (fun y => y.id = x) := by
  refine List.filter_congr fun y hy => ?_
  simp [mem_cancel_orders hb, hy]

/-- The order a session's name leads to was submitted by the session under that name. -/
theorem EngineInv.named_owner (h : EngineInv hist acks e) {x : OrderId}
    (hk : e.byClient.lookup (orderKey ev) = some x) :
    ∃ o ∈ hist, Submits o x ∧ o.sessionId = ev.sessionId
      ∧ o.clientOrderId = ev.clientOrderId := by
  obtain ⟨info, hinfo, hkey⟩ := h.ledger.keyed _ x hk
  obtain ⟨o, ho, hsub, hokey, _⟩ := h.ledger.owned x info hinfo
  have hsame : orderKey o = orderKey ev := hokey.trans hkey
  exact ⟨o, ho, hsub, congrArg OrderKey.sessionId hsame, congrArg OrderKey.clientOrderId hsame⟩

theorem cancelIsolated_unknown (hk : e.byClient.lookup (orderKey ev) = none) :
    CancelIsolated hist ev e (e.applyCancelOrder ev).1 (e.applyCancelOrder ev).2 := by
  rw [applyCancelOrder_unknown hk]
  refine ⟨?_, ?_, ?_, fun _ _ => rfl, _, rfl, ?_, fun _ => rfl⟩
  · simp [departed_self]
  · simp [departed_self]
  · intro side price
    simp [departed_self]
  · simp [departed_self, cancelAck]

theorem EngineInv.cancelIsolated_found (h : EngineInv hist acks e) (hpos : ∀ o ∈ hist, 1 ≤ o.seqNum)
    {x : OrderId} (hk : e.byClient.lookup (orderKey ev) = some x) :
    CancelIsolated hist ev e (e.applyCancelOrder ev).1 (e.applyCancelOrder ev).2 := by
  obtain ⟨o, ho, hsub, hsession, hclient⟩ := h.named_owner hk
  have hgone := departed_cancel h.book x
  have hmem : ∀ y, y ∈ departed e.book (e.book.cancel x).1 ↔ y ∈ e.book.flat.orders ∧ y.id = x := by
    intro y
    rw [hgone, List.mem_filter, decide_eq_true_eq]
  rw [applyCancelOrder_found hk]
  refine ⟨?_, ?_, ?_, ?_, _, rfl, ?_, ?_⟩
  · dsimp only
    rw [hgone]
    exact h.book.length_filter_id_le x
  · intro y hy
    rw [((hmem y).mp hy).2]
    exact ⟨o, ho, hsub, hsession, hclient⟩
  · intro side price
    dsimp only
    rw [BookInv.queueAt_cancel h.book]
    -- an order in a queue has the canceled id exactly if it is the one that left
    refine List.filter_congr fun q hq => decide_eq_decide.mpr (not_congr ?_)
    constructor
    · intro hqx
      rw [BookInv.queueAt_eq h.book] at hq
      obtain ⟨y, hy, rfl⟩ := List.mem_map.mp hq
      have hy : y ∈ e.book.flat.orders := (e.book.flat.orders_perm side).mem_iff.mpr
        (List.mem_append_left _ (List.mem_of_mem_filter hy))
      exact List.mem_map_of_mem ((hmem y).mpr ⟨hy, hqx⟩)
    · intro hin
      obtain ⟨y, hy, hid⟩ := List.mem_map.mp hin
      rw [← hid]
      exact ((hmem y).mp hy).2
  · intro y hy
    exact Finmap.lookup_erase_ne fun heq => hy (heq ▸ hk)
  · have hremoved : (e.book.cancel x).2 = true ↔ departed e.book (e.book.cancel x).1 ≠ [] := by
      rw [(cancel_spec x h.book).2.2, hgone]
      simp [Flat.cancel, Flat.ids, List.filter_eq_nil_iff]
    rw [← hremoved]
    cases (e.book.cancel x).2 <;> simp [cancelAck]
  · intro hzero
    have hx : x = 0 := hzero
    have hone := hpos o ho
    rw [hsub.2, hx] at hone
    exact absurd hone (by decide)

/--
**A cancel is isolated.**

In every state reached by events numbered from 1 on in increasing order, a cancel takes
at most one order out of the book, one that its own session submitted under that name,
leaves every other order and its entry alone, and answers truthfully.
-/
theorem cancel_isolated (cap : PoolCapacity) (evs : List SequencedEvent) (ev : SequencedEvent)
    (hseq : Sequenced (evs ++ [ev])) (hcancel : ev.type = .cancelOrder) :
    let e := ((init cap).replay evs).1
    CancelIsolated evs ev e (e.apply ev).1 (e.apply ev).2 := by
  intro e
  have h : EngineInv evs _ e := engineInv_replay hseq.init
  rw [MatchingEngineConsumer.apply, hcancel]
  dsimp only
  cases hk : e.byClient.lookup (orderKey ev) with
  | none => exact cancelIsolated_unknown hk
  | some x => exact h.cancelIsolated_found hseq.init.1 hk

/-- Two sessions with the same client id, one of which reuses it; the cancel is the other's. -/
theorem cancel_isolated_shared_name :
    let order (n : UInt64) (s : UInt32) : SequencedEvent :=
      { seqNum := n, ingressTsNs := 0, sequenceTsNs := 0, type := .newOrder, producer := .gateway,
        sessionId := s, clientOrderId := 9, side := 0, price := 100, quantity := 3 }
    let evs := [order 1 5, order 2 6, order 3 5]
    let ev := { order 4 6 with type := .cancelOrder }
    let e := ((init ⟨4, by decide⟩).replay evs).1
    Sequenced (evs ++ [ev]) ∧ CancelIsolated evs ev e (e.apply ev).1 (e.apply ev).2 :=
  ⟨by decide, cancel_isolated _ _ _ (by decide) rfl⟩

/-- Numbered from 0 on, the first order is canceled under the id that is to say that there
was none. -/
theorem cancel_of_stamp_zero :
    let order : SequencedEvent :=
      { seqNum := 0, ingressTsNs := 0, sequenceTsNs := 0, type := .newOrder, producer := .gateway,
        sessionId := 5, clientOrderId := 9, side := 0, price := 100, quantity := 3 }
    let ev := { order with type := .cancelOrder, seqNum := 1 }
    let e := ((init ⟨4, by decide⟩).replay [order]).1
    [order, ev].Pairwise (fun o o' => o.seqNum < o'.seqNum)
      ∧ (e.apply ev).2.map (fun a => (a.status, a.exchangeOrderId)) = [(.canceled, 0)]
      ∧ e.book.flat.ids = [0] ∧ (e.apply ev).1.book.flat.ids = [] := by
  decide

end HftLob.Engine

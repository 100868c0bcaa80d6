import HftLob.Engine.Inv
import HftLob.Book.Refine

/-!
# Resting orders and the names clients have for them

A client cancels by the name it gave an order, and `by_client_` is keyed by those
names. Nothing checks that a session uses a name once: a second order under a name
takes over its entry, and an order that is filled up erases the entry of its name
whoever it leads to by then. An order can then rest with no way for its owner to
cancel it.

As long as no order that is too large to be filled at once reuses the name of one that it
leaves alone, the entry of every resting order leads to it.
-/

namespace HftLob.Engine

open HftLob.Book HftLob.Lib HftLob.Lib.PriceTime MatchingEngineConsumer

variable {cap : PoolCapacity} {hist : List SequencedEvent} {acks : List OutboundAck}
  {e : MatchingEngineConsumer cap} {ev : SequencedEvent}

/-- Every order in the book is found under its owner's name for it, and the owner's
cancel removes it. -/
def Cancelable (hist : List SequencedEvent) (e : MatchingEngineConsumer cap) : Prop :=
  ∀ y ∈ e.book.flat.orders, ∀ o ∈ hist, Submits o y.id →
    e.byClient.lookup (orderKey o) = some y.id
    ∧ ∀ c : SequencedEvent, c.type = .cancelOrder → orderKey c = orderKey o →
      (e.apply c).2 = [cancelAck c y.id .canceled]

/-- The resting orders that an incoming one may trade with: those within its limit. -/
def withinLimit (e : MatchingEngineConsumer cap) (ev : SequencedEvent) :
    List (Entry OrderId Price) :=
  (e.book.flat.opposite ev.bookSide).filter fun y => Flat.crosses ev.bookSide ev.price.toNat y.price

/-- The ones it leaves alone: those of its own side, and those outside its limit. -/
def outOfReach (e : MatchingEngineConsumer cap) (ev : SequencedEvent) :
    List (Entry OrderId Price) :=
  e.book.flat.own ev.bookSide
    ++ (e.book.flat.opposite ev.bookSide).filter fun y =>
        !Flat.crosses ev.bookSide ev.price.toNat y.price

/-- An order for more than it can trade with does not have the name of one that it leaves
alone. -/
def KeepsNames (e : MatchingEngineConsumer cap) (ev : SequencedEvent) : Prop :=
  ev.type = .newOrder → ((withinLimit e ev).map Entry.qty).sum < ev.quantity.toNat →
    ∀ y ∈ outOfReach e ev,
      (e.resting.lookup y.id).map RestingOrderInfo.key ≠ some (orderKey ev)

instance (e : MatchingEngineConsumer cap) (ev : SequencedEvent) : Decidable (KeepsNames e ev) :=
  inferInstanceAs (Decidable (_ → _ → _))

/-- The entry of a resting order's name leads to that order. -/
def Named (e : MatchingEngineConsumer cap) : Prop :=
  ∀ y ∈ e.book.flat.orders, ∀ info, e.resting.lookup y.id = some info →
    e.byClient.lookup info.key = some y.id

theorem named_init : Named (init cap) := by
  intro y hy
  exact absurd hy (by simp [init])

/-- The loop erases the name of an order only when it fills that order up. -/
theorem EngineInv.settled_named (h : EngineInv hist acks e)
    (hlt : ∀ o ∈ hist, o.seqNum < ev.seqNum) (hnamed : Named e) {x : OrderId}
    {info₀ info : RestingOrderInfo} (hx₀ : e.resting.lookup x = some info₀)
    (hbook : ∃ y ∈ e.book.flat.orders, y.id = x)
    (hx : (settledState e ev).resting.lookup x = some info) :
    (settledState e ev).byClient.lookup info₀.key = some x := by
  have hs := h.settled hlt
  obtain ⟨y, hy, rfl⟩ := hbook
  rw [hs.kept info₀.key]
  · exact hnamed y hy info₀ hx₀
  · intro f hf info_f hinfo hdone hkey
    -- the names agree, so the order filled up is this one, which is still there
    obtain ⟨z, hz, hid, _⟩ := walk_fill_mem hf
    have hzmem : z ∈ e.book.flat.orders :=
      (e.book.flat.orders_perm ev.bookSide).mem_iff.mpr (List.mem_append_right _ hz)
    have hfz := hnamed z hzmem info_f (hid ▸ hinfo)
    rw [hkey, hnamed y hy info₀ hx₀, Option.some.injEq, hid] at hfz
    have hgone := hs.hit f hf info_f hinfo
    rw [afterFill, if_pos hdone, ← hfz, hx] at hgone
    exact absurd hgone (by simp)

/-- An order with a remainder was for more than it could trade with, and the walk has left
what was out of its reach. -/
theorem EngineInv.walk_remainder (h : EngineInv hist acks e)
    (hlt : ∀ o ∈ hist, o.seqNum < ev.seqNum) (hleft : leavesOf e ev > 0) :
    ((withinLimit e ev).map Entry.qty).sum < ev.quantity.toNat
      ∧ e.book.flat.own ev.bookSide ++ (bookWalk e ev).rest = outOfReach e ev := by
  have hpos : 0 < (bookWalk e ev).left := by
    rw [← (h.quantities hlt).2]
    exact UInt32.lt_iff_toNat_lt.mp hleft
  obtain ⟨hfills, hrest⟩ := walk_of_left_pos
    (h.book.flat_sorted.crosses_first ev.bookSide ev.price.toNat) hpos
  have hsum : ((bookWalk e ev).fills.map Entry.qty).sum + (bookWalk e ev).left
      = ev.quantity.toNat := walk_sum _ _
  have hfills : (bookWalk e ev).fills = withinLimit e ev := hfills
  rw [hfills] at hsum
  exact ⟨by omega, congrArg (e.book.flat.own ev.bookSide ++ ·) hrest⟩

theorem EngineInv.named_newOrder (h : EngineInv hist acks e)
    (hlt : ∀ o ∈ hist, o.seqNum < ev.seqNum) (hnew : ev.type = .newOrder) (hnamed : Named e)
    (hkeeps : KeepsNames e ev) : Named (e.applyNewOrder ev).1 := by
  intro y hy info hinfo
  rw [applyNewOrder_book] at hy
  by_cases hself : y.id = ev.seqNum
  · -- the incoming order, entered under its name
    rw [hself] at hinfo ⊢
    by_cases hleft : leavesOf e ev > 0
    · rw [applyNewOrder_some hleft] at hinfo ⊢
      dsimp only at hinfo ⊢
      rw [Finmap.lookup_insert, Option.some.injEq] at hinfo
      rw [← hinfo]
      exact Finmap.lookup_insert _
    · rw [applyNewOrder_all hleft] at hinfo
      have hnone := (h.settled hlt).ledger.fresh_resting hlt
      rw [hnone] at hinfo
      exact absurd hinfo (by simp)
  · rw [applyNewOrder_lookup e hself] at hinfo
    obtain ⟨info₀, hinfo₀, hkey⟩ := h.settled_key hlt hinfo
    have hin : y ∈ e.book.flat.own ev.bookSide ++ (bookWalk e ev).rest :=
      (h.mem_after hlt hy).resolve_left fun hown => hself (by rw [hown.1])
    have hbook : ∃ z ∈ e.book.flat.orders, z.id = y.id := by
      obtain ⟨z, hz, hid, _⟩ := h.walked_mem hin
      exact ⟨z, hz, hid⟩
    have hsettled := h.settled_named hlt hnamed hinfo₀ hbook hinfo
    rw [hkey] at hsettled
    by_cases hleft : leavesOf e ev > 0
    · rw [applyNewOrder_some hleft]
      have hne : info.key ≠ orderKey ev := by
        intro he
        obtain ⟨hmore, hleaves⟩ := h.walk_remainder hlt hleft
        refine hkeeps hnew hmore y (hleaves ▸ hin) ?_
        rw [hinfo₀, Option.map_some, hkey, he]
      exact (Finmap.lookup_insert_of_ne _ hne).trans hsettled
    · rw [applyNewOrder_all hleft]
      exact hsettled

theorem EngineInv.named_cancelOrder (h : EngineInv hist acks e) (hnamed : Named e) :
    Named (e.applyCancelOrder ev).1 := by
  cases hk : e.byClient.lookup (orderKey ev) with
  | none =>
      rw [applyCancelOrder_unknown hk]
      exact hnamed
  | some x =>
      rw [applyCancelOrder_found hk]
      intro y hy info hinfo
      obtain ⟨hy, hyx⟩ := (mem_cancel_orders h.book).mp hy
      dsimp only at hinfo ⊢
      rw [Finmap.lookup_erase_ne hyx] at hinfo
      have hfound := hnamed y hy info hinfo
      have hne : info.key ≠ orderKey ev := by
        intro he
        rw [he, hk, Option.some.injEq] at hfound
        exact hyx hfound.symm
      rw [Finmap.lookup_erase_ne hne]
      exact hfound

theorem EngineInv.named_step (h : EngineInv hist acks e) (hseq : Sequenced (hist ++ [ev]))
    (hnamed : Named e) (hkeeps : KeepsNames e ev) : Named (e.apply ev).1 := by
  unfold MatchingEngineConsumer.apply
  cases htype : ev.type with
  | newOrder => exact h.named_newOrder hseq.lt htype hnamed hkeeps
  | cancelOrder => exact h.named_cancelOrder hnamed
  | marketDataOrder => exact hnamed
  | admin => exact hnamed

/-- An order that its name leads to can be canceled by it. -/
theorem EngineInv.cancelable (h : EngineInv hist acks e) (hseq : Sequenced hist)
    (hnamed : Named e) : Cancelable hist e := by
  intro y hy o ho hsub
  obtain ⟨info, hinfo, _⟩ := h.agree y hy
  obtain ⟨o', ho', hsub', hkey, _⟩ := h.ledger.owned y.id info hinfo
  have hoo : o' = o := hseq.unique ho' ho (hsub'.2.trans hsub.2.symm)
  subst hoo
  have hfound : e.byClient.lookup (orderKey o') = some y.id := hkey ▸ hnamed y hy info hinfo
  refine ⟨hfound, fun c hc hck => ?_⟩
  have hremoved : (e.book.cancel y.id).2 = true := by
    rw [(cancel_spec y.id h.book).2.2]
    exact decide_eq_true (List.mem_map_of_mem hy)
  unfold MatchingEngineConsumer.apply
  rw [hc]
  dsimp only
  rw [applyCancelOrder_found (hck ▸ hfound), hremoved, if_pos rfl]

/-- **Resting orders stay cancelable by their owners** along every run in which no order
left with a remainder reuses the name of one that still rests. -/
theorem resting_orders_cancelable (cap : PoolCapacity) (evs : List SequencedEvent)
    (hseq : Sequenced evs) (hkeeps : Mealy.Along apply KeepsNames (init cap) evs) :
    ∀ pre, pre <+: evs → Cancelable pre ((init cap).replay pre).1 := by
  intro pre hp
  rw [Mealy.along_iff] at hkeeps
  have hseq' := hseq.of_prefix hp
  have hboth : EngineInv pre ((init cap).replay pre).2 ((init cap).replay pre).1
      ∧ Named ((init cap).replay pre).1 := by
    refine Mealy.run_induction (P := fun is os e => EngineInv is os e ∧ Named e)
      ⟨engineInv_init, named_init⟩ ?_
    intro is i hi h
    have hsi := hseq'.of_prefix hi
    exact ⟨engineInv_step h.1 hsi, h.1.named_step hsi h.2 (hkeeps is i (hi.trans hp))⟩
  exact hboth.1.cancelable hseq' hboth.2

/-- A name may be used again once its order is gone, or by an order that trades at once. -/
theorem resting_orders_cancelable_name_reused :
    let evs : List SequencedEvent :=
      [{ seqNum := 1, sessionId := 1, clientOrderId := 7, price := 100, quantity := 5 },
       { seqNum := 2, sessionId := 2, clientOrderId := 1, side := 1, price := 100, quantity := 5 },
       { seqNum := 3, sessionId := 1, clientOrderId := 7, price := 99, quantity := 5 },
       { seqNum := 4, sessionId := 2, clientOrderId := 1, side := 1, price := 101, quantity := 9 },
       { seqNum := 5, sessionId := 1, clientOrderId := 7, price := 101, quantity := 2 }]
    Sequenced evs ∧ Mealy.Along apply KeepsNames (init ⟨4, by decide⟩) evs
      ∧ ∀ pre, pre <+: evs → Cancelable pre ((init ⟨4, by decide⟩).replay pre).1 :=
  ⟨by decide, by decide +kernel,
    resting_orders_cancelable ⟨4, by decide⟩ _ (by decide) (by decide +kernel)⟩

/-- Two bids of one session under one name. When the first is filled up the name is
erased, and the second, still in the book, can no longer be canceled. -/
theorem name_reused_not_cancelable :
    let evs : List SequencedEvent :=
      [{ seqNum := 1, sessionId := 1, clientOrderId := 7, price := 100, quantity := 5 },
       { seqNum := 2, sessionId := 1, clientOrderId := 7, price := 99, quantity := 5 },
       { seqNum := 3, sessionId := 2, clientOrderId := 1, side := 1, price := 100, quantity := 5 }]
    let cancel : SequencedEvent :=
      { seqNum := 4, type := .cancelOrder, sessionId := 1, clientOrderId := 7 }
    let e := ((init ⟨4, by decide⟩).replay evs).1
    Sequenced evs ∧ e.book.flat.orders = [⟨2, 99, 5⟩] ∧ e.byClient.lookup ⟨1, 7⟩ = none
      ∧ (e.apply cancel).2 = [cancelAck cancel 0 .rejected] ∧ ¬ Cancelable evs e := by
  intro evs cancel e
  have horders : e.book.flat.orders = [⟨2, 99, 5⟩] := by decide
  have hnone : e.byClient.lookup ⟨1, 7⟩ = none := by decide
  refine ⟨by decide, horders, hnone, by decide, fun hall => ?_⟩
  have hfound := (hall ⟨2, 99, 5⟩ (by rw [horders]; simp)
    { seqNum := 2, sessionId := 1, clientOrderId := 7, price := 99, quantity := 5 } (by decide)
    (by decide)).1
  rw [orderKey, hnone] at hfound
  exact absurd hfound (by simp)

end HftLob.Engine

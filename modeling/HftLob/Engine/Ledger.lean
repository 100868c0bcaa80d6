import HftLob.Engine.Matcher
import Mathlib.Algebra.Order.BigOperators.Group.List
import Mathlib.Algebra.Order.Group.Nat
import Mathlib.Algebra.GroupWithZero.Nat

/-!
# The ledger of execution reports

What the acks sent so far say about each order, and how that agrees with the two
maps of the engine. Neither the book nor the loop over the trades appears here:
`Ledger` is kept by sending one ack (`Ledger.emit`), and the four ways the engine
sends one are instances of that.
-/

namespace HftLob.Engine

/-- The event that submitted the order with exchange id `x`. -/
def Submits (o : SequencedEvent) (x : OrderId) : Prop := o.type = .newOrder ∧ o.seqNum = x

instance (o : SequencedEvent) (x : OrderId) : Decidable (Submits o x) :=
  inferInstanceAs (Decidable (_ ∧ _))

/-- The acks about one order. -/
def acksOf (x : OrderId) (acks : List OutboundAck) : List OutboundAck :=
  acks.filter (fun a => a.exchangeOrderId = x)

/-- How much has been acked as filled on one order. -/
def filledOf (x : OrderId) (acks : List OutboundAck) : Nat :=
  ((acksOf x acks).map (fun a => a.fillQuantity.toNat)).sum

def latestAck (x : OrderId) (acks : List OutboundAck) : Option OutboundAck :=
  (acksOf x acks).getLast?

/-- A status that reports a quantity still to fill, which may be none. -/
def reportsLeaves : ExecStatus → Bool
  | .accepted | .partialFill | .filled => true
  | .rejected | .canceled => false

/-- A status after which the order is live. -/
def isOpen : ExecStatus → Bool
  | .accepted | .partialFill => true
  | .rejected | .filled | .canceled => false

/-- A status after which the order is done. -/
def closes : ExecStatus → Bool
  | .filled | .canceled => true
  | .accepted | .partialFill | .rejected => false

theorem not_isOpen_of_closes {s : ExecStatus} (h : closes s) : isOpen s = false := by
  cases s <;> simp_all [closes, isOpen]

section Append

variable {x : OrderId} {acks : List OutboundAck} {a : OutboundAck}

theorem acksOf_concat_self (h : a.exchangeOrderId = x) :
    acksOf x (acks ++ [a]) = acksOf x acks ++ [a] := by
  simp [acksOf, List.filter_append, h]

theorem acksOf_concat_ne (h : a.exchangeOrderId ≠ x) :
    acksOf x (acks ++ [a]) = acksOf x acks := by
  simp [acksOf, List.filter_append, h]

theorem filledOf_concat_self (h : a.exchangeOrderId = x) :
    filledOf x (acks ++ [a]) = filledOf x acks + a.fillQuantity.toNat := by
  simp [filledOf, acksOf_concat_self h]

theorem filledOf_concat_ne (h : a.exchangeOrderId ≠ x) :
    filledOf x (acks ++ [a]) = filledOf x acks := by
  rw [filledOf, acksOf_concat_ne h, filledOf]

theorem filledOf_absent (h : ∀ b ∈ acks, b.exchangeOrderId ≠ x) : filledOf x acks = 0 := by
  have : acksOf x acks = [] := by
    rw [acksOf, List.filter_eq_nil_iff]
    intro b hb
    simpa using h b hb
  rw [filledOf, this]; rfl

theorem latestAck_concat_self (h : a.exchangeOrderId = x) :
    latestAck x (acks ++ [a]) = some a := by
  rw [latestAck, acksOf_concat_self h, List.getLast?_concat]

theorem latestAck_concat_ne (h : a.exchangeOrderId ≠ x) :
    latestAck x (acks ++ [a]) = latestAck x acks := by
  rw [latestAck, acksOf_concat_ne h, latestAck]

/-- Where an element of an extended list stands: among the old ones, or at the end. -/
theorem concat_split {α : Type} {l pre post : List α} {b c : α}
    (h : l ++ [b] = pre ++ c :: post) :
    (∃ post', post = post' ++ [b] ∧ l = pre ++ c :: post') ∨ (l = pre ∧ b = c ∧ post = []) := by
  induction post using List.reverseRecOn with
  | nil =>
      obtain ⟨hl, hb⟩ := List.append_inj' h rfl
      exact Or.inr ⟨hl, by simpa using hb, rfl⟩
  | append_singleton post d _ =>
      have h' : l ++ [b] = (pre ++ c :: post) ++ [d] := by simpa using h
      obtain ⟨hl, hb⟩ := List.append_inj' h' rfl
      have hbd : b = d := by simpa using hb
      exact Or.inl ⟨post, by rw [hbd], hl⟩

end Append

variable {hist : List SequencedEvent} {acks : List OutboundAck}
  {byClient byClient' : UMap OrderKey OrderId} {resting resting' : UMap OrderId RestingOrderInfo}

/-- A client's name for an order leads to an order of that name. -/
def Keyed (byClient : UMap OrderKey OrderId) (resting : UMap OrderId RestingOrderInfo) : Prop :=
  ∀ k x, byClient.lookup k = some x → ∃ info, resting.lookup x = some info ∧ info.key = k

/-- An order and its name can be forgotten together. -/
theorem Keyed.erase {byClient : UMap OrderKey OrderId} {resting : UMap OrderId RestingOrderInfo}
    (h : Keyed byClient resting) {x : OrderId} {info : RestingOrderInfo}
    (hx : resting.lookup x = some info) :
    Keyed (byClient.erase info.key) (resting.erase x) := by
  intro k y hy
  have hk : k ≠ info.key := by
    intro hk
    rw [hk, Finmap.lookup_erase] at hy
    exact absurd hy (by simp)
  rw [Finmap.lookup_erase_ne hk] at hy
  obtain ⟨info', hy', hkey⟩ := h k y hy
  -- the one entry of `by_client_` that could lead to `x` has its key
  have hyx : y ≠ x := by
    intro hyx
    rw [hyx, hx] at hy'
    cases hy'
    exact hk hkey.symm
  exact ⟨info', by rw [Finmap.lookup_erase_ne hyx]; exact hy', hkey⟩

/-- The acks sent for the events in `hist`, and the maps, tell one story. -/
structure Ledger (hist : List SequencedEvent) (acks : List OutboundAck)
    (byClient : UMap OrderKey OrderId) (resting : UMap OrderId RestingOrderInfo) : Prop where
  /-- `resting_` knows who submitted an order and what is left of it. -/
  owned : ∀ x info, resting.lookup x = some info → ∃ o ∈ hist, Submits o x
    ∧ orderKey o = info.key ∧ info.remainingQty.toNat + filledOf x acks = o.quantity.toNat
  /-- `resting_` has exactly the orders whose latest ack leaves something to fill. -/
  live : ∀ x q, (∃ info, resting.lookup x = some info ∧ info.remainingQty = q)
    ↔ 0 < q ∧ ∃ a, latestAck x acks = some a ∧ isOpen a.status ∧ a.leavesQuantity = q
  keyed : Keyed byClient resting
  leaves : ∀ pre a post, acks = pre ++ a :: post → reportsLeaves a.status →
    ∃ o ∈ hist, Submits o a.exchangeOrderId
      ∧ a.leavesQuantity.toNat + filledOf a.exchangeOrderId (pre ++ [a]) = o.quantity.toNat
  final : ∀ pre a post, acks = pre ++ a :: post → closes a.status →
    ∀ b ∈ post, b.exchangeOrderId ≠ a.exchangeOrderId
  closed : ∀ a ∈ acks, closes a.status → resting.lookup a.exchangeOrderId = none
  known : ∀ a ∈ acks, (a.exchangeOrderId = 0 ∧ a.status = .rejected)
    ∨ ∃ o ∈ hist, Submits o a.exchangeOrderId

theorem ledger_init : Ledger [] [] ∅ ∅ where
  owned := by intro x info h; simp at h
  live := by intro x q; simp [latestAck, acksOf]
  keyed := by intro k x h; simp at h
  leaves := by intro pre a post h; simp at h
  final := by intro pre a post h; simp at h
  closed := by intro a h; simp at h
  known := by intro a h; simp at h

namespace Ledger

/-- Behind an ack that closes an order comes none about it. -/
theorem final_pairwise (h : Ledger hist acks byClient resting) :
    acks.Pairwise fun a b => closes a.status → b.exchangeOrderId ≠ a.exchangeOrderId := by
  refine List.pairwise_iff_forall_sublist.mpr fun {a b} hsub hcloses => ?_
  obtain ⟨front, rest, rfl, ha, hb⟩ := List.cons_sublist_iff.mp hsub
  obtain ⟨pre, post, rfl⟩ := List.append_of_mem ha
  have hsplit : pre ++ a :: post ++ rest = pre ++ a :: (post ++ rest) := by simp
  exact h.final pre a _ hsplit hcloses b
    (List.mem_append_right post (List.singleton_sublist.mp hb))

theorem mono {hist' : List SequencedEvent} (h : Ledger hist acks byClient resting)
    (hsub : ∀ o ∈ hist, o ∈ hist') : Ledger hist' acks byClient resting where
  owned := by
    intro x info hx
    obtain ⟨o, ho, hrest⟩ := h.owned x info hx
    exact ⟨o, hsub o ho, hrest⟩
  live := h.live
  keyed := h.keyed
  leaves := by
    intro pre a post hsplit hs
    obtain ⟨o, ho, hrest⟩ := h.leaves pre a post hsplit hs
    exact ⟨o, hsub o ho, hrest⟩
  final := h.final
  closed := h.closed
  known := by
    intro a ha
    cases h.known a ha with
    | inl hz => exact Or.inl hz
    | inr ho => exact Or.inr (ho.imp fun o hh => ⟨hsub o hh.1, hh.2⟩)

theorem pos (h : Ledger hist acks byClient resting) {x : OrderId} {info : RestingOrderInfo}
    (hx : resting.lookup x = some info) : 0 < info.remainingQty :=
  ((h.live x info.remainingQty).mp ⟨info, hx, rfl⟩).1

/-- **One more ack.** It may only touch the order it is about, which no earlier ack
has closed, and must say of that order what `resting_` says from now on. -/
theorem emit (h : Ledger hist acks byClient resting) {a : OutboundAck}
    (hopen : ∀ b ∈ acks, closes b.status → b.exchangeOrderId ≠ a.exchangeOrderId)
    (hleaves : reportsLeaves a.status → ∃ o ∈ hist, Submits o a.exchangeOrderId
      ∧ a.leavesQuantity.toNat + filledOf a.exchangeOrderId (acks ++ [a]) = o.quantity.toNat)
    (hother : ∀ x, x ≠ a.exchangeOrderId → resting'.lookup x = resting.lookup x)
    (hself : ∀ q, (∃ info, resting'.lookup a.exchangeOrderId = some info ∧ info.remainingQty = q)
      ↔ 0 < q ∧ isOpen a.status ∧ a.leavesQuantity = q)
    (howned : ∀ info, resting'.lookup a.exchangeOrderId = some info →
      ∃ o ∈ hist, Submits o a.exchangeOrderId ∧ orderKey o = info.key
        ∧ info.remainingQty.toNat + filledOf a.exchangeOrderId (acks ++ [a]) = o.quantity.toNat)
    (hkeyed : Keyed byClient' resting')
    (hknown : (a.exchangeOrderId = 0 ∧ a.status = .rejected)
      ∨ ∃ o ∈ hist, Submits o a.exchangeOrderId) :
    Ledger hist (acks ++ [a]) byClient' resting' where
  owned := by
    intro x info hx
    by_cases hxa : x = a.exchangeOrderId
    · -- only the order acked has a new total
      subst hxa
      exact howned info hx
    · rw [filledOf_concat_ne (Ne.symm hxa)]
      exact h.owned x info (hother x hxa ▸ hx)
  live := by
    intro x q
    by_cases hxa : x = a.exchangeOrderId
    · subst hxa
      rw [hself, latestAck_concat_self rfl]
      simp
    · rw [hother x hxa, latestAck_concat_ne (Ne.symm hxa)]
      exact h.live x q
  keyed := hkeyed
  leaves := by
    intro pre b post hsplit hs
    cases concat_split hsplit with
    | inl hold =>
        obtain ⟨post', _, hacks⟩ := hold
        exact h.leaves pre b post' hacks hs
    | inr hnew =>
        obtain ⟨rfl, rfl, _⟩ := hnew
        exact hleaves hs
  final := by
    intro pre b post hsplit hs c hc
    cases concat_split hsplit with
    | inl hold =>
        obtain ⟨post', rfl, hacks⟩ := hold
        cases List.mem_append.mp hc with
        | inl hc' => exact h.final pre b post' hacks hs c hc'
        | inr hc' =>
            -- the new ack, about an order that `b` did not close
            have hca : c = a := by simpa using hc'
            rw [hca]
            exact Ne.symm (hopen b (by rw [hacks]; simp) hs)
    | inr hnew =>
        obtain ⟨_, _, rfl⟩ := hnew
        simp at hc
  closed := by
    intro b hb hs
    -- an earlier ack that closes this order is excluded by `hopen`
    by_cases hba : b.exchangeOrderId = a.exchangeOrderId
    · cases List.mem_append.mp hb with
      | inl hold => exact absurd hba (hopen b hold hs)
      | inr hnew =>
          have hbeq : b = a := by simpa using hnew
          rw [hbeq] at hs ⊢
          cases hl : resting'.lookup a.exchangeOrderId with
          | none => rfl
          | some info =>
              have := ((hself info.remainingQty).mp ⟨info, hl, rfl⟩).2.1
              rw [not_isOpen_of_closes hs] at this
              exact absurd this (by simp)
    · rw [hother _ hba]
      refine h.closed b ?_ hs
      cases List.mem_append.mp hb with
      | inl hold => exact hold
      | inr hnew => exact absurd (by rw [List.mem_singleton.mp hnew]) hba
  known := by
    intro b hb
    cases List.mem_append.mp hb with
    | inl hold => exact h.known b hold
    | inr hnew => rw [List.mem_singleton.mp hnew]; exact hknown

/-! ## The acks the engine sends -/

/-- Nobody closed an order that is in `resting_`. -/
theorem not_closed (h : Ledger hist acks byClient resting) {x : OrderId}
    {info : RestingOrderInfo} (hx : resting.lookup x = some info) :
    ∀ b ∈ acks, closes b.status → b.exchangeOrderId ≠ x := by
  intro b hb hs hbx
  have hnone := h.closed b hb hs
  rw [hbx, hx] at hnone
  exact absurd hnone (by simp)

/-- The fill acked to a resting order's owner adds up with the ones before it. -/
theorem fill_adds_up (h : Ledger hist acks byClient resting) {x : OrderId}
    {info : RestingOrderInfo} (price : Price) {qty : Qty} (hx : resting.lookup x = some info)
    (hle : qty ≤ info.remainingQty) :
    ∃ o ∈ hist, Submits o x ∧ orderKey o = info.key
      ∧ (info.remainingQty - qty).toNat
          + filledOf x (acks ++ [fillAck x info price qty]) = o.quantity.toNat := by
  obtain ⟨o, ho, hsub, hkey, hsum⟩ := h.owned x info hx
  refine ⟨o, ho, hsub, hkey, ?_⟩
  have hid : (fillAck x info price qty).exchangeOrderId = x := rfl
  have hqty : (fillAck x info price qty).fillQuantity = qty := rfl
  rw [filledOf_concat_self hid, UInt32.toNat_sub_of_le _ _ hle, hqty]
  have := UInt32.le_iff_toNat_le.mp hle
  omega

/-- A resting order filled to the end leaves both maps. -/
theorem fill_all (h : Ledger hist acks byClient resting) {x : OrderId}
    {info : RestingOrderInfo} {price : Price} {qty : Qty} (hx : resting.lookup x = some info)
    (hle : qty ≤ info.remainingQty) (hdone : info.remainingQty - qty = 0) :
    Ledger hist (acks ++ [fillAck x info price qty]) (byClient.erase info.key)
      (resting.erase x) := by
  obtain ⟨o, ho, hsub, _, hsum⟩ := h.fill_adds_up price hx hle
  have hstatus : (fillAck x info price qty).status = .filled := if_pos hdone
  refine h.emit (h.not_closed hx) (fun _ => ⟨o, ho, hsub, hsum⟩)
    (fun y hy => Finmap.lookup_erase_ne hy) ?_ ?_ ?_ (Or.inr ⟨o, ho, hsub⟩)
  · intro q
    rw [hstatus]
    simp [fillAck, isOpen]
  · intro info' hx'
    simp [fillAck] at hx'
  · exact h.keyed.erase hx

/-- A resting order filled in part stays, with what is left of it. -/
theorem fill_some (h : Ledger hist acks byClient resting) {x : OrderId}
    {info : RestingOrderInfo} {price : Price} {qty : Qty} (hx : resting.lookup x = some info)
    (hle : qty ≤ info.remainingQty) (hleft : info.remainingQty - qty ≠ 0) :
    Ledger hist (acks ++ [fillAck x info price qty]) byClient
      (resting.insert x { info with remainingQty := info.remainingQty - qty }) := by
  obtain ⟨o, ho, hsub, hkey, hsum⟩ := h.fill_adds_up price hx hle
  have hstatus : (fillAck x info price qty).status = .partialFill := if_neg hleft
  refine h.emit (h.not_closed hx) (fun _ => ⟨o, ho, hsub, hsum⟩)
    (fun y hy => Finmap.lookup_insert_of_ne _ hy) ?_ ?_ ?_ (Or.inr ⟨o, ho, hsub⟩)
  · intro q
    rw [hstatus]
    simp only [fillAck, Finmap.lookup_insert, isOpen, Option.some.injEq, exists_eq_left']
    constructor
    · intro hq
      exact ⟨hq ▸ UInt32.pos_iff_ne_zero.mpr hleft, trivial, hq⟩
    · exact fun hq => hq.2.2
  · intro info' hx'
    simp only [fillAck, Finmap.lookup_insert, Option.some.injEq] at hx'
    subst hx'
    exact ⟨o, ho, hsub, hkey, hsum⟩
  · intro k y hy
    obtain ⟨info', hy', hkey'⟩ := h.keyed k y hy
    by_cases hyx : y = x
    · subst hyx
      rw [hx] at hy'
      cases hy'
      exact ⟨_, Finmap.lookup_insert _, hkey'⟩
    · exact ⟨info', by rw [Finmap.lookup_insert_of_ne _ hyx]; exact hy', hkey'⟩

section Submit

open MatchingEngineConsumer (incomingAck)

variable {ev : SequencedEvent} {trades : List Trade} {filled : Qty}

theorem fresh_ack (h : Ledger hist acks byClient resting)
    (hlt : ∀ o ∈ hist, o.seqNum < ev.seqNum) (hpos : 1 ≤ ev.seqNum) :
    ∀ b ∈ acks, b.exchangeOrderId ≠ ev.seqNum := by
  intro b hb hbe
  cases h.known b hb with
  | inl hz =>
      rw [← hbe, hz.1] at hpos
      exact absurd hpos (by decide)
  | inr ho =>
      obtain ⟨o, hmem, _, hseq⟩ := ho
      have := hlt o hmem
      rw [hseq, hbe] at this
      exact absurd this (UInt64.lt_irrefl _)

theorem fresh_resting (h : Ledger hist acks byClient resting)
    (hlt : ∀ o ∈ hist, o.seqNum < ev.seqNum) : resting.lookup ev.seqNum = none := by
  cases hl : resting.lookup ev.seqNum with
  | none => rfl
  | some info =>
      obtain ⟨o, hmem, ⟨_, hseq⟩, _⟩ := h.owned _ _ hl
      have := hlt o hmem
      rw [hseq] at this
      exact absurd this (UInt64.lt_irrefl _)

/-- The first ack of an order accounts for all of it. -/
theorem submit_adds_up (trades : List Trade)
    (hfresh : ∀ b ∈ acks, b.exchangeOrderId ≠ ev.seqNum) (hle : filled ≤ ev.quantity) :
    (ev.quantity - filled).toNat
      + filledOf ev.seqNum (acks ++ [incomingAck ev trades filled (ev.quantity - filled)])
      = ev.quantity.toNat := by
  have hid : (incomingAck ev trades filled (ev.quantity - filled)).exchangeOrderId = ev.seqNum :=
    rfl
  have hqty : (incomingAck ev trades filled (ev.quantity - filled)).fillQuantity = filled := rfl
  rw [filledOf_concat_self hid, filledOf_absent hfresh, UInt32.toNat_sub_of_le _ _ hle, hqty]
  have := UInt32.le_iff_toNat_le.mp hle
  omega

/-- The incoming order's own ack, when nothing of it is left. -/
theorem submit_all (h : Ledger hist acks byClient resting) (hnew : ev.type = .newOrder)
    (hlt : ∀ o ∈ hist, o.seqNum < ev.seqNum) (hpos : 1 ≤ ev.seqNum) (hle : filled ≤ ev.quantity)
    (hdone : ¬ ev.quantity - filled > 0) :
    Ledger (hist ++ [ev]) (acks ++ [incomingAck ev trades filled (ev.quantity - filled)])
      byClient resting := by
  have hfresh := h.fresh_ack hlt hpos
  have hnone := h.fresh_resting hlt
  have hmem : ev ∈ hist ++ [ev] := by simp
  refine (h.mono (fun o ho => List.mem_append_left _ ho)).emit (fun b hb _ => hfresh b hb)
    (fun _ => ⟨ev, hmem, ⟨hnew, rfl⟩, submit_adds_up trades hfresh hle⟩) (fun _ _ => rfl) ?_ ?_
    h.keyed (Or.inr ⟨ev, hmem, hnew, rfl⟩)
  · intro q
    simp only [incomingAck, hnone]
    refine ⟨fun hx => absurd hx (by simp), fun hx => absurd (hx.2.2 ▸ hx.1) hdone⟩
  · intro info hx
    simp [incomingAck, hnone] at hx

/-- The incoming order's own ack, when some of it is left and both maps take it in. -/
theorem submit_some (h : Ledger hist acks byClient resting) (hnew : ev.type = .newOrder)
    (hlt : ∀ o ∈ hist, o.seqNum < ev.seqNum) (hpos : 1 ≤ ev.seqNum) (hle : filled ≤ ev.quantity)
    (hleft : ev.quantity - filled > 0) :
    Ledger (hist ++ [ev]) (acks ++ [incomingAck ev trades filled (ev.quantity - filled)])
      (byClient.insert (orderKey ev) ev.seqNum)
      (resting.insert ev.seqNum ⟨ev.sessionId, ev.clientOrderId, ev.quantity - filled⟩) := by
  have hfresh := h.fresh_ack hlt hpos
  have hnone := h.fresh_resting hlt
  have hmem : ev ∈ hist ++ [ev] := by simp
  have hsum := submit_adds_up trades hfresh hle
  have hopen : isOpen (incomingAck ev trades filled (ev.quantity - filled)).status = true := by
    simp only [incomingAck, if_neg (UInt32.pos_iff_ne_zero.mp hleft)]
    split <;> rfl
  refine (h.mono (fun o ho => List.mem_append_left _ ho)).emit (fun b hb _ => hfresh b hb)
    (fun _ => ⟨ev, hmem, ⟨hnew, rfl⟩, hsum⟩) (fun y hy => Finmap.lookup_insert_of_ne _ hy) ?_ ?_ ?_
    (Or.inr ⟨ev, hmem, hnew, rfl⟩)
  · intro q
    rw [hopen]
    simp only [incomingAck, Finmap.lookup_insert, Option.some.injEq, exists_eq_left']
    exact ⟨fun hq => ⟨hq ▸ hleft, trivial, hq⟩, fun hq => hq.2.2⟩
  · intro info hx
    simp only [incomingAck, Finmap.lookup_insert, Option.some.injEq] at hx
    subst hx
    exact ⟨ev, hmem, ⟨hnew, rfl⟩, rfl, hsum⟩
  · intro k y hy
    by_cases hk : k = orderKey ev
    · subst hk
      rw [Finmap.lookup_insert] at hy
      cases hy
      exact ⟨_, Finmap.lookup_insert _, rfl⟩
    · rw [Finmap.lookup_insert_of_ne _ hk] at hy
      obtain ⟨info, hy', hkey⟩ := h.keyed k y hy
      have hne : y ≠ ev.seqNum := by
        intro hye
        rw [hye, hnone] at hy'
        exact absurd hy' (by simp)
      exact ⟨info, by rw [Finmap.lookup_insert_of_ne _ hne]; exact hy', hkey⟩

end Submit

section Cancel

open MatchingEngineConsumer (cancelAck)

variable {ev : SequencedEvent}

/-- A cancel that resolves takes its order out of both maps, whatever the book says. -/
theorem cancel_found (h : Ledger hist acks byClient resting) {x : OrderId} {s : ExecStatus}
    (hs : reportsLeaves s = false) (hx : byClient.lookup (orderKey ev) = some x) :
    Ledger hist (acks ++ [cancelAck ev x s]) (byClient.erase (orderKey ev)) (resting.erase x) := by
  obtain ⟨info, hinfo, hkey⟩ := h.keyed _ _ hx
  obtain ⟨o, ho, hsub, _⟩ := h.owned x info hinfo
  have hopen : isOpen s = false := by cases s <;> simp_all [reportsLeaves, isOpen]
  refine h.emit (h.not_closed hinfo) ?_ (fun y hy => Finmap.lookup_erase_ne hy) ?_ ?_ ?_
    (Or.inr ⟨o, ho, hsub⟩)
  · intro hr
    simp [cancelAck, hs] at hr
  · intro q
    simp [cancelAck, hopen]
  · intro info' hx'
    simp [cancelAck] at hx'
  · rw [← hkey]
    exact h.keyed.erase hinfo

/-- A cancel that does not resolve is rejected under the id zero, which is no order's. -/
theorem cancel_unknown (h : Ledger hist acks byClient resting)
    (hpos : ∀ o ∈ hist, 1 ≤ o.seqNum) :
    Ledger hist (acks ++ [cancelAck ev 0 .rejected]) byClient resting := by
  have hzero : ∀ o ∈ hist, ¬ Submits o 0 := by
    intro o ho hsub
    have := hpos o ho
    rw [hsub.2] at this
    exact absurd this (by decide)
  have hnone : resting.lookup 0 = none := by
    cases hl : resting.lookup 0 with
    | none => rfl
    | some info =>
        obtain ⟨o, ho, hsub, _⟩ := h.owned 0 info hl
        exact absurd hsub (hzero o ho)
  refine h.emit ?_ ?_ (fun _ _ => rfl) ?_ ?_ h.keyed (Or.inl ⟨rfl, rfl⟩)
  · intro b hb hs hbz
    cases h.known b hb with
    | inl hz => rw [hz.2] at hs; exact absurd hs (by decide)
    | inr ho =>
        obtain ⟨o, hmem, hsub⟩ := ho
        have hbz' : b.exchangeOrderId = 0 := hbz
        exact hzero o hmem (hbz' ▸ hsub)
  · intro hr
    simp [cancelAck, reportsLeaves] at hr
  · intro q
    simp [cancelAck, hnone, isOpen]
  · intro info hx
    simp [cancelAck, hnone] at hx

end Cancel

end Ledger

end HftLob.Engine

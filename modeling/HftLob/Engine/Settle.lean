import HftLob.Engine.Ledger
import HftLob.Book.Inv
import Mathlib.Data.List.Forall2

/-!
# The loop over the trades of one event

Every trade of an incoming order is against a resting order of its own, found in
`resting_` with at least the traded quantity left. `settle_spec` says what the loop
makes of the two maps and which acks it sends, given that; that the book's trades
are of this kind is `Engine.Inv`.
-/

namespace HftLob.Engine

open HftLob.Book HftLob.Lib.PriceTime

variable {hist : List SequencedEvent} {acks : List OutboundAck} {id : OrderId} {side : Side}
  {tsNs : Nanos}

theorem counterparty_tradeOf {f : Entry OrderId Price} (h : f.id ≠ id) :
    counterparty id (tradeOf id side tsNs f) = f.id := by
  cases side with
  | buy => simp [counterparty, tradeOf, OrderBook.tradeWith]
  | sell => simp [counterparty, tradeOf, OrderBook.tradeWith, h]

/-- What is left in `resting_` of an order after a fill of `k`. -/
def afterFill (info : RestingOrderInfo) (k : Nat) : Option RestingOrderInfo :=
  if info.remainingQty.toNat = k then none
  else some { info with remainingQty := info.remainingQty - UInt32.ofNat k }

/-- The fills are against orders in `resting_`, each hit once and with enough left. -/
structure Resolved (id : OrderId) (resting : UMap OrderId RestingOrderInfo)
    (fills : List (Entry OrderId Price)) : Prop where
  nodup : (fills.map Entry.id).Nodup
  found : ∀ f ∈ fills, f.id ≠ id ∧ 0 < f.qty
    ∧ ∃ info, resting.lookup f.id = some info ∧ f.qty ≤ info.remainingQty.toNat

theorem Resolved.tail {resting resting' : UMap OrderId RestingOrderInfo}
    {f : Entry OrderId Price} {fills : List (Entry OrderId Price)}
    (h : Resolved id resting (f :: fills))
    (hframe : ∀ x, x ≠ f.id → resting'.lookup x = resting.lookup x) :
    Resolved id resting' fills where
  nodup := (List.nodup_cons.mp h.nodup).2
  found := by
    intro g hg
    have hne : g.id ≠ f.id := by
      intro he
      exact (List.nodup_cons.mp h.nodup).1 (he ▸ List.mem_map_of_mem hg)
    rw [hframe g.id hne]
    exact h.found g (List.mem_cons_of_mem _ hg)

/-- What the loop does, from `st` to `st'`. -/
structure Settled (hist : List SequencedEvent) (acks : List OutboundAck)
    (fills : List (Entry OrderId Price)) (st st' : FillState) : Prop where
  ledger : Ledger hist (acks ++ st'.acks) st'.byClient st'.resting
  filled : st'.filledOnIncoming.toNat = st.filledOnIncoming.toNat + (fills.map Entry.qty).sum
  /-- One ack for each fill, in order, to the owner of the order that was hit. -/
  reports : ∃ new, st'.acks = st.acks ++ new ∧ List.Forall₂ (fun f a =>
    ∃ info, st.resting.lookup f.id = some info
      ∧ a = fillAck f.id info f.price (UInt32.ofNat f.qty)) fills new
  frame : ∀ x, x ∉ fills.map Entry.id → st'.resting.lookup x = st.resting.lookup x
  hit : ∀ f ∈ fills, ∀ info, st.resting.lookup f.id = some info →
    st'.resting.lookup f.id = afterFill info f.qty
  /-- `by_client_` forgets a key only when it was the key of an order filled up. -/
  kept : ∀ k, (∀ f ∈ fills, ∀ info, st.resting.lookup f.id = some info →
    info.remainingQty.toNat = f.qty → info.key ≠ k) →
    st'.byClient.lookup k = st.byClient.lookup k

theorem toNat_ofNat_qty {n : Nat} (h : n < 2 ^ 32) : (UInt32.ofNat n).toNat = n := by
  rw [UInt32.toNat_ofNat']
  exact Nat.mod_eq_of_lt h

theorem exists_of_forall₂_mem {α β : Type} {R : α → β → Prop} {l : List α} {l' : List β} {b : β}
    (h : List.Forall₂ R l l') (hb : b ∈ l') : ∃ a ∈ l, R a b := by
  induction h with
  | nil => exact absurd hb (by simp)
  | cons hab _ ih =>
      cases List.mem_cons.mp hb with
      | inl he => exact ⟨_, List.mem_cons_self, he ▸ hab⟩
      | inr hin =>
          obtain ⟨a, ha, hr⟩ := ih hin
          exact ⟨a, List.mem_cons_of_mem _ ha, hr⟩

/-- One turn of the loop. -/
theorem ackTrade_spec {st : FillState} {f : Entry OrderId Price} {info : RestingOrderInfo}
    (hledger : Ledger hist (acks ++ st.acks) st.byClient st.resting) (hid : f.id ≠ id)
    (hinfo : st.resting.lookup f.id = some info) (hle : f.qty ≤ info.remainingQty.toNat)
    (hroom : st.filledOnIncoming.toNat + f.qty < 2 ^ 32) :
    Settled hist acks [f] st (ackTrade id st (tradeOf id side tsNs f)) := by
  have hqty : (UInt32.ofNat f.qty).toNat = f.qty := toNat_ofNat_qty (by omega)
  have hle' : UInt32.ofNat f.qty ≤ info.remainingQty := by
    rw [UInt32.le_iff_toNat_le, hqty]
    exact hle
  have hzero : info.remainingQty - UInt32.ofNat f.qty = 0 ↔ info.remainingQty.toNat = f.qty := by
    rw [← UInt32.toNat_inj, UInt32.toNat_sub_of_le _ _ hle', hqty]
    show info.remainingQty.toNat - f.qty = 0 ↔ _
    omega
  have hfilled : (st.filledOnIncoming + UInt32.ofNat f.qty).toNat
      = st.filledOnIncoming.toNat + f.qty := by
    rw [UInt32.toNat_add, hqty]
    exact Nat.mod_eq_of_lt hroom
  have htqty : (tradeOf id side tsNs f).qty = UInt32.ofNat f.qty := rfl
  have htprice : (tradeOf id side tsNs f).price = f.price := rfl
  unfold ackTrade
  rw [counterparty_tradeOf hid, hinfo, htqty, htprice]
  dsimp only
  by_cases hdone : info.remainingQty - UInt32.ofNat f.qty = 0
  · -- filled to the end: both maps forget the order
    rw [if_pos hdone]
    refine ⟨?_, ?_, ⟨_, rfl, .cons ⟨info, hinfo, rfl⟩ .nil⟩, ?_, ?_, ?_⟩
    · rw [← List.append_assoc]
      exact hledger.fill_all hinfo hle' hdone
    · simpa using hfilled
    · intro x hx
      exact Finmap.lookup_erase_ne (by simpa using hx)
    · intro g hg info' hinfo'
      rw [List.mem_singleton.mp hg] at hinfo' ⊢
      rw [hinfo] at hinfo'
      cases hinfo'
      rw [Finmap.lookup_erase, afterFill, if_pos (hzero.mp hdone)]
    · intro k hk
      exact Finmap.lookup_erase_ne
        (Ne.symm (hk f (by simp) info hinfo (hzero.mp hdone)))
  · -- some is left: `by_client_` is not touched
    rw [if_neg hdone]
    refine ⟨?_, ?_, ⟨_, rfl, .cons ⟨info, hinfo, rfl⟩ .nil⟩, ?_, ?_, fun _ _ => rfl⟩
    · rw [← List.append_assoc]
      exact hledger.fill_some hinfo hle' hdone
    · simpa using hfilled
    · intro x hx
      exact Finmap.lookup_insert_of_ne _ (by simpa using hx)
    · intro g hg info' hinfo'
      rw [List.mem_singleton.mp hg] at hinfo' ⊢
      rw [hinfo] at hinfo'
      cases hinfo'
      rw [Finmap.lookup_insert, afterFill, if_neg (fun h => hdone (hzero.mpr h))]

theorem Settled.refl {st : FillState}
    (hledger : Ledger hist (acks ++ st.acks) st.byClient st.resting) :
    Settled hist acks [] st st :=
  ⟨hledger, rfl, ⟨[], by simp, .nil⟩, fun _ _ => rfl, fun f hf => absurd hf (by simp),
    fun _ _ => rfl⟩

/-- Two turns in a row, on different orders. -/
theorem Settled.cons {st st₁ st₂ : FillState} {f : Entry OrderId Price}
    {fills : List (Entry OrderId Price)} (hnodup : ((f :: fills).map Entry.id).Nodup)
    (h₁ : Settled hist acks [f] st st₁) (h₂ : Settled hist acks fills st₁ st₂) :
    Settled hist acks (f :: fills) st st₂ := by
  have hnot : f.id ∉ fills.map Entry.id := (List.nodup_cons.mp hnodup).1
  -- the first turn leaves alone what the later ones look up
  have hsame : ∀ g ∈ fills, st₁.resting.lookup g.id = st.resting.lookup g.id := by
    intro g hg
    have hne : g.id ≠ f.id := fun he => hnot (he ▸ List.mem_map_of_mem hg)
    exact h₁.frame g.id (by simpa using hne)
  refine ⟨h₂.ledger, ?_, ?_, ?_, ?_, ?_⟩
  · have h1 := h₁.filled
    have h2 := h₂.filled
    simp only [List.map_cons, List.map_nil, List.sum_cons, List.sum_nil] at h1 ⊢
    omega
  · obtain ⟨new₁, hacks₁, hrep₁⟩ := h₁.reports
    obtain ⟨new₂, hacks₂, hrep₂⟩ := h₂.reports
    refine ⟨new₁ ++ new₂, by rw [hacks₂, hacks₁, List.append_assoc], ?_⟩
    refine List.rel_append hrep₁ ?_
    refine ((List.forall₂_and_left fills new₂).mpr ⟨hsame, hrep₂⟩).imp ?_
    intro g a hg
    obtain ⟨hg, info, hinfo, ha⟩ := hg
    exact ⟨info, hg ▸ hinfo, ha⟩
  · intro x hx
    rw [List.map_cons, List.mem_cons, not_or] at hx
    rw [h₂.frame x hx.2, h₁.frame x (by simpa using hx.1)]
  · intro g hg info hinfo
    cases List.mem_cons.mp hg with
    | inl he =>
        -- no later turn touches the first order
        subst he
        rw [h₂.frame g.id hnot]
        exact h₁.hit g (by simp) info hinfo
    | inr hin => exact h₂.hit g hin info (by rw [hsame g hin]; exact hinfo)
  · intro k hk
    rw [h₂.kept k, h₁.kept k]
    · intro g hg
      rw [List.mem_singleton.mp hg]
      exact hk f List.mem_cons_self
    · intro g hg info hinfo
      exact hk g (List.mem_cons_of_mem _ hg) info (by rw [← hsame g hg]; exact hinfo)

/-- **The whole loop.** -/
theorem settle_spec {fills : List (Entry OrderId Price)} : ∀ {st : FillState},
    Ledger hist (acks ++ st.acks) st.byClient st.resting → Resolved id st.resting fills →
    st.filledOnIncoming.toNat + (fills.map Entry.qty).sum < 2 ^ 32 →
    Settled hist acks fills st ((fills.map (tradeOf id side tsNs)).foldl (ackTrade id) st) := by
  -- on the fills, with the maps and the running total generalised
  induction fills with
  | nil =>
      intro st hledger _ _
      exact Settled.refl hledger
  | cons f fills ih =>
      intro st hledger hres hroom
      obtain ⟨hid, _, info, hinfo, hle⟩ := hres.found f List.mem_cons_self
      rw [List.map_cons, List.sum_cons] at hroom
      have hturn : Settled hist acks [f] st (ackTrade id st (tradeOf id side tsNs f)) :=
        ackTrade_spec hledger hid hinfo hle (by omega)
      rw [List.map_cons, List.foldl_cons]
      refine Settled.cons hres.nodup hturn (ih hturn.ledger (hres.tail ?_) ?_)
      · intro x hx
        exact hturn.frame x (by simpa using hx)
      · have := hturn.filled
        simp only [List.map_cons, List.map_nil, List.sum_cons, List.sum_nil] at this
        omega

/-- The loop never meets a trade whose counterparty it does not know. -/
theorem settle_found {st : FillState} {done fills : List (Entry OrderId Price)}
    {f : Entry OrderId Price} (hledger : Ledger hist (acks ++ st.acks) st.byClient st.resting)
    (hres : Resolved id st.resting (done ++ f :: fills))
    (hroom : st.filledOnIncoming.toNat + ((done ++ f :: fills).map Entry.qty).sum < 2 ^ 32) :
    ((done.map (tradeOf id side tsNs)).foldl (ackTrade id) st).resting.lookup f.id ≠ none := by
  have hnodup := hres.nodup
  rw [List.map_append, List.nodup_append] at hnodup
  have hdone : Resolved id st.resting done :=
    ⟨hnodup.1, fun g hg => hres.found g (List.mem_append_left _ hg)⟩
  have hsettled : Settled hist acks done st
      ((done.map (tradeOf id side tsNs)).foldl (ackTrade id) st) := by
    refine settle_spec hledger hdone ?_
    simp only [List.map_append, List.sum_append] at hroom
    omega
  obtain ⟨_, _, info, hinfo, _⟩ := hres.found f (by simp)
  rw [hsettled.frame f.id, hinfo]
  · simp
  · intro hf
    exact hnodup.2.2 f.id hf f.id (by simp) rfl

end HftLob.Engine

import HftLob.Bridge.Sse
import HftLob.Bridge.Finality

/-!
# Browsers see every update

At any time, what a browser shows of an order is what the bridge shows, or a broadcast of the
order is under way that has yet to reach the browser. The second part cannot be lost while a
broadcast goes through its queues. It can be where the subscribers are copied: a browser that
is not among them yet is passed over, and if its snapshot is already out, nothing will correct
it.
-/

namespace HftLob.Bridge

open HftLob.Book HftLob.Engine HftLob.Gateway HftLob.Lib

variable {τ κ : Type} {s s' : Sse τ κ}

/-! ## Views and dicts -/

theorem applyUpdates_concat (base : UInt64 → Option BlotterOrder) (updates : List BlotterOrder)
    (order : BlotterOrder) :
    applyUpdates base (updates ++ [order])
      = Function.update (applyUpdates base updates) order.clientOrderId (some order) := by
  rw [applyUpdates, List.foldl_append]
  rfl

/-- Every address leads to a dict of the order that it is listed for. -/
def Addressed (heap : List BlotterOrder) (refs : UInt64 → Option Nat) : Prop :=
  ∀ c ref, refs c = some ref → ∃ order, heap[ref]? = some order ∧ order.clientOrderId = c

section Heap

variable {heap : List BlotterOrder} {refs : UInt64 → Option Nat} {new : BlotterOrder}

/-- A new dict changes none that there are. -/
theorem Addressed.append (h : Addressed heap refs) (new : BlotterOrder) :
    Addressed (heap ++ [new]) refs
      ∧ ∀ c, (refs c).bind ((heap ++ [new])[·]?) = (refs c).bind (heap[·]?) := by
  have hkeep : ∀ c ref, refs c = some ref → (heap ++ [new])[ref]? = heap[ref]? := by
    intro c ref hc
    obtain ⟨order, hget, _⟩ := h c ref hc
    exact List.getElem?_append_left (List.getElem?_eq_some_iff.mp hget).1
  refine ⟨fun c ref hc => ?_, fun c => ?_⟩
  · rw [hkeep c ref hc]
    exact h c ref hc
  · cases hc : refs c with
    | none => rfl
    | some ref => exact hkeep c ref hc

/-- A change to the dict of one order changes no other. -/
theorem Addressed.set (h : Addressed heap refs) {ref : Nat} {old : BlotterOrder}
    (hold : heap[ref]? = some old) (hid : new.clientOrderId = old.clientOrderId) :
    Addressed (heap.set ref new) refs
      ∧ ∀ c, c ≠ old.clientOrderId →
        (refs c).bind ((heap.set ref new)[·]?) = (refs c).bind (heap[·]?) := by
  obtain ⟨hlt, _⟩ := List.getElem?_eq_some_iff.mp hold
  refine ⟨fun c ref' hc => ?_, fun c hne => ?_⟩
  · obtain ⟨order, hget, horder⟩ := h c ref' hc
    by_cases href : ref = ref'
    · subst href
      rw [hold, Option.some.injEq] at hget
      refine ⟨new, List.getElem?_set_self hlt, ?_⟩
      rw [hid, hget, horder]
    · exact ⟨order, by rw [List.getElem?_set_ne href]; exact hget, horder⟩
  · cases hc : refs c with
    | none => rfl
    | some ref' =>
        obtain ⟨order, hget, horder⟩ := h c ref' hc
        have href : ref ≠ ref' := by
          rintro rfl
          rw [hold, Option.some.injEq] at hget
          exact hne (by rw [hget, horder])
        exact List.getElem?_set_ne href

end Heap

/-! ## The invariant -/

/-- The thread still has to tell this browser about the order. -/
def Awaits (heap : List BlotterOrder) (phase : Phase κ) (k : κ) (c : UInt64) : Prop :=
  ∃ order, phase.order heap = some order ∧ order.clientOrderId = c
    ∧ ∀ rest, phase = .putting order rest → k ∈ rest

/-- The number that a thread in `submit_new_order` has. -/
def Phase.number (heap : List BlotterOrder) (phase : Phase κ) : Option UInt64 :=
  (phase.drawnOrder.map NewOrderMsg.clientOrderId).or
    ((phase.order heap).map BlotterOrder.clientOrderId)

theorem Phase.number_of_order {heap : List BlotterOrder} {phase : Phase κ} {order : BlotterOrder}
    (h : phase.order heap = some order) : phase.number heap = some order.clientOrderId := by
  unfold Phase.number
  rw [h]
  cases phase with
  | drawn new => exact absurd h (by simp [Phase.order])
  | idle | entered ref | copied order' | putting order' rest => rfl

/-- The browser has its snapshot. -/
def Client.connected : Client → Bool
  | snapped _ | written _ | subscribed _ _ => true
  | waiting | gone => false

/-- The browser has been in a list of subscribers, if any. -/
def Client.listed : Client → Bool
  | subscribed _ _ | gone => true
  | waiting | snapped _ | written _ => false

structure SseInv (s : Sse τ κ) : Prop where
  orders : Addressed s.heap s.orders
  snapped : ∀ k refs, s.clients k = .snapped refs → Addressed s.heap refs
  entered : ∀ t ref, s.threads t = .entered ref → ref < s.heap.length
  /-- What is under way is what is shown. -/
  current : ∀ t order, (s.threads t).order s.heap = some order →
    s.shown order.clientOrderId = some order
  bound : ∀ t c, (s.threads (some t)).number s.heap = some c → c.toNat ≤ s.orderCounter
  apart : ∀ t t' c, (s.threads (some t)).number s.heap = some c →
    (s.threads (some t')).number s.heap = some c → t = t'
  subscribers : ∀ k, k ∈ s.subscribers ↔ ∃ base updates, s.clients k = .subscribed base updates
  targets : ∀ t order rest, s.threads t = .putting order rest →
    ∀ k ∈ rest, (s.clients k).listed
  seen : ∀ k, (s.clients k).connected → ∀ c,
    (s.clients k).view s.heap c = s.shown c ∨ ∃ t, Awaits s.heap (s.threads t) k c

theorem sseInv_init : SseInv (Sse.init : Sse τ κ) where
  orders := fun c ref h => absurd h (by simp [Sse.init])
  snapped := fun k refs h => absurd h (by simp [Sse.init])
  entered := fun t ref h => absurd h (by simp [Sse.init])
  current := fun t order h => absurd h (by simp [Sse.init, Phase.order])
  bound := fun t c h => absurd h (by simp [Sse.init, Phase.number, Phase.order, Phase.drawnOrder])
  apart := fun t t' c h =>
    absurd h (by simp [Sse.init, Phase.number, Phase.order, Phase.drawnOrder])
  subscribers := fun k => by simp [Sse.init]
  targets := fun t order rest h => absurd h (by simp [Sse.init])
  seen := fun k h => absurd h (by simp [Sse.init, Client.connected])

/-! ## A thread goes on -/

/-- A thread keeps its number as long as it keeps its order. -/
theorem SseInv.same_number (h : SseInv s) {t : Option τ} {phase : Phase κ} {order : BlotterOrder}
    (horder : (s.threads t).order s.heap = some order) (hphase : phase.order s.heap = some order) :
    ∀ t₀ c, t = some t₀ → phase.number s.heap = some c →
      c.toNat ≤ s.orderCounter ∧ ∀ t', (s.threads (some t')).number s.heap = some c → t₀ = t' := by
  rintro t₀ c rfl hc
  rw [Phase.number_of_order hphase, ← Phase.number_of_order horder] at hc
  exact ⟨h.bound t₀ c hc, fun t' ht' => h.apart t₀ t' c hc ht'⟩

section Threads

variable [DecidableEq τ]

/-- A thread moves on with the order it has, or with none. -/
theorem SseInv.setThread (h : SseInv s) {t : Option τ} {phase : Phase κ}
    (hentered : ∀ ref, phase ≠ .entered ref)
    (horder : ∀ order, phase.order s.heap = some order →
      s.shown order.clientOrderId = some order)
    (hnumber : ∀ t₀ c, t = some t₀ → phase.number s.heap = some c →
      c.toNat ≤ s.orderCounter ∧ ∀ t', (s.threads (some t')).number s.heap = some c → t₀ = t')
    (htargets : ∀ order rest, phase = .putting order rest → ∀ k ∈ rest, (s.clients k).listed)
    (hseen : ∀ k, (s.clients k).connected → ∀ c, Awaits s.heap (s.threads t) k c →
      (s.clients k).view s.heap c = s.shown c ∨ Awaits s.heap phase k c) :
    SseInv (s.setThread t phase) where
  orders := h.orders
  snapped := h.snapped
  entered := by
    intro t' ref hphase
    by_cases ht : t' = t
    · rw [ht, Sse.setThread_self] at hphase
      exact absurd hphase (hentered ref)
    · rw [Sse.setThread_of_ne s ht] at hphase
      exact h.entered t' ref hphase
  current := by
    intro t' order hphase
    by_cases ht : t' = t
    · rw [ht, Sse.setThread_self] at hphase
      exact horder order hphase
    · rw [Sse.setThread_of_ne s ht] at hphase
      exact h.current t' order hphase
  bound := by
    intro t' c hc
    by_cases ht : some t' = t
    · rw [ht, Sse.setThread_self] at hc
      exact (hnumber t' c ht.symm hc).1
    · rw [Sse.setThread_of_ne s ht] at hc
      exact h.bound t' c hc
  apart := by
    intro t₁ t₂ c h₁ h₂
    by_cases ht₁ : some t₁ = t
    · rw [ht₁, Sse.setThread_self] at h₁
      by_cases ht₂ : some t₂ = t
      · exact Option.some.inj (ht₁.trans ht₂.symm)
      · rw [Sse.setThread_of_ne s ht₂] at h₂
        exact (hnumber t₁ c ht₁.symm h₁).2 t₂ h₂
    · rw [Sse.setThread_of_ne s ht₁] at h₁
      by_cases ht₂ : some t₂ = t
      · rw [ht₂, Sse.setThread_self] at h₂
        exact ((hnumber t₂ c ht₂.symm h₂).2 t₁ h₁).symm
      · rw [Sse.setThread_of_ne s ht₂] at h₂
        exact h.apart t₁ t₂ c h₁ h₂
  subscribers := h.subscribers
  targets := by
    intro t' order rest hphase
    by_cases ht : t' = t
    · rw [ht, Sse.setThread_self] at hphase
      exact htargets order rest hphase
    · rw [Sse.setThread_of_ne s ht] at hphase
      exact h.targets t' order rest hphase
  seen := by
    intro k hk c
    rcases h.seen k hk c with hview | ⟨t', hawaits⟩
    · exact Or.inl hview
    · by_cases ht : t' = t
      · rw [ht] at hawaits
        rcases hseen k hk c hawaits with hview | hphase
        · exact Or.inl hview
        · refine Or.inr ⟨t, ?_⟩
          rw [Sse.setThread_self]
          exact hphase
      · refine Or.inr ⟨t', ?_⟩
        rw [Sse.setThread_of_ne s ht]
        exact hawaits

end Threads

/-! ## An order changes -/

/-- The dict of the order `c` is changed to `new`, or is a new one. -/
structure Changes (heap heap' : List BlotterOrder) (orders orders' : UInt64 → Option Nat)
    (c : UInt64) (new : BlotterOrder) : Prop where
  addressed : Addressed heap' orders'
  self : (orders' c).bind (heap'[·]?) = some new
  others : ∀ c', c' ≠ c → (orders' c').bind (heap'[·]?) = (orders c').bind (heap[·]?)
  refs : ∀ refs, Addressed heap refs → Addressed heap' refs
    ∧ ∀ c', c' ≠ c → (refs c').bind (heap'[·]?) = (refs c').bind (heap[·]?)
  kept : ∀ (ref : Nat) (order : BlotterOrder), heap[ref]? = some order → order.clientOrderId ≠ c →
    heap'[ref]? = some order
  grows : heap.length ≤ heap'.length

theorem changes_insert {heap : List BlotterOrder} {orders : UInt64 → Option Nat} {c : UInt64}
    {new : BlotterOrder} (h : Addressed heap orders) (hid : new.clientOrderId = c) :
    Changes heap (heap ++ [new]) orders (Function.update orders c (some heap.length)) c new where
  addressed := by
    intro c' ref hc
    by_cases hcc : c' = c
    · rw [hcc, Function.update_self, Option.some.injEq] at hc
      exact ⟨new, by rw [← hc, List.getElem?_concat_length], by rw [hid, hcc]⟩
    · rw [Function.update_of_ne hcc] at hc
      exact (h.append new).1 c' ref hc
  self := by
    rw [Function.update_self]
    exact List.getElem?_concat_length
  others := by
    intro c' hcc
    rw [Function.update_of_ne hcc]
    exact (h.append new).2 c'
  refs := fun refs hrefs => ⟨(hrefs.append new).1, fun c' _ => (hrefs.append new).2 c'⟩
  kept := by
    intro ref order hget _
    rw [List.getElem?_append_left (List.getElem?_eq_some_iff.mp hget).1]
    exact hget
  grows := by
    rw [List.length_append]
    omega

theorem changes_set {heap : List BlotterOrder} {orders : UInt64 → Option Nat} {c : UInt64}
    {ref : Nat} {new : BlotterOrder} (h : Addressed heap orders) (href : orders c = some ref)
    (hid : new.clientOrderId = c) : Changes heap (heap.set ref new) orders orders c new := by
  obtain ⟨old, hold, hc⟩ := h c ref href
  have hsame : new.clientOrderId = old.clientOrderId := hid.trans hc.symm
  obtain ⟨hlt, _⟩ := List.getElem?_eq_some_iff.mp hold
  refine ⟨(h.set hold hsame).1, ?_, ?_, ?_, ?_, ?_⟩
  · rw [href]
    exact List.getElem?_set_self hlt
  · exact fun c' hne => (h.set hold hsame).2 c' (hc.symm ▸ hne)
  · exact fun refs hrefs =>
      ⟨(hrefs.set hold hsame).1, fun c' hne => (hrefs.set hold hsame).2 c' (hc.symm ▸ hne)⟩
  · intro ref' order hget hne
    have href' : ref ≠ ref' := by
      rintro rfl
      rw [hold, Option.some.injEq] at hget
      exact hne (hget ▸ hc)
    rw [List.getElem?_set_ne href']
    exact hget
  · rw [List.length_set]

section Change

variable {heap' : List BlotterOrder} {orders' : UInt64 → Option Nat} {c : UInt64}
  {new : BlotterOrder}

theorem Changes.order_eq (hch : Changes s.heap heap' s.orders orders' c new) {phase : Phase κ}
    (hvalid : ∀ ref, phase = .entered ref → ref < s.heap.length)
    (hfree : ∀ order, phase.order s.heap = some order → order.clientOrderId ≠ c) :
    phase.order heap' = phase.order s.heap := by
  cases phase with
  | entered ref =>
      obtain ⟨order, hget⟩ : ∃ order, s.heap[ref]? = some order :=
        ⟨_, List.getElem?_eq_getElem (hvalid ref rfl)⟩
      exact (hch.kept ref order hget (hfree order hget)).trans hget.symm
  | idle | drawn order | copied order | putting order rest => rfl

theorem Changes.view_eq (hch : Changes s.heap heap' s.orders orders' c new) {client : Client}
    (hsnapped : ∀ refs, client = .snapped refs → Addressed s.heap refs) {c' : UInt64}
    (hne : c' ≠ c) : client.view heap' c' = client.view s.heap c' := by
  cases client with
  | snapped refs => exact (hch.refs refs (hsnapped refs rfl)).2 c' hne
  | waiting | written base | subscribed base updates | gone => rfl

variable [DecidableEq τ]

/-- A thread that has had nothing to broadcast changes an order, which no other thread has
under way, and begins to broadcast it. -/
theorem SseInv.change (h : SseInv s) (hch : Changes s.heap heap' s.orders orders' c new)
    (hid : new.clientOrderId = c)
    (hfree : ∀ t order, (s.threads t).order s.heap = some order → order.clientOrderId ≠ c)
    {t : Option τ} {phase : Phase κ} (hnone : (s.threads t).order s.heap = none)
    (hphase : phase.order heap' = some new) (hput : ∀ order rest, phase ≠ .putting order rest)
    (hentered : ∀ ref, phase = .entered ref → ref < heap'.length)
    (hnumber : ∀ t₀, t = some t₀ → phase.number heap' = (s.threads t).number s.heap) :
    SseInv ({ s with heap := heap', orders := orders' }.setThread t phase) := by
  have horder : ∀ t', (s.threads t').order heap' = (s.threads t').order s.heap :=
    fun t' => hch.order_eq (h.entered t') (hfree t')
  -- the numbers are what they were, in every thread that submits
  have hnumbers : ∀ t', (({ s with heap := heap', orders := orders' }.setThread t phase).threads
      (some t')).number heap' = (s.threads (some t')).number s.heap := by
    intro t'
    by_cases ht : some t' = t
    · rw [ht, Sse.setThread_self]
      exact hnumber t' ht.symm
    · rw [Sse.setThread_of_ne _ ht]
      unfold Phase.number
      rw [horder (some t')]
  refine ⟨hch.addressed, ?_, ?_, ?_, ?_, ?_, h.subscribers, ?_, ?_⟩
  · exact fun k refs hk => (hch.refs refs (h.snapped k refs hk)).1
  · intro t' ref ht'
    by_cases ht : t' = t
    · rw [ht, Sse.setThread_self] at ht'
      exact hentered ref ht'
    · rw [Sse.setThread_of_ne _ ht] at ht'
      exact Nat.lt_of_lt_of_le (h.entered t' ref ht') hch.grows
  · intro t' order ht'
    by_cases ht : t' = t
    · rw [ht, Sse.setThread_self] at ht'
      obtain rfl : new = order := Option.some.inj (hphase.symm.trans ht')
      rw [hid]
      exact hch.self
    · rw [Sse.setThread_of_ne _ ht] at ht'
      have hold : (s.threads t').order s.heap = some order := (horder t').symm.trans ht'
      exact (hch.others _ (hfree t' order hold)).trans (h.current t' order hold)
  · exact fun t' c' hc' => h.bound t' c' ((hnumbers t').symm.trans hc')
  · exact fun t₁ t₂ c' h₁ h₂ =>
      h.apart t₁ t₂ c' ((hnumbers t₁).symm.trans h₁) ((hnumbers t₂).symm.trans h₂)
  · intro t' order rest ht'
    by_cases ht : t' = t
    · rw [ht, Sse.setThread_self] at ht'
      exact absurd ht' (hput order rest)
    · rw [Sse.setThread_of_ne _ ht] at ht'
      exact h.targets t' order rest ht'
  · intro k hk c'
    by_cases hc : c' = c
    · -- whatever the browser shows, it will be told
      refine Or.inr ⟨t, new, ?_, hid.trans hc.symm, ?_⟩
      · rw [Sse.setThread_self]
        exact hphase
      · intro rest hrest
        rw [Sse.setThread_self] at hrest
        exact absurd hrest (hput new rest)
    · rcases h.seen k hk c' with hview | ⟨t', order, ho, hoid, hrest⟩
      · refine Or.inl ?_
        have hview' := hch.view_eq (h.snapped k) hc
        exact hview'.trans (hview.trans (hch.others c' hc).symm)
      · have ht : t' ≠ t := by
          rintro rfl
          exact absurd (hnone.symm.trans ho) (by simp)
        refine Or.inr ⟨t', order, ?_, hoid, ?_⟩
        · rw [Sse.setThread_of_ne _ ht]
          exact (horder t').trans ho
        · rw [Sse.setThread_of_ne _ ht]
          exact hrest

end Change

/-! ## A browser goes on -/

/-- A browser in the list of a broadcast shows the order once it is told. -/
theorem view_put {order : BlotterOrder} {client : Client} {heap : List BlotterOrder}
    (hlisted : client.listed) (hconnected : (client.put order).connected) :
    (client.put order).view heap order.clientOrderId = some order := by
  cases client with
  | subscribed base updates =>
      dsimp only [Client.put, Client.view]
      rw [applyUpdates_concat, Function.update_self]
  | gone => exact absurd hconnected (by simp [Client.put, Client.connected])
  | waiting | snapped _ | written _ => exact absurd hlisted (by simp [Client.listed])

section Clients

variable [DecidableEq κ]

theorem SseInv.setClient (h : SseInv s) {k : κ} {client : Client} (subs : List κ)
    (hsnapped : ∀ refs, client = .snapped refs → Addressed s.heap refs)
    (hsubs : ∀ k', k' ∈ subs ↔ ∃ base updates,
      (s.setClient k client).clients k' = .subscribed base updates)
    (hlisted : (s.clients k).listed → client.listed)
    (hseen : client.connected → ∀ c,
      client.view s.heap c = s.shown c ∨ ∃ t, Awaits s.heap (s.threads t) k c) :
    SseInv ({ s with subscribers := subs }.setClient k client) where
  orders := h.orders
  snapped := by
    intro k' refs hk'
    by_cases hk : k' = k
    · rw [hk, Sse.setClient_self] at hk'
      exact hsnapped refs hk'
    · rw [Sse.setClient_of_ne _ hk] at hk'
      exact h.snapped k' refs hk'
  entered := h.entered
  current := h.current
  bound := h.bound
  apart := h.apart
  subscribers := hsubs
  targets := by
    intro t order rest hphase k' hk'
    have hold := h.targets t order rest hphase k' hk'
    by_cases hk : k' = k
    · rw [hk, Sse.setClient_self]
      exact hlisted (hk ▸ hold)
    · rw [Sse.setClient_of_ne _ hk]
      exact hold
  seen := by
    intro k' hconnected c
    by_cases hk : k' = k
    · rw [hk, Sse.setClient_self] at hconnected ⊢
      exact hseen hconnected c
    · rw [Sse.setClient_of_ne _ hk] at hconnected ⊢
      exact h.seen k' hconnected c

/-- A browser that is not subscribed, before or after. -/
theorem SseInv.subscribers_of_ne (h : SseInv s) {k : κ} {client : Client}
    (hold : ∀ base updates, s.clients k ≠ .subscribed base updates)
    (hnew : ∀ base updates, client ≠ .subscribed base updates) (k' : κ) :
    k' ∈ s.subscribers ↔ ∃ base updates,
      (s.setClient k client).clients k' = .subscribed base updates := by
  rw [h.subscribers]
  by_cases hk : k' = k
  · rw [hk, Sse.setClient_self]
    simp only [hold, hnew]
  · rw [Sse.setClient_of_ne _ hk]

/-- A message with the order as it is now goes into a queue. -/
theorem SseInv.told (h : SseInv s) {order : BlotterOrder}
    (hcurrent : s.shown order.clientOrderId = some order) (k : κ) :
    SseInv (s.setClient k ((s.clients k).put order)) := by
  refine h.setClient s.subscribers ?_ (fun k' => ?_) ?_ ?_
  · intro refs hrefs
    refine h.snapped k refs ?_
    cases hk : s.clients k with
    | subscribed base updates => rw [hk] at hrefs; exact absurd hrefs (by simp [Client.put])
    | waiting | snapped _ | written _ | gone => rw [hk] at hrefs; exact hrefs
  · rw [h.subscribers]
    by_cases hk : k' = k
    · rw [hk, Sse.setClient_self]
      cases s.clients k <;> simp [Client.put]
    · rw [Sse.setClient_of_ne _ hk]
  · cases s.clients k <;> exact id
  · intro hconnected c
    have hold := h.seen k
    cases hk : s.clients k with
    | subscribed base updates =>
        rw [hk] at hold
        dsimp only [Client.put, Client.view] at hold ⊢
        rw [applyUpdates_concat]
        by_cases hc : c = order.clientOrderId
        · rw [hc, Function.update_self, hcurrent]
          exact Or.inl rfl
        · rw [Function.update_of_ne hc]
          exact hold rfl c
    | waiting | snapped _ | written _ | gone =>
        rw [hk] at hold hconnected
        exact hold hconnected c

end Clients

/-! ## The steps -/

section Steps

variable [DecidableEq τ] [DecidableEq κ]

theorem SseInv.draw (h : SseInv s) {t : τ} {side : Side} {price quantity : Int}
    (hs : s.step (.draw t side price quantity) = some s') : SseInv s' := by
  dsimp only [Sse.step] at hs
  split at hs
  case h_2 => exact absurd hs (by simp)
  case h_1 hidle =>
    have hcount : SseInv { s with orderCounter := s.orderCounter + 1 } :=
      ⟨h.orders, h.snapped, h.entered, h.current,
        fun t' c hc => Nat.le_succ_of_le (h.bound t' c hc), h.apart, h.subscribers,
        h.targets, h.seen⟩
    cases hdraw : drawOrder (s.orderCounter + 1) side price quantity with
    | none => rw [hdraw] at hs; cases hs; exact hcount
    | some order =>
        rw [hdraw] at hs
        cases hs
        obtain ⟨hid, hlt⟩ := drawOrder_id hdraw
        refine hcount.setThread (by simp) (by simp [Phase.order]) ?_ (by simp) ?_
        · intro t₀ c _ hc
          have hc : order.clientOrderId = c := Option.some.inj hc
          have hnat : c.toNat = s.orderCounter + 1 := by rw [← hc, hid, toNat_ofNat_seq hlt]
          refine ⟨Nat.le_of_eq hnat, fun t' ht' => ?_⟩
          have := h.bound t' c ht'
          omega
        · rintro k _ c ⟨o, ho, _⟩
          dsimp only at ho
          rw [hidle] at ho
          exact absurd ho (by simp [Phase.order])

theorem SseInv.enter (h : SseInv s) {t : τ} {now : Int} (hseen : UpdatesSeen s (.enter t now))
    (hs : s.step (.enter t now) = some s') : SseInv s' := by
  dsimp only [Sse.step] at hs
  split at hs
  case h_2 => exact absurd hs (by simp)
  case h_1 new hdrawn =>
    cases hs
    have hnum : (s.threads (some t)).number s.heap = some new.clientOrderId := by
      rw [hdrawn]
      rfl
    have hentered : (Phase.entered s.heap.length : Phase κ).order
        (s.heap ++ [submittedOrder new now]) = some (submittedOrder new now) :=
      List.getElem?_concat_length
    refine h.change (changes_insert h.orders rfl) rfl ?_ (by rw [hdrawn]; rfl) hentered (by simp)
      (by simp) ?_
    · intro t' order ho
      cases t' with
      | none => exact hseen new (by rw [hdrawn]; rfl) order ho
      | some t' =>
          -- another thread has another number
          intro he
          have hnum' := (Phase.number_of_order ho).trans (congrArg some he)
          obtain rfl := h.apart t t' _ hnum hnum'
          rw [hdrawn] at ho
          exact absurd ho (by simp [Phase.order])
    · intro t₀ _
      rw [hnum]
      exact Phase.number_of_order hentered

theorem handleReport_id {entry : Option BlotterOrder} {report : ExecutionReportMsg} {now : Int}
    (h : ∀ order, entry = some order → order.clientOrderId = report.clientOrderId) :
    (handleReport entry report now).clientOrderId = report.clientOrderId := by
  cases entry with
  | none => rfl
  | some order => exact h order rfl

theorem SseInv.report (h : SseInv s) {report : ExecutionReportMsg} {now : Int}
    (hseen : UpdatesSeen s (.report report now)) (hs : s.step (.report report now) = some s') :
    SseInv s' := by
  dsimp only [Sse.step] at hs
  split at hs
  case h_2 => exact absurd hs (by simp)
  case h_1 hidle =>
    cases hs
    have hid : (handleReport (s.shown report.clientOrderId) report now).clientOrderId
        = report.clientOrderId := by
      refine handleReport_id fun order ho => ?_
      obtain ⟨ref, href, hget⟩ := Option.bind_eq_some_iff.mp ho
      obtain ⟨order', hget', horder'⟩ := h.orders _ ref href
      rw [Option.some.inj (hget.symm.trans hget'), horder']
    have hnone : (s.threads none).order s.heap = none := by rw [hidle]; rfl
    unfold Sse.handle
    cases href : s.orders report.clientOrderId with
    | some ref =>
        exact h.change (changes_set h.orders href hid) hid (fun t order ho => hseen t order ho)
          hnone rfl (by simp) (by simp) (by simp)
    | none =>
        exact h.change (changes_insert h.orders hid) hid (fun t order ho => hseen t order ho)
          hnone rfl (by simp) (by simp) (by simp)

/-- A broadcast goes on to the next browser. -/
theorem SseInv.put (h : SseInv s) {t : Option τ} {order : BlotterOrder} {k : κ} {rest : List κ}
    (hphase : s.threads t = .putting order (k :: rest)) :
    SseInv ((s.setClient k ((s.clients k).put order)).setThread t (.putting order rest)) := by
  have horder : (s.threads t).order s.heap = some order := by rw [hphase]; rfl
  have hcurrent := h.current t order horder
  have hlisted := h.targets t order _ hphase k List.mem_cons_self
  have htold := h.told hcurrent k
  refine htold.setThread (by simp) ?_ (htold.same_number horder rfl) ?_ ?_
  · intro order' ho'
    obtain rfl : order = order' := Option.some.inj ho'
    exact hcurrent
  · intro order' rest' hrest k' hk'
    obtain ⟨_, rfl⟩ := Phase.putting.inj hrest
    exact htold.targets t order _ hphase k' (List.mem_cons_of_mem _ hk')
  · rintro k' hconnected c ⟨order', ho', hid, hrest⟩
    obtain rfl : order = order' := Option.some.inj (horder.symm.trans ho')
    rcases List.mem_cons.mp (hrest _ hphase) with rfl | hmem
    · refine Or.inl ?_
      rw [Sse.setClient_self] at hconnected ⊢
      rw [← hid]
      exact (view_put hlisted hconnected).trans hcurrent.symm
    · refine Or.inr ⟨order, rfl, hid, fun rest' hrest' => ?_⟩
      obtain ⟨_, rfl⟩ := Phase.putting.inj hrest'
      exact hmem

/-- The next step of a broadcast. A browser that is passed over when the subscribers are copied
has the order in its snapshot. -/
theorem SseInv.advance (h : SseInv s) {t : Option τ} (hseen : UpdatesSeen s (.advance t))
    (hs : s.step (.advance t) = some s') : SseInv s' := by
  dsimp only [Sse.step] at hs
  split at hs
  case h_1 ref hphase =>
    obtain ⟨order, hget, rfl⟩ := Option.map_eq_some_iff.mp hs
    have horder : (s.threads t).order s.heap = some order := by rw [hphase]; exact hget
    refine h.setThread (by simp) ?_ (h.same_number horder rfl) (by simp) ?_
    · intro order' ho'
      obtain rfl : order = order' := Option.some.inj ho'
      exact h.current t order horder
    · rintro k _ c ⟨order', ho', hid, _⟩
      obtain rfl : order = order' := Option.some.inj (horder.symm.trans ho')
      exact Or.inr ⟨order, rfl, hid, by simp⟩
  case h_2 order hphase =>
    cases hs
    have horder : (s.threads t).order s.heap = some order := by rw [hphase]; rfl
    refine h.setThread (by simp) ?_ (h.same_number horder rfl) ?_ ?_
    · intro order' ho'
      obtain rfl : order = order' := Option.some.inj ho'
      exact h.current t order horder
    · intro order' rest hrest k hk
      obtain ⟨_, rfl⟩ := Phase.putting.inj hrest
      obtain ⟨base, updates, hclient⟩ := (h.subscribers k).mp hk
      rw [hclient]
      rfl
    · rintro k hk c ⟨order', ho', hid, _⟩
      obtain rfl : order = order' := Option.some.inj (horder.symm.trans ho')
      cases hclient : s.clients k with
      | subscribed base updates =>
          refine Or.inr ⟨order, rfl, hid, fun rest hrest => ?_⟩
          obtain ⟨_, rfl⟩ := Phase.putting.inj hrest
          exact (h.subscribers k).mpr ⟨base, updates, hclient⟩
      | snapped _ | written _ =>
          refine Or.inl ?_
          rw [← hclient, ← hid, h.current t order horder]
          exact hseen order (by rw [hphase]; rfl) k (by rw [hclient]; rfl)
      | waiting | gone => rw [hclient] at hk; exact absurd hk (by simp [Client.connected])
  case h_3 order k rest hphase =>
    cases hs
    exact h.put hphase
  case h_4 order hphase =>
    cases hs
    refine h.setThread (by simp) (by simp [Phase.order])
      (by simp [Phase.number, Phase.order, Phase.drawnOrder]) (by simp) ?_
    rintro k _ c ⟨order', ho', _, hrest⟩
    rw [hphase] at ho' hrest
    obtain rfl : order = order' := Option.some.inj ho'
    exact absurd (hrest [] rfl) List.not_mem_nil
  case h_5 => exact absurd hs (by simp)

theorem SseInv.snapshot (h : SseInv s) {k : κ} (hs : s.step (.snapshot k) = some s') :
    SseInv s' := by
  dsimp only [Sse.step] at hs
  split at hs
  case h_2 => exact absurd hs (by simp)
  case h_1 hwaiting =>
    cases hs
    refine h.setClient s.subscribers ?_ ?_ (by rw [hwaiting]; simp [Client.listed]) ?_
    · intro refs hrefs
      obtain rfl := Client.snapped.inj hrefs
      exact h.orders
    · exact h.subscribers_of_ne (by simp [hwaiting]) (by simp)
    · exact fun _ c => Or.inl rfl

theorem SseInv.write (h : SseInv s) {k : κ} (hs : s.step (.write k) = some s') : SseInv s' := by
  dsimp only [Sse.step] at hs
  split at hs
  case h_2 => exact absurd hs (by simp)
  case h_1 refs hsnapped =>
    cases hs
    refine h.setClient s.subscribers (by simp) ?_
      (by rw [hsnapped]; simp [Client.listed]) ?_
    · exact h.subscribers_of_ne (by simp [hsnapped]) (by simp)
    · intro _ c
      have hold := h.seen k (by rw [hsnapped]; rfl) c
      rw [hsnapped] at hold
      exact hold

theorem SseInv.subscribe (h : SseInv s) {k : κ} (hs : s.step (.subscribe k) = some s') :
    SseInv s' := by
  dsimp only [Sse.step] at hs
  split at hs
  case h_2 => exact absurd hs (by simp)
  case h_1 base hwritten =>
    cases hs
    refine h.setClient (s.subscribers ++ [k]) (by simp) (fun k' => ?_) (fun _ => rfl) ?_
    · rw [List.mem_append, h.subscribers, List.mem_singleton]
      by_cases hk : k' = k
      · rw [hk, Sse.setClient_self]
        exact iff_of_true (Or.inr rfl) ⟨base, [], rfl⟩
      · rw [Sse.setClient_of_ne _ hk]
        exact or_iff_left hk
    · intro _ c
      have hold := h.seen k (by rw [hwritten]; rfl) c
      rw [hwritten] at hold
      exact hold

theorem SseInv.leave (h : SseInv s) {k : κ} (hs : s.step (.leave k) = some s') : SseInv s' := by
  cases hs
  refine h.setClient (s.subscribers.filter (· ≠ k)) (by simp) (fun k' => ?_) (fun _ => rfl)
    (by simp [Client.connected])
  rw [List.mem_filter, h.subscribers]
  by_cases hk : k' = k
  · rw [hk, Sse.setClient_self]
    simp
  · rw [Sse.setClient_of_ne _ hk]
    simp [hk]

theorem sseInv_step {a : SseAction τ κ} (h : SseInv s) (hseen : UpdatesSeen s a)
    (hs : s.step a = some s') : SseInv s' := by
  cases a with
  | draw t side price quantity => exact h.draw hs
  | enter t now => exact h.enter hseen hs
  | report report now => exact h.report hseen hs
  | advance t => exact h.advance hseen hs
  | snapshot k => exact h.snapshot hs
  | write k => exact h.write hs
  | subscribe k => exact h.subscribe hs
  | leave k => exact h.leave hs

/-- **No browser misses an update** in a run in which whoever is passed over by a broadcast has
the order in the snapshot, and no two threads have the same order to broadcast: once no
broadcast is under way, every browser shows what the bridge shows. -/
theorem no_update_missed (actions : List (SseAction τ κ)) (s : Sse τ κ)
    (hrun : Machine.exec Sse.step Sse.init actions = some s)
    (hseen : Machine.Along Sse.step UpdatesSeen Sse.init actions)
    (hdone : ∀ t, (s.threads t).order s.heap = none) (k : κ) (hk : k ∈ s.subscribers)
    (c : UInt64) : (s.clients k).view s.heap c = s.shown c := by
  have hinv : SseInv s := Machine.exec_invariant
    (fun _ _ _ hs hC ht => sseInv_step hs hC ht) actions _ s sseInv_init hseen hrun
  obtain ⟨base, updates, hclient⟩ := (hinv.subscribers k).mp hk
  rcases hinv.seen k (by rw [hclient]; rfl) c with hview | ⟨t, order, ho, _⟩
  · exact hview
  · exact absurd ((hdone t).symm.trans ho) (by simp)

end Steps

/-- One browser is there from the beginning. The other has listed the order when a report on it
comes in, and writes its snapshot behind the broadcast. -/
theorem no_update_missed_two_browsers :
    let actions : List (SseAction Unit (Fin 2)) :=
      [.snapshot 0, .write 0, .subscribe 0, .draw () .buy 100 5, .enter () 10, .advance (some ()),
       .advance (some ()), .advance (some ()), .advance (some ()), .snapshot 1,
       .report ⟨1, 1, .accepted, 0, 0, 5⟩ 11, .advance none, .advance none, .advance none,
       .write 1, .subscribe 1]
    let accepted : BlotterOrder := ⟨1, 1, some .buy, 100, 5, .reported .accepted, 0, 0, 5, 11⟩
    ∃ s, Machine.exec Sse.step Sse.init actions = some s ∧ s.shown 1 = some accepted
      ∧ ∀ k, (s.clients k).view s.heap 1 = some accepted := by
  intro actions accepted
  have hend : ((Machine.exec Sse.step Sse.init actions).map fun s => (s.shown 1, s.subscribers))
      = some (some accepted, [0, 1]) := by decide +kernel
  have hdone : ∀ s ∈ Machine.exec Sse.step Sse.init actions,
      ∀ t, (s.threads t).order s.heap = none := by decide +kernel
  obtain ⟨s, hs, hshown⟩ := Option.map_eq_some_iff.mp hend
  rw [Prod.mk.injEq] at hshown
  refine ⟨s, hs, hshown.1, fun k => ?_⟩
  rw [← hshown.1]
  refine no_update_missed actions s hs (by decide +kernel) (hdone s hs) k ?_ 1
  rw [hshown.2]
  revert k
  decide

/-- A fill is broadcast between the snapshot of a browser and its subscription. When everything
is done, the browser still shows the order as submitted. -/
theorem update_missed_before_subscribe :
    let actions : List (SseAction Unit Unit) :=
      [.draw () .buy 100 5, .enter () 10, .advance (some ()), .advance (some ()),
       .advance (some ()), .snapshot (), .write (), .report ⟨1, 1, .filled, 100, 5, 0⟩ 11,
       .advance none, .advance none, .subscribe ()]
    ∃ s, Machine.exec Sse.step Sse.init actions = some s
      ∧ (∀ t, (s.threads t).order s.heap = none) ∧ () ∈ s.subscribers
      ∧ s.shown 1 = some ⟨1, 1, some .buy, 100, 5, .reported .filled, 100, 5, 0, 11⟩
      ∧ (s.clients ()).view s.heap 1
        = some ⟨1, 0, some .buy, 100, 5, .submitted, 0, 0, 5, 10⟩ := by
  intro actions
  have hend : ((Machine.exec Sse.step Sse.init actions).map fun s =>
      (s.shown 1, (s.clients ()).view s.heap 1, s.subscribers))
      = some (some ⟨1, 1, some .buy, 100, 5, .reported .filled, 100, 5, 0, 11⟩,
          some ⟨1, 0, some .buy, 100, 5, .submitted, 0, 0, 5, 10⟩, [()]) := by decide +kernel
  have hdone : ∀ s ∈ Machine.exec Sse.step Sse.init actions,
      ∀ t, (s.threads t).order s.heap = none := by decide +kernel
  obtain ⟨s, hs, hshown⟩ := Option.map_eq_some_iff.mp hend
  rw [Prod.mk.injEq, Prod.mk.injEq] at hshown
  obtain ⟨hfilled, hview, hsubs⟩ := hshown
  exact ⟨s, hs, hdone s hs, by rw [hsubs]; exact List.mem_singleton.mpr rfl, hfilled, hview⟩

end HftLob.Bridge

import HftLob.Bridge.Blotter

/-!
# What the blotter shows of a finished order

The bridge uses a number of its counter for one order. So the reports with this number are
about one order, and the engine sends none behind the one that closes it. What is left are the
answers to cancels, which carry the same number: the engine rejects a cancel of an order that
it does not know any more, and the rejection replaces what the blotter shows.
-/

namespace HftLob.Bridge

open HftLob.Book HftLob.Engine HftLob.Gateway HftLob.Lib

variable {cap : PoolCapacity} {s s' : Blotter cap}

/-! ## Where a number is -/

/-- The numbers of the orders among the requests. -/
def requestIds (requests : List Request) : List UInt64 :=
  requests.filterMap fun
    | .newOrder order => some order.clientOrderId
    | .cancelOrder _ => none

/-- All numbers in use, from the handler threads to the engine. -/
def Blotter.numbers (s : Blotter cap) : List UInt64 :=
  s.drawn.map NewOrderMsg.clientOrderId ++ requestIds s.unsent ++ requestIds s.wire
    ++ orderIds s.conn s.world.pending ++ orderIds s.conn s.world.applied

/-- Every number is in one place, and the counter has passed it. -/
structure Counted (numbers : List UInt64) (counter : Nat) : Prop where
  nodup : numbers.Nodup
  bound : ∀ c ∈ numbers, c.toNat ≤ counter

theorem Counted.of_count_le {l l' : List UInt64} {n n' : Nat} (h : Counted l n) (hn : n ≤ n')
    (hcount : ∀ c, l'.count c ≤ l.count c) : Counted l' n' where
  nodup := by
    refine List.nodup_iff_count_le_one.mpr fun c => ?_
    have := List.nodup_iff_count_le_one.mp h.nodup c
    have := hcount c
    omega
  bound := by
    intro c hc
    have hpos := List.count_pos_iff.mpr hc
    have hmem : c ∈ l := List.count_pos_iff.mp (by have := hcount c; omega)
    have := h.bound c hmem
    omega

/-- The next number is a new one. -/
theorem Counted.next {l : List UInt64} {n : Nat} (h : Counted l n) (hn : n + 1 < 2 ^ 64) :
    Counted (UInt64.ofNat (n + 1) :: l) (n + 1) where
  nodup := by
    refine List.nodup_cons.mpr ⟨fun hmem => ?_, h.nodup⟩
    have := h.bound _ hmem
    rw [toNat_ofNat_seq hn] at this
    omega
  bound := by
    intro c hc
    rcases List.mem_cons.mp hc with rfl | hc
    · rw [toNat_ofNat_seq hn]
    · have := h.bound c hc
      omega

theorem eraseIdx_perm {α : Type} {l : List α} {i : Nat} {x : α} (h : l[i]? = some x) :
    (x :: l.eraseIdx i).Perm l := by
  obtain ⟨hi, rfl⟩ := List.getElem?_eq_some_iff.mp h
  exact List.getElem_cons_eraseIdx_perm hi

theorem requestIds_append (l l' : List Request) :
    requestIds (l ++ l') = requestIds l ++ requestIds l' := List.filterMap_append

theorem count_requestIds_eraseIdx {l : List Request} {i : Nat} {r : Request}
    (h : l[i]? = some r) (c : UInt64) :
    (requestIds l).count c = (requestIds [r]).count c + (requestIds (l.eraseIdx i)).count c := by
  have hperm : (requestIds (r :: l.eraseIdx i)).Perm (requestIds l) :=
    (eraseIdx_perm h).filterMap _
  rw [← hperm.count_eq c, ← List.count_append, ← requestIds_append]
  rfl

/-! ## The reader thread -/

/-- Whatever is shown as finished has been reported so. -/
structure Shown (orders : UInt64 → Option BlotterOrder) (reports : List ExecutionReportMsg)
    (handled : Nat) : Prop where
  read : handled ≤ reports.length
  closed : ∀ c order, orders c = some order → order.Finished →
    ∃ r ∈ reports.take handled, closes r.status ∧ r.clientOrderId = c

section Shown

variable {orders : UInt64 → Option BlotterOrder} {reports reports' : List ExecutionReportMsg}
  {handled : Nat}

theorem Shown.mono (h : Shown orders reports handled) (hpre : reports <+: reports') :
    Shown orders reports' handled := by
  obtain ⟨more, rfl⟩ := hpre
  refine ⟨?_, ?_⟩
  · rw [List.length_append]
    have := h.read
    omega
  · rw [List.take_append_of_le_length h.read]
    exact h.closed

theorem Shown.submit (h : Shown orders reports handled) (order : NewOrderMsg) (now : Int) :
    Shown (Function.update orders order.clientOrderId (some (submittedOrder order now))) reports
      handled := by
  refine ⟨h.read, fun c o ho hfin => ?_⟩
  by_cases hc : c = order.clientOrderId
  · subst hc
    rw [Function.update_self, Option.some.injEq] at ho
    rw [← ho] at hfin
    exact absurd hfin (by simp [BlotterOrder.Finished, submittedOrder])
  · rw [Function.update_of_ne hc] at ho
    exact h.closed c o ho hfin

theorem Shown.handle (h : Shown orders reports handled) {r : ExecutionReportMsg}
    (hr : reports[handled]? = some r) (now : Int) :
    Shown (Function.update orders r.clientOrderId
      (some (handleReport (orders r.clientOrderId) r now))) reports (handled + 1) := by
  obtain ⟨hlt, hget⟩ := List.getElem?_eq_some_iff.mp hr
  have htake : reports.take (handled + 1) = reports.take handled ++ [r] := by
    rw [List.take_add_one, hr]
    rfl
  refine ⟨by omega, fun c o ho hfin => ?_⟩
  rw [htake]
  by_cases hc : c = r.clientOrderId
  · subst hc
    rw [Function.update_self, Option.some.injEq] at ho
    refine ⟨r, by simp, ?_, rfl⟩
    rw [← ho] at hfin
    rcases hfin with hs | hs
    · rw [OrderStatus.reported.inj hs]
      rfl
    · rw [OrderStatus.reported.inj hs]
      rfl
  · rw [Function.update_of_ne hc] at ho
    obtain ⟨r', hr', hrest⟩ := h.closed c o ho hfin
    exact ⟨r', List.mem_append_left _ hr', hrest⟩

/-- The next report is not about an order that is shown as finished. -/
theorem Shown.next_ne (h : Shown orders reports handled)
    (hfinal : reports.Pairwise fun a b => closes a.status → b.clientOrderId ≠ a.clientOrderId)
    {r : ExecutionReportMsg} (hr : reports[handled]? = some r) {c : UInt64} {order : BlotterOrder}
    (ho : orders c = some order) (hfin : order.Finished) : r.clientOrderId ≠ c := by
  obtain ⟨r', hr', hcloses, rfl⟩ := h.closed c order ho hfin
  obtain ⟨hlt, rfl⟩ := List.getElem?_eq_some_iff.mp hr
  -- the closing report is among the ones handled before
  rw [← List.take_append_drop handled reports] at hfinal
  refine (List.pairwise_append.mp hfinal).2.2 r' hr' _ ?_ hcloses
  rw [List.drop_eq_getElem_cons hlt]
  exact List.mem_cons_self

end Shown

/-! ## The invariant -/

structure BlotterInv (s : Blotter cap) : Prop where
  holder : HolderInv s.world s.fd s.conn
  final : FinalInv s.world s.fd s.conn
  counted : Counted s.numbers s.orderCounter
  shown : Shown s.orders (written s.world s.conn) s.handled

/-- A number that is not with the engine yet is not in a closing report. -/
theorem BlotterInv.stillOpen (h : BlotterInv s) {c : UInt64}
    (hc : c ∈ s.drawn.map NewOrderMsg.clientOrderId ++ requestIds s.unsent ++ requestIds s.wire
      ++ orderIds s.conn s.world.pending) :
    StillOpen (allReports s.world s.fd s.conn) c := by
  intro r hr hcloses he
  have happlied := h.final.entered r hr hcloses
  exact (List.nodup_append.mp h.counted.nodup).2.2 c hc _ happlied he.symm

theorem BlotterInv.draw (h : BlotterInv s) {side : Side} {price quantity : Int}
    {order : NewOrderMsg}
    (horder : drawOrder (s.orderCounter + 1) side price quantity = some order) :
    BlotterInv { s with orderCounter := s.orderCounter + 1, drawn := s.drawn ++ [order] } := by
  obtain ⟨hid, hlt⟩ := drawOrder_id horder
  refine ⟨h.holder, h.final, ?_, h.shown⟩
  refine (h.counted.next hlt).of_count_le (Nat.le_refl _) fun c => ?_
  simp only [Blotter.numbers, List.map_append, List.map_cons, List.map_nil, hid,
    List.count_append, List.count_cons, List.count_nil]
  omega

theorem BlotterInv.enter (h : BlotterInv s) {i : Nat} {order : NewOrderMsg}
    (hi : s.drawn[i]? = some order) (now : Int) :
    BlotterInv { s with
      drawn := s.drawn.eraseIdx i
      unsent := s.unsent ++ [.newOrder order]
      orders := Function.update s.orders order.clientOrderId
        (some (submittedOrder order now)) } := by
  refine ⟨h.holder, h.final, ?_, h.shown.submit order now⟩
  refine h.counted.of_count_le (Nat.le_refl _) fun c => ?_
  have hperm := ((eraseIdx_perm hi).map NewOrderMsg.clientOrderId).count_eq c
  have hone : requestIds [.newOrder order] = [order.clientOrderId] := rfl
  simp only [Blotter.numbers, requestIds_append, List.count_append, hone]
  rw [List.map_cons, List.count_cons] at hperm
  rw [List.count_cons, List.count_nil]
  omega

theorem BlotterInv.cancel (h : BlotterInv s) (clientOrderId : UInt64) :
    BlotterInv { s with unsent := s.unsent ++ [.cancelOrder clientOrderId] } := by
  refine ⟨h.holder, h.final, h.counted.of_count_le (Nat.le_refl _) fun c => ?_, h.shown⟩
  have hnone : requestIds [.cancelOrder clientOrderId] = [] := rfl
  simp only [Blotter.numbers, requestIds_append, List.count_append, hnone]
  rw [List.count_nil]
  omega

theorem BlotterInv.send (h : BlotterInv s) {i : Nat} {r : Request}
    (hi : s.unsent[i]? = some r) :
    BlotterInv { s with unsent := s.unsent.eraseIdx i, wire := s.wire ++ [r] } := by
  refine ⟨h.holder, h.final, h.counted.of_count_le (Nat.le_refl _) fun c => ?_, h.shown⟩
  have hcount := count_requestIds_eraseIdx hi c
  simp only [Blotter.numbers, requestIds_append, List.count_append]
  omega

theorem BlotterInv.refuse (h : BlotterInv s) {i : Nat} {r : Request}
    (hi : s.unsent[i]? = some r) : BlotterInv { s with unsent := s.unsent.eraseIdx i } := by
  refine ⟨h.holder, h.final, h.counted.of_count_le (Nat.le_refl _) fun c => ?_, h.shown⟩
  have hcount := count_requestIds_eraseIdx hi c
  simp only [Blotter.numbers, List.count_append]
  omega

/-! ## The gateway's steps -/

/-- The event that the gateway makes of a frame. -/
def Request.event (fd : UInt32) : Request → SequencedEvent
  | newOrder order => World.newOrderEvent fd order
  | cancelOrder clientOrderId => World.cancelOrderEvent fd clientOrderId

theorem step_action (w : World cap) (fd : UInt32) (queued : Bool) (r : Request) :
    w.step (r.action fd queued) = w.pushEvent fd (r.event fd) queued := by
  cases r <;> rfl

theorem orderIds_event (fd : UInt32) (conn : Nat) (r : Request) :
    orderIds conn [(r.event fd, conn)] = requestIds [r] := by
  cases r <;> simp [orderIds, requestIds, Request.event, World.newOrderEvent,
    World.cancelOrderEvent]

theorem written_grows (w : World cap) (conn : Nat) (r : Report) :
    written w conn <+: written { w with reports := w.reports ++ [r] } conn :=
  ⟨_, (written_report w conn r).symm⟩

/-- An order that the gateway turns away has a number that no closing report has. -/
theorem BlotterInv.refusable (h : BlotterInv s) (hnext : NextRefusable s) {r : Request}
    {wire : List Request} (hwire : s.wire = r :: wire) :
    StillOpen (written s.world s.conn) (r.event s.fd).clientOrderId := by
  cases r with
  | newOrder order =>
      have hmem : order.clientOrderId ∈ requestIds s.wire := by
        rw [hwire]
        exact List.mem_cons_self
      have hopen := h.stillOpen (List.mem_append_left _ (List.mem_append_right _ hmem))
      exact fun r hr => hopen r (List.mem_append_left _ hr)
  | cancelOrder c => exact hnext c (by rw [hwire]; rfl)

theorem BlotterInv.dispatch (h : BlotterInv s) {queued : Bool}
    (hintime : CancelsInTime s (.dispatch queued)) {r : Request} {wire : List Request}
    {w : World cap} (hwire : s.wire = r :: wire)
    (hw : s.world.step (r.action s.fd queued) = some w) :
    BlotterInv { s with world := w, wire := wire } := by
  rw [step_action] at hw
  have hfd : (r.event s.fd).sessionId = s.fd := by cases r <;> rfl
  have hids : ∀ c, (requestIds s.wire).count c
      = (requestIds [r]).count c + (requestIds wire).count c := by
    intro c
    rw [hwire, ← List.count_append, ← requestIds_append]
    rfl
  obtain ⟨k, hk, ⟨rfl, rfl⟩ | ⟨rfl, rfl⟩⟩ := World.pushEvent_cases hw
  · obtain rfl : k = s.conn := (h.holder.lookup_iff hk).mpr rfl
    refine ⟨h.holder.push (by rw [hfd]; exact hk), h.final.frame _ _ _, ?_, h.shown⟩
    refine h.counted.of_count_le (Nat.le_refl _) fun c => ?_
    have hc := hids c
    simp only [Blotter.numbers, orderIds_append, List.count_append]
    rw [orderIds_event]
    omega
  · -- the queue is full
    obtain rfl : k = s.conn := (h.holder.lookup_iff hk).mpr rfl
    refine ⟨h.holder.frame _ _, h.final.reject (h.refusable hintime hwire), ?_,
      h.shown.mono (written_grows _ _ _)⟩
    refine h.counted.of_count_le (Nat.le_refl _) fun c => ?_
    have hc := hids c
    simp only [Blotter.numbers, List.count_append]
    omega

/-- A request on another connection changes nothing for the bridge. -/
theorem BlotterInv.pushEvent_other (h : BlotterInv s) {fd : UInt32} {ev : SequencedEvent}
    {queued : Bool} (hne : fd ≠ s.fd) (hev : ev.sessionId = fd) {w : World cap}
    (hw : s.world.pushEvent fd ev queued = some w) : BlotterInv { s with world := w } := by
  obtain ⟨k, hk, ⟨_, rfl⟩ | ⟨_, rfl⟩⟩ := World.pushEvent_cases hw
  · have hconn : k ≠ s.conn := fun hc => hne ((h.holder.lookup_iff hk).mp hc)
    refine ⟨h.holder.push (by rw [hev]; exact hk), h.final.frame _ _ _, ?_, h.shown⟩
    refine h.counted.of_count_le (Nat.le_refl _) fun c => ?_
    have hnone : orderIds s.conn [(ev, k)] = [] := by simp [orderIds, hconn]
    simp only [Blotter.numbers, orderIds_append, hnone, List.append_nil]
    exact Nat.le_refl _
  · have hconn : k ≠ s.conn := fun hc => hne ((h.holder.lookup_iff hk).mp hc)
    exact ⟨h.holder.frame _ _, h.final.reject_other hconn, h.counted,
      h.shown.mono (written_grows _ _ _)⟩

theorem BlotterInv.process (h : BlotterInv s) (hnext : NextApplicable s) {ts : UInt64}
    {w : World cap} (hw : s.world.step (.process ts) = some w)
    (hlen : w.applied.length < 2 ^ 64) : BlotterInv { s with world := w } := by
  obtain ⟨ev, k, pending, hp, rfl⟩ := World.process_cases hw
  have hmem : (ev, k) ∈ s.world.pending := by rw [hp]; exact List.mem_cons_self
  have hev : k = s.conn ↔ (s.world.stamp ts ev).sessionId = s.fd := h.holder.pending _ hmem
  have hstamped := stamped_concat h.holder.stamped ts ev k
  have hlen' : (s.world.applied ++ [(s.world.stamp ts ev, k)]).length < 2 ^ 64 := hlen
  have hseq := hstamped.sequenced (by rw [List.length_map]; exact hlen')
  -- the event moves from one list to the other, and its number with it
  have hcounted : Counted (Blotter.numbers { s with
      world := { s.world with pending := pending }.applyEvent (s.world.stamp ts ev) k })
      s.orderCounter := by
    refine h.counted.of_count_le (Nat.le_refl _) fun c => ?_
    have hsame : orderIds s.conn [(s.world.stamp ts ev, k)] = orderIds s.conn [(ev, k)] := by
      by_cases hown : k = s.conn ∧ ev.type = .newOrder
      · simp [orderIds, World.stamp, hown]
      · simp [orderIds, World.stamp, hown]
    have hhead : orderIds s.conn s.world.pending
        = orderIds s.conn [(ev, k)] ++ orderIds s.conn pending := by
      rw [hp, ← orderIds_append]
      rfl
    simp only [Blotter.numbers, World.applyEvent, orderIds_append, hsame, hhead,
      List.count_append]
    omega
  have hnodup : (orderIds s.conn (s.world.applied ++ [(s.world.stamp ts ev, k)])).Nodup :=
    (List.nodup_append.mp hcounted.nodup).2.1
  have hholder : HolderInv { s.world with pending := pending } s.fd s.conn :=
    ⟨h.holder.stamped, h.holder.engine, h.holder.connected, h.holder.alone,
      fun p hp' => h.holder.pending p (by rw [hp]; exact List.mem_cons_of_mem _ hp'),
      h.holder.resting⟩
  have hfinal : FinalInv { s.world with pending := pending } s.fd s.conn :=
    h.final.frame _ _ pending
  refine ⟨hholder.applyEvent hstamped hlen' hev,
    hfinal.applyEvent hholder hseq hev hnodup fun hk htype => ?_, hcounted, h.shown⟩
  exact hnext (ev, k) (by rw [hp]; rfl) hk htype

theorem BlotterInv.gateway (h : BlotterInv s) {a : Action}
    (hintime : CancelsInTime s (.gateway a)) {w : World cap} (helse : Elsewhere s.fd a)
    (hw : s.world.step a = some w) (hlen : w.applied.length < 2 ^ 64) :
    BlotterInv { s with world := w } := by
  cases a with
  | accept fd =>
      obtain ⟨hfree, rfl⟩ := World.accept_cases hw
      exact ⟨h.holder.accept hfree, h.final.frame _ _ _, h.counted, h.shown⟩
  | close fd =>
      obtain rfl := World.close_cases hw
      exact ⟨h.holder.close helse, h.final.frame _ _ _, h.counted, h.shown⟩
  | newOrder fd order queued => exact h.pushEvent_other helse rfl hw
  | cancelOrder fd clientOrderId queued => exact h.pushEvent_other helse rfl hw
  | process ts => exact h.process hintime hw hlen
  | drain =>
      obtain ⟨_, hpre⟩ := h.holder.drain_reports hw
      have hcounted : Counted (Blotter.numbers { s with world := w }) s.orderCounter := by
        obtain ⟨_, _, _, _, ⟨_, rfl⟩ | ⟨_, _, rfl⟩⟩ := World.drain_cases hw <;> exact h.counted
      exact ⟨h.holder.drain hw, h.final.drain h.holder hw, hcounted, h.shown.mono hpre⟩

theorem blotterInv_step {a : BlotterAction} (h : BlotterInv s) (hintime : CancelsInTime s a)
    (hs : s.step a = some s') (hlen : s'.world.applied.length < 2 ^ 64) : BlotterInv s' := by
  cases Blotter.moves_of_step hs with
  | spend side price quantity =>
      exact ⟨h.holder, h.final, h.counted.of_count_le (Nat.le_succ _) fun _ => Nat.le_refl _,
        h.shown⟩
  | draw horder => exact h.draw horder
  | enter hi now => exact h.enter hi now
  | cancel clientOrderId => exact h.cancel clientOrderId
  | send hi => exact h.send hi
  | refuse hi => exact h.refuse hi
  | dispatch hwire hw => exact h.dispatch hintime hwire hw
  | gateway helse hw => exact h.gateway hintime helse hw hlen
  | handle hnext now => exact ⟨h.holder, h.final, h.counted, h.shown.handle hnext now⟩

/-! ## Every run -/

theorem step_applied_le {a : BlotterAction} (hs : s.step a = some s') :
    s.world.applied.length ≤ s'.world.applied.length := by
  cases Blotter.moves_of_step hs with
  | dispatch _ hw => exact World.step_applied_le hw
  | gateway _ hw => exact World.step_applied_le hw
  | spend | draw | enter | cancel | send | refuse | handle => exact Nat.le_refl _

/-- One step leaves an order that is shown as finished as it is. -/
theorem BlotterInv.keeps (h : BlotterInv s) {a : BlotterAction} (hs : s.step a = some s')
    {c : UInt64} {order : BlotterOrder} (ho : s.orders c = some order) (hfin : order.Finished) :
    s'.orders c = some order := by
  cases Blotter.moves_of_step hs with
  | @enter i new hi now =>
      -- the number of a new order has not been reported on
      have hne : c ≠ new.clientOrderId := by
        obtain ⟨r, hr, hcloses, hc⟩ := h.shown.closed c order ho hfin
        have hmem := List.mem_map_of_mem (f := NewOrderMsg.clientOrderId)
          (List.mem_of_getElem? hi)
        have hopen := h.stillOpen (List.mem_append_left _ (List.mem_append_left _
          (List.mem_append_left _ hmem)))
        exact hc ▸ hopen r (List.mem_append_left _ (List.mem_of_mem_take hr)) hcloses
      exact (Function.update_of_ne hne _ _).trans ho
  | handle hnext now =>
      have hfinal := (List.pairwise_append.mp h.final.final).1
      have hne := h.shown.next_ne hfinal hnext ho hfin
      exact (Function.update_of_ne hne.symm _ _).trans ho
  | spend | draw | cancel | send | refuse | dispatch | gateway => exact ho

theorem blotterInv_start {w w' : World cap} {fd : UInt32} (h : NumberedInv w)
    (hquiet : Quiet w fd) (hw : w.step (.accept fd) = some w')
    (hlen : w'.applied.length < 2 ^ 64) : BlotterInv (Blotter.start w' fd w.accepted) := by
  have happlied : w'.applied = w.applied := by rw [(World.accept_cases hw).2]
  obtain ⟨hholder, hfinal⟩ := h.begin (happlied ▸ hlen) hquiet hw
  obtain ⟨_, rfl⟩ := World.accept_cases hw
  have hnone : Blotter.numbers (Blotter.start { w with
      connections := w.connections.insert fd w.accepted
      accepted := w.accepted + 1 } fd w.accepted) = [] := by
    have hpending := orderIds_eq_nil h.pending
    have happlied := orderIds_eq_nil h.applied
    simp [Blotter.numbers, Blotter.start, requestIds, hpending, happlied]
  refine ⟨hholder, hfinal, ?_, ⟨Nat.zero_le _, ?_⟩⟩
  · rw [hnone]
    exact ⟨List.nodup_nil, fun c hc => absurd hc List.not_mem_nil⟩
  · exact fun c order ho => absurd ho (by simp [Blotter.start])

/-- The stamps do not wrap before the end of a run, so they do not wrap on the way. -/
theorem blotterInv_exec {actions : List BlotterAction}
    (h : s.world.applied.length < 2 ^ 64 → BlotterInv s)
    (hintime : Machine.Along Blotter.step CancelsInTime s actions)
    (hs : Machine.exec Blotter.step s actions = some s') :
    s'.world.applied.length < 2 ^ 64 → BlotterInv s' :=
  Machine.exec_invariant (I := fun u => u.world.applied.length < 2 ^ 64 → BlotterInv u)
    (fun _ _ _ hu hC hv hlen =>
      blotterInv_step (hu (Nat.lt_of_le_of_lt (step_applied_le hv) hlen)) hC hv hlen)
    actions s s' h hintime hs

/-- A run leaves an order that is shown as finished as it is. -/
theorem keeps_exec {actions : List BlotterAction}
    (h : s.world.applied.length < 2 ^ 64 → BlotterInv s)
    (hintime : Machine.Along Blotter.step CancelsInTime s actions)
    (hs : Machine.exec Blotter.step s actions = some s')
    (hlen : s'.world.applied.length < 2 ^ 64) {c : UInt64} {order : BlotterOrder}
    (ho : s.orders c = some order) (hfin : order.Finished) : s'.orders c = some order := by
  have hend : s'.world.applied.length < 2 ^ 64 → BlotterInv s' ∧ s'.orders c = some order := by
    refine Machine.exec_invariant
      (I := fun u => u.world.applied.length < 2 ^ 64 → BlotterInv u ∧ u.orders c = some order)
      (fun u a v hu hC hv hlen' => ?_) actions s s' (fun hlen' => ⟨h hlen', ho⟩) hintime hs
    obtain ⟨hinv, hou⟩ := hu (Nat.lt_of_le_of_lt (step_applied_le hv) hlen')
    exact ⟨blotterInv_step hinv hC hv hlen', hinv.keeps hv hou hfin⟩
  exact (hend hlen).2

/-- **A finished order stays as it is** in every run in which no cancel is answered behind the
end of its order: whatever was shown at some point is shown from then on. -/
theorem finished_order_stays (cap : PoolCapacity) (before : List Action) (w₀ w : World cap)
    (hbefore : Machine.exec World.step (World.init cap) before = some w₀)
    (fd : UInt32) (hquiet : Quiet w₀ fd) (haccept : w₀.step (.accept fd) = some w)
    (actions later : List BlotterAction) (s t : Blotter cap)
    (hs : Machine.exec Blotter.step (Blotter.start w fd w₀.accepted) actions = some s)
    (ht : Machine.exec Blotter.step s later = some t)
    (hactions : Machine.Along Blotter.step CancelsInTime (Blotter.start w fd w₀.accepted) actions)
    (hlater : Machine.Along Blotter.step CancelsInTime s later)
    (hlen : t.world.applied.length < 2 ^ 64)
    (c : UInt64) (order : BlotterOrder) (ho : s.orders c = some order) (hfin : order.Finished) :
    t.orders c = some order := by
  have hstart := blotterInv_start (numberedInv_exec hbefore) hquiet haccept
  exact keeps_exec (blotterInv_exec hstart hactions hs) hlater ht hlen ho hfin

/-- An order is filled; another is submitted and canceled behind it. -/
theorem finished_order_stays_filled :
    let cap : PoolCapacity := ⟨4, by decide⟩
    let w : World cap := { World.init cap with connections := Finmap.insert 5 0 ∅, accepted := 1 }
    let actions : List BlotterAction :=
      [.gateway (.accept 6), .draw .buy 100 5, .enter 0 10, .send 0, .dispatch true,
       .gateway (.process 0), .gateway (.newOrder 6 ⟨9, 1, 100, 5⟩ true),
       .gateway (.process 0), .gateway .drain, .gateway .drain, .handle 11, .handle 12]
    let later : List BlotterAction :=
      [.draw .buy 99 5, .enter 0 13, .send 0, .dispatch true, .cancel 2, .send 0, .dispatch true,
       .gateway (.process 0), .gateway (.process 0), .gateway .drain, .gateway .drain,
       .gateway .drain, .handle 14, .handle 15]
    ∃ s t : Blotter cap, Machine.exec Blotter.step (Blotter.start w 5 0) actions = some s
      ∧ Machine.exec Blotter.step s later = some t
      ∧ (s.orders 1).map (fun o => (o.status, o.exchangeOrderId)) = some (.reported .filled, 1)
      ∧ t.orders 1 = s.orders 1
      ∧ (t.orders 2).map (fun o => (o.status, o.exchangeOrderId))
        = some (.reported .canceled, 3) := by
  intro cap w actions later
  have hends : ((Machine.exec Blotter.step (Blotter.start w 5 0) actions).bind fun s =>
      (Machine.exec Blotter.step s later).map fun t =>
        (s.orders 1, (t.orders 2).map (fun o => (o.status, o.exchangeOrderId)),
          t.world.applied.length))
      = some (some ⟨1, 1, some .buy, 100, 5, .reported .filled, 100, 5, 0, 12⟩,
          some (.reported .canceled, 3), 4) := by decide +kernel
  have hlater : ∀ s ∈ Machine.exec Blotter.step (Blotter.start w 5 0) actions,
      Machine.Along Blotter.step CancelsInTime s later := by decide +kernel
  obtain ⟨s, hs, ht⟩ := Option.bind_eq_some_iff.mp hends
  obtain ⟨t, ht, hshown⟩ := Option.map_eq_some_iff.mp ht
  rw [Prod.mk.injEq, Prod.mk.injEq] at hshown
  obtain ⟨hfilled, hcanceled, hlen⟩ := hshown
  refine ⟨s, t, hs, ht, by rw [hfilled]; rfl, ?_, hcanceled⟩
  rw [hfilled]
  exact finished_order_stays cap [] (World.init cap) w rfl 5 (by decide) (by rfl) actions later s t
    hs ht (by decide +kernel) (hlater s hs) (by omega) 1 _ hfilled (by decide)

/-- A cancel that loses the race against a fill: the blotter shows the order as filled, and one
report later as rejected and without its exchange order id. -/
theorem late_cancel_overwrites_fill :
    let cap : PoolCapacity := ⟨4, by decide⟩
    let w : World cap := { World.init cap with connections := Finmap.insert 5 0 ∅, accepted := 1 }
    let actions : List BlotterAction :=
      [.gateway (.accept 6), .draw .buy 100 5, .enter 0 10, .send 0, .dispatch true,
       .gateway (.newOrder 6 ⟨9, 1, 100, 5⟩ true), .cancel 1, .send 0, .dispatch true,
       .gateway (.process 0), .gateway (.process 0), .gateway (.process 0), .gateway .drain,
       .gateway .drain, .gateway .drain, .gateway .drain, .handle 11, .handle 12]
    (World.init cap).step (.accept 5) = some w
      ∧ ∃ s t : Blotter cap, Machine.exec Blotter.step (Blotter.start w 5 0) actions = some s
        ∧ s.step (.handle 13) = some t
        ∧ s.orders 1 = some ⟨1, 1, some .buy, 100, 5, .reported .filled, 100, 5, 0, 12⟩
        ∧ t.orders 1 = some ⟨1, 0, some .buy, 100, 5, .reported .rejected, 0, 0, 0, 13⟩ := by
  intro cap w actions
  have hends : ((Machine.exec Blotter.step (Blotter.start w 5 0) actions).bind fun s =>
      (s.step (.handle 13)).map fun t => (s.orders 1, t.orders 1))
      = some (some ⟨1, 1, some .buy, 100, 5, .reported .filled, 100, 5, 0, 12⟩,
          some ⟨1, 0, some .buy, 100, 5, .reported .rejected, 0, 0, 0, 13⟩) := by decide +kernel
  obtain ⟨s, hs, ht⟩ := Option.bind_eq_some_iff.mp hends
  obtain ⟨t, ht, hshown⟩ := Option.map_eq_some_iff.mp ht
  rw [Prod.mk.injEq] at hshown
  exact ⟨by rfl, s, t, hs, ht, hshown.1, hshown.2⟩

end HftLob.Bridge

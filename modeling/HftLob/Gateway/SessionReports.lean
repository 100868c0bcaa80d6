import HftLob.Gateway.Isolation

/-!
# The reports of one session

What one connection gets to read, from when it is accepted: the reports written to it, and
behind them the acks queued for its descriptor. `drain_acks` only moves the line between the
two, so a report enters in one of two places: at the end, when the engine answers an event,
or at the line, when the gateway turns a request away itself.

The client order id is all that tells a client what a report is about. If it uses every id
for one order, then behind the report that an order is filled or canceled comes no other with
its id, except the answer to a cancel that came too late.
-/

namespace HftLob.Gateway

open HftLob.Book HftLob.Engine HftLob.Lib MatchingEngineConsumer

variable {cap : PoolCapacity} {w w' : World cap} {fd : UInt32} {conn : Nat}

/-- The reports written to a connection, in order. -/
def written (w : World cap) (conn : Nat) : List ExecutionReportMsg :=
  (w.reports.filter fun r => r.connection = conn).map Report.message

/-- The reports that are still to be written to the connection with this descriptor. -/
def queuedReports (w : World cap) (fd : UInt32) : List ExecutionReportMsg :=
  (w.acks.filter fun p => p.1.sessionId = fd).map fun p => executionReport p.1

def allReports (w : World cap) (fd : UInt32) (conn : Nat) : List ExecutionReportMsg :=
  written w conn ++ queuedReports w fd

/-- The client order ids of the orders among the events that came in on a connection. -/
def orderIds (conn : Nat) (events : List (SequencedEvent × Nat)) : List UInt64 :=
  (events.filter fun p => p.2 = conn ∧ p.1.type = .newOrder).map fun p => p.1.clientOrderId

/-- The order `x` came in on the connection, under the client order id `c`. -/
def CameIn (applied : List (SequencedEvent × Nat)) (conn : Nat) (x : OrderId) (c : UInt64) : Prop :=
  ∃ p ∈ applied, p.2 = conn ∧ Submits p.1 x ∧ p.1.clientOrderId = c

section CameIn

variable {applied more : List (SequencedEvent × Nat)} {x y : OrderId} {c : UInt64}

theorem CameIn.mono (h : CameIn applied conn x c) : CameIn (applied ++ more) conn x c := by
  obtain ⟨p, hp, hrest⟩ := h
  exact ⟨p, List.mem_append_left _ hp, hrest⟩

theorem CameIn.mem_orderIds (h : CameIn applied conn x c) : c ∈ orderIds conn applied := by
  obtain ⟨p, hp, hconn, hx, hc⟩ := h
  refine List.mem_map.mpr ⟨p, List.mem_filter.mpr ⟨hp, ?_⟩, hc⟩
  exact decide_eq_true ⟨hconn, hx.1⟩

/-- An id that was used once names one order. -/
theorem CameIn.unique (hnodup : (orderIds conn applied).Nodup) (hx : CameIn applied conn x c)
    (hy : CameIn applied conn y c) : x = y := by
  obtain ⟨p, hp, hpconn, hpx, hpc⟩ := hx
  obtain ⟨q, hq, hqconn, hqy, hqc⟩ := hy
  have hpq : p = q := by
    refine List.inj_on_of_nodup_map hnodup (List.mem_filter.mpr ⟨hp, ?_⟩)
      (List.mem_filter.mpr ⟨hq, ?_⟩) (hpc.trans hqc.symm)
    · exact decide_eq_true ⟨hpconn, hpx.1⟩
    · exact decide_eq_true ⟨hqconn, hqy.1⟩
  rw [← hpx.2, hpq, hqy.2]

theorem orderIds_append (conn : Nat) (applied more : List (SequencedEvent × Nat)) :
    orderIds conn (applied ++ more) = orderIds conn applied ++ orderIds conn more := by
  rw [orderIds, List.filter_append, List.map_append, orderIds, orderIds]

/-- An order that comes in has an id that no order before it has. -/
theorem not_mem_orderIds {ev : SequencedEvent}
    (hnodup : (orderIds conn (applied ++ [(ev, conn)])).Nodup) (hnew : ev.type = .newOrder) :
    ev.clientOrderId ∉ orderIds conn applied := by
  rw [orderIds_append] at hnodup
  intro hmem
  refine (List.nodup_append.mp hnodup).2.2 _ hmem _ ?_ rfl
  refine CameIn.mem_orderIds (x := ev.seqNum) ⟨(ev, conn), List.mem_singleton.mpr rfl, rfl, ?_⟩
  exact ⟨⟨hnew, rfl⟩, rfl⟩

end CameIn

/-! ## Who an event or an order belongs to -/

/-- The connection `conn` holds the descriptor `fd`, and what carries the descriptor came in
on this connection. -/
structure HolderInv (w : World cap) (fd : UInt32) (conn : Nat) : Prop where
  stamped : Stamped (w.applied.map Prod.fst)
  engine : ∃ acks, EngineInv (w.applied.map Prod.fst) acks w.engine
  connected : w.connections.lookup fd = some conn
  alone : ∀ fd' k, w.connections.lookup fd' = some k → k < w.accepted ∧ (k = conn → fd' = fd)
  pending : ∀ p ∈ w.pending, p.2 = conn ↔ p.1.sessionId = fd
  resting : ∀ x info, w.engine.resting.lookup x = some info → info.sessionId = fd →
    CameIn w.applied conn x info.clientOrderId

/-- Behind a report that an order is filled or canceled comes none with its id. An order with
such a report has come in, and does not rest any more. -/
structure FinalInv (w : World cap) (fd : UInt32) (conn : Nat) : Prop where
  final : (allReports w fd conn).Pairwise
    fun a b => closes a.status → b.clientOrderId ≠ a.clientOrderId
  entered : ∀ a ∈ allReports w fd conn, closes a.status →
    a.clientOrderId ∈ orderIds conn w.applied
  live : ∀ x info, w.engine.resting.lookup x = some info → info.sessionId = fd →
    ∀ a ∈ allReports w fd conn, closes a.status → a.clientOrderId ≠ info.clientOrderId

/-- Delivering reports is nothing to the holder of the descriptor. -/
theorem HolderInv.frame (h : HolderInv w fd conn) (acks : List (OutboundAck × Option Nat))
    (reports : List Report) : HolderInv { w with acks := acks, reports := reports } fd conn :=
  ⟨h.stamped, h.engine, h.connected, h.alone, h.pending, h.resting⟩

/-- Connections and events that have yet to be applied are nothing to the reports. -/
theorem FinalInv.frame (h : FinalInv w fd conn) (connections : UMap UInt32 Nat) (accepted : Nat)
    (pending : List (SequencedEvent × Nat)) :
    FinalInv { w with connections := connections, accepted := accepted, pending := pending }
      fd conn :=
  ⟨h.final, h.entered, h.live⟩

theorem HolderInv.accept (h : HolderInv w fd conn) {fd' : UInt32}
    (hfree : w.connections.lookup fd' = none) :
    HolderInv { w with connections := w.connections.insert fd' w.accepted
                       accepted := w.accepted + 1 } fd conn where
  stamped := h.stamped
  engine := h.engine
  connected := by
    have hne : fd ≠ fd' := by
      rintro rfl
      exact absurd (h.connected.symm.trans hfree) (by simp)
    exact (Finmap.lookup_insert_of_ne _ hne).trans h.connected
  alone := by
    intro fd₁ k hk
    dsimp only at hk ⊢
    have hconn := (h.alone fd conn h.connected).1
    by_cases hfd : fd₁ = fd'
    · -- the new connection has a number of its own
      subst hfd
      rw [Finmap.lookup_insert, Option.some.injEq] at hk
      exact ⟨by omega, by omega⟩
    · rw [Finmap.lookup_insert_of_ne _ hfd] at hk
      obtain ⟨hlt, hsame⟩ := h.alone fd₁ k hk
      exact ⟨by omega, hsame⟩
  pending := h.pending
  resting := h.resting

theorem HolderInv.close (h : HolderInv w fd conn) {fd' : UInt32} (hne : fd' ≠ fd) :
    HolderInv { w with connections := w.connections.erase fd' } fd conn where
  stamped := h.stamped
  engine := h.engine
  connected := (Finmap.lookup_erase_ne hne.symm).trans h.connected
  alone := by
    intro fd₁ k hk
    by_cases hfd : fd₁ = fd'
    · subst hfd
      exact absurd ((Finmap.lookup_erase _ _).symm.trans hk) (by simp)
    · exact h.alone fd₁ k ((Finmap.lookup_erase_ne hfd).symm.trans hk)
  pending := h.pending
  resting := h.resting

/-- A connection that a descriptor leads to is this one exactly if the descriptor is. -/
theorem HolderInv.lookup_iff (h : HolderInv w fd conn) {fd' : UInt32} {k : Nat}
    (hk : w.connections.lookup fd' = some k) : k = conn ↔ fd' = fd := by
  refine ⟨(h.alone fd' k hk).2, ?_⟩
  rintro rfl
  exact Option.some.inj (hk.symm.trans h.connected)

theorem HolderInv.push (h : HolderInv w fd conn) {ev : SequencedEvent} {k : Nat}
    (hk : w.connections.lookup ev.sessionId = some k) :
    HolderInv { w with pending := w.pending ++ [(ev, k)] } fd conn where
  stamped := h.stamped
  engine := h.engine
  connected := h.connected
  alone := h.alone
  pending := by
    intro p hp
    rcases List.mem_append.mp hp with hold | hnew
    · exact h.pending p hold
    · rw [List.mem_singleton.mp hnew]
      exact h.lookup_iff hk
  resting := h.resting

/-! ## The reports when the gateway writes one -/

theorem written_report (w : World cap) (conn : Nat) (r : Report) :
    written { w with reports := w.reports ++ [r] } conn
      = written w conn ++ (if r.connection = conn then [r.message] else []) := by
  by_cases hr : r.connection = conn
  · simp [written, List.filter_append, hr]
  · simp [written, List.filter_append, hr]

/-- Delivering an ack moves the line between what is written and what is queued. -/
theorem HolderInv.drain_reports (h : HolderInv w fd conn) (hw : w.step .drain = some w') :
    allReports w' fd conn = allReports w fd conn ∧ written w conn <+: written w' conn := by
  obtain ⟨ack, about, acks, hacks, hcase⟩ := World.drain_cases hw
  have hqueued : queuedReports w fd = (if ack.sessionId = fd then [executionReport ack] else [])
      ++ queuedReports { w with acks := acks } fd := by
    unfold queuedReports
    rw [hacks]
    by_cases hfd : ack.sessionId = fd
    · simp [hfd]
    · simp [hfd]
  obtain ⟨hnone, rfl⟩ | ⟨k, hk, rfl⟩ := hcase
  · have hne : ack.sessionId ≠ fd := by
      rintro rfl
      exact absurd (h.connected.symm.trans hnone) (by simp)
    rw [if_neg hne, List.nil_append] at hqueued
    exact ⟨congrArg (written w conn ++ ·) hqueued.symm, List.prefix_refl _⟩
  · have hwritten := written_report { w with acks := acks } conn ⟨k, executionReport ack, about⟩
    dsimp only at hwritten
    refine ⟨?_, ⟨_, hwritten.symm⟩⟩
    rw [allReports, allReports, hwritten, hqueued]
    -- the ack is for this session exactly if it is written to this connection
    by_cases hfd : ack.sessionId = fd
    · rw [if_pos ((h.lookup_iff hk).mpr hfd), if_pos hfd, List.append_assoc]
      rfl
    · rw [if_neg (fun hc => hfd ((h.lookup_iff hk).mp hc)), if_neg hfd, List.append_nil]
      rfl

theorem HolderInv.drain (h : HolderInv w fd conn) (hw : w.step .drain = some w') :
    HolderInv w' fd conn := by
  obtain ⟨_, _, acks, _, ⟨_, rfl⟩ | ⟨_, _, rfl⟩⟩ := World.drain_cases hw
  · exact h.frame acks w.reports
  · exact h.frame acks _

theorem FinalInv.drain (hs : HolderInv w fd conn) (h : FinalInv w fd conn)
    (hw : w.step .drain = some w') : FinalInv w' fd conn := by
  obtain ⟨hsame, _⟩ := hs.drain_reports hw
  have hengine : w'.engine = w.engine := by
    obtain ⟨_, _, _, _, ⟨_, rfl⟩ | ⟨_, _, rfl⟩⟩ := World.drain_cases hw <;> rfl
  refine ⟨hsame ▸ h.final, ?_, ?_⟩
  · rw [hsame, drain_applied hw]
    exact h.entered
  · rw [hsame, hengine]
    exact h.live

/-- The gateway turns a request away on this connection. -/
theorem FinalInv.reject (h : FinalInv w fd conn) {c : UInt64}
    (hopen : ∀ a ∈ written w conn, closes a.status → a.clientOrderId ≠ c) :
    FinalInv { w with reports := w.reports ++ [⟨conn, rejectedReport c, some conn⟩] } fd conn := by
  have hall : allReports { w with reports := w.reports ++ [⟨conn, rejectedReport c, some conn⟩] }
      fd conn = written w conn ++ rejectedReport c :: queuedReports w fd := by
    rw [allReports, written_report, if_pos rfl, List.append_assoc]
    rfl
  have hrejected : ¬ closes (rejectedReport c).status := by simp [rejectedReport, closes]
  have hmem : ∀ a ∈ written w conn ++ rejectedReport c :: queuedReports w fd, closes a.status →
      a ∈ allReports w fd conn := by
    intro a ha hcloses
    rcases List.mem_append.mp ha with hw | hq
    · exact List.mem_append_left _ hw
    · rcases List.mem_cons.mp hq with rfl | hq
      · exact absurd hcloses hrejected
      · exact List.mem_append_right _ hq
  obtain ⟨hwritten, hqueued, hcross⟩ := List.pairwise_append.mp h.final
  refine ⟨?_, ?_, ?_⟩
  · rw [hall]
    refine List.pairwise_append.mpr ⟨hwritten, List.pairwise_cons.mpr ⟨?_, hqueued⟩, ?_⟩
    · exact fun _ _ hcloses => absurd hcloses hrejected
    · intro a ha b hb hcloses
      rcases List.mem_cons.mp hb with rfl | hb
      · exact (hopen a ha hcloses).symm
      · exact hcross a ha b hb hcloses
  · rw [hall]
    exact fun a ha hcloses => h.entered a (hmem a ha hcloses) hcloses
  · rw [hall]
    exact fun x info hx hfd a ha hcloses => h.live x info hx hfd a (hmem a ha hcloses) hcloses

/-- A request on another connection is turned away. -/
theorem FinalInv.reject_other (h : FinalInv w fd conn) {k : Nat} (hk : k ≠ conn) {c : UInt64} :
    FinalInv { w with reports := w.reports ++ [⟨k, rejectedReport c, some k⟩] } fd conn := by
  have hall : allReports { w with reports := w.reports ++ [⟨k, rejectedReport c, some k⟩] }
      fd conn = allReports w fd conn := by
    rw [allReports, written_report, if_neg hk, List.append_nil]
    rfl
  refine ⟨hall ▸ h.final, ?_, ?_⟩
  · rw [hall]
    exact h.entered
  · rw [hall]
    exact h.live

/-! ## The reports when the engine answers an event -/

section ApplyEvent

variable {ev : SequencedEvent} {k : Nat} {a : OutboundAck}

/-- The reports to the session that an event leads to. -/
def newReports (w : World cap) (fd : UInt32) (ev : SequencedEvent) : List ExecutionReportMsg :=
  ((w.engine.apply ev).2.filter fun ack => ack.sessionId = fd).map executionReport

theorem allReports_applyEvent (w : World cap) (fd : UInt32) (conn : Nat) (ev : SequencedEvent)
    (k : Nat) :
    allReports (w.applyEvent ev k) fd conn = allReports w fd conn ++ newReports w fd ev := by
  have hqueued : queuedReports (w.applyEvent ev k) fd
      = queuedReports w fd ++ newReports w fd ev := by
    unfold queuedReports newReports World.applyEvent
    dsimp only
    rw [List.filter_append, List.map_append, List.filter_map, List.map_map]
    rfl
  rw [allReports, hqueued, ← List.append_assoc]
  rfl

theorem mem_newReports {r : ExecutionReportMsg} (hr : r ∈ newReports w fd ev) :
    ∃ a ∈ (w.engine.apply ev).2, a.sessionId = fd ∧ executionReport a = r := by
  obtain ⟨a, ha, rfl⟩ := List.mem_map.mp hr
  obtain ⟨ha, hfd⟩ := List.mem_filter.mp ha
  exact ⟨a, ha, of_decide_eq_true hfd, rfl⟩

theorem HolderInv.applyEvent_resting (h : HolderInv w fd conn)
    (hseq : Sequenced ((w.applied ++ [(ev, k)]).map Prod.fst))
    (hev : k = conn ↔ ev.sessionId = fd) :
    ∀ x info, (w.engine.apply ev).1.resting.lookup x = some info → info.sessionId = fd →
      CameIn (w.applied ++ [(ev, k)]) conn x info.clientOrderId := by
  obtain ⟨acks, hinv⟩ := h.engine
  have hseq' : Sequenced (w.applied.map Prod.fst ++ [ev]) := by simpa using hseq
  intro x info hx hfd
  rcases hinv.apply_owner hseq'.lt hx with ⟨info₀, hx₀, hkey⟩ | ⟨hsub, hkey⟩
  · obtain ⟨hsession, hclient⟩ := OrderKey.mk.inj hkey
    exact hclient ▸ (h.resting x info₀ hx₀ (hsession.trans hfd)).mono
  · obtain ⟨hsession, hclient⟩ := OrderKey.mk.inj hkey
    exact ⟨(ev, k), by simp, hev.mpr (hsession.symm.trans hfd), hsub, hclient.symm⟩

/-- An ack that does not just turn a cancel down is about an order that came in under the id
in the ack. -/
theorem HolderInv.ack_cameIn (h : HolderInv w fd conn)
    (hseq : Sequenced ((w.applied ++ [(ev, k)]).map Prod.fst))
    (hev : k = conn ↔ ev.sessionId = fd) (ha : a ∈ (w.engine.apply ev).2)
    (hfd : a.sessionId = fd) (hnot : a.status = .rejected → ev.type ≠ .cancelOrder) :
    CameIn (w.applied ++ [(ev, k)]) conn a.exchangeOrderId a.clientOrderId := by
  obtain ⟨acks, hinv⟩ := h.engine
  have hseq' : Sequenced (w.applied.map Prod.fst ++ [ev]) := by simpa using hseq
  rcases hinv.apply_ack hseq'.lt ha with ⟨info, hinfo, hkey⟩ | ⟨hsub, hkey⟩ | ⟨htype, _, hstatus⟩
  · obtain ⟨hsession, hclient⟩ := OrderKey.mk.inj hkey
    exact hclient ▸ (h.resting _ info hinfo (hsession.trans hfd)).mono
  · obtain ⟨hsession, hclient⟩ := OrderKey.mk.inj hkey
    exact ⟨(ev, k), by simp, hev.mpr (hsession.trans hfd), hsub, hclient⟩
  · exact absurd htype (hnot hstatus)

theorem HolderInv.applyEvent (h : HolderInv w fd conn)
    (hstamped : Stamped ((w.applied ++ [(ev, k)]).map Prod.fst))
    (hlen : (w.applied ++ [(ev, k)]).length < 2 ^ 64) (hev : k = conn ↔ ev.sessionId = fd) :
    HolderInv (w.applyEvent ev k) fd conn := by
  have hseq := hstamped.sequenced (by rw [List.length_map]; exact hlen)
  refine ⟨hstamped, ?_, h.connected, h.alone, h.pending, h.applyEvent_resting hseq hev⟩
  obtain ⟨acks, hinv⟩ := h.engine
  have hinv' := engineInv_step hinv (by simpa using hseq)
  exact ⟨acks ++ (w.engine.apply ev).2, by simpa [World.applyEvent] using hinv'⟩

/-- What came before: an event has no ack for an order that was reported as closed, unless it
is a late cancel. -/
theorem FinalInv.applyEvent_cross (hs : HolderInv w fd conn) (h : FinalInv w fd conn)
    (hseq : Sequenced ((w.applied ++ [(ev, k)]).map Prod.fst))
    (hev : k = conn ↔ ev.sessionId = fd)
    (hnodup : (orderIds conn (w.applied ++ [(ev, k)])).Nodup)
    (hcancel : k = conn → ev.type = .cancelOrder → ∀ r ∈ allReports w fd conn,
      closes r.status → r.clientOrderId ≠ ev.clientOrderId)
    {r : ExecutionReportMsg} (hr : r ∈ allReports w fd conn) (hcloses : closes r.status)
    (ha : a ∈ (w.engine.apply ev).2) (hfd : a.sessionId = fd) :
    a.clientOrderId ≠ r.clientOrderId := by
  obtain ⟨acks, hinv⟩ := hs.engine
  have hseq' : Sequenced (w.applied.map Prod.fst ++ [ev]) := by simpa using hseq
  rcases hinv.apply_ack hseq'.lt ha with ⟨info, hinfo, hkey⟩ | ⟨hsub, hkey⟩ | ⟨htype, hkey, _⟩
  · obtain ⟨hsession, hclient⟩ := OrderKey.mk.inj hkey
    have hne := h.live _ info hinfo (hsession.trans hfd) r hr hcloses
    exact fun he => hne (he.symm.trans hclient.symm)
  · -- the event's own order: its id has not been used
    obtain ⟨hsession, hclient⟩ := OrderKey.mk.inj hkey
    obtain rfl : k = conn := hev.mpr (hsession.trans hfd)
    intro he
    refine not_mem_orderIds hnodup hsub.1 ?_
    rw [hclient, he]
    exact h.entered r hr hcloses
  · obtain ⟨hsession, hclient⟩ := OrderKey.mk.inj hkey
    have hne := hcancel (hev.mpr (hsession.trans hfd)) htype r hr hcloses
    exact fun he => hne (he.symm.trans hclient.symm)

/-- Among the acks of one event none follows one that closes its order. -/
theorem HolderInv.newReports_final (hs : HolderInv w fd conn)
    (hseq : Sequenced ((w.applied ++ [(ev, k)]).map Prod.fst))
    (hev : k = conn ↔ ev.sessionId = fd)
    (hnodup : (orderIds conn (w.applied ++ [(ev, k)])).Nodup) :
    (newReports w fd ev).Pairwise
      fun r s => closes r.status → s.clientOrderId ≠ r.clientOrderId := by
  by_cases htype : ev.type = .cancelOrder
  · -- a cancel has one answer
    obtain ⟨a, ha⟩ := apply_cancel_singleton w.engine htype
    unfold newReports
    rw [ha]
    refine List.pairwise_map.mpr (List.Pairwise.sublist List.filter_sublist ?_)
    exact List.pairwise_singleton _ _
  · obtain ⟨acks, hinv⟩ := hs.engine
    have hledger := (engineInv_step hinv (by simpa using hseq)).ledger
    have hpair := (List.pairwise_append.mp hledger.final_pairwise).2.1
    refine List.pairwise_map.mpr ((hpair.sublist List.filter_sublist).imp_of_mem ?_)
    intro a b ha hb hne hcloses hsame
    obtain ⟨ha, hafd⟩ := List.mem_filter.mp ha
    obtain ⟨hb, hbfd⟩ := List.mem_filter.mp hb
    have hain := hs.ack_cameIn hseq hev ha (of_decide_eq_true hafd) fun _ => htype
    have hbin := hs.ack_cameIn hseq hev hb (of_decide_eq_true hbfd) fun _ => htype
    have hclient : b.clientOrderId = a.clientOrderId := hsame
    exact hne hcloses ((hclient ▸ hbin).unique hnodup hain)

theorem not_rejected_of_closes {a : OutboundAck} (hcloses : closes a.status) :
    a.status = .rejected → ev.type ≠ .cancelOrder := by
  intro hstatus
  rw [hstatus] at hcloses
  exact absurd hcloses (by simp [closes])

theorem FinalInv.applyEvent_entered (hs : HolderInv w fd conn) (h : FinalInv w fd conn)
    (hseq : Sequenced ((w.applied ++ [(ev, k)]).map Prod.fst))
    (hev : k = conn ↔ ev.sessionId = fd) {r : ExecutionReportMsg}
    (hr : r ∈ allReports w fd conn ++ newReports w fd ev) (hcloses : closes r.status) :
    r.clientOrderId ∈ orderIds conn (w.applied ++ [(ev, k)]) := by
  rcases List.mem_append.mp hr with hold | hnew
  · rw [orderIds_append]
    exact List.mem_append_left _ (h.entered r hold hcloses)
  · obtain ⟨a, ha, hfd, rfl⟩ := mem_newReports hnew
    exact (hs.ack_cameIn hseq hev ha hfd (not_rejected_of_closes hcloses)).mem_orderIds

/-- What rests behind the event has not been reported as closed, neither before nor now. -/
theorem FinalInv.applyEvent_live (hs : HolderInv w fd conn) (h : FinalInv w fd conn)
    (hseq : Sequenced ((w.applied ++ [(ev, k)]).map Prod.fst))
    (hev : k = conn ↔ ev.sessionId = fd)
    (hnodup : (orderIds conn (w.applied ++ [(ev, k)])).Nodup) {x : OrderId}
    {info : RestingOrderInfo} (hx : (w.engine.apply ev).1.resting.lookup x = some info)
    (hfd : info.sessionId = fd) {r : ExecutionReportMsg}
    (hr : r ∈ allReports w fd conn ++ newReports w fd ev) (hcloses : closes r.status) :
    r.clientOrderId ≠ info.clientOrderId := by
  obtain ⟨acks, hinv⟩ := hs.engine
  have hseq' : Sequenced (w.applied.map Prod.fst ++ [ev]) := by simpa using hseq
  rcases List.mem_append.mp hr with hold | hnew
  · rcases hinv.apply_owner hseq'.lt hx with ⟨info₀, hx₀, hkey⟩ | ⟨hsub, hkey⟩
    · obtain ⟨hsession, hclient⟩ := OrderKey.mk.inj hkey
      exact hclient ▸ h.live x info₀ hx₀ (hsession.trans hfd) r hold hcloses
    · obtain ⟨hsession, hclient⟩ := OrderKey.mk.inj hkey
      obtain rfl : k = conn := hev.mpr (hsession.symm.trans hfd)
      intro he
      refine not_mem_orderIds hnodup hsub.1 ?_
      rw [← hclient, ← he]
      exact h.entered r hold hcloses
  · -- the id is the same, so the order is, but a closed one does not rest
    obtain ⟨a, ha, hafd, rfl⟩ := mem_newReports hnew
    have hxin := hs.applyEvent_resting hseq hev x info hx hfd
    have hain := hs.ack_cameIn hseq hev ha hafd (not_rejected_of_closes hcloses)
    have hgone := (engineInv_step hinv hseq').ledger.closed a (List.mem_append_right _ ha) hcloses
    intro he
    have hclient : a.clientOrderId = info.clientOrderId := he
    have hsame : x = a.exchangeOrderId := hxin.unique hnodup (hclient ▸ hain)
    rw [← hsame] at hgone
    exact absurd (hx.symm.trans hgone) (by simp)

theorem FinalInv.applyEvent (hs : HolderInv w fd conn) (h : FinalInv w fd conn)
    (hseq : Sequenced ((w.applied ++ [(ev, k)]).map Prod.fst))
    (hev : k = conn ↔ ev.sessionId = fd)
    (hnodup : (orderIds conn (w.applied ++ [(ev, k)])).Nodup)
    (hcancel : k = conn → ev.type = .cancelOrder → ∀ r ∈ allReports w fd conn,
      closes r.status → r.clientOrderId ≠ ev.clientOrderId) :
    FinalInv (w.applyEvent ev k) fd conn := by
  refine ⟨?_, ?_, ?_⟩
  · rw [allReports_applyEvent]
    refine List.pairwise_append.mpr ⟨h.final, hs.newReports_final hseq hev hnodup, ?_⟩
    intro r hr s hnew hcloses
    obtain ⟨a, ha, hfd, rfl⟩ := mem_newReports hnew
    exact h.applyEvent_cross hs hseq hev hnodup hcancel hr hcloses ha hfd
  · rw [allReports_applyEvent]
    exact fun r hr hcloses => h.applyEvent_entered hs hseq hev hr hcloses
  · rw [allReports_applyEvent]
    exact fun x info hx hfd r hr hcloses =>
      h.applyEvent_live hs hseq hev hnodup hx hfd hr hcloses

end ApplyEvent

/-! ## When a session begins -/

/-- No connection that has not been accepted yet is mentioned anywhere. -/
structure NumberedInv (w : World cap) : Prop where
  stamped : Stamped (w.applied.map Prod.fst)
  engine : w.applied.length < 2 ^ 64 → ∃ acks, EngineInv (w.applied.map Prod.fst) acks w.engine
  connected : ∀ fd k, w.connections.lookup fd = some k → k < w.accepted
  pending : ∀ p ∈ w.pending, p.2 < w.accepted
  applied : ∀ p ∈ w.applied, p.2 < w.accepted
  reports : ∀ r ∈ w.reports, r.connection < w.accepted

theorem numberedInv_init : NumberedInv (World.init cap) where
  stamped := rfl
  engine := fun _ => ⟨[], engineInv_init⟩
  connected := by intro fd k h; simp [World.init] at h
  pending := by intro p h; simp [World.init] at h
  applied := by intro p h; simp [World.init] at h
  reports := by intro r h; simp [World.init] at h

theorem NumberedInv.accept (h : NumberedInv w) (fd : UInt32) :
    NumberedInv { w with connections := w.connections.insert fd w.accepted
                         accepted := w.accepted + 1 } where
  stamped := h.stamped
  engine := h.engine
  connected := by
    intro fd' k hk
    dsimp only at hk ⊢
    by_cases hfd : fd' = fd
    · subst hfd
      rw [Finmap.lookup_insert, Option.some.injEq] at hk
      omega
    · rw [Finmap.lookup_insert_of_ne _ hfd] at hk
      have := h.connected fd' k hk
      omega
  pending := fun p hp => Nat.lt_succ_of_lt (h.pending p hp)
  applied := fun p hp => Nat.lt_succ_of_lt (h.applied p hp)
  reports := fun r hr => Nat.lt_succ_of_lt (h.reports r hr)

theorem NumberedInv.close (h : NumberedInv w) (fd : UInt32) :
    NumberedInv { w with connections := w.connections.erase fd } := by
  refine ⟨h.stamped, h.engine, fun fd' k hk => ?_, h.pending, h.applied, h.reports⟩
  by_cases hfd : fd' = fd
  · subst hfd
    exact absurd ((Finmap.lookup_erase _ _).symm.trans hk) (by simp)
  · exact h.connected fd' k ((Finmap.lookup_erase_ne hfd).symm.trans hk)

theorem NumberedInv.report (h : NumberedInv w) {r : Report} (hr : r.connection < w.accepted) :
    ∀ r' ∈ w.reports ++ [r], r'.connection < w.accepted := by
  intro r' hr'
  rcases List.mem_append.mp hr' with hold | hnew
  · exact h.reports r' hold
  · rw [List.mem_singleton.mp hnew]
    exact hr

theorem NumberedInv.pushEvent (h : NumberedInv w) {ev : SequencedEvent} {queued : Bool}
    (hw : w.pushEvent fd ev queued = some w') : NumberedInv w' := by
  obtain ⟨k, hk, ⟨_, rfl⟩ | ⟨_, rfl⟩⟩ := World.pushEvent_cases hw
  · refine ⟨h.stamped, h.engine, h.connected, fun p hp => ?_, h.applied, h.reports⟩
    rcases List.mem_append.mp hp with hold | hnew
    · exact h.pending p hold
    · rw [List.mem_singleton.mp hnew]
      exact h.connected fd k hk
  · exact ⟨h.stamped, h.engine, h.connected, h.pending, h.applied, h.report (h.connected fd k hk)⟩

theorem NumberedInv.process (h : NumberedInv w) {ts : UInt64}
    (hw : w.step (.process ts) = some w') : NumberedInv w' := by
  obtain ⟨ev, k, pending, hp, rfl⟩ := World.process_cases hw
  have hstamped := stamped_concat h.stamped ts ev k
  refine ⟨hstamped, fun hlen => ?_, h.connected, fun p hp' => ?_, fun p hp' => ?_, h.reports⟩
  · have hlen' : (w.applied ++ [(w.stamp ts ev, k)]).length < 2 ^ 64 := hlen
    have hseq := hstamped.sequenced (by rw [List.length_map]; exact hlen')
    obtain ⟨acks, hinv⟩ := h.engine (by rw [List.length_append] at hlen'; omega)
    have hinv' := engineInv_step hinv (by simpa using hseq)
    exact ⟨acks ++ (w.engine.apply (w.stamp ts ev)).2, by simpa [World.applyEvent] using hinv'⟩
  · exact h.pending p (by rw [hp]; exact List.mem_cons_of_mem _ hp')
  · rcases List.mem_append.mp hp' with hold | hnew
    · exact h.applied p hold
    · rw [List.mem_singleton.mp hnew]
      exact h.pending (ev, k) (by rw [hp]; exact List.mem_cons_self)

theorem numberedInv_step {a : Action} (h : NumberedInv w) (hw : w.step a = some w') :
    NumberedInv w' := by
  cases a with
  | accept fd =>
      obtain ⟨_, rfl⟩ := World.accept_cases hw
      exact h.accept fd
  | close fd =>
      obtain rfl := World.close_cases hw
      exact h.close fd
  | newOrder fd order queued => exact h.pushEvent hw
  | cancelOrder fd clientOrderId queued => exact h.pushEvent hw
  | process ts => exact h.process hw
  | drain =>
      obtain ⟨_, _, _, _, ⟨_, rfl⟩ | ⟨k, hk, rfl⟩⟩ := World.drain_cases hw
      · exact ⟨h.stamped, h.engine, h.connected, h.pending, h.applied, h.reports⟩
      · exact ⟨h.stamped, h.engine, h.connected, h.pending, h.applied,
          h.report (h.connected _ k hk)⟩

theorem World.step_applied_le {a : Action} (hw : w.step a = some w') :
    w.applied.length ≤ w'.applied.length := by
  cases a with
  | accept fd => obtain ⟨_, rfl⟩ := World.accept_cases hw; exact Nat.le_refl _
  | close fd => obtain rfl := World.close_cases hw; exact Nat.le_refl _
  | newOrder fd order queued => exact Nat.le_of_eq (congrArg _ (pushEvent_applied hw).symm)
  | cancelOrder fd c queued => exact Nat.le_of_eq (congrArg _ (pushEvent_applied hw).symm)
  | process ts =>
      obtain ⟨ev, k, pending, _, rfl⟩ := World.process_cases hw
      have hlen : (w.applied ++ [(w.stamp ts ev, k)]).length = w.applied.length + 1 := by simp
      exact Nat.le_of_succ_le hlen.symm.le
  | drain => exact Nat.le_of_eq (congrArg _ (drain_applied hw).symm)

theorem numberedInv_exec {actions : List Action}
    (hrun : Machine.exec World.step (World.init cap) actions = some w) : NumberedInv w :=
  Machine.exec_preserves (fun _ _ _ hs ht => numberedInv_step hs ht) actions _ w numberedInv_init
    hrun

theorem orderIds_eq_nil {events : List (SequencedEvent × Nat)} (h : ∀ p ∈ events, p.2 < conn) :
    orderIds conn events = [] := by
  rw [orderIds, List.map_eq_nil_iff, List.filter_eq_nil_iff]
  intro p hp
  have := h p hp
  simp only [decide_eq_true_eq, not_and]
  omega

/-- A connection that gets a quiet descriptor has a session of its own. -/
theorem NumberedInv.begin (h : NumberedInv w) (hlen : w.applied.length < 2 ^ 64)
    (hquiet : Quiet w fd) (hw : w.step (.accept fd) = some w') :
    HolderInv w' fd w.accepted ∧ FinalInv w' fd w.accepted := by
  obtain ⟨_, rfl⟩ := World.accept_cases hw
  have hreports : ∀ acc, allReports { w with connections := w.connections.insert fd w.accepted
                                             accepted := acc } fd w.accepted = [] := by
    intro acc
    rw [allReports, List.append_eq_nil_iff, written, queuedReports, List.map_eq_nil_iff,
      List.map_eq_nil_iff, List.filter_eq_nil_iff, List.filter_eq_nil_iff]
    refine ⟨fun r hr => ?_, fun p hp => ?_⟩
    · have := h.reports r hr
      simp only [decide_eq_true_eq]
      omega
    · simpa using hquiet.2.2 p hp
  refine ⟨⟨h.stamped, h.engine hlen, Finmap.lookup_insert _, ?_, ?_, ?_⟩, ⟨?_, ?_, ?_⟩⟩
  · intro fd' k hk
    refine ⟨(h.accept fd).connected fd' k hk, fun he => ?_⟩
    by_contra hfd
    have := h.connected fd' k ((Finmap.lookup_insert_of_ne _ hfd).symm.trans hk)
    omega
  · intro p hp
    have hlt := h.pending p hp
    exact iff_of_false (by omega) (hquiet.1 p hp)
  · exact fun x info hx he => absurd he (hquiet.resting hx)
  · rw [hreports]
    exact List.Pairwise.nil
  · rw [hreports]
    exact fun a ha => absurd ha List.not_mem_nil
  · exact fun x info hx he => absurd he (hquiet.resting hx)

end HftLob.Gateway

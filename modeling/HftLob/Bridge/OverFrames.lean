import HftLob.Bridge.Finality
import HftLob.Bridge.GatewayLink

/-!
# The blotter over its connection

`Blotter` follows `GatewayLink`: `plain` says what a step is to it. The reports that have been
written to the connection are those in the frames that were sent on it, so the reader thread
handles them in the same order; and the requests are dispatched as they are, since the session
is not closed by a frame of the bridge. So a finished order stays as it is here too.
-/

namespace HftLob.Bridge

open HftLob.Book HftLob.Engine HftLob.Gateway HftLob.Lib
open HftLob.Wire (ClientMsg Frame MsgType)

/-! ## The blotter follows -/

namespace GatewayLink

variable {cap : PoolCapacity}

/-- What a step is without the frames. -/
def plain (s : GatewayLink cap) : LinkAction → List BlotterAction
  | .draw side price quantity => [.draw side price quantity]
  | .enter i now => [.enter i now]
  | .cancel clientOrderId => [.cancel clientOrderId]
  | .send i _ => [.send i]
  | .refuse i => [.refuse i]
  | .dispatch m =>
      match s.wire with
      | [] => []
      | f :: _ => if IsOrder f then [.dispatch m.queueRoom] else []
  | .gateway a => (s.exchange.routing a).map .gateway
  | .handle now =>
      match s.received[s.handled]? with
      | none => []
      | some f => if IsReport f then [.handle now] else []

/-- The bridge without the frames. -/
def blotter (s : GatewayLink cap) (w : World cap) (conn : Nat) (requests : List Request) :
    Blotter cap :=
  ⟨w, s.fd, conn, s.orderCounter, s.drawn, s.unsent, requests,
    ((s.received.take s.handled).filter IsReport).length, s.orders⟩

end GatewayLink

variable {cap : PoolCapacity} {s s' : GatewayLink cap} {w : World cap} {conn : Nat}
  {requests : List Request} {loggedOn : Bool}

/-! ### A request in its frame -/

section Request

variable (r : Request) (n : UInt32)

theorem Request.isOrder_frame : IsOrder (r.msg.frame n) := by
  cases r with
  | newOrder order => exact .inl ⟨rfl, Nat.le_of_eq (Wire.NewOrderMsg.length_bytes _).symm⟩
  | cancelOrder c => exact .inr ⟨rfl, Nat.le_of_eq (Wire.CancelOrderMsg.length_bytes _).symm⟩

/-- `dispatch` makes of the frame what the request stands for. -/
theorem Request.eventOf_frame (fd : UInt32) : eventOf fd (r.msg.frame n) = r.event fd := by
  cases r with
  | newOrder order =>
      have hbody : ((Request.newOrder order).msg.frame n).body.take Wire.NewOrderMsg.size
          = ((Request.newOrder order).msg.frame n).body :=
        List.take_of_length_le (Nat.le_of_eq (Wire.NewOrderMsg.length_bytes _))
      rw [eventOf, if_pos ⟨rfl, Nat.le_of_eq (Wire.NewOrderMsg.length_bytes _).symm⟩, hbody]
      exact congrArg (fun m => World.newOrderEvent fd (orderOf m)) (Wire.NewOrderMsg.read_bytes _)
  | cancelOrder c =>
      have hbody : ((Request.cancelOrder c).msg.frame n).body.take Wire.CancelOrderMsg.size
          = ((Request.cancelOrder c).msg.frame n).body :=
        List.take_of_length_le (Nat.le_of_eq (Wire.CancelOrderMsg.length_bytes _))
      have hnew : ¬ IsNewOrder ((Request.cancelOrder c).msg.frame n) :=
        fun h => absurd h.1 (show MsgType.cancelOrder.byte ≠ MsgType.newOrder.byte by decide)
      rw [eventOf, if_neg hnew, hbody]
      exact congrArg (fun m => World.cancelOrderEvent fd m.clientOrderId)
        (Wire.CancelOrderMsg.read_bytes ⟨c⟩)

theorem Request.step_orderAction (w : World cap) (fd : UInt32) (queued : Bool) :
    w.step (orderAction fd (r.msg.frame n) queued) = w.step (r.action fd queued) := by
  rw [Gateway.step_orderAction, r.eventOf_frame, step_action]

theorem not_isOrder_logonFrame (clientId : UInt64) : ¬ IsOrder (logonFrame clientId) := by
  rintro (⟨h, -⟩ | ⟨h, -⟩)
  · exact absurd h (show MsgType.logon.byte ≠ MsgType.newOrder.byte by decide)
  · exact absurd h (show MsgType.logon.byte ≠ MsgType.cancelOrder.byte by decide)

end Request

/-! ### The relation -/

/-- The connection is as the routing has it, and on the wire are the requests, behind the logon
as long as that has not been dispatched. -/
structure LinkInv (s : GatewayLink cap) (w : World cap) (conn : Nat) (requests : List Request)
    (loggedOn : Bool) : Prop where
  channel : Channel s.exchange w s.fd conn loggedOn s.received
  wire : ∃ frames, s.wire = (if loggedOn then [] else [logonFrame s.clientId]) ++ frames
    ∧ List.Forall₂ (fun r f => ∃ n, f = ClientMsg.frame n (Request.msg r)) requests frames
  read : s.handled ≤ s.received.length

def LinkFollows (s : GatewayLink cap) (b : Blotter cap) : Prop :=
  ∃ w conn requests loggedOn, b = s.blotter w conn requests ∧ LinkInv s w conn requests loggedOn

/-- A step of the gateway, for the bridge. -/
theorem atGateway_follows {a : ExchangeAction}
    (hchannel : Channel s.exchange w s.fd conn loggedOn s.received)
    (hread : s.handled ≤ s.received.length) (hs : s.atGateway a = some s')
    (hopen : Action.close s.fd ∉ s.exchange.routing a) :
    ∃ w', Machine.exec World.step w (s.exchange.routing a) = some w'
      ∧ Channel s'.exchange w' s'.fd conn (loggedOn || LogsOn s.fd a) s'.received
      ∧ (s'.wire = s.wire ∧ s'.clientId = s.clientId) ∧ s'.handled ≤ s'.received.length
      ∧ ∀ requests, s'.blotter w' conn requests
        = { s.blotter w conn requests with world := w' } := by
  obtain ⟨e, he, rfl⟩ := Option.map_eq_some_iff.mp hs
  obtain ⟨w', hw', hchannel'⟩ := hchannel.step he hopen
  refine ⟨w', hw', hchannel', ⟨rfl, rfl⟩, ?_, fun requests => ?_⟩
  · rw [List.length_append]
    exact Nat.le_add_right_of_le hread
  · simp only [GatewayLink.blotter, List.take_append_of_le_length hread]

/-- What the gateway does besides reading from the bridge is done elsewhere. -/
theorem elsewhere_of_leavesOpen {e : Exchange cap} {fd : UInt32} {a : ExchangeAction}
    (h : LeavesOpen e fd a) : ∀ b ∈ e.routing a, Elsewhere fd b := by
  cases a with
  | accept fd' | process ts | deliver now => simp [Exchange.routing, Elsewhere]
  | frame fd' f m =>
      have hne : fd' ≠ fd := h
      have horder : Elsewhere fd (orderAction fd' f m.queueRoom) := by
        unfold orderAction
        split <;> exact hne
      dsimp only [Exchange.routing]
      split
      · simp
      · split
        · simpa [Elsewhere] using hne
        · split
          · simpa using horder
          · simp
  | close fd' =>
      have hne : fd' ≠ fd := h
      dsimp only [Exchange.routing]
      split
      · simpa [Elsewhere] using hne
      · simp
  | heartbeat fd' now =>
      dsimp only [Exchange.routing]
      split
      · rename_i hdead
        have hne : fd' ≠ fd := by
          rintro rfl
          exact absurd (hdead.symm.trans (h rfl)) (by simp)
        simpa [Elsewhere] using hne
      · simp

theorem LinkInv.gateway (h : LinkInv s w conn requests loggedOn) {a : ExchangeAction}
    (hs : s.step (.gateway a) = some s') :
    ∃ b, Machine.exec Blotter.step (s.blotter w conn requests) (s.plain (.gateway a)) = some b
      ∧ LinkFollows s' b := by
  dsimp only [GatewayLink.step] at hs
  split at hs
  · rename_i hopen
    have helse := elsewhere_of_leavesOpen hopen
    have hlogon : LogsOn s.fd a = false := by
      cases a with
      | frame fd' f m =>
          have hne : fd' ≠ s.fd := hopen
          simp [LogsOn, hne]
      | accept | close | heartbeat | process | deliver => rfl
    obtain ⟨w', hw', hchannel, ⟨hwire, hclient⟩, hread, hblotter⟩ := atGateway_follows h.channel
      h.read hs fun hclose => helse _ hclose rfl
    rw [hlogon, Bool.or_false] at hchannel
    refine ⟨s'.blotter w' conn requests, ?_, w', conn, requests, loggedOn, rfl, hchannel,
      hwire ▸ hclient ▸ h.wire, hread⟩
    rw [hblotter]
    rcases Exchange.exec_routing hw' with ⟨hnone, rfl⟩ | ⟨b, hone, hw⟩
    · simp only [GatewayLink.plain, hnone]
      rfl
    · simp only [GatewayLink.plain, hone]
      refine Machine.exec_singleton ?_
      have hb : Elsewhere s.fd b := helse b (by simp [hone])
      simp only [Blotter.step, GatewayLink.blotter, if_pos hb, hw, Option.map_some]
  · exact absurd hs (by simp)

/-- The logon is the first there is, so the session stays. -/
theorem LinkInv.dispatch_logon (h : LinkInv s w conn requests false) {m : Moment}
    (hs : s.step (.dispatch m) = some s') :
    ∃ b, Machine.exec Blotter.step (s.blotter w conn requests) (s.plain (.dispatch m)) = some b
      ∧ LinkFollows s' b := by
  obtain ⟨frames, hwire, hframes⟩ := h.wire
  obtain ⟨state, hstate, hstatus⟩ := h.channel.found
  have hcons : s.wire = logonFrame s.clientId :: frames := hwire
  have horder := not_isOrder_logonFrame s.clientId
  have hlogon : LogsOn s.fd (.frame s.fd (logonFrame s.clientId) m) = true :=
    decide_eq_true ⟨rfl, rfl, Nat.le_of_eq (Wire.LogonMsg.length_bytes _).symm⟩
  have hcloses : ¬ Closes state.session.status (logonFrame s.clientId) := by
    rintro (hout | ⟨-, hnot⟩)
    · exact absurd hout (show MsgType.logon.byte ≠ MsgType.logout.byte by decide)
    · exact hnot hstatus
  have hrouting : s.exchange.routing (.frame s.fd (logonFrame s.clientId) m) = [] := by
    simp only [Exchange.routing, hstate, if_neg hcloses, if_neg horder]
  simp only [GatewayLink.step, hcons] at hs
  obtain ⟨w', hw', hchannel, ⟨hwire', -⟩, hread, hblotter⟩ := atGateway_follows
    (s := { s with wire := frames }) h.channel h.read hs (by simp [hrouting])
  rw [hlogon, Bool.or_true] at hchannel
  obtain rfl : w' = w := by
    have hnil : Machine.exec World.step w [] = some w' := hrouting ▸ hw'
    exact (Option.some.inj hnil).symm
  refine ⟨s'.blotter w' conn requests, ?_, w', conn, requests, true, rfl, hchannel,
    ⟨frames, hwire', hframes⟩, hread⟩
  rw [hblotter]
  simp only [GatewayLink.plain, hcons, if_neg horder]
  rfl

/-- Behind the logon, the frames are requests. -/
theorem LinkInv.dispatch_request (h : LinkInv s w conn requests true) {m : Moment}
    (hs : s.step (.dispatch m) = some s') :
    ∃ b, Machine.exec Blotter.step (s.blotter w conn requests) (s.plain (.dispatch m)) = some b
      ∧ LinkFollows s' b := by
  obtain ⟨_, rfl, hframes⟩ : ∃ frames, frames = s.wire ∧ _ := by
    obtain ⟨frames, hwire, hframes⟩ := h.wire
    exact ⟨frames, hwire.symm, hframes⟩
  obtain ⟨state, hstate, -⟩ := h.channel.found
  dsimp only [GatewayLink.step] at hs
  split at hs
  · exact absurd hs (by simp)
  · rename_i f wire hcons
    rw [hcons] at hframes
    obtain ⟨r, rest, ⟨n, rfl⟩, hrest, rfl⟩ := List.forall₂_cons_right_iff.mp hframes
    have horder := r.isOrder_frame n
    have hcloses : ¬ Closes state.session.status (r.msg.frame n) :=
      fun hc => not_isOrder_of_closes hc horder
    have hrouting : s.exchange.routing (.frame s.fd (r.msg.frame n) m)
        = [orderAction s.fd (r.msg.frame n) m.queueRoom] := by
      simp only [Exchange.routing, hstate, if_neg hcloses, if_pos horder]
    have hopen : Action.close s.fd ∉ s.exchange.routing (.frame s.fd (r.msg.frame n) m) := by
      rw [hrouting]
      unfold orderAction
      split <;> simp
    obtain ⟨w', hw', hchannel, ⟨hwire, -⟩, hread, hblotter⟩ := atGateway_follows
      (s := { s with wire := wire }) h.channel h.read hs hopen
    have hw : w.step (r.action s.fd m.queueRoom) = some w' := by
      rw [← r.step_orderAction n]
      obtain ⟨w₁, hw₁, hnil⟩ := Machine.exec_cons.mp (hrouting ▸ hw')
      cases hnil
      exact hw₁
    refine ⟨s'.blotter w' conn rest, ?_, w', conn, rest, true, rfl, hchannel,
      ⟨wire, hwire, hrest⟩, hread⟩
    simp only [GatewayLink.plain, hcons, if_pos horder]
    refine Machine.exec_singleton ?_
    rw [hblotter]
    simp only [Blotter.step, GatewayLink.blotter, hw, Option.map_some]

/-- The next report is the next one that was written to the connection. -/
theorem LinkInv.next_report (h : LinkInv s w conn requests loggedOn) {f : Frame}
    (hf : s.received[s.handled]? = some f) (hreport : IsReport f) :
    ∃ m, (written w conn)[((s.received.take s.handled).filter IsReport).length]? = some m
      ∧ readReport f.body = some m := by
  have hsplit : s.received = s.received.take s.handled ++ f :: s.received.drop (s.handled + 1) := by
    obtain ⟨hlt, rfl⟩ := List.getElem?_eq_some_iff.mp hf
    rw [← List.drop_eq_getElem_cons hlt, List.take_append_drop]
  have hall := h.channel.received
  rw [hsplit, List.filter_append, List.filter_cons_of_pos (by simpa using hreport)] at hall
  obtain ⟨m, rest, ⟨n, rfl⟩, -, hdrop⟩ :=
    List.forall₂_cons_right_iff.mp (List.forall₂_drop_append _ _ _ hall)
  refine ⟨m, ?_, readReport_wireReport m⟩
  rw [← Nat.add_zero (List.length _), ← List.getElem?_drop, hdrop]
  rfl

theorem LinkInv.handle (h : LinkInv s w conn requests loggedOn) {now : Int}
    (hs : s.step (.handle now) = some s') :
    ∃ b, Machine.exec Blotter.step (s.blotter w conn requests) (s.plain (.handle now)) = some b
      ∧ LinkFollows s' b := by
  dsimp only [GatewayLink.step] at hs
  split at hs
  · exact absurd hs (by simp)
  · rename_i f hf
    have hlt := (List.getElem?_eq_some_iff.mp hf).1
    have htake : s.received.take (s.handled + 1) = s.received.take s.handled ++ [f] := by
      rw [List.take_add_one, hf]
      rfl
    by_cases hreport : IsReport f
    · have hlogon : f.msgType ≠ MsgType.logon.byte := by
        rw [show f.msgType = MsgType.executionReport.byte from hreport]
        decide
      obtain ⟨report, hnext, hread⟩ := h.next_report hf hreport
      rw [if_neg hlogon, if_pos hreport, hread, Option.map_some, Option.some.injEq] at hs
      subst hs
      refine ⟨_, ?_, w, conn, requests, loggedOn, rfl, h.channel, h.wire, hlt⟩
      simp only [GatewayLink.plain, hf, if_pos hreport]
      refine Machine.exec_singleton ?_
      simp [Blotter.step, GatewayLink.blotter, hnext, htake, hreport]
    · -- nothing to the orders
      have hcount : ((s.received.take (s.handled + 1)).filter IsReport).length
          = ((s.received.take s.handled).filter IsReport).length := by
        rw [htake, List.filter_append, List.filter_cons_of_neg (by simpa using hreport)]
        simp
      refine ⟨s.blotter w conn requests, by simp only [GatewayLink.plain, hf, if_neg hreport]; rfl,
        w, conn, requests, loggedOn, ?_⟩
      rw [if_neg hreport] at hs
      split at hs <;> cases hs
      · exact ⟨by simp only [GatewayLink.blotter, hcount], h.channel, h.wire, hlt⟩
      · exact ⟨by simp only [GatewayLink.blotter, hcount], h.channel, h.wire, hlt⟩

theorem LinkInv.draw (h : LinkInv s w conn requests loggedOn) {side : Side}
    {price quantity : Int} (hs : s.step (.draw side price quantity) = some s') :
    ∃ b, (s.blotter w conn requests).step (.draw side price quantity) = some b
      ∧ LinkFollows s' b := by
  dsimp only [GatewayLink.step] at hs
  split at hs
  · rename_i hnone
    cases hs
    exact ⟨_, by simp only [Blotter.step, GatewayLink.blotter, hnone], w, conn, requests, loggedOn,
      rfl, h.channel, h.wire, h.read⟩
  · rename_i order horder
    cases hs
    exact ⟨_, by simp only [Blotter.step, GatewayLink.blotter, horder], w, conn, requests,
      loggedOn, rfl, h.channel, h.wire, h.read⟩

theorem LinkInv.enter (h : LinkInv s w conn requests loggedOn) {i : Nat} {now : Int}
    (hs : s.step (.enter i now) = some s') :
    ∃ b, (s.blotter w conn requests).step (.enter i now) = some b ∧ LinkFollows s' b := by
  dsimp only [GatewayLink.step] at hs
  split at hs
  · exact absurd hs (by simp)
  · rename_i order hi
    cases hs
    exact ⟨_, by simp only [Blotter.step, GatewayLink.blotter, hi], w, conn, requests, loggedOn,
      rfl, h.channel, h.wire, h.read⟩

theorem LinkInv.send (h : LinkInv s w conn requests loggedOn) {i : Nat} {seq : UInt32}
    (hs : s.step (.send i seq) = some s') :
    ∃ b, (s.blotter w conn requests).step (.send i) = some b ∧ LinkFollows s' b := by
  dsimp only [GatewayLink.step] at hs
  split at hs
  · exact absurd hs (by simp)
  · rename_i r hi
    split at hs
    · cases hs
      obtain ⟨frames, hwire, hframes⟩ := h.wire
      refine ⟨_, by simp only [Blotter.step, GatewayLink.blotter, hi], w, conn, requests ++ [r],
        loggedOn, rfl, h.channel, ⟨frames ++ [r.msg.frame seq], ?_, ?_⟩, h.read⟩
      · rw [hwire, List.append_assoc]
      · exact List.rel_append hframes (.cons ⟨seq, rfl⟩ .nil)
    · exact absurd hs (by simp) -- not logged on yet

theorem LinkInv.refuse (h : LinkInv s w conn requests loggedOn) {i : Nat}
    (hs : s.step (.refuse i) = some s') :
    ∃ b, (s.blotter w conn requests).step (.refuse i) = some b ∧ LinkFollows s' b := by
  dsimp only [GatewayLink.step] at hs
  split at hs
  · exact absurd hs (by simp)
  · rename_i r hi
    cases hs
    exact ⟨_, by simp only [Blotter.step, GatewayLink.blotter, hi], w, conn, requests, loggedOn,
      rfl, h.channel, h.wire, h.read⟩

theorem linkFollows_step {b : Blotter cap} {a : LinkAction} (h : LinkFollows s b)
    (hs : s.step a = some s') :
    ∃ b', Machine.exec Blotter.step b (s.plain a) = some b' ∧ LinkFollows s' b' := by
  obtain ⟨w, conn, requests, loggedOn, rfl, h⟩ := h
  have hone : ∀ {x : BlotterAction},
      (∃ b', (s.blotter w conn requests).step x = some b' ∧ LinkFollows s' b') →
      ∃ b', Machine.exec Blotter.step (s.blotter w conn requests) [x] = some b'
        ∧ LinkFollows s' b' :=
    fun ⟨b', hb, hfollows⟩ => ⟨b', Machine.exec_singleton hb, hfollows⟩
  cases a with
  | draw side price quantity => exact hone (h.draw hs)
  | enter i now => exact hone (h.enter hs)
  | cancel clientOrderId =>
      cases hs
      exact hone ⟨_, rfl, w, conn, requests, loggedOn, rfl, h.channel, h.wire, h.read⟩
  | send i seq => exact hone (h.send hs)
  | refuse i => exact hone (h.refuse hs)
  | dispatch m =>
      cases loggedOn with
      | false => exact h.dispatch_logon hs
      | true => exact h.dispatch_request hs
  | gateway a => exact h.gateway hs
  | handle now => exact h.handle hs

/-! ### The condition -/

theorem LinkInv.reported (h : LinkInv s w conn requests loggedOn) :
    s.reported = written w conn := readReports_of_carries h.channel.received

theorem LinkInv.owed (h : LinkInv s w conn requests loggedOn) :
    s.owed = queuedReports w s.fd := by
  rw [GatewayLink.owed, ← h.channel.follows.acks, List.filter_map, List.map_map]
  rfl

theorem LinkInv.nextRefusable (h : LinkInv s w conn requests loggedOn) {m : Moment}
    (hintime : s.InTime (.dispatch m)) (hroom : m.queueRoom = false) {f : Frame}
    {wire : List Frame} (hwire : s.wire = f :: wire) (horder : IsOrder f) :
    NextRefusable (s.blotter w conn requests) := by
  obtain ⟨frames, hframes, hrequests⟩ := h.wire
  cases loggedOn with
  | false =>
      -- the logon is no request
      have hlogon : f = logonFrame s.clientId := (List.cons.inj (hwire.symm.trans hframes)).1
      exact absurd (hlogon ▸ horder) (not_isOrder_logonFrame s.clientId)
  | true =>
      rw [← show s.wire = frames from hframes, hwire] at hrequests
      obtain ⟨r, rest, ⟨n, rfl⟩, -, rfl⟩ := List.forall₂_cons_right_iff.mp hrequests
      intro c hc
      cases r with
      | newOrder order => exact absurd hc (by simp [GatewayLink.blotter, Request.canceled])
      | cancelOrder c' =>
          obtain rfl : c' = c := by
            simpa [GatewayLink.blotter, Request.canceled] using hc
          have hopen := hintime hroom _ (by rw [hwire]; rfl)
            ⟨rfl, Nat.le_of_eq (Wire.CancelOrderMsg.length_bytes _).symm⟩
          rw [Request.eventOf_frame, h.reported] at hopen
          exact hopen

theorem LinkInv.nextApplicable (h : LinkInv s w conn requests loggedOn) {ts : UInt64}
    (hintime : s.InTime (.gateway (.process ts))) :
    NextApplicable (s.blotter w conn requests) := by
  intro p hp hconn htype
  have hmem : p ∈ w.pending := List.mem_of_mem_head? hp
  have hhead : p.1 ∈ s.exchange.pending.head? := by
    rw [← h.channel.follows.pending, List.head?_map]
    exact Option.mem_map_of_mem _ hp
  have hopen := hintime p.1 hhead (h.channel.events p hmem hconn) htype
  rw [h.reported, h.owed] at hopen
  exact hopen

/-- The matcher takes a step in the routing when it does in the exchange. -/
theorem process_of_routing {e : Exchange cap} {a : ExchangeAction} {ts : UInt64}
    (h : Action.process ts ∈ e.routing a) : a = .process ts := by
  cases a with
  | accept fd | deliver now => simp [Exchange.routing] at h
  | process ts' =>
      obtain rfl : ts = ts' := by simpa [Exchange.routing] using h
      rfl
  | close fd | heartbeat fd now =>
      dsimp only [Exchange.routing] at h
      split at h <;> simp at h
  | frame fd f m =>
      dsimp only [Exchange.routing] at h
      split at h
      · simp at h
      · split at h
        · simp at h
        · split at h
          · unfold orderAction at h
            split at h <;> simp at h
          · simp at h

theorem linkFollows_inTime {b : Blotter cap} {a : LinkAction} (h : LinkFollows s b)
    (hintime : s.InTime a) : Machine.Along Blotter.step CancelsInTime b (s.plain a) := by
  obtain ⟨w, conn, requests, loggedOn, rfl, h⟩ := h
  have hone : ∀ x, CancelsInTime (s.blotter w conn requests) x →
      Machine.Along Blotter.step CancelsInTime (s.blotter w conn requests) [x] :=
    fun x hx => .cons hx fun _ _ => trivial
  cases a with
  | draw | enter | cancel | send | refuse => exact hone _ trivial
  | dispatch m =>
      dsimp only [GatewayLink.plain]
      split
      · trivial
      · rename_i f wire hwire
        split
        · rename_i horder
          refine hone _ ?_
          cases hroom : m.queueRoom with
          | true => trivial
          | false => exact h.nextRefusable hintime hroom hwire horder
        · trivial
  | gateway a =>
      dsimp only [GatewayLink.plain]
      rcases s.exchange.routing_cases a with hnone | ⟨x, hx⟩
      · rw [hnone]
        trivial
      · rw [hx]
        refine hone _ ?_
        cases x with
        | process ts =>
            have hmem : Action.process ts ∈ s.exchange.routing a := by
              rw [hx]
              exact List.mem_singleton_self _
            obtain rfl := process_of_routing hmem
            exact h.nextApplicable hintime
        | accept | close | newOrder | cancelOrder | drain => trivial
  | handle now =>
      dsimp only [GatewayLink.plain]
      split
      · trivial
      · split
        · exact hone _ trivial
        · trivial

/-! ## Every run -/

/-- The bridge when the gateway has accepted its connection. -/
theorem linkFollows_start {e₀ e : Exchange cap} {w₀ : World cap} {fd : UInt32}
    {seen : UInt32 → Bool} (hfollows : Follows e₀ w₀) (hseen : SessionInv seen e₀.server)
    (hnumbered : NumberedInv w₀) (he : e₀.step (.accept fd) = some e) (clientId : UInt64) :
    ∃ w, w₀.step (.accept fd) = some w
      ∧ LinkFollows (GatewayLink.start e fd clientId) (Blotter.start w fd w₀.accepted) := by
  obtain ⟨w, hw, hchannel⟩ := channel_begin hfollows hseen hnumbered he
  exact ⟨w, hw, w, w₀.accepted, [], false, rfl, hchannel, ⟨[], rfl, .nil⟩, Nat.le_refl 0⟩

/-- **A finished order stays as it is over the connection, too**: whatever else the gateway
sends and receives, if no cancel is answered behind the end of its order. -/
theorem finished_order_stays_over_frames (cap : PoolCapacity) (before : List ExchangeAction)
    (e₀ e : Exchange cap)
    (hbefore : Machine.exec Exchange.step (Exchange.init cap) before = some e₀)
    (fd : UInt32) (hfresh : AcceptsFresh e₀ (.accept fd)) (haccept : e₀.step (.accept fd) = some e)
    (clientId : UInt64) (actions later : List LinkAction) (s t : GatewayLink cap)
    (hs : Machine.exec GatewayLink.step (GatewayLink.start e fd clientId) actions = some s)
    (ht : Machine.exec GatewayLink.step s later = some t)
    (hactions : Machine.Along GatewayLink.step GatewayLink.InTime
      (GatewayLink.start e fd clientId) actions)
    (hlater : Machine.Along GatewayLink.step GatewayLink.InTime s later)
    (hlen : t.exchange.applied.length < 2 ^ 64)
    (c : UInt64) (order : BlotterOrder) (ho : s.orders c = some order) (hfin : order.Finished) :
    t.orders c = some order := by
  have hsim := Machine.exec_simulation (R := @LinkFollows cap) (C := GatewayLink.InTime)
    (D := CancelsInTime) (f := GatewayLink.plain)
    (fun _ _ _ _ h hs => ⟨linkFollows_step h hs, linkFollows_inTime h⟩)
  -- the routing up to the bridge's connection
  obtain ⟨w₀, hw₀, hfollows, -⟩ := follows_exec hbefore
  obtain ⟨seen, hseen⟩ := Exchange.sessionInv_exec hbefore
  have hnumbered := numberedInv_exec hw₀
  obtain ⟨w, hw, hstart⟩ := linkFollows_start hfollows hseen hnumbered haccept clientId
  have hquiet : Quiet w₀ fd := (hfollows.acceptsQuiet hfresh).1
  -- and the blotter from there
  obtain ⟨⟨b, hb, hfollowsS⟩, hbC⟩ := hsim actions _ s _ hstart hs
  obtain ⟨⟨b', hb', hfollowsT⟩, hbC'⟩ := hsim later s t b hfollowsS ht
  obtain ⟨_, _, _, _, rfl, -⟩ := hfollowsS
  obtain ⟨w', _, _, _, rfl, hlink⟩ := hfollowsT
  have happlied : w'.applied.length < 2 ^ 64 := by
    rw [← List.length_map Prod.fst, hlink.channel.follows.applied]
    exact hlen
  exact keeps_exec (blotterInv_exec (blotterInv_start hnumbered hquiet hw) (hbC hactions) hb)
    (hbC' hlater) hb' happlied ho hfin

/-- An order is filled; another is submitted and canceled behind it, with a heartbeat among the
reports. -/
theorem finished_order_stays_over_frames_filled :
    let cap : PoolCapacity := ⟨4, by decide⟩
    let sell := ClientMsg.frame 1 (.newOrder ⟨9, #v[65, 66, 67, 0, 0, 0, 0, 0], 1, 100, 5⟩)
    let actions : List LinkAction :=
      [.gateway (.accept 6), .dispatch ⟨0, true⟩, .handle 9, .draw .buy 100 5, .enter 0 10,
       .send 0 2, .dispatch ⟨1, true⟩, .gateway (.process 0), .gateway (.frame 6 sell ⟨2, true⟩),
       .gateway (.process 0), .gateway (.deliver 3), .gateway (.deliver 4), .handle 11, .handle 12]
    let later : List LinkAction :=
      [.draw .buy 99 5, .enter 0 13, .send 0 3, .dispatch ⟨5, true⟩, .cancel 2, .send 0 4,
       .dispatch ⟨6, true⟩, .gateway (.process 0), .gateway (.process 0), .gateway (.deliver 7),
       .gateway (.heartbeat 5 5600000000), .gateway (.deliver 5600000000),
       .gateway (.deliver 5600000000), .handle 14, .handle 15, .handle 16]
    ∃ (e : Exchange cap) (s t : GatewayLink cap), (Exchange.init cap).step (.accept 5) = some e
      ∧ Machine.exec GatewayLink.step (GatewayLink.start e 5 424242) actions = some s
      ∧ Machine.exec GatewayLink.step s later = some t
      ∧ (s.orders 1).map (fun o => (o.status, o.exchangeOrderId)) = some (.reported .filled, 1)
      ∧ t.orders 1 = s.orders 1
      ∧ (t.orders 2).map (fun o => (o.status, o.exchangeOrderId)) = some (.reported .canceled, 3)
      ∧ t.received.map Frame.msgType = [1, 20, 20, 3, 20, 20] := by
  intro cap sell actions later
  have hends : (((Exchange.init cap).step (.accept 5)).bind fun e =>
      (Machine.exec GatewayLink.step (GatewayLink.start e 5 424242) actions).bind fun s =>
        (Machine.exec GatewayLink.step s later).map fun t =>
          (s.orders 1, (t.orders 2).map (fun o => (o.status, o.exchangeOrderId)),
            t.exchange.applied.length, t.received.map Frame.msgType))
      = some (some ⟨1, 1, some .buy, 100, 5, .reported .filled, 100, 5, 0, 12⟩,
          some (.reported .canceled, 3), 4, [1, 20, 20, 3, 20, 20]) := by decide +kernel
  have hintime : ∀ e ∈ (Exchange.init cap).step (.accept 5),
      Machine.Along GatewayLink.step GatewayLink.InTime (GatewayLink.start e 5 424242) actions
        ∧ ∀ s ∈ Machine.exec GatewayLink.step (GatewayLink.start e 5 424242) actions,
          Machine.Along GatewayLink.step GatewayLink.InTime s later := by decide +kernel
  obtain ⟨e, he, hends⟩ := Option.bind_eq_some_iff.mp hends
  obtain ⟨s, hs, ht⟩ := Option.bind_eq_some_iff.mp hends
  obtain ⟨t, ht, hshown⟩ := Option.map_eq_some_iff.mp ht
  rw [Prod.mk.injEq, Prod.mk.injEq, Prod.mk.injEq] at hshown
  obtain ⟨hfilled, hcanceled, hlen, hframes⟩ := hshown
  obtain ⟨hactions, hlater⟩ := hintime e he
  refine ⟨e, s, t, he, hs, ht, by rw [hfilled]; rfl, ?_, hcanceled, hframes⟩
  rw [hfilled]
  exact finished_order_stays_over_frames cap [] (Exchange.init cap) e rfl 5 (by decide +kernel) he
    424242 actions later s t hs ht hactions (hlater s hs) (by omega) 1 _ hfilled (by decide)

end HftLob.Bridge

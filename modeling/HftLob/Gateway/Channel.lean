import HftLob.Gateway.Exchange
import HftLob.Gateway.SessionReports

/-!
# One connection of the exchange

A client sees of the gateway what is sent on its own connection, from when it was accepted.
The execution reports among these frames are what the routing has written to the connection:
an earlier holder of the descriptor got what was sent on it before, and nobody else has the
descriptor as long as the connection is open.
-/

namespace HftLob.Gateway

open HftLob.Book HftLob.Engine HftLob.Lib HftLob.Wire

variable {cap : PoolCapacity} {s s' : Exchange cap} {w w' : World cap} {fd : UInt32} {conn : Nat}
  {loggedOn : Bool} {received : List Frame}

def Output.frame? : Output → Option Frame
  | .send f => some f
  | .push _ | .close => none

/-- The frames among the outputs that were sent on a descriptor. -/
def sentOn (fd : UInt32) (outputs : List (UInt32 × Output)) : List Frame :=
  outputs.filterMap fun o => if o.1 = fd then o.2.frame? else none

def IsReport (f : Frame) : Prop := f.msgType = MsgType.executionReport.byte

instance (f : Frame) : Decidable (IsReport f) := inferInstanceAs (Decidable (_ = _))

/-- The report is in this frame. -/
def Carries (m : ExecutionReportMsg) (f : Frame) : Prop :=
  ∃ n, f = executionReportFrame n (wireReport m)

/-- A logon comes in on the descriptor. -/
def LogsOn (fd : UInt32) : ExchangeAction → Bool
  | .frame fd' f _ => fd' = fd ∧ IsLogon f
  | .accept _ | .close _ | .heartbeat _ _ | .process _ | .deliver _ => false

/-- A connection as the server has it and as the routing has it. -/
structure Channel (s : Exchange cap) (w : World cap) (fd : UInt32) (conn : Nat) (loggedOn : Bool)
    (received : List Frame) : Prop where
  follows : Follows s w
  connected : w.connections.lookup fd = some conn
  session : ∃ seen, SessionInv seen s.server ∧ seen fd = loggedOn
  events : ∀ p ∈ w.pending, p.2 = conn → p.1.sessionId = fd
  received : List.Forall₂ Carries (written w conn) (received.filter IsReport)

/-! ## What a step adds -/

theorem Server.step_outputs {srv srv' : Server} {a : ServerAction} (hs : srv.step a = some srv') :
    srv.outputs <+: srv'.outputs := by
  cases a with
  | accept fd => rw [(Server.accept_eq_some hs).2]
  | frame fd f m =>
      obtain ⟨_, _, _, _, _, _, houtputs⟩ := Server.frame_eq_some hs
      exact ⟨_, houtputs.symm⟩
  | close fd =>
      cases hs
      exact ⟨_, rfl⟩
  | heartbeat fd now =>
      cases hs
      rcases srv.checkHeartbeat_cases fd now with ⟨-, he⟩ | ⟨-, he | ⟨conn, -, he⟩⟩
      · exact he ▸ ⟨_, rfl⟩
      · rw [he]
      · exact he ▸ ⟨_, rfl⟩
  | ack ack now =>
      cases hs
      show srv.outputs <+: (srv.drainAck ack now).outputs
      unfold Server.drainAck
      split
      · exact List.prefix_refl _
      · exact ⟨_, rfl⟩

theorem Exchange.serve_server {a : ServerAction} (hs : s.serve a = some s') :
    s.server.step a = some s'.server ∧ s'.accepted = s.accepted := by
  obtain ⟨srv, hsrv, rfl⟩ := Option.map_eq_some_iff.mp hs
  exact ⟨hsrv, rfl⟩

/-- Outputs and descriptors handed out only grow. -/
theorem Exchange.step_grows {a : ExchangeAction} (hs : s.step a = some s') :
    s.server.outputs <+: s'.server.outputs ∧ s.accepted <+: s'.accepted := by
  have hserve : ∀ {s₀ s₁ : Exchange cap} {b : ServerAction}, s₀.serve b = some s₁ →
      s₀.server.outputs <+: s₁.server.outputs ∧ s₀.accepted <+: s₁.accepted := by
    intro s₀ s₁ b h
    obtain ⟨hsrv, haccepted⟩ := serve_server h
    exact ⟨Server.step_outputs hsrv, haccepted ▸ List.prefix_refl _⟩
  cases a with
  | accept fd =>
      obtain ⟨s₁, hs₁, rfl⟩ := Option.map_eq_some_iff.mp hs
      exact ⟨(hserve hs₁).1, (hserve hs₁).2.trans (List.prefix_append _ _)⟩
  | frame fd f m => exact hserve (b := .frame fd f m) hs
  | close fd => exact hserve (b := .close fd) hs
  | heartbeat fd now => exact hserve (b := .heartbeat fd now) hs
  | process ts =>
      dsimp only [Exchange.step] at hs
      split at hs
      · exact absurd hs (by simp)
      · cases hs
        exact ⟨List.prefix_refl _, List.prefix_refl _⟩
  | deliver now =>
      dsimp only [Exchange.step] at hs
      split at hs
      · exact absurd hs (by simp)
      · exact ⟨(hserve hs).1, (hserve hs).2⟩

/-- A step is at most one to the routing. -/
theorem Exchange.routing_cases (s : Exchange cap) (a : ExchangeAction) :
    s.routing a = [] ∨ ∃ b, s.routing a = [b] := by
  cases a with
  | accept fd | process ts | deliver now => exact .inr ⟨_, rfl⟩
  | frame fd f m =>
      dsimp only [Exchange.routing]
      split
      · exact .inl rfl
      · split
        · exact .inr ⟨_, rfl⟩
        · split
          · exact .inr ⟨_, rfl⟩
          · exact .inl rfl
  | close fd | heartbeat fd now =>
      dsimp only [Exchange.routing]
      split
      · exact .inr ⟨_, rfl⟩
      · exact .inl rfl

theorem Exchange.exec_routing {a : ExchangeAction}
    (hw : Machine.exec World.step w (s.routing a) = some w') :
    (s.routing a = [] ∧ w' = w) ∨ ∃ b, s.routing a = [b] ∧ w.step b = some w' := by
  rcases s.routing_cases a with hnone | ⟨b, hone⟩
  · rw [hnone] at hw
    cases hw
    exact .inl ⟨hnone, rfl⟩
  · rw [hone] at hw
    obtain ⟨w₁, hw₁, hw⟩ := Machine.exec_cons.mp hw
    cases hw
    exact .inr ⟨b, hone, hw₁⟩

theorem filter_sentOn (fd : UInt32) (outputs : List (UInt32 × Output)) :
    (sentOn fd outputs).filter IsReport
      = ((reportFrames outputs).filter fun sent => sent.1 = fd).map Prod.snd := by
  induction outputs with
  | nil => rfl
  | cons o outputs ih =>
      obtain ⟨fd', o⟩ := o
      cases o with
      | push ev => by_cases hfd : fd' = fd <;> simpa [sentOn, reportFrames, Output.frame?,
          Output.report?, hfd] using ih
      | close => by_cases hfd : fd' = fd <;> simpa [sentOn, reportFrames, Output.frame?,
          Output.report?, hfd] using ih
      | send f =>
          by_cases hfd : fd' = fd <;> by_cases hf : IsReport f <;>
            simp_all [sentOn, reportFrames, Output.frame?, Output.report?, IsReport]

/-- The reports that a step writes to the connection are the ones it sends on the
descriptor. -/
theorem Channel.reports_added (h : Channel s w fd conn loggedOn received)
    (hfollows : Follows s' w') (haccepted : s.accepted <+: s'.accepted) {more : List Report}
    {said : List (UInt32 × Output)} (hmore : w'.reports = w.reports ++ more)
    (hopen : ∀ r ∈ more, ∃ fd', w.connections.lookup fd' = some r.connection)
    (hsaid : s'.server.outputs = s.server.outputs ++ said) :
    List.Forall₂ Carries ((more.filter fun r => r.connection = conn).map Report.message)
      ((sentOn fd said).filter IsReport) := by
  have hreports : reportFrames s'.server.outputs
      = reportFrames s.server.outputs ++ reportFrames said := by
    rw [hsaid]
    exact List.filterMap_append
  have hadded : List.Forall₂ (SentAs s'.accepted) more (reportFrames said) := by
    have hall := hfollows.reports
    rw [hreports, hmore] at hall
    have hdrop := List.forall₂_drop_append _ _ _ hall
    rwa [← h.follows.reports.length_eq, List.drop_left] at hdrop
  -- the connection a report is written to is the one that its frame's descriptor leads to
  have hdescriptor : ∀ k fd', w.connections.lookup fd' = some k → s'.accepted[k]? = some fd' := by
    intro k fd' hk
    obtain ⟨new, hnew⟩ := haccepted
    have hold := h.follows.descriptor fd' k hk
    rw [← hnew]
    exact (List.getElem?_append_left (List.getElem?_eq_some_iff.mp hold).1).trans hold
  have hown : ∀ r (sent : UInt32 × Frame),
      (∃ fd', w.connections.lookup fd' = some r.connection) ∧ SentAs s'.accepted r sent →
      (r.connection = conn ↔ sent.1 = fd) := by
    rintro r sent ⟨⟨fd', hfd'⟩, hsent, -⟩
    have hsame : fd' = sent.1 := Option.some.inj ((hdescriptor _ _ hfd').symm.trans hsent)
    constructor
    · intro hconn
      rw [hconn] at hfd'
      exact hsame.symm.trans (Option.some.inj
        ((hdescriptor _ _ hfd').symm.trans (hdescriptor _ _ h.connected)))
    · intro hfd
      rw [hsame, hfd] at hfd'
      exact Option.some.inj (hfd'.symm.trans h.connected)
  rw [filter_sentOn, List.forall₂_map_left_iff, List.forall₂_map_right_iff]
  refine (List.rel_filter (fun r sent hsent => ?_)
    ((List.forall₂_and_left _ _).mpr ⟨hopen, hadded⟩)).imp fun r sent hsent => hsent.2.2
  simpa using hown r sent hsent

/-! ## Who is logged on -/

/-- On which descriptors a logon has come in, as `noteLogon` has it of the server. -/
def noteLogonOf (seen : UInt32 → Bool) : ExchangeAction → UInt32 → Bool
  | .accept fd => noteLogon seen (.accept fd)
  | .frame fd f m => noteLogon seen (.frame fd f m)
  | .close _ | .heartbeat _ _ | .process _ | .deliver _ => seen

theorem Exchange.sessionInv_step {seen : UInt32 → Bool} (h : SessionInv seen s.server)
    {a : ExchangeAction} (hs : s.step a = some s') :
    SessionInv (noteLogonOf seen a) s'.server := by
  cases a with
  | accept fd =>
      obtain ⟨s₁, hs₁, rfl⟩ := Option.map_eq_some_iff.mp hs
      exact Gateway.sessionInv_step h (serve_server hs₁).1
  | frame fd f m => exact Gateway.sessionInv_step h (serve_server hs).1
  | close fd => exact Gateway.sessionInv_step (a := .close fd) h (serve_server hs).1
  | heartbeat fd now => exact Gateway.sessionInv_step (a := .heartbeat fd now) h (serve_server hs).1
  | process ts =>
      dsimp only [Exchange.step] at hs
      split at hs
      · exact absurd hs (by simp)
      · cases hs
        exact h
  | deliver now =>
      dsimp only [Exchange.step] at hs
      split at hs
      · exact absurd hs (by simp)
      · rename_i ack acks _
        exact Gateway.sessionInv_step (a := .ack ack now) h (serve_server hs).1

theorem Exchange.sessionInv_exec {actions : List ExchangeAction}
    (hs : Machine.exec Exchange.step (Exchange.init cap) actions = some s) :
    ∃ seen, SessionInv seen s.server :=
  Machine.exec_preserves (I := fun s : Exchange cap => ∃ seen, SessionInv seen s.server)
    (fun _ _ _ h hs => h.elim fun _ h => ⟨_, sessionInv_step h hs⟩) actions _ s
    ⟨fun _ => false, sessionInv_init _⟩ hs

theorem Channel.found (h : Channel s w fd conn loggedOn received) :
    ∃ state, s.server.connections.lookup fd = some state
      ∧ state.session.status = if loggedOn then .loggedOn else .awaitingLogon := by
  have hfound := h.follows.connected fd
  rw [h.connected] at hfound
  obtain ⟨state, hstate⟩ := Option.isSome_iff_exists.mp hfound.symm
  obtain ⟨seen, hseen, hfd⟩ := h.session
  exact ⟨state, hstate, hfd ▸ hseen fd state hstate⟩

/-- Whether the session is logged on changes with what comes in on the connection. -/
theorem Channel.session_step (h : Channel s w fd conn loggedOn received) {a : ExchangeAction}
    (hs : s.step a = some s') :
    ∃ seen, SessionInv seen s'.server ∧ seen fd = (loggedOn || LogsOn fd a) := by
  obtain ⟨seen, hseen, rfl⟩ := h.session
  refine ⟨_, Exchange.sessionInv_step hseen hs, ?_⟩
  cases a with
  | accept fd' =>
      -- the descriptor is taken
      have hne : fd ≠ fd' := by
        rintro rfl
        obtain ⟨s₁, hs₁, rfl⟩ := Option.map_eq_some_iff.mp hs
        obtain ⟨hfree, -⟩ := Server.accept_eq_some (Exchange.serve_server hs₁).1
        obtain ⟨state, hstate, -⟩ := h.found
        exact absurd (hstate.symm.trans hfree) (by simp)
      simp [noteLogonOf, noteLogon, LogsOn, hne]
  | frame fd' f m =>
      by_cases hlogon : IsLogon f
      · by_cases hfd : fd' = fd
        · simp [noteLogonOf, noteLogon, LogsOn, hlogon, hfd]
        · simp [noteLogonOf, noteLogon, LogsOn, hlogon, hfd, Function.update_of_ne (Ne.symm hfd)]
      · simp [noteLogonOf, noteLogon, LogsOn, hlogon]
  | close fd' | heartbeat fd' now | process ts | deliver now => simp [noteLogonOf, LogsOn]

/-! ## Following on one connection -/

/-- **The routing follows on the connection**, as long as it is not closed. -/
theorem Channel.step (h : Channel s w fd conn loggedOn received) {a : ExchangeAction}
    (hs : s.step a = some s') (hopen : Action.close fd ∉ s.routing a) :
    ∃ w', Machine.exec World.step w (s.routing a) = some w'
      ∧ Channel s' w' fd conn (loggedOn || LogsOn fd a)
          (received ++ sentOn fd (s'.server.outputs.drop s.server.outputs.length)) := by
  obtain ⟨w', hw', hfollows⟩ := follows_step h.follows hs
  obtain ⟨⟨said, hsaid⟩, haccepted⟩ := Exchange.step_grows hs
  refine ⟨w', hw', hfollows, ?_, h.session_step hs, ?_, ?_⟩
  · rcases Exchange.exec_routing hw' with ⟨-, rfl⟩ | ⟨b, hb, hw⟩
    · exact h.connected
    · exact World.step_connected hw h.connected fun hclose => hopen (by simp [hb, hclose])
  · rcases Exchange.exec_routing hw' with ⟨-, rfl⟩ | ⟨b, hb, hw⟩
    · exact h.events
    · intro p hp hconn
      rcases World.step_pending hw hp with hold | hnew
      · exact h.events p hold hconn
      · -- the descriptor leads to this connection and to no other
        rw [hconn] at hnew
        exact Option.some.inj ((h.follows.descriptor _ _ hnew).symm.trans
          (h.follows.descriptor _ _ h.connected))
  · obtain ⟨more, hmore, hconnected⟩ : ∃ more, w'.reports = w.reports ++ more
        ∧ ∀ r ∈ more, ∃ fd', w.connections.lookup fd' = some r.connection := by
      rcases Exchange.exec_routing hw' with ⟨-, rfl⟩ | ⟨b, -, hw⟩
      · exact ⟨[], by simp⟩
      · exact World.step_reports hw
    rw [← hsaid, List.drop_left, List.filter_append, written, hmore, List.filter_append,
      List.map_append]
    exact List.rel_append h.received
      (h.reports_added hfollows haccepted hmore hconnected hsaid.symm)

/-- The connection when it has been accepted. -/
theorem channel_begin {seen : UInt32 → Bool} (h : Follows s w) (hseen : SessionInv seen s.server)
    (hnumbered : NumberedInv w) (hs : s.step (.accept fd) = some s') :
    ∃ w', w.step (.accept fd) = some w' ∧ Channel s' w' fd w.accepted false [] := by
  obtain ⟨w', hw', hfollows⟩ := follows_step h hs
  obtain ⟨w₁, hstep, hnil⟩ := Machine.exec_cons.mp hw'
  cases hnil
  obtain ⟨-, rfl⟩ := World.accept_cases hstep
  refine ⟨_, hstep, hfollows, Finmap.lookup_insert _, ?_, fun p hp hconn => ?_, ?_⟩
  · exact ⟨_, Exchange.sessionInv_step hseen hs, by simp [noteLogonOf, noteLogon]⟩
  · have := hnumbered.pending p hp
    omega
  · have hnone : (w.reports.filter fun r => r.connection = w.accepted) = [] := by
      refine List.filter_eq_nil_iff.mpr fun r hr => ?_
      have := hnumbered.reports r hr
      simp only [decide_eq_true_eq]
      omega
    rw [written, hnone]
    exact .nil

end HftLob.Gateway

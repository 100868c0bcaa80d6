import HftLob.Gateway.PollLoop

/-!
# Heartbeats and dead peers

`check_heartbeats` runs once in every call of `poll_once`, whatever else there is to do. A
session that is logged on is dropped there if it was not heard of for more than two of its
intervals, and is sent a heartbeat if nothing else was sent for one interval.

So at the end of every call each session that is logged on was spoken to and heard of
recently, and a peer that says nothing is dropped by the first call that finds it overdue.
-/

namespace HftLob.Gateway

open HftLob.Wire HftLob.Lib

/-- The clock is read between the start and the end of the call. -/
structure Poll.Timely (p : Poll) : Prop where
  le : p.started ≤ p.finished
  within : p.Within (fun _ => True) fun now => p.started ≤ now ∧ now ≤ p.finished

/-- The calls come one after the other. -/
def OnTime (polls : List Poll) : Prop :=
  (∀ p ∈ polls, p.Timely) ∧ polls.IsChain fun p q => p.finished ≤ q.started

/-! ## The two clocks of a session -/

namespace SessionState

variable (s : SessionState) (seqNum : UInt32) (now : Int)

theorem heartbeatInterval_nonneg : 0 ≤ s.heartbeatInterval := by
  unfold heartbeatInterval
  omega

@[simp] theorem trackInboundSeq_heartbeatIntervalMs :
    (s.trackInboundSeq seqNum now).1.heartbeatIntervalMs = s.heartbeatIntervalMs := by
  unfold trackInboundSeq
  dsimp only
  split
  · rfl
  · split <;> rfl

@[simp] theorem trackInboundSeq_lastOutboundActivity :
    (s.trackInboundSeq seqNum now).1.lastOutboundActivity = s.lastOutboundActivity := by
  unfold trackInboundSeq
  dsimp only
  split
  · rfl
  · split <;> rfl

@[simp] theorem trackInboundSeq_lastPeerActivity :
    (s.trackInboundSeq seqNum now).1.lastPeerActivity = now := by
  unfold trackInboundSeq
  dsimp only
  split
  · rfl
  · split <;> rfl

end SessionState

/-- **When a logged-on session was last active**: as before, or right now. -/
theorem Talk.activity {now : Int} {s s' : SessionState} {said : List Output}
    (h : Talk now s said s') (hon : s'.status = .loggedOn) :
    (s.status = .loggedOn ∧ s'.heartbeatIntervalMs = s.heartbeatIntervalMs
        ∧ (s'.lastOutboundActivity = s.lastOutboundActivity ∨ s'.lastOutboundActivity = now)
        ∧ (s'.lastPeerActivity = s.lastPeerActivity ∨ s'.lastPeerActivity = now))
      ∨ (s'.lastOutboundActivity = now ∧ s'.lastPeerActivity = now) := by
  induction h with
  | done s => exact .inl ⟨hon, rfl, .inl rfl, .inl rfl⟩
  | @logon s s' said clientId ms seq hawaiting _ ih =>
      -- a logon sets both
      have hout : (sendLogonAck (s.handleLogon clientId ms seq now).1 now).1.lastOutboundActivity
          = now := rfl
      have hpeer : (sendLogonAck (s.handleLogon clientId ms seq now).1 now).1.lastPeerActivity
          = now := by
        simp [sendLogonAck, sendNumbered, SessionState.handleLogon, hawaiting,
          SessionState.nextOutboundSeq, SessionState.markOutboundActivity]
      rw [hout, hpeer, or_self, or_self] at ih
      rcases ih hon with ⟨_, _, hboth⟩ | hboth
      · exact .inr hboth
      · exact .inr hboth
  | heard seqNum _ ih =>
      rcases ih hon with ⟨hs, hms, hout, hpeer⟩ | hboth
      · simp only [SessionState.trackInboundSeq_status,
          SessionState.trackInboundSeq_heartbeatIntervalMs,
          SessionState.trackInboundSeq_lastOutboundActivity,
          SessionState.trackInboundSeq_lastPeerActivity, or_self] at hs hms hout hpeer
        exact .inl ⟨hs, hms, hout, .inr hpeer⟩
      · exact .inr hboth
  | send frame _ _ ih =>
      rcases ih hon with ⟨hs, hms, hout, hpeer⟩ | hboth
      · exact .inl ⟨hs, hms, .inr (or_self_iff.mp hout), hpeer⟩
      · exact .inr hboth
  | push ev _ ih => exact ih hon

/-- A session that nothing is sent on keeps its status and the time of the last frame. -/
theorem Talk.silent {now : Int} {s s' : SessionState} {said : List Output}
    (h : Talk now s said s') (hsaid : ∀ frame, Output.send frame ∉ said) :
    s'.status = s.status ∧ s'.lastOutboundActivity = s.lastOutboundActivity := by
  induction h with
  | done s => exact ⟨rfl, rfl⟩
  | logon | send => exact absurd List.mem_cons_self (hsaid _)
  | heard seqNum _ ih =>
      obtain ⟨hstatus, hout⟩ := ih hsaid
      rw [SessionState.trackInboundSeq_status] at hstatus
      rw [SessionState.trackInboundSeq_lastOutboundActivity] at hout
      exact ⟨hstatus, hout⟩
  | push ev _ ih => exact ih fun frame hin => hsaid frame (List.mem_cons_of_mem _ hin)

/-- Spoken to within one interval before `since`, and heard of within two. -/
def Attended (since : Int) (s : SessionState) : Prop :=
  s.status = .loggedOn → since - s.heartbeatInterval ≤ s.lastOutboundActivity
    ∧ since - s.heartbeatInterval * 2 ≤ s.lastPeerActivity

theorem Talk.attended {since now : Int} {s s' : SessionState} {said : List Output}
    (hnow : since ≤ now) (h : Talk now s said s') (hs : Attended since s) :
    Attended since s' := by
  intro hon
  have hnonneg := s'.heartbeatInterval_nonneg
  rcases h.activity hon with ⟨hon', hms, hout, hpeer⟩ | ⟨hout, hpeer⟩
  · have hinterval : s'.heartbeatInterval = s.heartbeatInterval := by
      rw [SessionState.heartbeatInterval, hms, SessionState.heartbeatInterval]
    obtain ⟨hout', hpeer'⟩ := hs hon'
    constructor
    · rcases hout with h | h <;> omega
    · rcases hpeer with h | h <;> omega
  · constructor <;> omega

/-- No activity is dated later. -/
def ActiveBy (latest : Int) (s : SessionState) : Prop :=
  s.status = .loggedOn → s.lastOutboundActivity ≤ latest ∧ s.lastPeerActivity ≤ latest

theorem Talk.activeBy {latest now : Int} {s s' : SessionState} {said : List Output}
    (hnow : now ≤ latest) (h : Talk now s said s') (hs : ActiveBy latest s) :
    ActiveBy latest s' := by
  intro hon
  rcases h.activity hon with ⟨hon', _, hout, hpeer⟩ | ⟨hout, hpeer⟩
  · obtain ⟨hout', hpeer'⟩ := hs hon'
    constructor
    · rcases hout with h | h <;> omega
    · rcases hpeer with h | h <;> omega
  · constructor <;> omega

/-! ## One call -/

namespace Server

variable {srv srv' : Server} {fd : UInt32} {p : Poll}

/-- Every connection of these descriptors is attended to. -/
def AttendsTo (F : UInt32 → Prop) (since : Int) (srv : Server) : Prop :=
  ∀ fd conn, F fd → srv.connections.lookup fd = some conn → Attended since conn.session

theorem attendsTo_kept (F : UInt32 → Prop) (since : Int) :
    Kept (fun _ => True) (fun now => since ≤ now) (AttendsTo F since) :=
  .of_sessions F (fun h => absurd h (by simp)) fun hnow htalk => htalk.attended hnow

/-- A connection is attended to once it was visited. -/
theorem attendsTo_checkHeartbeat {since now : Int} (hnow : since ≤ now) :
    AttendsTo (· = fd) since (srv.checkHeartbeat fd now) := by
  rintro fd' conn' rfl hconn' hon
  unfold checkHeartbeat at hconn'
  split at hconn'
  · rename_i hnone
    exact absurd (hnone.symm.trans hconn') (by simp)
  · rename_i conn hfound
    split at hconn'
    · rename_i hoff
      rw [hfound, Option.some.injEq] at hconn'
      exact absurd (hconn' ▸ hon) hoff
    · split at hconn'
      · rw [closeConnection, Finmap.lookup_erase] at hconn'
        exact absurd hconn' (by simp)
      · rename_i halive
        have hpeer : now - conn.session.lastPeerActivity ≤ conn.session.heartbeatInterval * 2 := by
          exact Int.not_lt.mp fun hdead => halive (decide_eq_true hdead)
        have hnonneg := conn.session.heartbeatInterval_nonneg
        split at hconn'
        · rw [sendOn, Finmap.lookup_insert, Option.some.injEq] at hconn'
          rw [← hconn']
          -- the heartbeat goes out now
          show since - conn.session.heartbeatInterval ≤ now
            ∧ since - conn.session.heartbeatInterval * 2 ≤ conn.session.lastPeerActivity
          omega
        · rename_i hrecent
          rw [hfound, Option.some.injEq] at hconn'
          rw [← hconn']
          have hout : now - conn.session.lastOutboundActivity < conn.session.heartbeatInterval := by
            exact Int.not_le.mp fun hdue => hrecent (decide_eq_true hdue)
          omega

/-- The walk gets to each of its connections, and what it did stays done. -/
theorem attendsTo_checkHeartbeats {since : Int} {walk : List (UInt32 × Int)} :
    ∀ {srv : Server}, (∀ visit ∈ walk, since ≤ visit.2) → ∀ visit ∈ walk,
      AttendsTo (· = visit.1) since (srv.checkHeartbeats walk) := by
  induction walk with
  | nil => exact fun _ visit hvisit => absurd hvisit (by simp)
  | cons first walk ih =>
      intro srv htimes visit hvisit
      obtain ⟨hfirst, hrest⟩ := List.forall_mem_cons.mp htimes
      rcases List.mem_cons.mp hvisit with rfl | hvisit
      · show AttendsTo _ since ((srv.checkHeartbeat visit.1 visit.2).checkHeartbeats walk)
        exact (attendsTo_kept _ since).checkHeartbeats (fun v hv => ⟨trivial, hrest v hv⟩)
          (attendsTo_checkHeartbeat hfirst)
      · exact ih hrest visit hvisit

/-- After a call every connection is attended to. -/
theorem attendsTo_pollOnce (ht : p.Timely) (hs : srv.pollOnce p = some srv') :
    AttendsTo (fun _ => True) p.started srv' := by
  intro fd conn _ hconn
  obtain ⟨srv₁, _, hwalks, rfl⟩ := pollOnce_eq_some hs
  have htimes : ∀ visit ∈ p.walk, p.started ≤ visit.2 :=
    fun visit hvisit => (ht.within.walk visit hvisit).2.1
  have hkept := attendsTo_kept (· = fd) p.started
  -- visited in this walk, or not open when it began
  have hwalked : AttendsTo (· = fd) p.started (srv₁.checkHeartbeats p.walk) := by
    cases hfound : srv₁.connections.lookup fd with
    | none =>
        refine hkept.checkHeartbeats (fun v hv => ⟨trivial, htimes v hv⟩) ?_
        rintro fd' conn' rfl hconn'
        exact absurd (hfound.symm.trans hconn') (by simp)
    | some conn₁ =>
        obtain ⟨now, hvisit⟩ := hwalks.mem_iff.mpr ⟨conn₁, hfound⟩
        exact attendsTo_checkHeartbeats htimes _ hvisit
  have hdrained := hkept.drainAcks
    (fun ack hack => ⟨trivial, (ht.within.acks ack hack).2.1⟩) hwalked
  exact hdrained fd conn rfl hconn

/-! ## Runs -/

def AllActiveBy (latest : Int) (srv : Server) : Prop :=
  ∀ fd conn, True → srv.connections.lookup fd = some conn → ActiveBy latest conn.session

theorem allActiveBy_kept (latest : Int) :
    Kept (fun _ => True) (fun now => now ≤ latest) (AllActiveBy latest) :=
  .of_sessions _ (fun h => absurd h (by simp)) fun hnow htalk => htalk.activeBy hnow

theorem AllActiveBy.mono {t t' : Int} (h : AllActiveBy t srv) (hle : t ≤ t') :
    AllActiveBy t' srv := by
  intro fd conn _ hconn hon
  obtain ⟨hout, hpeer⟩ := h fd conn trivial hconn hon
  constructor <;> omega

theorem allActiveBy_polls : ∀ {polls : List Poll} {srv : Server}, OnTime polls →
    (∀ p ∈ polls.head?, AllActiveBy p.started srv) → Machine.exec pollOnce srv polls = some srv' →
    ∀ p ∈ polls.getLast?, AllActiveBy p.finished srv' := by
  intro polls
  induction polls with
  | nil => exact fun _ _ _ p hp => absurd hp (by simp)
  | cons p polls ih =>
      intro srv htime hby hrun
      obtain ⟨srv₁, hs, hrun⟩ := Machine.exec_cons.mp hrun
      obtain ⟨hp, hrest⟩ := List.forall_mem_cons.mp htime.1
      have hby₁ : AllActiveBy p.finished srv₁ :=
        (allActiveBy_kept p.finished).pollOnce (hp.within.mono fun _ h => h.2)
          ((hby p rfl).mono hp.le) hs
      cases polls with
      | nil =>
          cases hrun
          rintro q ⟨rfl⟩
          exact hby₁
      | cons q polls =>
          obtain ⟨hnext, hchain⟩ := List.isChain_cons_cons.mp htime.2
          rw [List.getLast?_cons_cons]
          refine ih ⟨hrest, hchain⟩ ?_ hrun
          rintro r ⟨rfl⟩
          exact hby₁.mono hnext

theorem allActiveBy_init (latest : Int) : AllActiveBy latest .init := by
  intro fd conn _ hconn
  simp [init] at hconn

/-- Since these outputs a frame was handed to `send_frame` for the descriptor, or else the last
one of its session is from before `since`. -/
def SpokenSince (past : List (UInt32 × Output)) (since : Int) (fd : UInt32) (srv : Server) :
    Prop :=
  ∃ new, srv.outputs = past ++ new ∧ ((∃ frame, (fd, Output.send frame) ∈ new)
    ∨ ∀ conn, srv.connections.lookup fd = some conn → conn.session.status = .loggedOn →
        conn.session.lastOutboundActivity < since)

variable {past : List (UInt32 × Output)} {since : Int}

/-- More is done, after which the time of the last frame is still from before, if it was. -/
theorem SpokenSince.of_appended (h : SpokenSince past since fd srv) (said : List (UInt32 × Output))
    (houtputs : srv'.outputs = srv.outputs ++ said)
    (hsilent : (∀ frame, (fd, Output.send frame) ∉ said) → ∀ conn',
      srv'.connections.lookup fd = some conn' → conn'.session.status = .loggedOn →
      ∃ conn, srv.connections.lookup fd = some conn ∧ conn.session.status = .loggedOn
        ∧ conn'.session.lastOutboundActivity = conn.session.lastOutboundActivity) :
    SpokenSince past since fd srv' := by
  obtain ⟨new, hnew, hspoken⟩ := h
  refine ⟨new ++ said, by rw [houtputs, hnew, List.append_assoc], ?_⟩
  rcases hspoken with ⟨frame, hin⟩ | hbefore
  · exact .inl ⟨frame, List.mem_append_left _ hin⟩
  · by_cases hsend : ∃ frame, (fd, Output.send frame) ∈ said
    · obtain ⟨frame, hin⟩ := hsend
      exact .inl ⟨frame, List.mem_append_right _ hin⟩
    · right
      intro conn' hconn' hon'
      obtain ⟨conn, hconn, hon, hsame⟩ :=
        hsilent (fun frame hin => hsend ⟨frame, hin⟩) conn' hconn' hon'
      exact hsame ▸ hbefore conn hconn hon

theorem spokenSince_kept : Kept (fun _ => True) (fun _ => True) (SpokenSince past since fd) where
  change := by
    intro srv srv' h hchange
    cases hchange with
    | nothing hconns houtputs =>
        refine h.of_appended [] (by rw [houtputs, List.append_nil]) fun _ conn hconn hon => ?_
        exact ⟨conn, hconns ▸ hconn, hon, rfl⟩
    | opened fd' _ _ hconns houtputs =>
        refine h.of_appended [] (by rw [houtputs, List.append_nil]) fun _ conn hconn hon => ?_
        rw [hconns] at hconn
        by_cases hfd : fd = fd'
        · -- a connection is not logged on when it is opened
          rw [hfd, Finmap.lookup_insert, Option.some.injEq] at hconn
          rw [← hconn] at hon
          exact absurd hon (by simp)
        · exact ⟨conn, Finmap.lookup_insert_of_ne _ hfd ▸ hconn, hon, rfl⟩
    | closed fd' _ hconns houtputs =>
        refine h.of_appended _ houtputs fun _ conn hconn hon => ?_
        rw [hconns] at hconn
        by_cases hfd : fd = fd'
        · rw [hfd, Finmap.lookup_erase] at hconn
          exact absurd hconn (by simp)
        · exact ⟨conn, Finmap.lookup_erase_ne hfd ▸ hconn, hon, rfl⟩
    | talked fd' _ conn' session said now _ hfound htalk hconns houtputs =>
        refine h.of_appended _ houtputs fun hsilent conn hconn hon => ?_
        rw [hconns] at hconn
        by_cases hfd : fd = fd'
        · subst hfd
          rw [Finmap.lookup_insert, Option.some.injEq] at hconn
          subst hconn
          obtain ⟨hstatus, hout⟩ := htalk.silent fun frame hin =>
            hsilent frame (List.mem_map_of_mem hin)
          exact ⟨conn', hfound, hstatus ▸ hon, hout⟩
        · exact ⟨conn, Finmap.lookup_insert_of_ne _ hfd ▸ hconn, hon, rfl⟩
  read := by
    intro srv fd' conn' reader _ h hfound
    refine h.of_appended [] (List.append_nil _).symm fun _ conn hconn hon => ?_
    by_cases hfd : fd = fd'
    · subst hfd
      rw [Finmap.lookup_insert, Option.some.injEq] at hconn
      subst hconn
      exact ⟨conn', hfound, hon, rfl⟩
    · exact ⟨conn, Finmap.lookup_insert_of_ne _ hfd ▸ hconn, hon, rfl⟩

end Server

/-- **Every logged-on session is attended to.** At the end of every call of a run of the
poll loop in which no client logs out or logs on twice, a session that is logged on has its last
outbound activity at most one interval, and was heard of at most two intervals, before the call
started. So of the calls since any that ended more than an interval before, one has handed a
frame for it to `send_frame`. -/
theorem loggedOn_sessions_attended (polls : List Poll) (p : Poll) (srv : Server)
    (htime : OnTime (polls ++ [p]))
    (hrun : Machine.exec Server.pollOnce .init (polls ++ [p]) = some srv) (fd : UInt32)
    (conn : ConnectionState) (hopen : srv.connections.lookup fd = some conn)
    (hon : conn.session.status = .loggedOn) :
    (p.started - conn.session.heartbeatInterval ≤ conn.session.lastOutboundActivity
        ∧ conn.session.lastOutboundActivity ≤ p.finished)
      ∧ (p.started - conn.session.heartbeatInterval * 2 ≤ conn.session.lastPeerActivity
        ∧ conn.session.lastPeerActivity ≤ p.finished)
      ∧ ∀ earlier later srv₀, polls = earlier ++ later →
        Machine.exec Server.pollOnce .init earlier = some srv₀ →
        (∀ q ∈ earlier.getLast?, q.finished < p.started - conn.session.heartbeatInterval) →
        ∃ new frame, srv.outputs = srv₀.outputs ++ new ∧ (fd, Output.send frame) ∈ new := by
  have hinit : ∀ q ∈ (polls ++ [p]).head?, Server.AllActiveBy q.started .init :=
    fun q _ => Server.allActiveBy_init q.started
  obtain ⟨hout, hpeer⟩ := Server.allActiveBy_polls htime hinit hrun p (by simp) fd conn trivial
    hopen hon
  obtain ⟨srv₁, _, hlast⟩ := Machine.exec_append_iff.mp hrun
  obtain ⟨srv₂, hs, hend⟩ := Machine.exec_cons.mp hlast
  cases hend
  have htimely : p.Timely := htime.1 p (by simp)
  obtain ⟨hout', hpeer'⟩ := Server.attendsTo_pollOnce htimely hs fd conn trivial hopen hon
  refine ⟨⟨hout', hout⟩, ⟨hpeer', hpeer⟩, fun earlier later srv₀ hsplit hrun₀ hearlier => ?_⟩
  rw [hsplit, List.append_assoc] at hrun htime
  obtain ⟨srv₀', hrun₀', hrest⟩ := Machine.exec_append_iff.mp hrun
  obtain rfl : srv₀ = srv₀' := Option.some.inj (hrun₀.symm.trans hrun₀')
  -- nothing was sent in the last interval before
  have hbefore : Server.SpokenSince srv₀.outputs (p.started - conn.session.heartbeatInterval) fd
      srv₀ := by
    refine ⟨[], (List.append_nil _).symm, .inr fun conn₀ hconn₀ hon₀ => ?_⟩
    cases hlast : earlier.getLast? with
    | none =>
        rw [List.getLast?_eq_none_iff.mp hlast] at hrun₀
        cases hrun₀
        simp [Server.init] at hconn₀
    | some q =>
        have htime₀ : OnTime earlier :=
          ⟨fun q hq => htime.1 q (List.mem_append_left _ hq), htime.2.left_of_append⟩
        have hby := Server.allActiveBy_polls htime₀ (fun q _ => Server.allActiveBy_init q.started)
          hrun₀ q hlast fd conn₀ trivial hconn₀ hon₀
        exact Int.lt_of_le_of_lt hby.1 (hearlier q hlast)
  obtain ⟨new, hnew, ⟨frame, hin⟩ | hsilent⟩ := Machine.exec_preserves
    (fun _ q _ h hs => Server.spokenSince_kept.pollOnce q.within_any h hs) _ _ _ hbefore hrest
  · exact ⟨new, frame, hnew, hin⟩
  · exact absurd (hsilent conn hopen hon) (Int.not_lt.mpr hout')

/-- Nothing came in for an interval, and a heartbeat went out. -/
theorem loggedOn_sessions_attended_heartbeat :
    let logon := (ClientMsg.frame 1 (.logon ⟨7, 1000, 0⟩)).bytes
    let first : Poll :=
      ⟨[.listen (some 5), .readable 5 [.data logon, .again] fun _ => ⟨3, true⟩], [(5, 4)], [], 0, 9⟩
    let p : Poll := ⟨[], [(5, 1000000015)], [], 1000000010, 1000000019⟩
    ∃ srv₀ srv conn, Machine.exec Server.pollOnce .init [first] = some srv₀
      ∧ Machine.exec Server.pollOnce .init [first, p] = some srv
      ∧ srv.connections.lookup 5 = some conn ∧ conn.session.status = .loggedOn
      ∧ 10 ≤ conn.session.lastOutboundActivity ∧ conn.session.lastOutboundActivity ≤ 1000000019
      ∧ ∃ new frame, srv.outputs = srv₀.outputs ++ new ∧ (5, Output.send frame) ∈ new := by
  intro logon first p
  have hrun₀ : (Machine.exec Server.pollOnce .init [first]).isSome := by decide +kernel
  have hrun : ((Machine.exec Server.pollOnce .init [first, p]).bind fun srv =>
      srv.connections.lookup 5) = some ⟨⟨[]⟩, ⟨.loggedOn, 7, 1000, 2, 2, 3, 1000000015⟩⟩ := by
    decide +kernel
  obtain ⟨srv₀, hsrv₀⟩ := Option.isSome_iff_exists.mp hrun₀
  obtain ⟨srv, hsrv, hconn⟩ := Option.bind_eq_some_iff.mp hrun
  have htime : OnTime ([first] ++ [p]) := by
    refine ⟨?_, .cons_cons (by decide) (.singleton _)⟩
    simp only [first, p, List.cons_append, List.nil_append, List.forall_mem_cons,
      List.not_mem_nil, false_implies, implies_true, and_true]
    refine ⟨⟨by decide, ⟨?_, ?_, ?_⟩⟩, ⟨by decide, ⟨?_, ?_, ?_⟩⟩⟩ <;> simp [Ready.Within]
  obtain ⟨⟨hfrom, hto⟩, -, hsent⟩ :=
    loggedOn_sessions_attended [first] p srv htime hsrv 5 _ hconn rfl
  exact ⟨srv₀, srv, _, hsrv₀, hsrv, hconn, rfl, Int.le_trans (by decide) hfrom, hto,
    hsent [first] [] srv₀ rfl hsrv₀ (by decide)⟩

/-! ## Peers that say nothing -/

namespace Server

variable {srv srv' : Server} {fd : UInt32} {p : Poll} {heard : Int} {ms : UInt32}

/-- Open and logged on, with this interval, and last heard of then. -/
def LastHeard (fd : UInt32) (heard : Int) (ms : UInt32) (srv : Server) : Prop :=
  ∃ conn, srv.connections.lookup fd = some conn ∧ conn.session.status = .loggedOn
    ∧ conn.session.lastPeerActivity = heard ∧ conn.session.heartbeatIntervalMs = ms

/-- Sending does not count as hearing. -/
theorem LastHeard.sendOn (h : LastHeard fd heard ms srv) {conn : ConnectionState} {fd' : UInt32}
    (hfound : srv.connections.lookup fd' = some conn) (now : Int) (frame : UInt32 → Frame) :
    LastHeard fd heard ms (srv.sendOn fd' conn now frame) := by
  obtain ⟨conn', hconn', hsession⟩ := h
  by_cases hfd : fd' = fd
  · subst hfd
    rw [hfound, Option.some.injEq] at hconn'
    subst hconn'
    exact ⟨_, Finmap.lookup_insert _, hsession⟩
  · exact ⟨conn', (Finmap.lookup_insert_of_ne _ (Ne.symm hfd)).trans hconn', hsession⟩

theorem LastHeard.drainAcks {acks : List (OutboundAck × Int)} : ∀ {srv : Server},
    LastHeard fd heard ms srv → LastHeard fd heard ms (srv.drainAcks acks) := by
  induction acks with
  | nil => exact id
  | cons ack acks ih =>
      intro srv h
      show LastHeard fd heard ms ((srv.drainAck ack.1 ack.2).drainAcks acks)
      refine ih ?_
      unfold drainAck
      split
      · exact h
      · exact h.sendOn (by assumption) _ _

theorem drainAcks_none {acks : List (OutboundAck × Int)} : ∀ {srv : Server},
    srv.connections.lookup fd = none → (srv.drainAcks acks).connections.lookup fd = none := by
  induction acks with
  | nil => exact id
  | cons ack acks ih =>
      intro srv h
      show ((srv.drainAck ack.1 ack.2).drainAcks acks).connections.lookup fd = none
      refine ih ?_
      unfold drainAck
      split
      · exact h
      · rename_i conn hfound
        have hne : fd ≠ ack.1.sessionId := by
          rintro rfl
          exact absurd (h.symm.trans hfound) (by simp)
        exact (Finmap.lookup_insert_of_ne _ hne).trans h

/-- The visit drops the peer if it is overdue, and otherwise changes nothing it goes by. -/
theorem LastHeard.checkHeartbeat (h : LastHeard fd heard ms srv) (now : Int) :
    if now - heard ≤ ms.toNat * 1000000 * 2 then LastHeard fd heard ms (srv.checkHeartbeat fd now)
    else (srv.checkHeartbeat fd now).connections.lookup fd = none := by
  obtain ⟨conn, hconn, hon, hheard, hms⟩ := h
  have hdead : conn.session.isPeerDead now = true ↔ ¬ now - heard ≤ ms.toNat * 1000000 * 2 := by
    rw [← hheard, ← hms, Int.not_le]
    exact decide_eq_true_iff
  unfold Server.checkHeartbeat
  rw [hconn]
  dsimp only
  rw [if_neg (not_not_intro hon)]
  split
  · rename_i halive
    rw [if_neg (fun hd => hdead.mp hd halive)]
    have hkeeps : LastHeard fd heard ms srv := ⟨conn, hconn, hon, hheard, hms⟩
    split
    · exact hkeeps.sendOn hconn now _
    · exact hkeeps
  · rename_i hoverdue
    rw [if_pos (hdead.mpr hoverdue)]
    exact Finmap.lookup_erase _ _

theorem checkHeartbeats_append (srv : Server) (walk walk' : List (UInt32 × Int)) :
    srv.checkHeartbeats (walk ++ walk') = (srv.checkHeartbeats walk).checkHeartbeats walk' :=
  List.foldl_append

/-- Visits to others are nothing to a connection. -/
theorem checkHeartbeats_lookup {walk : List (UInt32 × Int)} (hnot : fd ∉ walk.map Prod.fst)
    (srv : Server) :
    (srv.checkHeartbeats walk).connections.lookup fd = srv.connections.lookup fd := by
  refine (Kept.of_lookup (T := fun _ => True) fd _).checkHeartbeats (fun visit hvisit => ?_) rfl
  refine ⟨fun hfd => hnot ?_, trivial⟩
  rw [← hfd]
  exact List.mem_map_of_mem hvisit

/-- The walk is at the connection once. -/
theorem LastHeard.checkHeartbeats (h : LastHeard fd heard ms srv) {walk : List (UInt32 × Int)}
    (hnodup : (walk.map Prod.fst).Nodup) {now : Int} (hvisit : (fd, now) ∈ walk) :
    if now - heard ≤ ms.toNat * 1000000 * 2 then LastHeard fd heard ms (srv.checkHeartbeats walk)
    else (srv.checkHeartbeats walk).connections.lookup fd = none := by
  obtain ⟨before, after, rfl⟩ := List.append_of_mem hvisit
  rw [List.map_append, List.map_cons, List.nodup_middle, List.nodup_cons, List.mem_append,
    not_or] at hnodup
  obtain ⟨⟨hbefore, hafter⟩, -⟩ := hnodup
  have hat : LastHeard fd heard ms (srv.checkHeartbeats before) := by
    obtain ⟨conn, hconn, hsession⟩ := h
    exact ⟨conn, (checkHeartbeats_lookup hbefore srv).trans hconn, hsession⟩
  have hend := checkHeartbeats_lookup hafter ((srv.checkHeartbeats before).checkHeartbeat fd now)
  have hdone := hat.checkHeartbeat now
  rw [LastHeard, ← hend] at hdone
  rw [checkHeartbeats_append]
  exact hdone

end Server

/-- No event of the call is about the descriptor. -/
def Poll.Spares (p : Poll) (fd : UInt32) : Prop :=
  ∀ r ∈ p.ready, r.Within (· ≠ fd) fun _ => True

namespace Server

variable {srv srv' : Server} {fd : UInt32} {p : Poll} {heard : Int} {ms : UInt32}

theorem Walks.unique {walk : List (UInt32 × Int)} (h : srv.Walks walk) {t t' : Int}
    (ht : (fd, t) ∈ walk) (ht' : (fd, t') ∈ walk) : t = t' := by
  have hinj := List.inj_on_of_nodup_map h.1 ht ht' rfl
  exact congrArg Prod.snd hinj

/-- One call, and nothing comes in from the peer. -/
theorem LastHeard.pollOnce (h : LastHeard fd heard ms srv) (hspares : p.Spares fd)
    (hs : srv.pollOnce p = some srv') :
    (LastHeard fd heard ms srv' ∧ ∀ now, (fd, now) ∈ p.walk → now - heard ≤ ms.toNat * 1000000 * 2)
      ∨ (srv'.connections.lookup fd = none
        ∧ ∃ now, (fd, now) ∈ p.walk ∧ ¬ now - heard ≤ ms.toNat * 1000000 * 2) := by
  obtain ⟨srv₁, hready, hwalks, rfl⟩ := pollOnce_eq_some hs
  have hsame := (Kept.of_lookup fd _).exec_onReady hspares rfl hready
  have h₁ : LastHeard fd heard ms srv₁ := by
    obtain ⟨conn, hconn, hsession⟩ := h
    exact ⟨conn, hsame.trans hconn, hsession⟩
  obtain ⟨now, hvisit⟩ := hwalks.mem_iff.mpr ⟨_, h₁.choose_spec.1⟩
  have hdone := h₁.checkHeartbeats hwalks.1 hvisit
  split at hdone
  · rename_i hrecent
    refine .inl ⟨hdone.drainAcks, fun t ht => ?_⟩
    rw [hwalks.unique ht hvisit]
    exact hrecent
  · rename_i hoverdue
    exact .inr ⟨drainAcks_none hdone, now, hvisit, hoverdue⟩

/-- A closed connection stays closed if its descriptor is not given out again. -/
theorem pollOnce_none (h : srv.connections.lookup fd = none) (hspares : p.Spares fd)
    (hs : srv.pollOnce p = some srv') :
    srv'.connections.lookup fd = none ∧ ∀ now, (fd, now) ∉ p.walk := by
  obtain ⟨srv₁, hready, hwalks, rfl⟩ := pollOnce_eq_some hs
  have h₁ : srv₁.connections.lookup fd = none :=
    (Kept.of_lookup fd _).exec_onReady hspares h hready
  have hnot : ∀ now, (fd, now) ∉ p.walk := by
    intro now hvisit
    obtain ⟨conn, hconn⟩ := hwalks.mem_iff.mp ⟨now, hvisit⟩
    exact absurd (h₁.symm.trans hconn) (by simp)
  refine ⟨drainAcks_none ((checkHeartbeats_lookup ?_ srv₁).trans h₁), hnot⟩
  intro hmem
  obtain ⟨visit, hvisit, rfl⟩ := List.mem_map.mp hmem
  exact hnot visit.2 hvisit

theorem exec_none {polls : List Poll} : ∀ {srv : Server}, srv.connections.lookup fd = none →
    (∀ p ∈ polls, p.Spares fd) → Machine.exec pollOnce srv polls = some srv' →
    srv'.connections.lookup fd = none := by
  induction polls with
  | nil =>
      intro srv h _ hrun
      cases hrun
      exact h
  | cons p polls ih =>
      intro srv h hspares hrun
      obtain ⟨srv₁, hs, hrun⟩ := Machine.exec_cons.mp hrun
      obtain ⟨hp, hrest⟩ := List.forall_mem_cons.mp hspares
      exact ih (pollOnce_none h hp hs).1 hrest hrun

theorem LastHeard.exec {polls : List Poll} : ∀ {srv : Server}, LastHeard fd heard ms srv →
    (∀ p ∈ polls, p.Spares fd) → Machine.exec Server.pollOnce srv polls = some srv' →
    ((∃ conn, srv'.connections.lookup fd = some conn)
      ↔ ∀ p ∈ polls, ∀ now, (fd, now) ∈ p.walk → now - heard ≤ ms.toNat * 1000000 * 2) := by
  induction polls with
  | nil =>
      intro srv h _ hrun
      cases hrun
      obtain ⟨conn, hconn, _⟩ := h
      exact ⟨fun _ p hp => absurd hp (by simp), fun _ => ⟨conn, hconn⟩⟩
  | cons p polls ih =>
      intro srv h hspares hrun
      obtain ⟨srv₁, hs, hrun⟩ := Machine.exec_cons.mp hrun
      obtain ⟨hp, hrest⟩ := List.forall_mem_cons.mp hspares
      rw [List.forall_mem_cons]
      rcases h.pollOnce hp hs with ⟨h₁, hrecent⟩ | ⟨hgone, now, hvisit, hoverdue⟩
      · rw [ih h₁ hrest hrun]
        exact ⟨fun hall => ⟨hrecent, hall⟩, And.right⟩
      · -- dropped in this call, and for good
        have hend := exec_none hgone hrest hrun
        constructor
        · rintro ⟨conn, hconn⟩
          exact absurd (hend.symm.trans hconn) (by simp)
        · rintro ⟨hall, _⟩
          exact absurd (hall now hvisit) hoverdue

end Server

/-- **A peer that says nothing is dropped exactly when it is overdue.** While nothing comes
in on a logged-on connection, it is open after a number of calls if and only if none of
their walks came by more than two of its intervals after it was last heard of. On the other
connections no client logs out or logs on twice in these calls. -/
theorem silent_connection_open_iff (srv srv' : Server) (fd : UInt32) (conn : ConnectionState)
    (polls : List Poll) (hopen : srv.connections.lookup fd = some conn)
    (hon : conn.session.status = .loggedOn) (hsilent : ∀ p ∈ polls, p.Spares fd)
    (hrun : Machine.exec Server.pollOnce srv polls = some srv') :
    (∃ conn', srv'.connections.lookup fd = some conn')
      ↔ ∀ p ∈ polls, ∀ now, (fd, now) ∈ p.walk →
        now - conn.session.lastPeerActivity ≤ conn.session.heartbeatInterval * 2 :=
  Server.LastHeard.exec ⟨conn, hopen, hon, rfl, rfl⟩ hsilent hrun

/-- One nanosecond too long. -/
theorem silent_connection_open_iff_overdue :
    let srv : Server := ⟨Finmap.singleton 5 ⟨.init, ⟨.loggedOn, 7, 1000, 2, 1, 0, 0⟩⟩, [], 0⟩
    let polls : List Poll := [⟨[], [(5, 2000000000)], [], 2000000000, 2000000000⟩,
      ⟨[], [(5, 2000000001)], [], 2000000001, 2000000001⟩]
    ∃ srv', Machine.exec Server.pollOnce srv polls = some srv'
      ∧ ¬ ∃ conn', srv'.connections.lookup 5 = some conn' := by
  intro srv polls
  have hrun : (Machine.exec Server.pollOnce srv polls).isSome = true := by decide +kernel
  obtain ⟨srv', hsrv'⟩ := Option.isSome_iff_exists.mp hrun
  refine ⟨srv', hsrv', fun hopen => ?_⟩
  have hall := (silent_connection_open_iff srv srv' 5 _ polls rfl rfl
    (by simp [polls, Poll.Spares]) hsrv').mp hopen
  have hdue := hall _ (List.mem_cons_of_mem _ List.mem_cons_self) 2000000001 List.mem_cons_self
  exact absurd hdue (by decide)

end HftLob.Gateway

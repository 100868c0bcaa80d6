import HftLob.Gateway.Isolation
import HftLob.Gateway.OrderEntry
import HftLob.Gateway.ReportFrames

/-!
# The gateway with the matcher behind it

`Server` has the frames and the sessions, but nothing behind the input queue; `World` has
orders and reports, but neither frames nor sessions. `Exchange` is the one with the other:
the server takes its steps as they are, what it pushes is applied by the matcher, and the acks
go back through `drain_acks`.

`World` follows it. `routing` says what a step is to `World`: an order, an end of a
connection, or nothing. So what holds of every run of `World` holds of the frames, and of
the connections they are sent on.
-/

namespace HftLob.Gateway

open HftLob.Book HftLob.Engine HftLob.Lib HftLob.Wire MatchingEngineConsumer

variable {cap : PoolCapacity}

structure Exchange (cap : PoolCapacity) where
  server : Server
  /-- What `accept` has returned. No step looks at it. -/
  accepted : List UInt32
  /-- Events pushed and not yet applied. -/
  pending : List SequencedEvent
  applied : List SequencedEvent
  engine : MatchingEngineConsumer cap
  /-- The ack queue. -/
  acks : List OutboundAck

inductive ExchangeAction where
  | accept (fd : UInt32)
  | frame (fd : UInt32) (f : Frame) (m : Moment)
  | close (fd : UInt32)
  | heartbeat (fd : UInt32) (now : Int)
  /-- The sequencer stamps the next event and the matcher applies it. -/
  | process (sequenceTsNs : UInt64)
  /-- One turn of the loop in `drain_acks`. -/
  | deliver (now : Int)

namespace Exchange

def init (cap : PoolCapacity) : Exchange cap where
  server := .init
  accepted := []
  pending := []
  applied := []
  engine := MatchingEngineConsumer.init cap
  acks := []

/-- A step of the server; what it pushes is in the queue then. -/
def serve (s : Exchange cap) (a : ServerAction) : Option (Exchange cap) :=
  (s.server.step a).map fun srv => { s with
    server := srv
    pending := s.pending ++ pushes ((srv.outputs.drop s.server.outputs.length).map Prod.snd) }

/-- An event as the sequencer publishes it. -/
def stamp (s : Exchange cap) (sequenceTsNs : UInt64) (ev : SequencedEvent) : SequencedEvent :=
  { ev with seqNum := UInt64.ofNat (s.applied.length + 1), sequenceTsNs := sequenceTsNs,
            producer := .gateway }

def step (s : Exchange cap) : ExchangeAction → Option (Exchange cap)
  | .accept fd => (s.serve (.accept fd)).map fun s => { s with accepted := s.accepted ++ [fd] }
  | .frame fd f m => s.serve (.frame fd f m)
  | .close fd => s.serve (.close fd)
  | .heartbeat fd now => s.serve (.heartbeat fd now)
  | .process sequenceTsNs =>
      match s.pending with
      | [] => none
      | ev :: pending =>
          let ev := s.stamp sequenceTsNs ev
          let r := s.engine.apply ev
          some { s with pending := pending
                        applied := s.applied ++ [ev]
                        engine := r.1
                        acks := s.acks ++ r.2 }
  | .deliver now =>
      match s.acks with
      | [] => none
      | ack :: acks => { s with acks := acks }.serve (.ack ack now)

end Exchange

/-! ## What a step is to the routing -/

/-- The order or cancel in a frame. -/
def orderAction (fd : UInt32) (f : Frame) (queued : Bool) : Action :=
  if IsNewOrder f then
    .newOrder fd (orderOf (NewOrderMsg.read (f.body.take NewOrderMsg.size))) queued
  else
    .cancelOrder fd (CancelOrderMsg.read (f.body.take CancelOrderMsg.size)).clientOrderId queued

def Exchange.routing (s : Exchange cap) : ExchangeAction → List Action
  | .accept fd => [.accept fd]
  | .frame fd f m =>
      match s.server.connections.lookup fd with
      | none => []
      | some conn =>
          if Closes conn.session.status f then [.close fd]
          else if IsOrder f then [orderAction fd f m.queueRoom]
          else []
  | .close fd => if (s.server.connections.lookup fd).isSome then [.close fd] else []
  | .heartbeat fd now => if s.server.findsDead fd now then [.close fd] else []
  | .process sequenceTsNs => [.process sequenceTsNs]
  | .deliver _ => [.drain]

theorem step_orderAction (w : World cap) (fd : UInt32) (f : Frame) (queued : Bool) :
    w.step (orderAction fd f queued) = w.pushEvent fd (eventOf fd f) queued := by
  unfold orderAction eventOf
  split <;> rfl

/-- A connection is found where it is put in place of another. -/
theorem Server.isSome_insert {fd : UInt32} {conn conn' : ConnectionState}
    {conns : UMap UInt32 ConnectionState} (h : conns.lookup fd = some conn) (fd' : UInt32) :
    ((conns.insert fd conn').lookup fd').isSome = (conns.lookup fd').isSome := by
  by_cases hfd : fd' = fd
  · rw [hfd, Finmap.lookup_insert, h]
    rfl
  · rw [Finmap.lookup_insert_of_ne _ hfd]

/-! ## The relation -/

/-- The report was sent in this frame, on the descriptor of its connection. -/
def SentAs (accepted : List UInt32) (r : Report) (sent : UInt32 × Frame) : Prop :=
  accepted[r.connection]? = some sent.1
    ∧ ∃ n, sent.2 = executionReportFrame n (wireReport r.message)

/-- The same gateway, with frames and sessions and without. -/
structure Follows (s : Exchange cap) (w : World cap) : Prop where
  accepted : w.accepted = s.accepted.length
  connected : ∀ fd,
    (w.connections.lookup fd).isSome = (s.server.connections.lookup fd).isSome
  descriptor : ∀ fd k, w.connections.lookup fd = some k → s.accepted[k]? = some fd
  pending : w.pending.map Prod.fst = s.pending
  applied : w.applied.map Prod.fst = s.applied
  engine : w.engine = s.engine
  acks : w.acks.map Prod.fst = s.acks
  reports : List.Forall₂ (SentAs s.accepted) w.reports (reportFrames s.server.outputs)

theorem follows_init : Follows (Exchange.init cap) (World.init cap) where
  accepted := rfl
  connected _ := rfl
  descriptor fd k h := by simp [World.init] at h
  pending := rfl
  applied := rfl
  engine := rfl
  acks := rfl
  reports := .nil

variable {s s' : Exchange cap} {w w' : World cap} {fd : UInt32}

theorem SentAs.mono {accepted : List UInt32} (fd : UInt32) {r : Report} {sent : UInt32 × Frame}
    (h : SentAs accepted r sent) : SentAs (accepted ++ [fd]) r sent := by
  obtain ⟨hlt, _⟩ := List.getElem?_eq_some_iff.mp h.1
  exact ⟨(List.getElem?_append_left hlt).trans h.1, h.2⟩

theorem sentAs_of_reports {accepted : List UInt32} {k : Nat} {reports : List Report}
    {frames : List Frame} (hk : accepted[k]? = some fd) (hconn : ∀ r ∈ reports, r.connection = k)
    (h : List.Forall₂ (fun m f => ∃ n, f = executionReportFrame n (wireReport m))
      (reports.map Report.message) frames) :
    List.Forall₂ (SentAs accepted) reports (frames.map fun f => (fd, f)) := by
  rw [List.forall₂_map_left_iff] at h
  rw [List.forall₂_map_right_iff]
  refine (List.forall₂_and_left _ _).mpr ⟨fun r hr => hconn r hr, h⟩ |>.imp ?_
  rintro r f ⟨hr, hf⟩
  exact ⟨by rw [hr, hk], hf⟩

/-- Something is said on an open connection, and it stays open. -/
theorem Follows.talk (h : Follows s w) {srv : Server} {k : Nat} {said : List Output}
    (reports : List Report) (hk : w.connections.lookup fd = some k)
    (hconns : ∀ fd', (srv.connections.lookup fd').isSome
      = (s.server.connections.lookup fd').isSome)
    (houtputs : srv.outputs = s.server.outputs ++ said.map fun o => (fd, o))
    (hconn : ∀ r ∈ reports, r.connection = k) (hsaid : Reports said (reports.map Report.message)) :
    Follows { s with server := srv, pending := s.pending ++ pushes said }
      { w with pending := w.pending ++ (pushes said).map fun ev => (ev, k)
               reports := w.reports ++ reports } where
  accepted := h.accepted
  connected fd' := (h.connected fd').trans (hconns fd').symm
  descriptor := h.descriptor
  pending := by
    rw [List.map_append, h.pending, List.map_map]
    simp [Function.comp_def]
  applied := h.applied
  engine := h.engine
  acks := h.acks
  reports := by
    show List.Forall₂ _ _ (reportFrames srv.outputs)
    rw [houtputs, reportFrames_append]
    exact List.rel_append h.reports (sentAs_of_reports (h.descriptor fd k hk) hconn hsaid)

theorem Follows.found (h : Follows s w) {conn : ConnectionState}
    (hconn : s.server.connections.lookup fd = some conn) :
    ∃ k, w.connections.lookup fd = some k := by
  have hconnected := h.connected fd
  rw [hconn] at hconnected
  exact Option.isSome_iff_exists.mp hconnected

theorem Follows.free (h : Follows s w) (hnone : s.server.connections.lookup fd = none) :
    w.connections.lookup fd = none := by
  have hconnected := h.connected fd
  rw [hnone] at hconnected
  exact Option.isNone_iff_eq_none.mp (by simpa using hconnected)

theorem Follows.accept (h : Follows s w) (hfree : s.server.connections.lookup fd = none) :
    ∃ w', w.step (.accept fd) = some w'
      ∧ Follows { s with
          server := { s.server with connections := s.server.connections.insert fd {} }
          accepted := s.accepted ++ [fd] } w' := by
  have hnone := h.free hfree
  refine ⟨{ w with connections := w.connections.insert fd w.accepted
                   accepted := w.accepted + 1 }, by simp only [World.step, hnone], ?_, ?_, ?_,
    h.pending, h.applied, h.engine, h.acks, h.reports.imp fun _ _ => SentAs.mono fd⟩
  · rw [List.length_append, h.accepted]
    rfl
  · intro fd'
    by_cases hfd : fd' = fd
    · rw [hfd, Finmap.lookup_insert, Finmap.lookup_insert]
      rfl
    · rw [Finmap.lookup_insert_of_ne _ hfd, Finmap.lookup_insert_of_ne _ hfd]
      exact h.connected fd'
  · intro fd' k hk
    by_cases hfd : fd' = fd
    · rw [hfd, Finmap.lookup_insert, Option.some.injEq, h.accepted] at hk
      rw [hfd, ← hk]
      exact List.getElem?_concat_length
    · rw [Finmap.lookup_insert_of_ne _ hfd] at hk
      have hold := h.descriptor fd' k hk
      exact (List.getElem?_append_left (List.getElem?_eq_some_iff.mp hold).1).trans hold

/-- A connection is closed; nothing is reported about it. -/
theorem Follows.close (h : Follows s w) {srv : Server} (said : List Output)
    (hconns : srv.connections = s.server.connections.erase fd)
    (houtputs : srv.outputs = s.server.outputs ++ said.map fun o => (fd, o))
    (hsaid : Reports said []) :
    Follows { s with server := srv } { w with connections := w.connections.erase fd } where
  accepted := h.accepted
  connected fd' := by
    show _ = (srv.connections.lookup fd').isSome
    rw [hconns]
    by_cases hfd : fd' = fd
    · rw [hfd, Finmap.lookup_erase, Finmap.lookup_erase]
      rfl
    · rw [Finmap.lookup_erase_ne hfd, Finmap.lookup_erase_ne hfd]
      exact h.connected fd'
  descriptor fd' k hk := by
    by_cases hfd : fd' = fd
    · rw [hfd, Finmap.lookup_erase] at hk
      exact absurd hk (by simp)
    · exact h.descriptor fd' k (Finmap.lookup_erase_ne hfd ▸ hk)
  pending := h.pending
  applied := h.applied
  engine := h.engine
  acks := h.acks
  reports := by
    have hnone : said.filterMap Output.report? = [] := List.forall₂_nil_left_iff.mp hsaid
    show List.Forall₂ _ _ (reportFrames srv.outputs)
    rw [houtputs, reportFrames_append, hnone, List.map_nil, List.append_nil]
    exact h.reports

/-! ## One step -/

/-- What is pushed in a step of the server is among what it says. -/
theorem Exchange.serve_eq_some {a : ServerAction} (hs : s.serve a = some s') :
    ∃ srv, s.server.step a = some srv ∧ ∀ fd said,
      srv.outputs = s.server.outputs ++ said.map (fun o => (fd, o)) →
      s' = { s with server := srv, pending := s.pending ++ pushes said } := by
  obtain ⟨srv, hsrv, rfl⟩ := Option.map_eq_some_iff.mp hs
  refine ⟨srv, hsrv, fun fd said houtputs => ?_⟩
  rw [houtputs, List.drop_left, List.map_map]
  simp [Function.comp_def]

theorem not_isOrder_of_closes {status : SessionStatus} {f : Frame} (h : Closes status f) :
    ¬ IsOrder f := by
  rintro (⟨hnew, -⟩ | ⟨hcancel, -⟩) <;> rcases h with hout | ⟨⟨hlogon, -⟩, -⟩
  · exact absurd (hnew.symm.trans hout) (by decide)
  · exact absurd (hnew.symm.trans hlogon) (by decide)
  · exact absurd (hcancel.symm.trans hout) (by decide)
  · exact absurd (hcancel.symm.trans hlogon) (by decide)

theorem World.close_eq {k : Nat} (hk : w.connections.lookup fd = some k) :
    w.step (.close fd) = some { w with connections := w.connections.erase fd } := by
  rw [World.step, hk]

theorem Follows.frame (h : Follows s w) {f : Frame} {m : Moment}
    (hs : s.step (.frame fd f m) = some s') :
    ∃ w', Machine.exec World.step w (s.routing (.frame fd f m)) = some w' ∧ Follows s' w' := by
  obtain ⟨srv, hsrv, heq⟩ := Exchange.serve_eq_some hs
  obtain ⟨conn, r, hconn, hdispatch, hdoes, hconns, houtputs⟩ := Server.frame_eq_some hsrv
  obtain rfl := heq fd r.2 houtputs
  obtain ⟨k, hk⟩ := h.found hconn
  have hreports := dispatch_reports fd f conn.session m hdispatch
  rw [hdoes.pushed]
  simp only [Exchange.routing, hconn]
  by_cases hcloses : Closes conn.session.status f
  · -- a logout, or a logon too many: nothing of it enters
    have horder := not_isOrder_of_closes hcloses
    rw [if_pos hcloses, enters_of_not horder, List.append_nil]
    rw [refused_of_not horder] at hreports
    rw [if_pos hcloses] at hconns
    exact ⟨_, Machine.exec_singleton (World.close_eq hk), h.close r.2 hconns houtputs hreports⟩
  · rw [if_neg hcloses] at hconns
    have hsame : ∀ fd', (srv.connections.lookup fd').isSome
        = (s.server.connections.lookup fd').isSome := by
      rw [hconns]
      exact Server.isSome_insert hconn
    rw [if_neg hcloses]
    by_cases horder : IsOrder f
    · -- pushed if there is room, and otherwise turned away at once
      cases hroom : m.queueRoom with
      | true =>
          rw [if_pos horder]
          have htalk := h.talk [] hk hsame houtputs (by simp)
            (by simpa [refused, hroom] using hreports)
          refine ⟨{ w with pending := w.pending ++ [(eventOf fd f, k)] },
            Machine.exec_singleton ((step_orderAction w fd f true).trans ?_), ?_⟩
          · simp only [World.pushEvent, hk, if_true]
          · simpa [hdoes.pushed, enters, horder, hroom] using htalk
      | false =>
          rw [if_pos horder]
          have htalk := h.talk
            [⟨k, rejectedReport (eventOf fd f).clientOrderId, some k⟩] hk hsame houtputs
            (by simp) (by simpa [refused, horder, hroom] using hreports)
          refine ⟨{ w with reports := w.reports ++
              [⟨k, rejectedReport (eventOf fd f).clientOrderId, some k⟩] },
            Machine.exec_singleton ((step_orderAction w fd f false).trans ?_), ?_⟩
          · simp only [World.pushEvent, hk, Bool.false_eq_true, if_false]
          · simpa [hdoes.pushed, enters, horder, hroom] using htalk
    · have htalk := h.talk [] hk hsame houtputs (by simp)
        (by rw [refused_of_not horder] at hreports; exact hreports)
      rw [if_neg horder]
      exact ⟨w, rfl, by simpa [hdoes.pushed, enters_of_not horder] using htalk⟩

/-- A step of the server that says nothing. -/
theorem Exchange.serve_silent {a : ServerAction} (hs : s.serve a = some s')
    (hsilent : ∀ srv, s.server.step a = some srv → srv.outputs = s.server.outputs) :
    ∃ srv, s.server.step a = some srv ∧ s' = { s with server := srv } := by
  obtain ⟨srv, hsrv, heq⟩ := Exchange.serve_eq_some hs
  refine ⟨srv, hsrv, ?_⟩
  simpa [pushes] using heq 0 [] (by simpa using hsilent srv hsrv)

/-- A frame besides orders and reports is sent, or a report. -/
theorem Follows.sendOn (h : Follows s w) {conn : ConnectionState} {now : Int}
    {frame : UInt32 → Frame} {k : Nat} (reports : List Report)
    (hconn : s.server.connections.lookup fd = some conn) (hk : w.connections.lookup fd = some k)
    (hown : ∀ r ∈ reports, r.connection = k)
    (hsaid : Reports (sendNumbered conn.session now frame).2 (reports.map Report.message)) :
    Follows { s with server := s.server.sendOn fd conn now frame }
      { w with reports := w.reports ++ reports } := by
  have hconns : ∀ fd', ((s.server.sendOn fd conn now frame).connections.lookup fd').isSome
      = (s.server.connections.lookup fd').isSome := Server.isSome_insert hconn
  simpa [pushes] using h.talk reports hk hconns rfl hown hsaid

theorem Follows.heartbeat (h : Follows s w) {now : Int}
    (hs : s.step (.heartbeat fd now) = some s') :
    ∃ w', Machine.exec World.step w (s.routing (.heartbeat fd now)) = some w'
      ∧ Follows s' w' := by
  obtain ⟨srv, hsrv, heq⟩ := Exchange.serve_eq_some hs
  obtain rfl := Option.some.inj hsrv
  dsimp only [Exchange.routing]
  rcases s.server.checkHeartbeat_cases fd now with ⟨hdead, hclose⟩ | ⟨halive, hquiet | hsend⟩
  · -- the peer is dead
    obtain rfl := heq fd [.close] (by rw [hclose]; rfl)
    have hfound : (s.server.connections.lookup fd).isSome := by
      unfold Server.findsDead at hdead
      split at hdead
      · exact absurd hdead (by simp)
      · simp_all
    obtain ⟨conn, hconn⟩ := Option.isSome_iff_exists.mp hfound
    obtain ⟨k, hk⟩ := h.found hconn
    rw [if_pos hdead]
    refine ⟨_, Machine.exec_singleton (World.close_eq hk), ?_⟩
    simpa [pushes] using h.close [.close] (by rw [hclose]; rfl) (by rw [hclose]; rfl) .nil
  · obtain rfl := heq fd [] (by simp [hquiet])
    rw [if_neg (by simp [halive])]
    refine ⟨w, rfl, ?_⟩
    simpa [pushes, hquiet] using h
  · obtain ⟨conn, hconn, hsend⟩ := hsend
    obtain ⟨k, hk⟩ := h.found hconn
    have hnone : Reports (sendNumbered conn.session now heartbeatFrame).2 [] :=
      sendNumbered_reports_none conn.session now fun _ =>
        show MsgType.heartbeat.byte ≠ MsgType.executionReport.byte by decide
    obtain rfl := heq fd (sendNumbered conn.session now heartbeatFrame).2 (by rw [hsend]; rfl)
    rw [if_neg (by simp [halive])]
    refine ⟨w, rfl, ?_⟩
    simpa [hsend, (sendNumbered_does conn.session now heartbeatFrame).pushed]
      using h.sendOn [] hconn hk (by simp) hnone

theorem Follows.process (h : Follows s w) {ts : UInt64} (hs : s.step (.process ts) = some s') :
    ∃ w', w.step (.process ts) = some w' ∧ Follows s' w' := by
  dsimp only [Exchange.step] at hs
  split at hs
  · exact absurd hs (by simp)
  · rename_i ev pending hpending
    obtain rfl := Option.some.inj hs
    obtain ⟨⟨ev', k⟩, rest, hw, rfl, hrest⟩ := List.map_eq_cons_iff.mp (h.pending.trans hpending)
    -- as many events have been applied, so the next number is the same
    have hstamp : w.stamp ts ev' = s.stamp ts ev' := by
      rw [World.stamp, Exchange.stamp, ← h.applied, List.length_map]
    refine ⟨{ w with pending := rest }.applyEvent (w.stamp ts ev') k,
      by simp only [World.step, hw], h.accepted, h.connected, h.descriptor, hrest, ?_, ?_, ?_,
      h.reports⟩
    · simp [World.applyEvent, hstamp, h.applied]
    · simp [World.applyEvent, hstamp, h.engine]
    · simp [World.applyEvent, hstamp, h.engine, h.acks, Function.comp_def]

theorem Follows.deliver (h : Follows s w) {now : Int} (hs : s.step (.deliver now) = some s') :
    ∃ w', w.step .drain = some w' ∧ Follows s' w' := by
  dsimp only [Exchange.step] at hs
  split at hs
  · exact absurd hs (by simp)
  · rename_i ack acks hacks
    obtain ⟨⟨ack', about⟩, rest, hw, rfl, hrest⟩ := List.map_eq_cons_iff.mp (h.acks.trans hacks)
    have hpopped : Follows { s with acks := acks } { w with acks := rest } :=
      ⟨h.accepted, h.connected, h.descriptor, h.pending, h.applied, h.engine, hrest, h.reports⟩
    obtain ⟨srv, hsrv, heq⟩ := Exchange.serve_eq_some hs
    obtain rfl := Option.some.inj hsrv
    cases hconn : s.server.connections.lookup ack'.sessionId with
    | none =>
        -- disconnected before its ack arrived
        have hnone := h.free hconn
        have hsrv : s.server.drainAck ack' now = s.server := by simp [Server.drainAck, hconn]
        obtain rfl := heq 0 [] (by simp [hsrv])
        refine ⟨{ w with acks := rest }, by simp only [World.step, hw, hnone], ?_⟩
        simpa [pushes, hsrv] using hpopped
    | some conn =>
        obtain ⟨k, hk⟩ := h.found hconn
        have hsrv : s.server.drainAck ack' now = s.server.sendOn ack'.sessionId conn now
            fun n => executionReportFrame n (wireReport (executionReport ack')) := by
          simp only [Server.drainAck, hconn]
          rfl
        have hsent := hpopped.sendOn [⟨k, executionReport ack', about⟩] hconn hk
          (by simp) (sendNumbered_reports conn.session now (executionReport ack'))
        obtain rfl := heq ack'.sessionId _ (by rw [hsrv]; rfl)
        refine ⟨{ w with acks := rest
                         reports := w.reports ++ [⟨k, executionReport ack', about⟩] },
          by simp only [World.step, hw, hk], ?_⟩
        simpa [hsrv, pushes] using hsent

theorem follows_step {a : ExchangeAction} (h : Follows s w) (hs : s.step a = some s') :
    ∃ w', Machine.exec World.step w (s.routing a) = some w' ∧ Follows s' w' := by
  cases a with
  | accept fd =>
      obtain ⟨s₁, hs₁, rfl⟩ := Option.map_eq_some_iff.mp hs
      obtain ⟨srv, hsrv, rfl⟩ := Exchange.serve_silent hs₁ fun srv hsrv => by
        rw [(Server.accept_eq_some hsrv).2]
      obtain ⟨hfree, rfl⟩ := Server.accept_eq_some hsrv
      obtain ⟨w', hw', hfollows⟩ := h.accept hfree
      exact ⟨w', Machine.exec_singleton hw', hfollows⟩
  | frame fd f m => exact h.frame hs
  | close fd =>
      obtain ⟨srv, hsrv, heq⟩ := Exchange.serve_eq_some hs
      obtain rfl := Option.some.inj hsrv
      obtain rfl := heq fd [.close] rfl
      have hclosed : Follows { s with server := s.server.closeConnection fd } _ :=
        h.close [.close] rfl rfl .nil
      dsimp only [Exchange.routing]
      cases hk : w.connections.lookup fd with
      | none =>
          -- the connection was closed before
          have hgone : (s.server.connections.lookup fd).isSome = false := by
            rw [← h.connected fd, hk]
            rfl
          have hsame : w.connections.erase fd = w.connections := by
            refine Finmap.ext_lookup fun fd' => ?_
            by_cases hfd : fd' = fd
            · rw [hfd, Finmap.lookup_erase, hk]
            · rw [Finmap.lookup_erase_ne hfd]
          rw [hsame] at hclosed
          exact ⟨w, by simp [hgone, Machine.exec], by simpa [pushes] using hclosed⟩
      | some k =>
          have hopen : (s.server.connections.lookup fd).isSome = true := by
            rw [← h.connected fd, hk]
            rfl
          rw [if_pos hopen]
          exact ⟨_, Machine.exec_singleton (World.close_eq hk), by simpa [pushes] using hclosed⟩
  | heartbeat fd now => exact h.heartbeat hs
  | process ts =>
      obtain ⟨w', hw', hfollows⟩ := h.process hs
      exact ⟨w', Machine.exec_singleton hw', hfollows⟩
  | deliver now =>
      obtain ⟨w', hw', hfollows⟩ := h.deliver hs
      exact ⟨w', Machine.exec_singleton hw', hfollows⟩

/-! ## Every run -/

/-- A descriptor is handed out only when nothing under way and no order carries it. -/
def AcceptsFresh (s : Exchange cap) : ExchangeAction → Prop
  | .accept fd =>
      (∀ ev ∈ s.pending, ev.sessionId ≠ fd)
        ∧ (∀ x ∈ s.engine.resting.keys,
            (s.engine.resting.lookup x).map RestingOrderInfo.sessionId ≠ some fd)
        ∧ ∀ ack ∈ s.acks, ack.sessionId ≠ fd
  | .frame _ _ _ | .close _ | .heartbeat _ _ | .process _ | .deliver _ => True

instance (s : Exchange cap) (a : ExchangeAction) : Decidable (AcceptsFresh s a) :=
  match a with
  | .accept fd =>
      have : Decidable (∀ x ∈ s.engine.resting.keys,
          (s.engine.resting.lookup x).map RestingOrderInfo.sessionId ≠ some fd) :=
        Finset.decidableDforallFinset
      inferInstanceAs (Decidable (_ ∧ _ ∧ _))
  | .frame _ _ _ | .close _ | .heartbeat _ _ | .process _ | .deliver _ => .isTrue trivial

theorem Follows.acceptsQuiet (h : Follows s w) {a : ExchangeAction} (ha : AcceptsFresh s a) :
    Machine.Along World.step AcceptsQuiet w (s.routing a) := by
  have hone : ∀ b, AcceptsQuiet w b → Machine.Along World.step AcceptsQuiet w [b] :=
    fun b hb => .cons hb fun _ _ => trivial
  cases a with
  | accept fd =>
      obtain ⟨hpending, hresting, hacks⟩ := ha
      refine hone _ ⟨fun p hp => ?_, h.engine ▸ hresting, fun p hp => ?_⟩
      · exact hpending p.1 (h.pending ▸ List.mem_map_of_mem hp)
      · exact hacks p.1 (h.acks ▸ List.mem_map_of_mem hp)
  | frame fd f m =>
      dsimp only [Exchange.routing]
      split
      · trivial
      · split
        · exact hone _ trivial
        · split
          · refine hone _ ?_
            unfold orderAction
            split <;> trivial
          · trivial
  | close fd =>
      dsimp only [Exchange.routing]
      split
      · exact hone _ trivial
      · trivial
  | heartbeat fd now =>
      dsimp only [Exchange.routing]
      split
      · exact hone _ trivial
      · trivial
  | process ts => exact hone _ trivial
  | deliver now => exact hone _ trivial

/-- The routing follows every run. -/
theorem follows_exec {actions : List ExchangeAction}
    (hrun : Machine.exec Exchange.step (Exchange.init cap) actions = some s) :
    ∃ w, Machine.exec World.step (World.init cap)
        (Machine.trace Exchange.step Exchange.routing (Exchange.init cap) actions) = some w
      ∧ Follows s w
      ∧ (Machine.Along Exchange.step AcceptsFresh (Exchange.init cap) actions →
          Machine.Along World.step AcceptsQuiet (World.init cap)
            (Machine.trace Exchange.step Exchange.routing (Exchange.init cap) actions)) := by
  obtain ⟨⟨w, hw, hfollows⟩, hquiet⟩ := Machine.exec_simulation (R := Follows)
    (C := AcceptsFresh) (D := AcceptsQuiet)
    (fun _ _ _ _ h hs => ⟨follows_step h hs, h.acceptsQuiet⟩) actions _ s _ follows_init hrun
  exact ⟨w, hw, hfollows, hquiet⟩

/-- **Reports reach their connection in the frames that are sent.** On every run of the
gateway with the matcher behind it, the routing follows step by step: the frames with
execution reports are the routing's reports, each on the descriptor of its connection. If
every descriptor is handed out fresh, each is about something received on the connection it
is sent on, and cancels remove orders of their own connection only. -/
theorem frames_reach_their_connection (cap : PoolCapacity) (actions : List ExchangeAction)
    (s : Exchange cap) (hrun : Machine.exec Exchange.step (Exchange.init cap) actions = some s) :
    ∃ w, Machine.exec World.step (World.init cap)
        (Machine.trace Exchange.step Exchange.routing (Exchange.init cap) actions) = some w
      ∧ Follows s w
      ∧ (Machine.Along Exchange.step AcceptsFresh (Exchange.init cap) actions →
          s.applied.length < 2 ^ 64 → Isolated w) := by
  obtain ⟨w, hw, hfollows, hquiet⟩ := follows_exec hrun
  refine ⟨w, hw, hfollows, fun hfresh hlen => ?_⟩
  -- and what holds of the runs of the routing holds of this one
  have hinv : RoutingInv w := Machine.exec_invariant
    (fun _ _ _ h hC ht => routingInv_step h hC ht) _ _ w routingInv_init (hquiet hfresh) hw
  have happlied : w.applied.length < 2 ^ 64 := by
    rw [← List.length_map Prod.fst, hfollows.applied]
    exact hlen
  obtain ⟨_, hbelongs⟩ := hinv.belongs happlied
  exact hbelongs.isolated

/-- A client logs on, trades and logs out, and another gets its descriptor; the queue is full
when it sends its cancel. -/
theorem frames_reach_their_connection_reused :
    let cap : PoolCapacity := ⟨4, by decide⟩
    let logon := ClientMsg.frame 1 (.logon ⟨7, 30000, 0⟩)
    let order := ClientMsg.frame 2 (.newOrder ⟨1, #v[65, 66, 67, 0, 0, 0, 0, 0], 0, 100, 5⟩)
    let cancel := ClientMsg.frame 3 (.cancelOrder ⟨1⟩)
    let logout : Frame := ⟨MsgType.logout.byte, 4, [], by decide⟩
    let actions : List ExchangeAction :=
      [.accept 5, .frame 5 logon ⟨0, true⟩, .frame 5 order ⟨1, true⟩, .process 0, .deliver 2,
       .frame 5 cancel ⟨3, true⟩, .process 0, .deliver 4, .frame 5 logout ⟨5, true⟩,
       .accept 5, .frame 5 order ⟨6, true⟩, .process 0, .deliver 7, .frame 5 cancel ⟨8, false⟩]
    ∃ (s : Exchange cap) (w : World cap),
      Machine.exec Exchange.step (Exchange.init cap) actions = some s ∧ Follows s w ∧ Isolated w
        ∧ w.reports.map (fun r => (r.connection, r.message.status))
          = [(0, .accepted), (0, .canceled), (1, .accepted), (1, .rejected)] := by
  intro cap logon order cancel logout actions
  have hsome : (Machine.exec Exchange.step (Exchange.init cap) actions).isSome := by
    decide +kernel
  have hlen : ∀ s ∈ Machine.exec Exchange.step (Exchange.init cap) actions,
      s.applied.length < 2 ^ 64 := by decide +kernel
  have hreports : ∀ w ∈ Machine.exec World.step (World.init cap)
      (Machine.trace Exchange.step Exchange.routing (Exchange.init cap) actions),
      w.reports.map (fun r => (r.connection, r.message.status))
        = [(0, .accepted), (0, .canceled), (1, .accepted), (1, .rejected)] := by decide +kernel
  obtain ⟨s, hs⟩ := Option.isSome_iff_exists.mp hsome
  obtain ⟨w, hw, hfollows, hisolated⟩ := frames_reach_their_connection cap actions s hs
  exact ⟨s, w, hs, hfollows, hisolated (by decide +kernel) (hlen s hs), hreports w hw⟩

end HftLob.Gateway

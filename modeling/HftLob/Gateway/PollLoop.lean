import HftLob.Gateway.OrderEntry

/-!
# The poll loop

`poll_once`: what `kevent` reports is worked off first, one descriptor after the other;
then `check_heartbeats` walks over the connections there are, and `drain_acks` empties the
ack queue. Everything the gateway says to a client is said in one of these three places.

A call has no result if a frame closes the connection it is read from, a logout or a second
logon: `handle_readable` goes on to use the entry that is gone by then.

Whatever a call does comes down to the steps of `ServerAction` and to changes of a frame
reader, and a session changes in few ways only: `Talk` lists them. What has to hold of the
server over all calls is shown once for these.
-/

namespace HftLob.Gateway

open HftLob.Wire HftLob.Lib HftLob.Lib.Framing

/-! ## One call of `poll_once` -/

/-- What `kevent` reports about a descriptor. -/
inductive Ready where
  /-- The listening socket, with what `accept` then returns. -/
  | listen (client : Option UInt32)
  /-- `EV_EOF`. -/
  | eof (fd : UInt32)
  | readable (fd : UInt32) (recvs : List Recv) (moments : Nat → Moment)

/-- Everything a call meets with. -/
structure Poll where
  ready : List Ready
  /-- The connections in the order in which `connections_` is walked over, each with the
  time at which it is looked at. -/
  walk : List (UInt32 × Int)
  /-- What `pop` finds in the ack queue, each with the time at which it is sent on. -/
  acks : List (OutboundAck × Int)
  started : Int
  finished : Int

namespace Server

/-- Nothing if the kernel would not do so, or if the code would use a closed connection. -/
def onReady (srv : Server) : Ready → Option Server
  | .listen none => some srv
  | .listen (some fd) => srv.step (.accept fd)
  | .eof fd => srv.step (.close fd)
  | .readable fd recvs moments =>
      match srv.handleReadable moments fd recvs with
      | .error _ => none
      | .ok srv => some srv

def checkHeartbeats (srv : Server) (walk : List (UInt32 × Int)) : Server :=
  walk.foldl (fun srv visit => srv.checkHeartbeat visit.1 visit.2) srv

def drainAcks (srv : Server) (acks : List (OutboundAck × Int)) : Server :=
  acks.foldl (fun srv ack => srv.drainAck ack.1 ack.2) srv

/-- A walk over all connections, each once. -/
def Walks (srv : Server) (walk : List (UInt32 × Int)) : Prop :=
  (walk.map Prod.fst).Nodup ∧ (walk.map Prod.fst).toFinset = srv.connections.keys

instance (srv : Server) (walk : List (UInt32 × Int)) : Decidable (srv.Walks walk) :=
  inferInstanceAs (Decidable (_ ∧ _))

def pollOnce (srv : Server) (p : Poll) : Option Server :=
  match Machine.exec onReady srv p.ready with
  | none => none
  | some srv =>
      if srv.Walks p.walk then some ((srv.checkHeartbeats p.walk).drainAcks p.acks) else none

variable {srv srv' : Server} {p : Poll} {walk : List (UInt32 × Int)} {fd : UInt32}

theorem Walks.mem_iff (h : srv.Walks walk) :
    (∃ now, (fd, now) ∈ walk) ↔ ∃ conn, srv.connections.lookup fd = some conn := by
  have hkeys : fd ∈ (walk.map Prod.fst).toFinset
      ↔ ∃ conn, srv.connections.lookup fd = some conn := by
    rw [h.2, Finmap.mem_keys]
    exact Finmap.mem_iff
  rw [← hkeys, List.mem_toFinset, List.mem_map]
  constructor
  · rintro ⟨now, hmem⟩
    exact ⟨_, hmem, rfl⟩
  · rintro ⟨visit, hmem, rfl⟩
    exact ⟨visit.2, hmem⟩

/-- The three parts of a call. -/
theorem pollOnce_eq_some (hs : srv.pollOnce p = some srv') :
    ∃ srv₁, Machine.exec onReady srv p.ready = some srv₁ ∧ srv₁.Walks p.walk
      ∧ srv' = (srv₁.checkHeartbeats p.walk).drainAcks p.acks := by
  dsimp only [pollOnce] at hs
  split at hs
  · exact absurd hs (by simp)
  · rename_i srv₁ hready
    split at hs
    · rename_i hwalks
      cases hs
      exact ⟨srv₁, hready, hwalks, rfl⟩
    · exact absurd hs (by simp)

end Server

/-! ## What a session can go through -/

/-- How a session changes while its connection stays open, and what is said and pushed. -/
inductive Talk (now : Int) : SessionState → List Output → SessionState → Prop where
  | done (s : SessionState) : Talk now s [] s
  /-- A logon is taken, and answered at once. -/
  | logon {s s' : SessionState} {outputs : List Output} (clientId : UInt64) (ms seq : UInt32)
      (awaiting : s.status = .awaitingLogon)
      (rest : Talk now (sendLogonAck (s.handleLogon clientId ms seq now).1 now).1 outputs s') :
      Talk now s (.send (logonAckFrame s.outboundSeq) :: outputs) s'
  | heard {s s' : SessionState} {outputs : List Output} (seqNum : UInt32)
      (rest : Talk now (s.trackInboundSeq seqNum now).1 outputs s') : Talk now s outputs s'
  | send {s s' : SessionState} {outputs : List Output} (frame : UInt32 → Frame)
      (numbered : ∀ n, (frame n).seqNum = n)
      (rest : Talk now (sendNumbered s now frame).1 outputs s') :
      Talk now s (.send (frame s.outboundSeq) :: outputs) s'
  | push {s s' : SessionState} {outputs : List Output} (ev : SequencedEvent)
      (rest : Talk now s outputs s') : Talk now s (.push ev :: outputs) s'

namespace Talk

variable {now : Int} {s s' s'' : SessionState} {outputs outputs' : List Output}

theorem append (h : Talk now s outputs s') (h' : Talk now s' outputs' s'') :
    Talk now s (outputs ++ outputs') s'' := by
  induction h with
  | done s => exact h'
  | logon clientId ms seq awaiting _ ih => exact .logon clientId ms seq awaiting (ih h')
  | heard seqNum _ ih => exact .heard seqNum (ih h')
  | send frame numbered _ ih => exact .send frame numbered (ih h')
  | push ev _ ih => exact .push ev (ih h')

theorem close_not_mem (h : Talk now s outputs s') : Output.close ∉ outputs := by
  induction h with
  | done s => simp
  | heard seqNum _ ih => exact ih
  | logon _ _ _ _ _ ih | send _ _ _ ih | push _ _ ih => simpa using ih

end Talk

section Dispatch

variable (session : SessionState) (m : Moment)

theorem sendNumbered_talk (now : Int) {frame : UInt32 → Frame}
    (h : ∀ n, (frame n).seqNum = n) :
    Talk now session (sendNumbered session now frame).2 (sendNumbered session now frame).1 :=
  .send frame h (.done _)

theorem reportSeqGapIfAny_talk (now : Int) (seqNum : UInt32) :
    Talk now session (reportSeqGapIfAny session now seqNum).2
      (reportSeqGapIfAny session now seqNum).1 := by
  refine .heard seqNum ?_
  unfold reportSeqGapIfAny
  dsimp only
  split
  · exact .done _
  · exact sendNumbered_talk _ now fun _ => rfl

theorem pushOrReject_talk (ev : SequencedEvent) :
    Talk m.now session (pushOrReject session m ev).2 (pushOrReject session m ev).1 := by
  unfold pushOrReject
  split
  · exact .push ev (.done _)
  · exact sendNumbered_talk session m.now fun _ => rfl

theorem onNewOrder_talk (fd : UInt32) (order : Wire.NewOrderMsg) :
    Talk m.now session (onNewOrder fd session m order).2 (onNewOrder fd session m order).1 := by
  unfold onNewOrder
  split
  · exact pushOrReject_talk session m _
  · exact sendNumbered_talk session m.now fun _ => rfl

theorem afterGap_talk {rest : SessionState → SessionState × List Output} (seqNum : UInt32)
    (h : ∀ s, Talk m.now s (rest s).2 (rest s).1) :
    Talk m.now session (afterGap (reportSeqGapIfAny session m.now seqNum) rest).2
      (afterGap (reportSeqGapIfAny session m.now seqNum) rest).1 :=
  (reportSeqGapIfAny_talk session m.now seqNum).append (h _)

theorem onLogon_talk (seqNum : UInt32) (logon : LogonMsg) :
    (onLogon session m seqNum logon).2 = [.close]
      ∨ Talk m.now session (onLogon session m seqNum logon).2
          (onLogon session m seqNum logon).1 := by
  by_cases h : session.status = .awaitingLogon
  · right
    have htalk : Talk m.now session _ _ :=
      .logon logon.clientId logon.heartbeatIntervalMs seqNum h (.done _)
    simpa [onLogon, SessionState.handleLogon, h, sendLogonAck, sendNumbered,
      SessionState.nextOutboundSeq] using htalk
  · left
    simp [onLogon, SessionState.handleLogon, h]

/-- **A frame closes its connection and does nothing else, or the session talks.** -/
theorem dispatch_talk (fd : UInt32) (f : Frame) {r : SessionState × List Output}
    (h : dispatch fd f.bytes session m = some r) :
    r.2 = [.close] ∨ Talk m.now session r.2 r.1 := by
  rw [dispatch_bytes] at h
  have hidle : some (session, []) = some r → r.2 = [.close] ∨ Talk m.now session r.2 r.1 := by
    rintro ⟨rfl⟩
    exact .inr (.done _)
  -- as the switch goes; a body that is too short leaves it early
  split at h
  · split at h
    · exact hidle h
    · obtain ⟨body, -, rfl⟩ := Option.map_eq_some_iff.mp h
      exact onLogon_talk session m f.seqNum _
  · cases h
    exact .inr (reportSeqGapIfAny_talk session m.now f.seqNum)
  · cases h
    exact .inr (reportSeqGapIfAny_talk session m.now f.seqNum)
  · dsimp only at h
    split at h
    · cases h
      exact .inr (reportSeqGapIfAny_talk session m.now f.seqNum)
    · obtain ⟨body, -, rfl⟩ := Option.map_eq_some_iff.mp h
      exact .inr (afterGap_talk session m f.seqNum fun s => onNewOrder_talk s m fd _)
  · dsimp only at h
    split at h
    · cases h
      exact .inr (reportSeqGapIfAny_talk session m.now f.seqNum)
    · obtain ⟨body, -, rfl⟩ := Option.map_eq_some_iff.mp h
      exact .inr (afterGap_talk session m f.seqNum fun s => pushOrReject_talk s m _)
  · cases h
    exact .inl rfl
  · exact hidle h

end Dispatch

/-! ## What a step of the server can do -/

namespace Server

variable {D : UInt32 → Prop} {T : Int → Prop} {srv srv' : Server}

/-- How connections and outputs change in one step, on a descriptor and at a time that meet
the conditions. -/
inductive Change (D : UInt32 → Prop) (T : Int → Prop) (srv srv' : Server) : Prop where
  | nothing (connections : srv'.connections = srv.connections)
      (outputs : srv'.outputs = srv.outputs)
  | opened (fd : UInt32) (on : D fd) (free : srv.connections.lookup fd = none)
      (connections : srv'.connections = srv.connections.insert fd {})
      (outputs : srv'.outputs = srv.outputs)
  | closed (fd : UInt32) (on : D fd) (connections : srv'.connections = srv.connections.erase fd)
      (outputs : srv'.outputs = srv.outputs ++ [(fd, .close)])
  | talked (fd : UInt32) (on : D fd) (conn : ConnectionState) (session : SessionState)
      (said : List Output) (now : Int) (time : T now)
      (found : srv.connections.lookup fd = some conn) (talk : Talk now conn.session said session)
      (connections : srv'.connections = srv.connections.insert fd { conn with session := session })
      (outputs : srv'.outputs = srv.outputs ++ said.map fun o => (fd, o))

theorem sendOn_change {fd : UInt32} {conn : ConnectionState} {now : Int}
    {frame : UInt32 → Frame} (hfd : D fd) (hnow : T now)
    (hfound : srv.connections.lookup fd = some conn) (hnum : ∀ n, (frame n).seqNum = n) :
    Change D T srv (srv.sendOn fd conn now frame) :=
  .talked fd hfd conn _ _ now hnow hfound (sendNumbered_talk conn.session now hnum) rfl rfl

theorem checkHeartbeat_change {fd : UInt32} {now : Int} (hfd : D fd) (hnow : T now) :
    Change D T srv (srv.checkHeartbeat fd now) := by
  rcases srv.checkHeartbeat_cases fd now with ⟨-, he⟩ | ⟨-, he | ⟨conn, hfound, he⟩⟩
  · rw [he]
    exact .closed fd hfd rfl rfl
  · rw [he]
    exact .nothing rfl rfl
  · rw [he]
    exact sendOn_change hfd hnow hfound fun _ => rfl

theorem drainAck_change {ack : OutboundAck} {now : Int} (hfd : D ack.sessionId) (hnow : T now) :
    Change D T srv (srv.drainAck ack now) := by
  unfold drainAck
  split
  · exact .nothing rfl rfl
  · exact sendOn_change hfd hnow (by assumption) fun _ => rfl

theorem accept_change {fd : UInt32} (hfd : D fd) (hs : srv.step (.accept fd) = some srv') :
    Change D T srv srv' := by
  obtain ⟨hfree, rfl⟩ := accept_eq_some hs
  exact .opened fd hfd hfree rfl rfl

end Server

/-! ## What reading keeps -/

/-- A property that no part of `handle_readable` changes. -/
structure Serves (moments : Nat → Moment) (fd : UInt32) (I : Server → Prop) : Prop where
  feed : ∀ {srv : Server} {conn : ConnectionState} (chunk : List UInt8), I srv →
    srv.connections.lookup fd = some conn → I (srv.feed fd conn chunk)
  frame : ∀ {srv srv' : Server} {conn : ConnectionState} {reader : FrameReader} {f : Frame},
    I srv → srv.connections.lookup fd = some conn →
    srv.onFrame moments fd { conn with reader := reader } f.bytes = .ok srv' → I srv'
  close : ∀ {srv : Server}, I srv → I (srv.closeConnection fd)

namespace Serves

variable {moments : Nat → Moment} {fd : UInt32} {I : Server → Prop} {srv' : Server}

theorem readFrames (h : Serves moments fd I) : ∀ {fuel : Nat} {srv : Server}, I srv →
    Server.readFrames moments fd fuel srv = .ok srv' → I srv' := by
  intro fuel
  induction fuel with
  | zero =>
      intro srv hI hr
      cases hr
      exact hI
  | succ fuel ih =>
      intro srv hI hr
      rw [Server.readFrames, Server.access] at hr
      cases hfound : srv.connections.lookup fd with
      | none => simp [hfound] at hr
      | some conn =>
          cases hn : frameFormat.size conn.reader.buffer with
          | none =>
              simp only [hfound, FrameReader.reads.none hn, Except.ok.injEq] at hr
              exact hr ▸ hI
          | some n =>
              obtain ⟨f, reader, hnext, -⟩ := FrameReader.nextFrame_bytes hn
              simp only [hfound, hnext] at hr
              split at hr
              · exact absurd hr (by simp)
              · rename_i srv₁ hframe
                exact ih (h.frame hI hfound hframe) hr

theorem recvLoop (h : Serves moments fd I) {recvs : List Recv} : ∀ {srv : Server}, I srv →
    Server.recvLoop moments fd srv recvs = .ok srv' → I srv' := by
  induction recvs with
  | nil =>
      intro srv hI hr
      cases hr
      exact hI
  | cons recv recvs ih =>
      intro srv hI hr
      cases recv with
      | again =>
          cases hr
          exact hI
      | eof | error =>
          cases hr
          exact h.close hI
      | data chunk =>
          rw [Server.recvLoop, Server.access] at hr
          cases hfound : srv.connections.lookup fd with
          | none => simp [hfound] at hr
          | some conn =>
              simp only [hfound] at hr
              split at hr
              · exact absurd hr (by simp)
              · rename_i srv₁ hread
                exact ih (h.readFrames (h.feed chunk hI hfound) hread) hr

theorem handleReadable (h : Serves moments fd I) {srv : Server} {recvs : List Recv} (hI : I srv)
    (hr : srv.handleReadable moments fd recvs = .ok srv') : I srv' := by
  rw [Server.handleReadable] at hr
  split at hr
  · cases hr
    exact hI
  · exact h.recvLoop hI hr

end Serves

/-! ## What every call keeps -/

/-- The event is about descriptors, and is worked off at times, that meet the conditions. -/
def Ready.Within (D : UInt32 → Prop) (T : Int → Prop) : Ready → Prop
  | listen client => ∀ fd, client = some fd → D fd
  | eof fd => D fd
  | readable fd _ moments => D fd ∧ ∀ i, T (moments i).now

structure Poll.Within (D : UInt32 → Prop) (T : Int → Prop) (p : Poll) : Prop where
  ready : ∀ r ∈ p.ready, r.Within D T
  walk : ∀ visit ∈ p.walk, D visit.1 ∧ T visit.2
  acks : ∀ ack ∈ p.acks, D ack.1.sessionId ∧ T ack.2

theorem Poll.within_any (p : Poll) : p.Within (fun _ => True) fun _ => True where
  ready r _ := by
    cases r with
    | listen client => exact fun _ _ => trivial
    | eof fd => trivial
    | readable fd recvs moments => exact ⟨trivial, fun _ => trivial⟩
  walk _ _ := ⟨trivial, trivial⟩
  acks _ _ := ⟨trivial, trivial⟩

theorem Poll.Within.mono {D : UInt32 → Prop} {T T' : Int → Prop} {p : Poll} (h : p.Within D T)
    (hT : ∀ now, T now → T' now) : p.Within D T' where
  ready r hr := by
    have hwithin := h.ready r hr
    cases r with
    | listen client | eof fd => exact hwithin
    | readable fd recvs moments => exact ⟨hwithin.1, fun i => hT _ (hwithin.2 i)⟩
  walk visit hvisit := ⟨(h.walk visit hvisit).1, hT _ (h.walk visit hvisit).2⟩
  acks ack hack := ⟨(h.acks ack hack).1, hT _ (h.acks ack hack).2⟩

/-- A property that no such step changes, and that does not depend on the readers. -/
structure Kept (D : UInt32 → Prop) (T : Int → Prop) (I : Server → Prop) : Prop where
  change : ∀ {srv srv'}, I srv → Server.Change D T srv srv' → I srv'
  read : ∀ {srv : Server} {fd : UInt32} {conn : ConnectionState} (reader : FrameReader), D fd →
    I srv → srv.connections.lookup fd = some conn →
    I { srv with connections := srv.connections.insert fd { conn with reader := reader } }

namespace Kept

variable {D : UInt32 → Prop} {T : Int → Prop} {I : Server → Prop} {moments : Nat → Moment}
  {fd : UInt32} {srv srv' : Server}

theorem closeConnection (h : Kept D T I) (hfd : D fd) (hI : I srv) : I (srv.closeConnection fd) :=
  h.change hI (.closed fd hfd rfl rfl)

/-- The reader is changed before the frame is dispatched. -/
theorem onFrame (h : Kept D T I) (hfd : D fd) (hnow : ∀ i, T (moments i).now)
    {conn : ConnectionState} {reader : FrameReader} {f : Frame} (hI : I srv)
    (hfound : srv.connections.lookup fd = some conn)
    (hf : srv.onFrame moments fd { conn with reader := reader } f.bytes = .ok srv') : I srv' := by
  have hread := h.read reader hfd hI hfound
  cases hd : dispatch fd f.bytes conn.session (moments srv.dispatched) with
  | none => simp [Server.onFrame, hd] at hf
  | some r =>
      simp only [Server.onFrame, hd, Except.ok.injEq] at hf
      subst hf
      rcases dispatch_talk conn.session (moments srv.dispatched) fd f hd with hclose | htalk
      · exact h.change hI (.closed fd hfd (if_pos (by simp [hclose])) (by simp [hclose]))
      · refine h.change hread (.talked fd hfd { conn with reader := reader } r.1 r.2 _ (hnow _)
          (Finmap.lookup_insert _) htalk ?_ rfl)
        dsimp only
        rw [if_neg htalk.close_not_mem, Finmap.insert_insert]

theorem serves (h : Kept D T I) (hfd : D fd) (hnow : ∀ i, T (moments i).now) :
    Serves moments fd I where
  feed _ hI hfound := h.read _ hfd hI hfound
  frame hI hfound hf := h.onFrame hfd hnow hI hfound hf
  close hI := h.closeConnection hfd hI

theorem onReady (h : Kept D T I) {r : Ready} (hr : r.Within D T) (hI : I srv)
    (hs : srv.onReady r = some srv') : I srv' := by
  cases r with
  | listen client =>
      cases client with
      | none =>
          cases hs
          exact hI
      | some fd => exact h.change hI (Server.accept_change (hr fd rfl) hs)
  | eof fd =>
      cases hs
      exact h.closeConnection hr hI
  | readable fd recvs moments =>
      dsimp only [Server.onReady] at hs
      split at hs
      · exact absurd hs (by simp)
      · rename_i srv₁ hread
        cases hs
        exact (h.serves hr.1 hr.2).handleReadable hI hread

theorem exec_onReady (h : Kept D T I) : ∀ {ready : List Ready} {srv : Server},
    (∀ r ∈ ready, r.Within D T) → I srv →
    Machine.exec Server.onReady srv ready = some srv' → I srv' := by
  intro ready
  induction ready with
  | nil =>
      intro srv _ hI hs
      cases hs
      exact hI
  | cons r ready ih =>
      intro srv hat hI hs
      obtain ⟨srv₁, hr, hs⟩ := Machine.exec_cons.mp hs
      obtain ⟨hhead, htail⟩ := List.forall_mem_cons.mp hat
      exact ih htail (h.onReady hhead hI hr) hs

theorem checkHeartbeats (h : Kept D T I) {walk : List (UInt32 × Int)} : ∀ {srv : Server},
    (∀ visit ∈ walk, D visit.1 ∧ T visit.2) → I srv → I (srv.checkHeartbeats walk) := by
  induction walk with
  | nil => exact fun _ hI => hI
  | cons visit walk ih =>
      intro srv hat hI
      obtain ⟨hhead, htail⟩ := List.forall_mem_cons.mp hat
      exact ih htail (h.change hI (Server.checkHeartbeat_change hhead.1 hhead.2))

theorem drainAcks (h : Kept D T I) {acks : List (OutboundAck × Int)} : ∀ {srv : Server},
    (∀ ack ∈ acks, D ack.1.sessionId ∧ T ack.2) → I srv → I (srv.drainAcks acks) := by
  induction acks with
  | nil => exact fun _ hI => hI
  | cons ack acks ih =>
      intro srv hat hI
      obtain ⟨hhead, htail⟩ := List.forall_mem_cons.mp hat
      exact ih htail (h.change hI (Server.drainAck_change hhead.1 hhead.2))

/-- **Kept by every call of `poll_once`.** -/
theorem pollOnce (h : Kept D T I) {p : Poll} (hat : p.Within D T) (hI : I srv)
    (hs : srv.pollOnce p = some srv') : I srv' := by
  obtain ⟨srv₁, hready, _, rfl⟩ := Server.pollOnce_eq_some hs
  exact h.drainAcks hat.acks (h.checkHeartbeats hat.walk (h.exec_onReady hat.ready hI hready))

/-- A property of single sessions that talking does not change. -/
theorem of_sessions {P : SessionState → Prop} (F : UInt32 → Prop) (hinit : P {})
    (htalk : ∀ {now s said s'}, T now → Talk now s said s' → P s → P s') :
    Kept D T fun srv => ∀ fd conn, F fd → srv.connections.lookup fd = some conn →
      P conn.session where
  change := by
    intro srv srv' h hchange fd' conn' hF hconn'
    cases hchange with
    | nothing hconns _ => exact h fd' conn' hF (hconns ▸ hconn')
    | opened fd _ _ hconns _ =>
        rw [hconns] at hconn'
        by_cases hfd : fd' = fd
        · rw [hfd, Finmap.lookup_insert, Option.some.injEq] at hconn'
          exact hconn' ▸ hinit
        · exact h fd' conn' hF (Finmap.lookup_insert_of_ne _ hfd ▸ hconn')
    | closed fd _ hconns _ =>
        rw [hconns] at hconn'
        by_cases hfd : fd' = fd
        · rw [hfd, Finmap.lookup_erase] at hconn'
          exact absurd hconn' (by simp)
        · exact h fd' conn' hF (Finmap.lookup_erase_ne hfd ▸ hconn')
    | talked fd _ conn session said now hnow hfound hsaid hconns _ =>
        rw [hconns] at hconn'
        by_cases hfd : fd' = fd
        · rw [hfd] at hF
          rw [hfd, Finmap.lookup_insert, Option.some.injEq] at hconn'
          exact hconn' ▸ htalk hnow hsaid (h fd conn hF hfound)
        · exact h fd' conn' hF (Finmap.lookup_insert_of_ne _ hfd ▸ hconn')
  read := by
    intro srv fd conn reader _ h hfound fd' conn' hF hconn'
    by_cases hfd : fd' = fd
    · rw [hfd] at hF
      rw [hfd, Finmap.lookup_insert, Option.some.injEq] at hconn'
      exact hconn' ▸ h fd conn hF hfound
    · exact h fd' conn' hF (Finmap.lookup_insert_of_ne _ hfd ▸ hconn')

/-- What happens about other descriptors is nothing to a connection. -/
theorem of_lookup (fd : UInt32) (found : Option ConnectionState) :
    Kept (· ≠ fd) T fun srv => srv.connections.lookup fd = found where
  change := by
    intro srv srv' h hchange
    cases hchange with
    | nothing hconns _ => rw [hconns, h]
    | opened fd' hne _ hconns _ => rw [hconns, Finmap.lookup_insert_of_ne _ hne.symm, h]
    | closed fd' hne hconns _ => rw [hconns, Finmap.lookup_erase_ne hne.symm, h]
    | talked fd' hne conn session said now _ _ _ hconns _ =>
        rw [hconns, Finmap.lookup_insert_of_ne _ hne.symm, h]
  read := by
    intro srv fd' conn reader hne h _
    exact (Finmap.lookup_insert_of_ne _ (Ne.symm hne)).trans h

end Kept

end HftLob.Gateway

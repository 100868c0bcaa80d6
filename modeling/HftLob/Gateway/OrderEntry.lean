import HftLob.Gateway.Readable

/-!
# Who may enter orders, and how often

The server as its poll loop drives it: connections come and go, frames arrive on them one
at a time, heartbeats are checked and acks are drained. `dispatch` looks at the session's
status for a logon only, and it does not look at all at what `track_inbound_seq` made of a
frame's number. So an order enters from any open connection, and as often as it arrives.

Which frames are orders from a logged-on session can be told from what came in on the
connection: `OrdersAfterLogon` is about the input alone.
-/

namespace HftLob.Gateway

open HftLob.Wire HftLob.Lib

/-! ## The poll loop -/

inductive ServerAction where
  /-- `accept_new_connection`; the kernel chooses the descriptor. -/
  | accept (fd : UInt32)
  /-- A whole frame is dispatched. -/
  | frame (fd : UInt32) (f : Frame) (m : Moment)
  /-- End of file or an error on the connection. -/
  | close (fd : UInt32)
  /-- One turn of the loop in `check_heartbeats`. -/
  | heartbeat (fd : UInt32) (now : Int)
  /-- One turn of the loop in `drain_acks`. -/
  | ack (ack : OutboundAck) (now : Int)

namespace Server

def init : Server := ⟨∅, [], 0⟩

/-- Send a numbered frame on a connection. -/
def sendOn (srv : Server) (fd : UInt32) (conn : ConnectionState) (now : Int)
    (frame : UInt32 → Frame) : Server :=
  let (session, outputs) := sendNumbered conn.session now frame
  { srv with connections := srv.connections.insert fd { conn with session := session }
             outputs := srv.outputs ++ outputs.map (fun o => (fd, o)) }

/-- The session of a connection is changed in place. -/
def setSession (srv : Server) (fd : UInt32) (conn : ConnectionState) (session : SessionState) :
    Server :=
  { srv with connections := srv.connections.insert fd { conn with session := session } }

def checkHeartbeat (srv : Server) (fd : UInt32) (now : Int) : Server :=
  match srv.connections.lookup fd with
  | none => srv -- closed earlier in this pass
  | some conn =>
      if conn.session.status ≠ .loggedOn then srv
      else if conn.session.isPeerDead now then
        (srv.setSession fd conn conn.session.disconnect).closeConnection fd
      else if conn.session.shouldSendHeartbeat now then srv.sendOn fd conn now heartbeatFrame
      else srv

def drainAck (srv : Server) (ack : OutboundAck) (now : Int) : Server :=
  match srv.connections.lookup ack.sessionId with
  | none => srv
  | some conn => srv.sendOn ack.sessionId conn now fun seqNum => executionReportFrame seqNum
      ⟨ack.clientOrderId, ack.exchangeOrderId, execStatusByte ack.status, ack.fillPrice,
        ack.fillQuantity, ack.leavesQuantity⟩

def step (srv : Server) : ServerAction → Option Server
  | .accept fd =>
      match srv.connections.lookup fd with
      | none => some { srv with connections := srv.connections.insert fd {} }
      | some _ => none -- the descriptor is not free
  | .frame fd f m =>
      match srv.connections.lookup fd with
      | none => none
      | some conn =>
          match srv.onFrame (fun _ => m) fd conn f.bytes with
          | .error _ => none
          | .ok srv => some srv
  | .close fd => some (srv.closeConnection fd)
  | .heartbeat fd now => some (srv.checkHeartbeat fd now)
  | .ack ack now => some (srv.drainAck ack now)

/-- `check_heartbeats` gives the connection up. -/
def findsDead (srv : Server) (fd : UInt32) (now : Int) : Bool :=
  match srv.connections.lookup fd with
  | none => false
  | some conn => conn.session.status = .loggedOn && conn.session.isPeerDead now

/-- What is done to a session right before its connection is closed leaves no trace. -/
@[simp] theorem closeConnection_setSession (srv : Server) (fd : UInt32) (conn : ConnectionState)
    (session : SessionState) :
    (srv.setSession fd conn session).closeConnection fd = srv.closeConnection fd := by
  have herase : (srv.connections.insert fd { conn with session := session }).erase fd
      = srv.connections.erase fd := by
    refine Finmap.ext_lookup fun fd' => ?_
    by_cases hfd : fd' = fd
    · rw [hfd, Finmap.lookup_erase, Finmap.lookup_erase]
    · rw [Finmap.lookup_erase_ne hfd, Finmap.lookup_erase_ne hfd,
        Finmap.lookup_insert_of_ne _ hfd]
  simp only [closeConnection, setSession, herase]

/-! ### What a step can do -/

variable {srv srv' : Server} {fd : UInt32} {f : Frame} {m : Moment} {now : Int}

theorem accept_eq_some (hs : srv.step (.accept fd) = some srv') :
    srv.connections.lookup fd = none
      ∧ srv' = { srv with connections := srv.connections.insert fd {} } := by
  dsimp only [step] at hs
  split at hs
  · exact ⟨by assumption, (Option.some.inj hs).symm⟩
  · exact absurd hs (by simp)

theorem frame_eq_some (hs : srv.step (.frame fd f m) = some srv') :
    ∃ conn r, srv.connections.lookup fd = some conn
      ∧ dispatch fd f.bytes conn.session m = some r
      ∧ Does r (statusAfter conn.session.status f) (enters fd f m) (Closes conn.session.status f)
      ∧ srv'.connections = (if Closes conn.session.status f then srv.connections.erase fd
          else srv.connections.insert fd { conn with session := r.1 })
      ∧ srv'.outputs = srv.outputs ++ r.2.map fun o => (fd, o) := by
  dsimp only [step] at hs
  split at hs
  · exact absurd hs (by simp)
  · rename_i conn hconn
    obtain ⟨r, hdispatch, hdoes⟩ := dispatch_does fd conn.session m f
    simp only [onFrame, hdispatch, Option.some.injEq] at hs
    subst hs
    exact ⟨conn, r, hconn, hdispatch, hdoes, if_congr hdoes.closed rfl rfl, rfl⟩

theorem checkHeartbeat_cases (srv : Server) (fd : UInt32) (now : Int) :
    (srv.findsDead fd now = true ∧ srv.checkHeartbeat fd now = srv.closeConnection fd)
      ∨ (srv.findsDead fd now = false ∧ (srv.checkHeartbeat fd now = srv
        ∨ ∃ conn, srv.connections.lookup fd = some conn
          ∧ srv.checkHeartbeat fd now = srv.sendOn fd conn now heartbeatFrame)) := by
  cases hconn : srv.connections.lookup fd with
  | none => exact .inr ⟨by simp [findsDead, hconn], .inl (by simp [checkHeartbeat, hconn])⟩
  | some conn =>
      simp only [checkHeartbeat, findsDead, hconn]
      by_cases hstatus : conn.session.status = .loggedOn
      · cases hdead : conn.session.isPeerDead now with
        | true => exact .inl ⟨by simp [hstatus], by simp [hstatus]⟩
        | false =>
            refine .inr ⟨by simp, ?_⟩
            cases hidle : conn.session.shouldSendHeartbeat now with
            | true => exact .inr ⟨conn, rfl, by simp [hstatus]⟩
            | false => exact .inl (by simp [hstatus])
      · exact .inr ⟨by simp [hstatus], .inl (by simp [hstatus])⟩

end Server

/-! ## Only after a logon -/

/-- If the step pushes an event, the session it comes from is logged on. -/
def PushesLoggedOn (srv : Server) : ServerAction → Prop
  | .frame fd f m => ∀ conn r, srv.connections.lookup fd = some conn →
      dispatch fd f.bytes conn.session m = some r → pushes r.2 ≠ [] →
      conn.session.status = .loggedOn
  | .accept _ | .close _ | .heartbeat _ _ | .ack _ _ => True

/-- On which descriptors a logon has come in since they were accepted. -/
def noteLogon (seen : UInt32 → Bool) : ServerAction → UInt32 → Bool
  | .accept fd => Function.update seen fd false
  | .frame fd f _ => if IsLogon f then Function.update seen fd true else seen
  | .close _ | .heartbeat _ _ | .ack _ _ => seen

/-- An order or cancel that finds room in the queue comes in behind a logon. -/
def BehindLogon (seen : UInt32 → Bool) : ServerAction → Prop
  | .frame fd f m => IsOrder f → m.queueRoom → seen fd
  | .accept _ | .close _ | .heartbeat _ _ | .ack _ _ => True

/-- Every order among the input comes in behind a logon on its connection. -/
def OrdersAfterLogon : (UInt32 → Bool) → List ServerAction → Prop
  | _, [] => True
  | seen, a :: as => BehindLogon seen a ∧ OrdersAfterLogon (noteLogon seen a) as

/-- An open session has the status its input says. -/
def SessionInv (seen : UInt32 → Bool) (srv : Server) : Prop :=
  ∀ fd conn, srv.connections.lookup fd = some conn →
    conn.session.status = if seen fd then .loggedOn else .awaitingLogon

theorem sessionInv_init (seen : UInt32 → Bool) : SessionInv seen .init := by
  intro fd conn h
  simp [Server.init] at h

variable {seen : UInt32 → Bool} {srv srv' : Server}

theorem SessionInv.erase (h : SessionInv seen srv) {fd : UInt32}
    (hc : srv'.connections = srv.connections.erase fd) {seen' : UInt32 → Bool}
    (hseen : ∀ fd', fd' ≠ fd → seen' fd' = seen fd') : SessionInv seen' srv' := by
  intro fd' conn hfd'
  rw [hc] at hfd'
  by_cases he : fd' = fd
  · subst he
    rw [Finmap.lookup_erase] at hfd'
    exact absurd hfd' (by simp)
  · rw [Finmap.lookup_erase_ne he] at hfd'
    rw [hseen fd' he]
    exact h fd' conn hfd'

theorem SessionInv.insert (h : SessionInv seen srv) {fd : UInt32} {conn : ConnectionState}
    (hc : srv'.connections = srv.connections.insert fd conn) {seen' : UInt32 → Bool}
    (hstatus : conn.session.status = if seen' fd then .loggedOn else .awaitingLogon)
    (hseen : ∀ fd', fd' ≠ fd → seen' fd' = seen fd') : SessionInv seen' srv' := by
  intro fd' conn' hfd'
  rw [hc] at hfd'
  by_cases he : fd' = fd
  · subst he
    rw [Finmap.lookup_insert, Option.some.injEq] at hfd'
    rw [← hfd']
    exact hstatus
  · rw [Finmap.lookup_insert_of_ne _ he] at hfd'
    rw [hseen fd' he]
    exact h fd' conn' hfd'

theorem SessionInv.sendOn (h : SessionInv seen srv) {fd : UInt32} {conn : ConnectionState}
    (hconn : srv.connections.lookup fd = some conn) (now : Int) (frame : UInt32 → Frame) :
    SessionInv seen (srv.sendOn fd conn now frame) := by
  have hc : (srv.sendOn fd conn now frame).connections = srv.connections.insert fd
      { conn with session := (sendNumbered conn.session now frame).1 } := rfl
  have hstatus := (sendNumbered_does conn.session now frame).status
  exact h.insert hc (hstatus.trans (h fd conn hconn)) fun _ _ => rfl

/-- What one frame can do to its connection, and to no other. -/
theorem SessionInv.frame (h : SessionInv seen srv) {fd : UInt32} {f : Frame} {m : Moment}
    (hs : srv.step (.frame fd f m) = some srv') :
    SessionInv (noteLogon seen (.frame fd f m)) srv' := by
  obtain ⟨conn, r, hconn, -, hdoes, hc, -⟩ := Server.frame_eq_some hs
  have hstatus := h fd conn hconn
  have hother : ∀ fd', fd' ≠ fd → noteLogon seen (.frame fd f m) fd' = seen fd' := by
    intro fd' hne
    dsimp only [noteLogon]
    split
    · exact Function.update_of_ne hne _ _
    · rfl
  by_cases hcloses : Closes conn.session.status f
  · rw [if_pos hcloses] at hc
    exact h.erase hc hother
  · rw [if_neg hcloses] at hc
    refine h.insert hc ?_ hother
    -- the frame is no logout, and if it is a logon then the first one
    have hnotout : ¬ IsLogout f := fun hout => hcloses (Or.inl hout)
    have hfirst : IsLogon f → conn.session.status = .awaitingLogon := by
      intro hl
      by_contra hne
      exact hcloses (Or.inr ⟨hl, hne⟩)
    rw [hdoes.status, statusAfter, if_neg hnotout]
    by_cases hlogon : IsLogon f
    · simp [noteLogon, hlogon, hfirst hlogon]
    · simp [noteLogon, hlogon, hstatus]

theorem sessionInv_step {a : ServerAction} (h : SessionInv seen srv)
    (hs : srv.step a = some srv') : SessionInv (noteLogon seen a) srv' := by
  cases a with
  | accept fd =>
      obtain ⟨-, rfl⟩ := Server.accept_eq_some hs
      refine h.insert rfl ?_ fun fd' hne => Function.update_of_ne hne _ _
      simp [noteLogon]
  | frame fd f m => exact h.frame hs
  | close fd =>
      cases hs
      exact h.erase rfl fun _ _ => rfl
  | heartbeat fd now =>
      cases hs
      rcases srv.checkHeartbeat_cases fd now with ⟨-, he⟩ | ⟨-, he | ⟨conn, hconn, he⟩⟩
      · rw [he]
        exact h.erase rfl fun _ _ => rfl
      · rw [he]
        exact h
      · rw [he]
        exact h.sendOn hconn now _
  | ack ack now =>
      cases hs
      unfold Server.drainAck
      split
      · exact h
      · rename_i conn hconn
        exact h.sendOn hconn now _

/-- One step pushes from a logged-on session exactly if an order among the input comes
behind a logon. -/
theorem SessionInv.pushesLoggedOn_iff (h : SessionInv seen srv) {a : ServerAction}
    (hs : srv.step a = some srv') :
    PushesLoggedOn srv a ↔ BehindLogon seen a := by
  cases a with
  | accept fd | close fd | heartbeat fd now | ack ack now => exact Iff.rfl
  | frame fd f m =>
      obtain ⟨conn, r, hconn, hdispatch, hdoes, -, -⟩ := Server.frame_eq_some hs
      have hstatus := h fd conn hconn
      have hpushed : pushes r.2 ≠ [] ↔ IsOrder f ∧ m.queueRoom = true := by
        rw [hdoes.pushed, enters]
        split <;> simp_all
      have hlogged : conn.session.status = .loggedOn ↔ seen fd = true := by
        rw [hstatus]
        split <;> simp_all
      constructor
      · intro hp horder hroom
        exact hlogged.mp (hp conn r hconn hdispatch (hpushed.mpr ⟨horder, hroom⟩))
      · intro hp conn' r' hconn' hdispatch' hne
        rw [hconn, Option.some.injEq] at hconn'
        subst hconn'
        rw [hdispatch, Option.some.injEq] at hdispatch'
        subst hdispatch'
        obtain ⟨horder, hroom⟩ := hpushed.mp hne
        exact hlogged.mpr (hp horder hroom)

theorem along_iff_ordersAfterLogon : ∀ (actions : List ServerAction) (seen : UInt32 → Bool)
    (srv srv' : Server), SessionInv seen srv → Machine.exec Server.step srv actions = some srv' →
    (Machine.Along Server.step PushesLoggedOn srv actions ↔ OrdersAfterLogon seen actions) := by
  intro actions
  induction actions with
  | nil => exact fun _ _ _ _ _ => Iff.rfl
  | cons a actions ih =>
      intro seen srv srv' h hrun
      obtain ⟨srv₁, hs, hrun⟩ := Machine.exec_cons.mp hrun
      have htail := ih (noteLogon seen a) srv₁ srv' (sessionInv_step h hs) hrun
      rw [Machine.Along, hs, h.pushesLoggedOn_iff hs]
      exact and_congr_right fun _ => htail

/-- **Only logged-on sessions trade exactly if every order comes in behind a logon**, on
every run of the server. -/
theorem only_loggedOn_push_iff_after_logon (actions : List ServerAction) (srv : Server)
    (hrun : Machine.exec Server.step .init actions = some srv) :
    Machine.Along Server.step PushesLoggedOn .init actions
      ↔ OrdersAfterLogon (fun _ => false) actions :=
  along_iff_ordersAfterLogon actions _ _ srv (sessionInv_init _) hrun

/-- A client that has sent its logon and trades. -/
theorem only_loggedOn_push_iff_after_logon_trading :
    let logon := ClientMsg.frame 1 (.logon ⟨7, 30000, 0⟩)
    let order := ClientMsg.frame 2 (.newOrder ⟨42, #v[65, 66, 67, 0, 0, 0, 0, 0], 0, 100, 10⟩)
    Machine.Along Server.step PushesLoggedOn .init
      [.accept 5, .frame 5 logon ⟨0, true⟩, .frame 5 order ⟨1, true⟩] :=
  (only_loggedOn_push_iff_after_logon _ _ rfl).mpr
    ⟨trivial, fun h => absurd h (by decide), fun _ _ => rfl, trivial⟩

/-- The first frame on a connection is an order, and it enters. -/
theorem order_enters_before_logon :
    let order := ClientMsg.frame 1 (.newOrder ⟨42, #v[65, 66, 67, 0, 0, 0, 0, 0], 0, 100, 10⟩)
    let actions : List ServerAction := [.accept 5, .frame 5 order ⟨0, true⟩]
    (Machine.exec Server.step .init actions).isSome
      ∧ ¬ Machine.Along Server.step PushesLoggedOn .init actions := by
  refine ⟨by decide, fun h => ?_⟩
  have hpushes := (h.tail rfl).1
  exact absurd (hpushes {} _ rfl rfl (by decide)) (by decide)

/-! ## Once for each number -/

section Life

variable {β γ : Type}

/-- What `g` sees of a run while the connection of `fd` is open. -/
def whileOpen (fd : UInt32) (g : Server → ServerAction → List β) :
    Server → List ServerAction → List β
  | _, [] => []
  | srv, a :: as =>
      match srv.connections.lookup fd, srv.step a with
      | some _, some srv' => g srv a ++ whileOpen fd g srv' as
      | _, _ => []

theorem whileOpen_eq_filterMap {fd : UInt32} {g : Server → ServerAction → List β}
    {h : Server → ServerAction → List γ} {k : γ → Option β}
    (hg : ∀ srv a srv', srv.step a = some srv' → g srv a = (h srv a).filterMap k) :
    ∀ (actions : List ServerAction) (srv : Server),
      whileOpen fd g srv actions = (whileOpen fd h srv actions).filterMap k := by
  intro actions
  induction actions with
  | nil => exact fun _ => rfl
  | cons a actions ih =>
      intro srv
      cases hconn : srv.connections.lookup fd with
      | none => simp [whileOpen, hconn]
      | some conn =>
          cases hs : srv.step a with
          | none => simp [whileOpen, hconn, hs]
          | some srv' =>
              simp only [whileOpen, hconn, hs, List.filterMap_append]
              rw [hg srv a srv' hs, ih srv']

end Life

/-- The frames that arrive on the connection, each with the moment it does. -/
def arrivals (fd : UInt32) : Server → List ServerAction → List (Frame × Moment) :=
  whileOpen fd fun _ a => match a with
    | .frame fd' f m => if fd' = fd then [(f, m)] else []
    | .accept _ | .close _ | .heartbeat _ _ | .ack _ _ => []

/-- The events that `dispatch` pushes for the connection, each with the number in the
header of the frame it stems from. -/
def entered (fd : UInt32) : Server → List ServerAction → List (UInt32 × SequencedEvent) :=
  whileOpen fd fun srv a => match a with
    | .frame fd' f m =>
        match srv.connections.lookup fd' with
        | none => []
        | some conn =>
            match dispatch fd' f.bytes conn.session m with
            | none => []
            | some r => if fd' = fd then (pushes r.2).map fun ev => (f.seqNum, ev) else []
    | .accept _ | .close _ | .heartbeat _ _ | .ack _ _ => []

/-- A frame that enters: an order or a cancel that finds room. -/
def Enters (arrival : Frame × Moment) : Prop :=
  IsOrder arrival.1 ∧ arrival.2.queueRoom = true

instance (arrival : Frame × Moment) : Decidable (Enters arrival) :=
  inferInstanceAs (Decidable (_ ∧ _))

/-- Whatever the session makes of the numbers, each such frame enters and nothing else. -/
theorem entered_eq (fd : UInt32) (srv : Server) (actions : List ServerAction) :
    entered fd srv actions = ((arrivals fd srv actions).filter fun x => decide (Enters x)).map
      fun x => (x.1.seqNum, eventOf fd x.1) := by
  rw [← List.filterMap_eq_map, List.filterMap_filter]
  refine whileOpen_eq_filterMap (fun srv a srv' hs => ?_) actions srv
  cases a with
  | accept fd' | close fd' | heartbeat fd' now | ack ack now => rfl
  | frame fd' f m =>
      obtain ⟨conn, r, hconn, hdispatch, hdoes, -, -⟩ := Server.frame_eq_some hs
      simp only [hconn, hdispatch, hdoes.pushed]
      by_cases hfd : fd' = fd
      · subst hfd
        by_cases henters : Enters (f, m)
        · have hroom : m.queueRoom = true := henters.2
          simp [enters, henters, henters.1, hroom]
        · have hnot : ¬ (IsOrder f ∧ m.queueRoom = true) := henters
          simp [enters, henters, hnot]
      · simp [hfd]

/-- **Orders enter once for each sequence number exactly if they arrive so**: on any
connection, the events pushed stem from frames with different numbers just if the orders and
cancels that arrive on it and find room carry different numbers. -/
theorem entered_once_iff_distinct_arrivals (fd : UInt32) (srv : Server)
    (actions : List ServerAction) :
    ((entered fd srv actions).map Prod.fst).Nodup
      ↔ (((arrivals fd srv actions).filter fun x => decide (Enters x)).map
          fun x => x.1.seqNum).Nodup := by
  rw [entered_eq, List.map_map]
  rfl

/-- A logged-on client's order arrives twice, and enters twice: the session knows the second
for a duplicate, but answers as it does for a frame in sequence. -/
theorem replayed_order_enters_twice :
    let logon := ClientMsg.frame 1 (.logon ⟨7, 30000, 0⟩)
    let order := ClientMsg.frame 2 (.newOrder ⟨42, #v[65, 66, 67, 0, 0, 0, 0, 0], 0, 100, 10⟩)
    ∃ srv conn, Machine.exec Server.step .init [.accept 5, .frame 5 logon ⟨0, true⟩] = some srv
      ∧ srv.connections.lookup 5 = some conn ∧ conn.session.status = .loggedOn
      ∧ (entered 5 srv [.frame 5 order ⟨1, true⟩, .frame 5 order ⟨2, true⟩]).map Prod.fst
          = [2, 2] :=
  ⟨_, _, rfl, rfl, rfl, rfl⟩

end HftLob.Gateway

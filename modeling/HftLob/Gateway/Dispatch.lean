import HftLob.Gateway.Routing
import HftLob.Gateway.SendFrame
import HftLob.Gateway.Session

/-!
# Dispatching a frame

`GatewayServer::dispatch`: one complete frame, the session of the connection it came in
on, and what the server does about it. `memcpy` out of the frame fails if it would read
outside. What the environment decides is given: the time, and whether the sequencer's
input queue has room.
-/

namespace HftLob.Gateway

open HftLob.Wire HftLob.Lib.Framing

/-- Something the server does besides changing its own state. -/
inductive Output where
  | send (frame : Frame)
  /-- `sequencer_input_->push` that returned true. -/
  | push (ev : SequencedEvent)
  /-- `close_connection`. -/
  | close
  deriving DecidableEq

/-- What the environment makes of a call of `dispatch`. -/
structure Moment where
  now : Int
  /-- There is room in the sequencer's input queue. -/
  queueRoom : Bool
  deriving DecidableEq

/-- `n` bytes from an offset, which must be inside. -/
def memcpy (off n : Nat) (bytes : List UInt8) : Option (List UInt8) :=
  if off + n ≤ bytes.length then some ((bytes.drop off).take n) else none

/-- `RiskEngine::check`. -/
def riskCheck (_order : Wire.NewOrderMsg) : Bool := true

/-- What the sequencer gets to see of an order. -/
def orderOf (m : Wire.NewOrderMsg) : NewOrderMsg :=
  ⟨m.clientOrderId, m.side, m.price, m.quantity⟩

/-! ## Answers -/

/-- Number a frame, send it and note the time. -/
def sendNumbered (session : SessionState) (now : Int) (frame : UInt32 → Frame) :
    SessionState × List Output :=
  let (session, seqNum) := session.nextOutboundSeq
  (session.markOutboundActivity now, [.send (frame seqNum)])

def sendLogonAck (session : SessionState) (now : Int) : SessionState × List Output :=
  sendNumbered session now logonAckFrame

def sendResendRequest (session : SessionState) (now : Int) (fromSeq toSeq : UInt32) :
    SessionState × List Output :=
  sendNumbered session now fun seqNum => resendRequestFrame seqNum ⟨fromSeq, toSeq⟩

def sendExecutionReport (session : SessionState) (now : Int) (clientOrderId : UInt64)
    (status : ExecStatus) (fillPrice fillQty leavesQty : UInt32) : SessionState × List Output :=
  sendNumbered session now fun seqNum =>
    executionReportFrame seqNum
      ⟨clientOrderId, 0, execStatusByte status, fillPrice, fillQty, leavesQty⟩

def reportSeqGapIfAny (session : SessionState) (now : Int) (seqNum : UInt32) :
    SessionState × List Output :=
  let (session, gap) := session.trackInboundSeq seqNum now
  match gap with
  | none => (session, [])
  | some (first, last) => sendResendRequest session now first last

/-- Push the event, or reject it at once if the queue is full. -/
def pushOrReject (session : SessionState) (m : Moment) (ev : SequencedEvent) :
    SessionState × List Output :=
  if m.queueRoom then (session, [.push ev])
  else sendExecutionReport session m.now ev.clientOrderId .rejected 0 0 0

/-! ## The switch -/

def onLogon (session : SessionState) (m : Moment) (seqNum : UInt32) (logon : LogonMsg) :
    SessionState × List Output :=
  let (session, accepted) :=
    session.handleLogon logon.clientId logon.heartbeatIntervalMs seqNum m.now
  if accepted then sendLogonAck session m.now else (session, [.close])

def onNewOrder (fd : UInt32) (session : SessionState) (m : Moment) (order : Wire.NewOrderMsg) :
    SessionState × List Output :=
  if riskCheck order then pushOrReject session m (World.newOrderEvent fd (orderOf order))
  else sendExecutionReport session m.now order.clientOrderId .rejected 0 0 0

def onCancelOrder (fd : UInt32) (session : SessionState) (m : Moment) (cancel : CancelOrderMsg) :
    SessionState × List Output :=
  pushOrReject session m (World.cancelOrderEvent fd cancel.clientOrderId)

/-- First what `report_seq_gap_if_any` sends, then the rest. -/
def afterGap (gap : SessionState × List Output)
    (rest : SessionState → SessionState × List Output) : SessionState × List Output :=
  ((rest gap.1).1, gap.2 ++ (rest gap.1).2)

/-- The session after the frame and what was done, or nothing if the frame was read
beyond its end. -/
def dispatch (fd : UInt32) (frame : List UInt8) (session : SessionState) (m : Moment) :
    Option (SessionState × List Output) :=
  if frame.length < headerSize then some (session, [])
  else
    let header := MsgHeader.read frame
    match msgType? header.msgType with
    | some .logon =>
        if header.bodyLength.toNat < LogonMsg.size then some (session, [])
        else (memcpy headerSize LogonMsg.size frame).map fun body =>
          onLogon session m header.seqNum (LogonMsg.read body)
    | some .heartbeat | some .testRequest => some (reportSeqGapIfAny session m.now header.seqNum)
    | some .newOrder =>
        let gap := reportSeqGapIfAny session m.now header.seqNum
        if header.bodyLength.toNat < NewOrderMsg.size then some gap
        else (memcpy headerSize NewOrderMsg.size frame).map fun body =>
          afterGap gap fun session => onNewOrder fd session m (NewOrderMsg.read body)
    | some .cancelOrder =>
        let gap := reportSeqGapIfAny session m.now header.seqNum
        if header.bodyLength.toNat < CancelOrderMsg.size then some gap
        else (memcpy headerSize CancelOrderMsg.size frame).map fun body =>
          afterGap gap fun session => onCancelOrder fd session m (CancelOrderMsg.read body)
    | some .logout => some (session.logout, [.close])
    | _ => some (session, []) -- unknown or not handled

/-! ## What a frame does -/

/-- A `Logon` with all of its body. -/
def IsLogon (f : Frame) : Prop :=
  f.msgType = MsgType.logon.byte ∧ LogonMsg.size ≤ f.body.length

def IsLogout (f : Frame) : Prop := f.msgType = MsgType.logout.byte

def IsNewOrder (f : Frame) : Prop :=
  f.msgType = MsgType.newOrder.byte ∧ NewOrderMsg.size ≤ f.body.length

def IsCancelOrder (f : Frame) : Prop :=
  f.msgType = MsgType.cancelOrder.byte ∧ CancelOrderMsg.size ≤ f.body.length

/-- A new order or a cancel with all of its body. -/
def IsOrder (f : Frame) : Prop := IsNewOrder f ∨ IsCancelOrder f

instance (f : Frame) : Decidable (IsLogon f) := inferInstanceAs (Decidable (_ ∧ _))
instance (f : Frame) : Decidable (IsLogout f) := inferInstanceAs (Decidable (_ = _))
instance (f : Frame) : Decidable (IsNewOrder f) := inferInstanceAs (Decidable (_ ∧ _))
instance (f : Frame) : Decidable (IsCancelOrder f) := inferInstanceAs (Decidable (_ ∧ _))
instance (f : Frame) : Decidable (IsOrder f) := inferInstanceAs (Decidable (_ ∨ _))

/-- The frame makes the server close the connection it came in on. -/
def Closes (status : SessionStatus) (f : Frame) : Prop :=
  IsLogout f ∨ (IsLogon f ∧ status ≠ .awaitingLogon)

instance (status : SessionStatus) (f : Frame) : Decidable (Closes status f) :=
  inferInstanceAs (Decidable (_ ∨ _))

def statusAfter (status : SessionStatus) (f : Frame) : SessionStatus :=
  if IsLogout f then .loggedOut
  else if IsLogon f ∧ status = .awaitingLogon then .loggedOn
  else status

/-- The event an order or a cancel becomes. -/
def eventOf (fd : UInt32) (f : Frame) : SequencedEvent :=
  if IsNewOrder f then
    World.newOrderEvent fd (orderOf (NewOrderMsg.read (f.body.take NewOrderMsg.size)))
  else
    World.cancelOrderEvent fd
      (CancelOrderMsg.read (f.body.take CancelOrderMsg.size)).clientOrderId

/-- The events among the outputs. -/
def pushes (outputs : List Output) : List SequencedEvent :=
  outputs.filterMap fun
    | .push ev => some ev
    | .send _ | .close => none

/-- A result with this status, these events, and the connection closed or not. -/
structure Does (r : SessionState × List Output) (status : SessionStatus)
    (pushed : List SequencedEvent) (closed : Prop) : Prop where
  status : r.1.status = status
  pushed : pushes r.2 = pushed
  closed : Output.close ∈ r.2 ↔ closed

theorem sendNumbered_does (session : SessionState) (now : Int) (frame : UInt32 → Frame) :
    Does (sendNumbered session now frame) session.status [] False where
  status := rfl
  pushed := rfl
  closed := by simp [sendNumbered]

theorem reportSeqGapIfAny_does (session : SessionState) (now : Int) (seqNum : UInt32) :
    Does (reportSeqGapIfAny session now seqNum) session.status [] False := by
  unfold reportSeqGapIfAny
  dsimp only
  split
  · exact ⟨session.trackInboundSeq_status seqNum now, rfl, by simp⟩
  · have h := sendNumbered_does (session.trackInboundSeq seqNum now).1 now
    exact ⟨(h _).status.trans (session.trackInboundSeq_status seqNum now), (h _).pushed,
      (h _).closed⟩

theorem pushOrReject_does (session : SessionState) (m : Moment) (ev : SequencedEvent) :
    Does (pushOrReject session m ev) session.status (if m.queueRoom then [ev] else []) False := by
  unfold pushOrReject
  split
  · exact ⟨rfl, rfl, by simp⟩
  · exact sendNumbered_does session m.now _

theorem onNewOrder_does (fd : UInt32) (session : SessionState) (m : Moment)
    (order : Wire.NewOrderMsg) :
    Does (onNewOrder fd session m order) session.status
      (if m.queueRoom then [World.newOrderEvent fd (orderOf order)] else []) False := by
  unfold onNewOrder
  rw [if_pos (show riskCheck order = true from rfl)]
  exact pushOrReject_does session m _

theorem onLogon_does (session : SessionState) (m : Moment) (seqNum : UInt32) (logon : LogonMsg) :
    Does (onLogon session m seqNum logon)
      (if session.status = .awaitingLogon then .loggedOn else session.status) []
      (session.status ≠ .awaitingLogon) := by
  obtain ⟨haccepted, hstatus⟩ :=
    session.handleLogon_status logon.clientId logon.heartbeatIntervalMs seqNum m.now
  unfold onLogon
  dsimp only
  split
  · rename_i h
    have hawaiting := haccepted.mp h
    have hsent := sendNumbered_does
      (session.handleLogon logon.clientId logon.heartbeatIntervalMs seqNum m.now).1 m.now
      logonAckFrame
    exact ⟨hsent.status.trans hstatus, hsent.pushed,
      hsent.closed.trans ⟨False.elim, fun hne => hne hawaiting⟩⟩
  · rename_i h
    have hne : session.status ≠ .awaitingLogon := fun he => h (haccepted.mpr he)
    exact ⟨hstatus, rfl, by simp [hne]⟩

theorem Does.afterGap {gap : SessionState × List Output}
    {rest : SessionState → SessionState × List Output} {status : SessionStatus}
    {pushed : List SequencedEvent} (hgap : Does gap status [] False)
    (hrest : ∀ session, Does (rest session) session.status pushed False) :
    Does (afterGap gap rest) status pushed False where
  status := (hrest gap.1).status.trans hgap.status
  pushed := by
    have h1 := hgap.pushed
    have h2 := (hrest gap.1).pushed
    unfold pushes at h1 h2 ⊢
    rw [Gateway.afterGap, List.filterMap_append, h1, h2, List.nil_append]
  closed := by
    rw [Gateway.afterGap, List.mem_append, hgap.closed, (hrest gap.1).closed, or_self]

theorem memcpy_body {f : Frame} {n : Nat} (h : n ≤ f.body.length) :
    memcpy headerSize n f.bytes = some (f.body.take n) := by
  have hdrop : f.bytes.drop headerSize = f.body := by
    rw [Frame.bytes, ← f.header.length_bytes, List.drop_left]
  rw [memcpy, if_pos (by rw [Frame.length_bytes]; omega), hdrop]

/-- The type of a frame decides which of these it is. -/
theorem kinds_of_msgType? {f : Frame} {type : MsgType} (h : msgType? f.msgType = some type) :
    (IsLogon f ↔ type = .logon ∧ LogonMsg.size ≤ f.body.length)
      ∧ (IsLogout f ↔ type = .logout)
      ∧ (IsNewOrder f ↔ type = .newOrder ∧ NewOrderMsg.size ≤ f.body.length)
      ∧ (IsCancelOrder f ↔ type = .cancelOrder ∧ CancelOrderMsg.size ≤ f.body.length) := by
  have hinj : ∀ t : MsgType, f.msgType = t.byte ↔ type = t := by
    intro t
    rw [← msgType?_eq_some, h, Option.some.injEq]
  simp only [IsLogon, IsLogout, IsNewOrder, IsCancelOrder, hinj, and_self]

theorem kinds_of_unknown {f : Frame} (h : msgType? f.msgType = none) :
    ¬ IsLogon f ∧ ¬ IsLogout f ∧ ¬ IsOrder f := by
  have hne : ∀ t : MsgType, f.msgType ≠ t.byte := by
    intro t ht
    rw [msgType?_eq_some.mpr ht] at h
    exact absurd h (by simp)
  simp only [IsLogon, IsLogout, IsOrder, IsNewOrder, IsCancelOrder, hne, false_and, or_self,
    not_false_eq_true, and_self]

/-- Every frame but a logon and a logout leaves the session as it is, and open. -/
theorem Does.neutral {r : SessionState × List Output} {status : SessionStatus}
    {pushed : List SequencedEvent} {f : Frame} (h : Does r status pushed False)
    (hlogon : ¬ IsLogon f) (hlogout : ¬ IsLogout f) :
    Does r (statusAfter status f) pushed (Closes status f) where
  status := by rw [statusAfter, if_neg hlogout, if_neg (fun h => hlogon h.1)]; exact h.status
  pushed := h.pushed
  closed := h.closed.trans ⟨False.elim, fun hc => hc.elim hlogout (fun hl => hlogon hl.1)⟩

/-- The events that `dispatch` hands on of a frame. -/
def enters (fd : UInt32) (f : Frame) (m : Moment) : List SequencedEvent :=
  if IsOrder f ∧ m.queueRoom then [eventOf fd f] else []

theorem enters_of_not {fd : UInt32} {f : Frame} {m : Moment} (h : ¬ IsOrder f) :
    enters fd f m = [] := if_neg fun ho => h ho.1

section Cases

variable (fd : UInt32) {f : Frame} (session : SessionState) (m : Moment)

/-- `dispatch` of a whole frame, with its header read. -/
theorem dispatch_bytes (f : Frame) : dispatch fd f.bytes session m =
    match msgType? f.msgType with
    | some .logon =>
        if f.body.length < LogonMsg.size then some (session, [])
        else (memcpy headerSize LogonMsg.size f.bytes).map fun body =>
          onLogon session m f.seqNum (LogonMsg.read body)
    | some .heartbeat | some .testRequest => some (reportSeqGapIfAny session m.now f.seqNum)
    | some .newOrder =>
        let gap := reportSeqGapIfAny session m.now f.seqNum
        if f.body.length < NewOrderMsg.size then some gap
        else (memcpy headerSize NewOrderMsg.size f.bytes).map fun body =>
          afterGap gap fun session => onNewOrder fd session m (NewOrderMsg.read body)
    | some .cancelOrder =>
        let gap := reportSeqGapIfAny session m.now f.seqNum
        if f.body.length < CancelOrderMsg.size then some gap
        else (memcpy headerSize CancelOrderMsg.size f.bytes).map fun body =>
          afterGap gap fun session => onCancelOrder fd session m (CancelOrderMsg.read body)
    | some .logout => some (session.logout, [.close])
    | _ => some (session, []) := by
  unfold dispatch
  rw [if_neg (by rw [Frame.length_bytes]; omega), Frame.read_bytes_self]
  dsimp only
  rw [Frame.bodyLength_header]
  rfl

theorem dispatch_logon (h : msgType? f.msgType = some .logon) :
    ∃ r, dispatch fd f.bytes session m = some r
      ∧ Does r (statusAfter session.status f) (enters fd f m) (Closes session.status f) := by
  obtain ⟨hlogon, hlogout, hnew, hcancel⟩ := kinds_of_msgType? h
  have hnotout : ¬ IsLogout f := by simp [hlogout]
  rw [dispatch_bytes, h, enters_of_not (by simp [IsOrder, hnew, hcancel])]
  dsimp only
  by_cases hshort : f.body.length < LogonMsg.size
  · rw [if_pos hshort]
    have hnothing : Does (session, []) session.status [] False := ⟨rfl, rfl, by simp⟩
    exact ⟨_, rfl, hnothing.neutral (fun hl => absurd (hlogon.mp hl).2 (by omega)) hnotout⟩
  · have hfull : IsLogon f := hlogon.mpr ⟨rfl, by omega⟩
    have hdoes := onLogon_does session m f.seqNum (LogonMsg.read (f.body.take LogonMsg.size))
    rw [if_neg hshort, memcpy_body (by omega)]
    refine ⟨_, rfl, ⟨?_, hdoes.pushed, ?_⟩⟩
    · rw [hdoes.status, statusAfter, if_neg hnotout]
      simp only [hfull, true_and]
    · rw [hdoes.closed, Closes]
      simp only [hfull, hnotout, true_and, false_or]

theorem dispatch_newOrder (h : msgType? f.msgType = some .newOrder) :
    ∃ r, dispatch fd f.bytes session m = some r
      ∧ Does r (statusAfter session.status f) (enters fd f m) (Closes session.status f) := by
  obtain ⟨hlogon, hlogout, hnew, hcancel⟩ := kinds_of_msgType? h
  have hgap := reportSeqGapIfAny_does session m.now f.seqNum
  have hnotcancel : ¬ IsCancelOrder f := by simp [hcancel]
  rw [dispatch_bytes, h]
  dsimp only
  by_cases hshort : f.body.length < NewOrderMsg.size
  · have hnotnew : ¬ IsNewOrder f := fun hn => absurd (hnew.mp hn).2 (by omega)
    rw [if_pos hshort, enters_of_not (by simp [IsOrder, hnotnew, hnotcancel])]
    exact ⟨_, rfl, hgap.neutral (by simp [hlogon]) (by simp [hlogout])⟩
  · have hfull : IsNewOrder f := hnew.mpr ⟨rfl, by omega⟩
    have hdoes := hgap.afterGap fun session =>
      onNewOrder_does fd session m (NewOrderMsg.read (f.body.take NewOrderMsg.size))
    rw [if_neg hshort, memcpy_body (by omega)]
    refine ⟨_, rfl, ?_⟩
    simp only [enters, IsOrder, eventOf, hfull, true_or, true_and, if_true]
    exact hdoes.neutral (by simp [hlogon]) (by simp [hlogout])

theorem dispatch_cancelOrder (h : msgType? f.msgType = some .cancelOrder) :
    ∃ r, dispatch fd f.bytes session m = some r
      ∧ Does r (statusAfter session.status f) (enters fd f m) (Closes session.status f) := by
  obtain ⟨hlogon, hlogout, hnew, hcancel⟩ := kinds_of_msgType? h
  have hgap := reportSeqGapIfAny_does session m.now f.seqNum
  have hnotnew : ¬ IsNewOrder f := by simp [hnew]
  rw [dispatch_bytes, h]
  dsimp only
  by_cases hshort : f.body.length < CancelOrderMsg.size
  · have hnotcancel : ¬ IsCancelOrder f := fun hn => absurd (hcancel.mp hn).2 (by omega)
    rw [if_pos hshort, enters_of_not (by simp [IsOrder, hnotnew, hnotcancel])]
    exact ⟨_, rfl, hgap.neutral (by simp [hlogon]) (by simp [hlogout])⟩
  · have hfull : IsCancelOrder f := hcancel.mpr ⟨rfl, by omega⟩
    have hdoes := hgap.afterGap fun session => pushOrReject_does session m
      (World.cancelOrderEvent fd
        (CancelOrderMsg.read (f.body.take CancelOrderMsg.size)).clientOrderId)
    rw [if_neg hshort, memcpy_body (by omega)]
    refine ⟨_, rfl, ?_⟩
    simp only [enters, IsOrder, eventOf, hfull, hnotnew, or_true, true_and, if_false]
    exact hdoes.neutral (by simp [hlogon]) (by simp [hlogout])

/-- **What `dispatch` does with a whole frame.** It reads nothing outside of it. -/
theorem dispatch_does (f : Frame) : ∃ r, dispatch fd f.bytes session m = some r
    ∧ Does r (statusAfter session.status f) (enters fd f m) (Closes session.status f) := by
  have hnothing : Does (session, []) session.status [] False := ⟨rfl, rfl, by simp⟩
  cases htype : msgType? f.msgType with
  | none =>
      obtain ⟨hlogon, hlogout, horder⟩ := kinds_of_unknown htype
      rw [dispatch_bytes, htype, enters_of_not horder]
      exact ⟨_, rfl, hnothing.neutral hlogon hlogout⟩
  | some type =>
      obtain ⟨hlogon, hlogout, hnew, hcancel⟩ := kinds_of_msgType? htype
      cases type with
      | logon => exact dispatch_logon fd session m htype
      | logout =>
          have hout : IsLogout f := hlogout.mpr rfl
          rw [dispatch_bytes, htype, enters_of_not (by simp [IsOrder, hnew, hcancel])]
          exact ⟨_, rfl, ⟨by rw [statusAfter, if_pos hout]; rfl, rfl, by simp [Closes, hout]⟩⟩
      | heartbeat | testRequest =>
          rw [dispatch_bytes, htype, enters_of_not (by simp [IsOrder, hnew, hcancel])]
          exact ⟨_, rfl, (reportSeqGapIfAny_does session m.now f.seqNum).neutral (by simp [hlogon])
            (by simp [hlogout])⟩
      | newOrder => exact dispatch_newOrder fd session m htype
      | cancelOrder => exact dispatch_cancelOrder fd session m htype
      | resendRequest | replaceOrder | executionReport | reject =>
          rw [dispatch_bytes, htype, enters_of_not (by simp [IsOrder, hnew, hcancel])]
          exact ⟨_, rfl, hnothing.neutral (by simp [hlogon]) (by simp [hlogout])⟩

end Cases

end HftLob.Gateway

import HftLob.Gateway.Dispatch

/-!
# The execution reports that `dispatch` sends itself

Most reports go out when an ack comes back. `dispatch` sends one of its own, for an order or
a cancel that finds the sequencer's input queue full; everything else it sends is something
else.
-/

namespace HftLob.Gateway

open HftLob.Wire

/-- A report as it is written. -/
def wireReport (r : ExecutionReportMsg) : Wire.ExecutionReportMsg :=
  ⟨r.clientOrderId, r.exchangeOrderId, execStatusByte r.status, r.fillPrice, r.fillQuantity,
    r.leavesQuantity⟩

def Output.report? : Output → Option Frame
  | .send f => if f.msgType = MsgType.executionReport.byte then some f else none
  | .push _ | .close => none

/-- The execution reports sent so far, each with the descriptor it was sent on. -/
def reportFrames (outputs : List (UInt32 × Output)) : List (UInt32 × Frame) :=
  outputs.filterMap fun o => o.2.report?.map fun f => (o.1, f)

/-- The reports among the outputs are these. -/
def Reports (said : List Output) (messages : List ExecutionReportMsg) : Prop :=
  List.Forall₂ (fun m f => ∃ n, f = executionReportFrame n (wireReport m)) messages
    (said.filterMap Output.report?)

theorem reportFrames_append (outputs : List (UInt32 × Output)) (fd : UInt32)
    (said : List Output) :
    reportFrames (outputs ++ said.map fun o => (fd, o))
      = reportFrames outputs ++ (said.filterMap Output.report?).map fun f => (fd, f) := by
  simp only [reportFrames, List.filterMap_append, List.filterMap_map, List.map_filterMap]
  rfl

theorem Reports.append {said said' : List Output} {messages messages' : List ExecutionReportMsg}
    (h : Reports said messages) (h' : Reports said' messages') :
    Reports (said ++ said') (messages ++ messages') := by
  rw [Reports, List.filterMap_append]
  exact List.rel_append h h'

theorem sendNumbered_reports_none (session : SessionState) (now : Int) {frame : UInt32 → Frame}
    (h : ∀ n, (frame n).msgType ≠ MsgType.executionReport.byte) :
    Reports (sendNumbered session now frame).2 [] := by
  simp [Reports, sendNumbered, Output.report?, h]

theorem sendNumbered_reports (session : SessionState) (now : Int) (m : ExecutionReportMsg) :
    Reports (sendNumbered session now fun n => executionReportFrame n (wireReport m)).2 [m] :=
  .cons ⟨_, rfl⟩ .nil

theorem reportSeqGapIfAny_reports (session : SessionState) (now : Int) (seqNum : UInt32) :
    Reports (reportSeqGapIfAny session now seqNum).2 [] := by
  unfold reportSeqGapIfAny
  dsimp only
  split
  · exact .nil
  · exact sendNumbered_reports_none _ now fun _ =>
      show MsgType.resendRequest.byte ≠ MsgType.executionReport.byte by decide

theorem pushOrReject_reports (session : SessionState) (m : Moment) (ev : SequencedEvent) :
    Reports (pushOrReject session m ev).2
      (if m.queueRoom then [] else [rejectedReport ev.clientOrderId]) := by
  unfold pushOrReject
  split
  · exact .nil
  · exact sendNumbered_reports session m.now (rejectedReport ev.clientOrderId)

theorem onLogon_reports (session : SessionState) (m : Moment) (seqNum : UInt32)
    (logon : LogonMsg) : Reports (onLogon session m seqNum logon).2 [] := by
  unfold onLogon
  dsimp only
  split
  · exact sendNumbered_reports_none _ m.now fun _ =>
      show MsgType.logon.byte ≠ MsgType.executionReport.byte by decide
  · exact .nil

/-- What `dispatch` reports about a frame itself. -/
def refused (fd : UInt32) (f : Frame) (m : Moment) : List ExecutionReportMsg :=
  if IsOrder f ∧ m.queueRoom = false then [rejectedReport (eventOf fd f).clientOrderId] else []

theorem refused_of_not {fd : UInt32} {f : Frame} {m : Moment} (h : ¬ IsOrder f) :
    refused fd f m = [] := if_neg fun ho => h ho.1

/-- An order is pushed or turned away, behind what its number is answered with. -/
theorem order_reports {fd : UInt32} {f : Frame} {ev : SequencedEvent} (session : SessionState)
    (m : Moment) (seqNum : UInt32) (horder : IsOrder f) (hevent : eventOf fd f = ev) :
    Reports (afterGap (reportSeqGapIfAny session m.now seqNum) fun s => pushOrReject s m ev).2
      (refused fd f m) := by
  have h := (reportSeqGapIfAny_reports session m.now seqNum).append
    (pushOrReject_reports (reportSeqGapIfAny session m.now seqNum).1 m ev)
  cases hroom : m.queueRoom <;> simpa [refused, afterGap, horder, hevent, hroom] using h

/-- **Of a frame, `dispatch` reports that the queue was full, and nothing else.** -/
theorem dispatch_reports (fd : UInt32) (f : Frame) (session : SessionState) (m : Moment)
    {r : SessionState × List Output} (h : dispatch fd f.bytes session m = some r) :
    Reports r.2 (refused fd f m) := by
  rw [dispatch_bytes] at h
  cases htype : msgType? f.msgType with
  | none =>
      rw [htype] at h
      cases h
      rw [refused_of_not (kinds_of_unknown htype).2.2]
      exact .nil
  | some type =>
      obtain ⟨-, -, hnew, hcancel⟩ := kinds_of_msgType? htype
      have hgap := reportSeqGapIfAny_reports session m.now f.seqNum
      rw [htype] at h
      cases type with
      | newOrder =>
          dsimp only at h
          split at h
          · -- too short to be an order
            cases h
            rw [refused_of_not (by simp [IsOrder, hnew, hcancel]; omega)]
            exact hgap
          · have hfull : IsNewOrder f := hnew.mpr ⟨rfl, by omega⟩
            rw [memcpy_body (by omega)] at h
            cases h
            exact order_reports session m f.seqNum (.inl hfull) (if_pos hfull)
      | cancelOrder =>
          dsimp only at h
          have hnotnew : ¬ IsNewOrder f := by simp [hnew]
          split at h
          · cases h
            rw [refused_of_not (by simp [IsOrder, hnew, hcancel]; omega)]
            exact hgap
          · have hfull : IsCancelOrder f := hcancel.mpr ⟨rfl, by omega⟩
            rw [memcpy_body (by omega)] at h
            cases h
            exact order_reports session m f.seqNum (.inr hfull) (if_neg hnotnew)
      | logon =>
          rw [refused_of_not (by simp [IsOrder, hnew, hcancel])]
          dsimp only at h
          split at h
          · cases h
            exact .nil
          · obtain ⟨body, -, rfl⟩ := Option.map_eq_some_iff.mp h
            exact onLogon_reports session m f.seqNum _
      | heartbeat | testRequest =>
          cases h
          rw [refused_of_not (by simp [IsOrder, hnew, hcancel])]
          exact hgap
      | logout | resendRequest | replaceOrder | executionReport | reject =>
          cases h
          rw [refused_of_not (by simp [IsOrder, hnew, hcancel])]
          exact .nil

end HftLob.Gateway

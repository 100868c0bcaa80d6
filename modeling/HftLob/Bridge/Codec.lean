import HftLob.Gateway.Dispatch
import HftLob.Lib.Struct

/-!
# Two descriptions of one format

The bridge is written in Python and describes the messages by `struct` format strings; the
gateway has packed structs. Both ends cut frames from what comes in with a loop of their
own: `FrameReader` here, `_drain` there. Here the two are compared, for all values and all
ways in which the bytes are split on their way.
-/

namespace HftLob.Bridge

open HftLob.Wire HftLob.Gateway HftLob.Lib HftLob.Lib.Bytes HftLob.Lib.Framing HftLob.Lib.Struct

/-! ## The bridge's formats -/

def headerFmt : List Code := [.H, .B, .I] -- body_length, msg_type, seq_num
def headerLen : Nat := calcsize headerFmt
def logonFmt : List Code := [.Q, .I, .I]
def newOrderFmt : List Code := [.Q, .s 8, .B, .I, .I]
def cancelOrderFmt : List Code := [.Q]
def execReportFmt : List Code := [.Q, .Q, .B, .I, .I, .I]

/-- `MSG_TYPE`. -/
def msgTypeValue : MsgType → Int
  | .logon => 1
  | .logout => 2
  | .heartbeat => 3
  | .testRequest => 4
  | .resendRequest => 5
  | .newOrder => 10
  | .cancelOrder => 11
  | .replaceOrder => 12
  | .executionReport => 20
  | .reject => 21

theorem msgTypeValue_eq (t : MsgType) : msgTypeValue t = (t.byte.toNat : Int) := by
  cases t <;> rfl

/-- The body of a message, as `submit_new_order`, `submit_cancel` and `_connect_and_pump`
pack it. -/
def packBody : ClientMsg → Option (List UInt8)
  | .logon m => pack logonFmt
      [.int m.clientId.toNat, .int m.heartbeatIntervalMs.toNat, .int m.startingSeqNum.toNat]
  | .newOrder m => pack newOrderFmt
      [.int m.clientOrderId.toNat, .bytes m.symbol.toList, .int m.side.toNat, .int m.price.toNat,
        .int m.quantity.toNat]
  | .cancelOrder m => pack cancelOrderFmt [.int m.clientOrderId.toNat]

/-- `header + body`, as `_send_frame` and `_raw_send` put it together. -/
def packFrame (type : MsgType) (body : List UInt8) (seq : Int) : Option (List UInt8) := do
  let header ← pack headerFmt [.int body.length, .int (msgTypeValue type), .int seq]
  return header ++ body

def packMsg (seq : UInt32) (msg : ClientMsg) : Option (List UInt8) := do
  let body ← packBody msg
  packFrame msg.type body seq.toNat

theorem leBytes_one (b : UInt8) : leBytes 1 b.toNat = [b] := by
  simp [leBytes]

section Words

theorem packInt_8 (v : UInt64) : packInt 8 (v.toNat : Int) = some (leBytes 8 v.toNat) :=
  packInt_natCast v.toNat_lt

theorem packInt_4 (v : UInt32) : packInt 4 (v.toNat : Int) = some (leBytes 4 v.toNat) :=
  packInt_natCast v.toNat_lt

theorem packInt_1 (v : UInt8) : packInt 1 (v.toNat : Int) = some [v] := by
  rw [packInt_natCast v.toNat_lt, leBytes_one]

end Words

/-- **The bridge packs a body as the gateway's struct lies in memory.** -/
theorem packBody_eq (msg : ClientMsg) : packBody msg = some msg.body := by
  cases msg with
  | logon m =>
      simp [packBody, logonFmt, pack, Code.pack, packInt_8, packInt_4, ClientMsg.body,
        LogonMsg.bytes]
  | newOrder m =>
      simp [packBody, newOrderFmt, pack, Code.pack, packInt_8, packInt_4, packInt_1,
        ClientMsg.body, NewOrderMsg.bytes]
  | cancelOrder m =>
      simp [packBody, cancelOrderFmt, pack, Code.pack, packInt_8, ClientMsg.body,
        CancelOrderMsg.bytes]

theorem packFrame_eq (f : Frame) {type : MsgType} (htype : f.msgType = type.byte) :
    packFrame type f.body f.seqNum.toNat = some f.bytes := by
  have hlen : packInt 2 (f.body.length : Int) = some (leBytes 2 f.body.length) :=
    packInt_natCast f.body_lt
  have hbytes : f.bytes = leBytes 2 f.body.length ++ [f.msgType] ++ leBytes 4 f.seqNum.toNat
      ++ f.body := by
    rw [Frame.bytes, MsgHeader.bytes, Frame.bodyLength_header]
    rfl
  simp [packFrame, headerFmt, pack, Code.pack, hlen, msgTypeValue_eq, packInt_1, packInt_4, hbytes,
    htype]

theorem packMsg_eq (seq : UInt32) (msg : ClientMsg) :
    packMsg seq msg = some (msg.frame seq).bytes := by
  rw [packMsg, packBody_eq]
  exact packFrame_eq (msg.frame seq) rfl

/-! ## From the bridge to the gateway -/

/-- The loops in `handle_readable`: each chunk is fed and the frames taken out. -/
def receive (chunks : List (List UInt8)) : List (List UInt8) × FrameReader :=
  drainAll FrameReader.nextFrame FrameReader.feed (fun r => r.buffer.length) .init chunks

/-- **A stream of frames is cut apart again**, whatever the chunks it comes in. -/
theorem receive_frames {chunks : List (List UInt8)} {frames : List Frame}
    (h : chunks.flatten = (frames.map Frame.bytes).flatten) :
    receive chunks = (frames.map Frame.bytes, .init) := by
  have hfeed : ∀ (r : FrameReader) (c : List UInt8), (r.feed c).buffer = r.buffer ++ c :=
    fun _ _ => rfl
  have hcut := FrameReader.reads.drainAll hfeed chunks .init (size_nil frameFormat)
  have hwhole : Cuts frameFormat (frames.map Frame.bytes).flatten (frames.map Frame.bytes) [] :=
    cuts_flatten fun b hb => by
      obtain ⟨f, _, rfl⟩ := List.mem_map.mp hb
      exact f.whole
  have hbuffer : FrameReader.init.buffer ++ chunks.flatten = chunks.flatten := rfl
  rw [hbuffer, h] at hcut
  obtain ⟨hframes, hrest⟩ := hcut.unique hwhole
  exact Prod.ext hframes (congrArg FrameReader.mk hrest)

/-- The start of a frame's body, if the header says that there is so much of it; nothing if
the frame was read beyond its end. -/
def bodyOf (size : Nat) (frame : List UInt8) : Option (Option (List UInt8)) :=
  if (MsgHeader.read frame).bodyLength.toNat < size then some none
  else (memcpy headerSize size frame).map some

/-- The message in a frame and its number, as the switch in `dispatch` reads them. -/
def extract (frame : List UInt8) : Option (Option (UInt32 × ClientMsg)) :=
  if frame.length < headerSize then some none
  else
    let header := MsgHeader.read frame
    match msgType? header.msgType with
    | some .logon => (bodyOf LogonMsg.size frame).map
        (Option.map fun body => (header.seqNum, .logon (LogonMsg.read body)))
    | some .newOrder => (bodyOf NewOrderMsg.size frame).map
        (Option.map fun body => (header.seqNum, .newOrder (NewOrderMsg.read body)))
    | some .cancelOrder => (bodyOf CancelOrderMsg.size frame).map
        (Option.map fun body => (header.seqNum, .cancelOrder (CancelOrderMsg.read body)))
    | _ => some none

/-- What the switch does with a message. -/
def onClientMsg (fd : UInt32) (session : SessionState) (m : Moment) (seqNum : UInt32) :
    ClientMsg → SessionState × List Output
  | .logon logon => onLogon session m seqNum logon
  | .newOrder order => afterGap (reportSeqGapIfAny session m.now seqNum) fun session =>
      onNewOrder fd session m order
  | .cancelOrder cancel => afterGap (reportSeqGapIfAny session m.now seqNum) fun session =>
      onCancelOrder fd session m cancel

theorem of_bodyOf_map {size : Nat} {frame : List UInt8} {β : Type} {g : List UInt8 → β} {b : β}
    (h : (bodyOf size frame).map (Option.map g) = some (some b)) :
    ∃ body, ¬ (MsgHeader.read frame).bodyLength.toNat < size
      ∧ memcpy headerSize size frame = some body ∧ g body = b := by
  unfold bodyOf at h
  split at h
  · exact absurd h (by simp)
  · rename_i hfull
    rw [Option.map_map] at h
    obtain ⟨body, hbody, hb⟩ := Option.map_eq_some_iff.mp h
    exact ⟨body, hfull, hbody, Option.some.inj hb⟩

/-- `dispatch` goes by what `extract` reads. -/
theorem dispatch_of_extract {frame : List UInt8} {seqNum : UInt32} {msg : ClientMsg}
    (h : extract frame = some (some (seqNum, msg))) (fd : UInt32) (session : SessionState)
    (m : Moment) : dispatch fd frame session m = some (onClientMsg fd session m seqNum msg) := by
  unfold extract at h
  unfold dispatch
  by_cases hshort : frame.length < headerSize
  · rw [if_pos hshort] at h
    exact absurd h (by simp)
  · rw [if_neg hshort] at h ⊢
    dsimp only at h ⊢
    split at h
    · rename_i htype
      obtain ⟨body, hfull, hbody, hmsg⟩ := of_bodyOf_map h
      cases hmsg
      simp only [htype, hfull, hbody, if_false, Option.map_some, onClientMsg]
    · rename_i htype
      obtain ⟨body, hfull, hbody, hmsg⟩ := of_bodyOf_map h
      cases hmsg
      simp only [htype, hfull, hbody, if_false, Option.map_some, onClientMsg]
    · rename_i htype
      obtain ⟨body, hfull, hbody, hmsg⟩ := of_bodyOf_map h
      cases hmsg
      simp only [htype, hfull, hbody, if_false, Option.map_some, onClientMsg]
    · exact absurd h (by simp)

/-- All of a frame's body is inside of it. -/
theorem bodyOf_frame {f : Frame} {size : Nat} (h : f.body.length = size) :
    bodyOf size f.bytes = some (some f.body) := by
  rw [bodyOf, Frame.read_bytes_self, Frame.bodyLength_header, if_neg (by omega),
    memcpy_body (by omega), ← h, List.take_length]
  rfl

theorem extract_frame (seq : UInt32) (msg : ClientMsg) :
    extract (msg.frame seq).bytes = some (some (seq, msg)) := by
  have hlong : ¬ (msg.frame seq).bytes.length < headerSize := by
    rw [Frame.length_bytes]
    omega
  have htype : msgType? (msg.frame seq).header.msgType = some msg.type := msgType?_byte msg.type
  unfold extract
  rw [if_neg hlong, Frame.read_bytes_self]
  dsimp only
  rw [htype]
  cases msg with
  | logon m =>
      have hbody := bodyOf_frame (f := (ClientMsg.logon m).frame seq) m.length_bytes
      simp only [ClientMsg.type, hbody, Option.map_some]
      exact congrArg (fun x => some (some (seq, ClientMsg.logon x))) m.read_bytes
  | newOrder m =>
      have hbody := bodyOf_frame (f := (ClientMsg.newOrder m).frame seq) m.length_bytes
      simp only [ClientMsg.type, hbody, Option.map_some]
      exact congrArg (fun x => some (some (seq, ClientMsg.newOrder x))) m.read_bytes
  | cancelOrder m =>
      have hbody := bodyOf_frame (f := (ClientMsg.cancelOrder m).frame seq) m.length_bytes
      simp only [ClientMsg.type, hbody, Option.map_some]
      exact congrArg (fun x => some (some (seq, ClientMsg.cancelOrder x))) m.read_bytes

/-! ## From the gateway to the bridge -/

/-- A frame as the bridge takes it apart. -/
structure Decoded where
  msgType : Int
  seq : Int
  body : List UInt8
  deriving DecidableEq

/-- One turn of the loop in `_drain`. -/
def nextMsg (buf : List UInt8) : Option (Decoded × List UInt8) :=
  if buf.length < headerLen then none
  else match unpack headerFmt (buf.take headerLen) with
    | some [.int bodyLen, .int msgType, .int seq] =>
        let total := headerLen + bodyLen.toNat
        if buf.length < total then none
        else some (⟨msgType, seq, (buf.take total).drop headerLen⟩, buf.drop total)
    | _ => none -- `struct.error`; seven bytes can always be unpacked

/-- The loop in `_connect_and_pump`: what is handed to `_handle` and what stays in `buf`. -/
def pump (chunks : List (List UInt8)) : List Decoded × List UInt8 :=
  drainAll nextMsg (fun buf chunk => buf ++ chunk) List.length [] chunks

/-- The bridge's reading of a whole frame. -/
def decode (frame : List UInt8) : Decoded :=
  ⟨field 2 1 frame, field 3 4 frame, frame.drop headerLen⟩

theorem unpack_header {buf : List UInt8} (h : headerLen ≤ buf.length) :
    unpack headerFmt (buf.take headerLen)
      = some [.int (field 0 2 buf), .int (field 2 1 buf), .int (field 3 4 buf)] := by
  have hlen : (buf.take headerLen).length = calcsize headerFmt := List.length_take_of_le h
  have hfield : ∀ off n, off + n ≤ headerLen →
      leValue (((buf.take headerLen).drop off).take n) = field off n buf :=
    fun off n hn => field_take hn buf
  have hlength := hfield 0 2 (by decide)
  rw [List.drop_zero] at hlength
  rw [unpack, if_pos hlen]
  simp only [headerFmt, unpackFields, Code.unpack, Code.size, List.drop_drop, hlength,
    hfield 2 1 (by decide), hfield 3 4 (by decide)]

/-- **The bridge cuts frames as the gateway's reader does.** -/
theorem nextMsg_eq (r : FrameReader) :
    nextMsg r.buffer = r.nextFrame.map (Prod.map decode FrameReader.buffer) := by
  have hsize : headerLen = headerSize := rfl
  unfold nextMsg FrameReader.nextFrame
  by_cases hshort : r.buffer.length < headerLen
  · rw [if_pos hshort, if_pos (hsize ▸ hshort)]
    rfl
  · rw [if_neg hshort, if_neg (hsize ▸ hshort), unpack_header (Nat.le_of_not_lt hshort)]
    dsimp only
    rw [bodyLength_read, Int.toNat_natCast, ← hsize]
    by_cases hpart : r.buffer.length < headerLen + field 0 2 r.buffer
    · rw [if_pos hpart, if_pos hpart]
      rfl
    · rw [if_neg hpart, if_neg hpart]
      have hlen : headerLen = 7 := rfl
      simp only [Option.map_some, Prod.map_apply, decode]
      rw [field_take (by omega), field_take (by omega)]

theorem pump_eq (chunks : List (List UInt8)) :
    pump chunks = Prod.map (List.map decode) FrameReader.buffer (receive chunks) := by
  have hfeed : ∀ (r : FrameReader) (c : List UInt8), r.buffer ++ c = (r.feed c).buffer :=
    fun _ _ => rfl
  exact drainAll_map nextMsg_eq hfeed chunks .init

theorem decode_bytes (f : Frame) : decode f.bytes = ⟨f.msgType.toNat, f.seqNum.toNat, f.body⟩ := by
  obtain ⟨_, htype, hseq⟩ := f.header.field_bytes f.body
  have hbody : f.bytes.drop headerLen = f.body := by
    have hlen : headerLen = f.header.bytes.length := f.header.length_bytes.symm
    rw [hlen, Frame.bytes, List.drop_left]
  have hmod : f.seqNum.toNat % 256 ^ 4 = f.seqNum.toNat := Nat.mod_eq_of_lt f.seqNum.toNat_lt
  rw [decode, hbody, Frame.bytes, htype, hseq, leValue_leBytes]
  simp only [leValue, Frame.header, Nat.mul_zero, Nat.add_zero, hmod]

/-- What `send_frame` is called with. -/
inductive GatewayMsg where
  | logonAck
  | heartbeat
  | resendRequest (range : ResendRange)
  | executionReport (report : Wire.ExecutionReportMsg)
  deriving DecidableEq

def GatewayMsg.frame (seqNum : UInt32) : GatewayMsg → Frame
  | logonAck => logonAckFrame seqNum
  | heartbeat => heartbeatFrame seqNum
  | resendRequest range => resendRequestFrame seqNum range
  | executionReport report => executionReportFrame seqNum report

/-- The six fields as Python sees them. -/
def reportValues (report : Wire.ExecutionReportMsg) : List Value :=
  [.int report.clientOrderId.toNat, .int report.exchangeOrderId.toNat, .int report.status.toNat,
    .int report.fillPrice.toNat, .int report.fillQuantity.toNat, .int report.leavesQuantity.toNat]

/-- The bridge's format for an execution report is that of the gateway's struct. -/
theorem unpack_report (report : Wire.ExecutionReportMsg) :
    unpack execReportFmt report.bytes = some (reportValues report) := by
  have hpack : pack execReportFmt (reportValues report) = some report.bytes := by
    simp [reportValues, execReportFmt, pack, Code.pack, packInt_8, packInt_4, packInt_1,
      ExecutionReportMsg.bytes]
  refine unpack_pack ?_ hpack
  simp only [execReportFmt, reportValues, List.forall₂_cons, List.Forall₂.nil, Code.Fits,
    Int.natCast_nonneg, Int.toNat_natCast, true_and, and_true]
  exact ⟨report.clientOrderId.toNat_lt, report.exchangeOrderId.toNat_lt, report.status.toNat_lt,
    report.fillPrice.toNat_lt, report.fillQuantity.toNat_lt, report.leavesQuantity.toNat_lt⟩

/-- **The two ends speak the same format.** What the bridge packs comes out of the gateway's
reader and its field extraction as it was, and `dispatch` acts on it without reading outside
a frame. What the gateway sends comes out of the bridge's loop as it was, and a report's six
fields out of its body; all this whatever the chunks. -/
theorem bridge_and_gateway_same_format :
    (∀ msgs : List (UInt32 × ClientMsg), ∃ packed : List (List UInt8),
      msgs.mapM (fun m => packMsg m.1 m.2) = some packed
      ∧ ∀ chunks : List (List UInt8), chunks.flatten = packed.flatten →
        (receive chunks).1.map extract = msgs.map (fun m => some (some m))
        ∧ (receive chunks).2 = .init
        ∧ ∀ fd session moment,
            (receive chunks).1.map (fun frame => dispatch fd frame session moment)
            = msgs.map fun m => some (onClientMsg fd session moment m.1 m.2))
    ∧ (∀ (sent : List (UInt32 × GatewayMsg)) (chunks : List (List UInt8)),
      chunks.flatten = (sent.map fun m => (m.2.frame m.1).bytes).flatten →
        pump chunks = (sent.map fun m =>
          ⟨(m.2.frame m.1).msgType.toNat, m.1.toNat, (m.2.frame m.1).body⟩, [])
        ∧ ∀ seqNum report, (seqNum, .executionReport report) ∈ sent →
          unpack execReportFmt (GatewayMsg.frame seqNum (.executionReport report)).body
            = some (reportValues report)) := by
  constructor
  · intro msgs
    refine ⟨msgs.map fun m => (m.2.frame m.1).bytes, ?_, ?_⟩
    · simp only [packMsg_eq]
      exact List.mapM_pure
    · intro chunks hchunks
      have hframes : (msgs.map fun m => (m.2.frame m.1).bytes)
          = (msgs.map fun m => m.2.frame m.1).map Frame.bytes := by
        rw [List.map_map]
        rfl
      rw [hframes] at hchunks
      rw [receive_frames hchunks, List.map_map, List.map_map]
      refine ⟨List.map_congr_left fun m _ => extract_frame m.1 m.2, rfl, ?_⟩
      intro fd session moment
      rw [List.map_map, List.map_map]
      exact List.map_congr_left fun m _ =>
        dispatch_of_extract (extract_frame m.1 m.2) fd session moment
  · intro sent chunks hchunks
    have hframes : (sent.map fun m => (m.2.frame m.1).bytes)
        = (sent.map fun m => m.2.frame m.1).map Frame.bytes := by
      rw [List.map_map]
      rfl
    rw [hframes] at hchunks
    refine ⟨?_, fun _ report _ => unpack_report report⟩
    rw [pump_eq, receive_frames hchunks, Prod.map_apply, List.map_map, List.map_map]
    refine Prod.ext (List.map_congr_left fun m _ => ?_) rfl
    have hseq : (m.2.frame m.1).seqNum = m.1 := by cases m.2 <;> rfl
    show decode (m.2.frame m.1).bytes = _
    rw [decode_bytes, hseq]

/-- An order in two chunks there, and a report and a heartbeat in three back. -/
theorem bridge_and_gateway_same_format_in_chunks :
    let order : ClientMsg := .newOrder ⟨1, #v[85, 73, 0, 0, 0, 0, 0, 0], 1, 100, 5⟩
    let orderBytes : List UInt8 := [25, 0, 10, 2, 0, 0, 0, 1, 0, 0, 0, 0, 0, 0, 0,
      85, 73, 0, 0, 0, 0, 0, 0, 1, 100, 0, 0, 0, 5, 0, 0, 0]
    let report : Wire.ExecutionReportMsg := ⟨1, 7, 3, 100, 5, 0⟩
    let reportBytes : List UInt8 := [29, 0, 20, 1, 0, 0, 0, 1, 0, 0, 0, 0, 0, 0, 0,
      7, 0, 0, 0, 0, 0, 0, 0, 3, 100, 0, 0, 0, 5, 0, 0, 0, 0, 0, 0, 0]
    let heartbeatBytes : List UInt8 := [0, 0, 3, 2, 0, 0, 0]
    (receive [orderBytes.take 5, orderBytes.drop 5]).1.map extract = [some (some (2, order))]
      ∧ pump [reportBytes.take 9, reportBytes.drop 9 ++ heartbeatBytes.take 1,
          heartbeatBytes.drop 1] = ([⟨20, 1, report.bytes⟩, ⟨3, 2, []⟩], []) := by
  intro order orderBytes report reportBytes heartbeatBytes
  obtain ⟨packed, hpacked, hforward⟩ := bridge_and_gateway_same_format.1 [(2, order)]
  have hbytes : packed = [orderBytes] := by
    have heval : [(2, order)].mapM (fun m => packMsg m.1 m.2) = some [orderBytes] := by decide
    rw [heval] at hpacked
    exact (Option.some.inj hpacked).symm
  have hback := bridge_and_gateway_same_format.2 [(1, .executionReport report), (2, .heartbeat)]
    [reportBytes.take 9, reportBytes.drop 9 ++ heartbeatBytes.take 1, heartbeatBytes.drop 1]
    (by decide)
  exact ⟨(hforward _ (by rw [hbytes]; decide)).1, hback.1⟩

end HftLob.Bridge

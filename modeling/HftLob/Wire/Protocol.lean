import HftLob.Lib.Bytes
import HftLob.Types

/-!
# The wire protocol

`gateway_protocol.hpp`: a header of seven bytes and a body, the structs under
`#pragma pack(push, 1)`, so that their members follow each other without padding, on a
little-endian machine. `bytes` is the memory of a struct and `read` what `memcpy` into
one gives. Enumerations of one byte are bytes here: nothing on the way in checks that
they are values the protocol knows.
-/

namespace HftLob.Wire

open HftLob.Lib.Bytes

inductive MsgType where
  | logon
  | logout
  | heartbeat
  | testRequest
  | resendRequest
  | newOrder
  | cancelOrder
  | replaceOrder
  | executionReport
  | reject
  deriving DecidableEq, Repr

def MsgType.byte : MsgType → UInt8
  | .logon => 1
  | .logout => 2
  | .heartbeat => 3
  | .testRequest => 4
  | .resendRequest => 5
  | .newOrder => 10
  | .cancelOrder => 11
  | .replaceOrder => 12
  | .executionReport => 20
  | .reject => 21

def msgType? (b : UInt8) : Option MsgType :=
  [MsgType.logon, .logout, .heartbeat, .testRequest, .resendRequest, .newOrder, .cancelOrder,
    .replaceOrder, .executionReport, .reject].find? (fun t => t.byte = b)

theorem msgType?_byte (t : MsgType) : msgType? t.byte = some t := by
  cases t <;> decide

theorem msgType?_eq_some {b : UInt8} {t : MsgType} : msgType? b = some t ↔ b = t.byte := by
  constructor
  · intro h
    have hbyte : t.byte = b := by simpa using List.find?_some h
    exact hbyte.symm
  · rintro rfl
    exact msgType?_byte t

def execStatusByte : ExecStatus → UInt8
  | .accepted => 1
  | .rejected => 2
  | .filled => 3
  | .partialFill => 4
  | .canceled => 5

/-! ## The header -/

structure MsgHeader where
  /-- Bytes following the header. -/
  bodyLength : UInt16
  msgType : UInt8
  seqNum : UInt32
  deriving DecidableEq, Repr

/-- `sizeof(MsgHeader)`. -/
def headerSize : Nat := 7

def MsgHeader.bytes (h : MsgHeader) : List UInt8 :=
  leBytes 2 h.bodyLength.toNat ++ [h.msgType] ++ leBytes 4 h.seqNum.toNat

def MsgHeader.read (b : List UInt8) : MsgHeader where
  bodyLength := UInt16.ofNat (field 0 2 b)
  msgType := UInt8.ofNat (field 2 1 b)
  seqNum := UInt32.ofNat (field 3 4 b)

@[simp] theorem MsgHeader.length_bytes (h : MsgHeader) : h.bytes.length = headerSize := by
  simp [MsgHeader.bytes, headerSize]

/-- Every member is at its offset, whatever follows. -/
theorem MsgHeader.field_bytes (h : MsgHeader) (rest : List UInt8) :
    field 0 2 (h.bytes ++ rest) = leValue (leBytes 2 h.bodyLength.toNat)
      ∧ field 2 1 (h.bytes ++ rest) = leValue [h.msgType]
      ∧ field 3 4 (h.bytes ++ rest) = leValue (leBytes 4 h.seqNum.toNat) := by
  simp only [field, bytes, leBytes, List.cons_append, List.nil_append, List.drop_succ_cons,
    List.drop_zero, List.take_succ_cons, List.take_zero, and_self]

theorem MsgHeader.read_bytes (h : MsgHeader) (rest : List UInt8) :
    MsgHeader.read (h.bytes ++ rest) = h := by
  obtain ⟨hlen, htype, hseq⟩ := h.field_bytes rest
  rw [MsgHeader.read, hlen, htype, hseq, ofNat_leValue_16, ofNat_leValue_8, ofNat_leValue_32]

/-- The length field is wide enough for every value its two bytes can have. -/
theorem bodyLength_read (b : List UInt8) : (MsgHeader.read b).bodyLength.toNat = field 0 2 b := by
  show (UInt16.ofNat (field 0 2 b)).toNat = _
  rw [UInt16.toNat_ofNat']
  exact Nat.mod_eq_of_lt (field_lt 0 2 b)

/-- A header that was read is laid out as it was. -/
theorem MsgHeader.bytes_read {b : List UInt8} (h : headerSize ≤ b.length) :
    (MsgHeader.read b).bytes = b.take headerSize := by
  have hsize : headerSize = 7 := rfl
  have hseq : (UInt32.ofNat (field 3 4 b)).toNat = field 3 4 b := by
    rw [UInt32.toNat_ofNat']
    exact Nat.mod_eq_of_lt (field_lt 3 4 b)
  have hbyte : [UInt8.ofNat (field 2 1 b)] = (b.drop 2).take 1 := by
    rw [← leBytes_field (by omega)]
    rfl
  show leBytes 2 (MsgHeader.read b).bodyLength.toNat ++ [UInt8.ofNat (field 2 1 b)]
    ++ leBytes 4 (UInt32.ofNat (field 3 4 b)).toNat = _
  rw [bodyLength_read, hseq, hbyte, leBytes_field (by omega), leBytes_field (by omega),
    List.drop_zero, ← List.take_add, ← List.take_add]
  rfl

/-! ## Bodies -/

structure LogonMsg where
  clientId : UInt64
  heartbeatIntervalMs : UInt32
  startingSeqNum : UInt32
  deriving DecidableEq, Repr

def LogonMsg.size : Nat := 16

def LogonMsg.bytes (m : LogonMsg) : List UInt8 :=
  leBytes 8 m.clientId.toNat ++ leBytes 4 m.heartbeatIntervalMs.toNat
    ++ leBytes 4 m.startingSeqNum.toNat

def LogonMsg.read (b : List UInt8) : LogonMsg where
  clientId := UInt64.ofNat (field 0 8 b)
  heartbeatIntervalMs := UInt32.ofNat (field 8 4 b)
  startingSeqNum := UInt32.ofNat (field 12 4 b)

structure NewOrderMsg where
  clientOrderId : UInt64
  symbol : Vector UInt8 8
  side : UInt8
  price : UInt32
  quantity : UInt32
  deriving DecidableEq, Repr

def NewOrderMsg.size : Nat := 25

def NewOrderMsg.bytes (m : NewOrderMsg) : List UInt8 :=
  leBytes 8 m.clientOrderId.toNat ++ m.symbol.toList ++ [m.side] ++ leBytes 4 m.price.toNat
    ++ leBytes 4 m.quantity.toNat

def NewOrderMsg.read (b : List UInt8) : NewOrderMsg where
  clientOrderId := UInt64.ofNat (field 0 8 b)
  symbol := Vector.ofFn fun i => b.getD (8 + i) 0
  side := UInt8.ofNat (field 16 1 b)
  price := UInt32.ofNat (field 17 4 b)
  quantity := UInt32.ofNat (field 21 4 b)

structure CancelOrderMsg where
  clientOrderId : UInt64
  deriving DecidableEq, Repr

def CancelOrderMsg.size : Nat := 8

def CancelOrderMsg.bytes (m : CancelOrderMsg) : List UInt8 := leBytes 8 m.clientOrderId.toNat

def CancelOrderMsg.read (b : List UInt8) : CancelOrderMsg where
  clientOrderId := UInt64.ofNat (field 0 8 b)

structure ExecutionReportMsg where
  clientOrderId : UInt64
  exchangeOrderId : UInt64
  status : UInt8
  fillPrice : UInt32
  fillQuantity : UInt32
  leavesQuantity : UInt32
  deriving DecidableEq, Repr

def ExecutionReportMsg.size : Nat := 29

def ExecutionReportMsg.bytes (m : ExecutionReportMsg) : List UInt8 :=
  leBytes 8 m.clientOrderId.toNat ++ leBytes 8 m.exchangeOrderId.toNat ++ [m.status]
    ++ leBytes 4 m.fillPrice.toNat ++ leBytes 4 m.fillQuantity.toNat
    ++ leBytes 4 m.leavesQuantity.toNat

/-- The unnamed struct in `send_resend_request`. -/
structure ResendRange where
  fromSeq : UInt32
  toSeq : UInt32
  deriving DecidableEq, Repr

def ResendRange.bytes (m : ResendRange) : List UInt8 :=
  leBytes 4 m.fromSeq.toNat ++ leBytes 4 m.toSeq.toNat

@[simp] theorem LogonMsg.length_bytes (m : LogonMsg) : m.bytes.length = LogonMsg.size := by
  simp [LogonMsg.bytes, LogonMsg.size]

@[simp] theorem NewOrderMsg.length_bytes (m : NewOrderMsg) : m.bytes.length = NewOrderMsg.size := by
  simp [NewOrderMsg.bytes, NewOrderMsg.size]

@[simp] theorem CancelOrderMsg.length_bytes (m : CancelOrderMsg) :
    m.bytes.length = CancelOrderMsg.size := by
  simp [CancelOrderMsg.bytes, CancelOrderMsg.size]

@[simp] theorem ExecutionReportMsg.length_bytes (m : ExecutionReportMsg) :
    m.bytes.length = ExecutionReportMsg.size := by
  simp [ExecutionReportMsg.bytes, ExecutionReportMsg.size]

@[simp] theorem ResendRange.length_bytes (m : ResendRange) : m.bytes.length = 8 := by
  simp [ResendRange.bytes]

theorem LogonMsg.field_bytes (m : LogonMsg) :
    field 0 8 m.bytes = leValue (leBytes 8 m.clientId.toNat)
      ∧ field 8 4 m.bytes = leValue (leBytes 4 m.heartbeatIntervalMs.toNat)
      ∧ field 12 4 m.bytes = leValue (leBytes 4 m.startingSeqNum.toNat) := by
  simp only [field, bytes, leBytes, List.cons_append, List.nil_append, List.drop_succ_cons,
    List.drop_zero, List.take_succ_cons, List.take_zero, and_self]

theorem LogonMsg.read_bytes (m : LogonMsg) : LogonMsg.read m.bytes = m := by
  obtain ⟨hclient, hinterval, hseq⟩ := m.field_bytes
  rw [LogonMsg.read, hclient, hinterval, hseq, ofNat_leValue_64, ofNat_leValue_32, ofNat_leValue_32]

theorem NewOrderMsg.field_bytes (m : NewOrderMsg) :
    field 0 8 m.bytes = leValue (leBytes 8 m.clientOrderId.toNat)
      ∧ field 16 1 m.bytes = leValue [m.side]
      ∧ field 17 4 m.bytes = leValue (leBytes 4 m.price.toNat)
      ∧ field 21 4 m.bytes = leValue (leBytes 4 m.quantity.toNat) := by
  obtain ⟨clientOrderId, ⟨⟨chars⟩, hchars⟩, side, price, quantity⟩ := m
  have hlen : chars.length = 8 := by simpa using hchars
  match chars, hlen with
  | [c0, c1, c2, c3, c4, c5, c6, c7], _ => exact ⟨rfl, rfl, rfl, rfl⟩

theorem NewOrderMsg.symbol_bytes (m : NewOrderMsg) :
    (Vector.ofFn fun i : Fin 8 => m.bytes.getD (8 + i) 0) = m.symbol := by
  refine Vector.ext fun i hi => ?_
  have hsplit : m.bytes = leBytes 8 m.clientOrderId.toNat
      ++ (m.symbol.toList ++ ([m.side] ++ leBytes 4 m.price.toNat
          ++ leBytes 4 m.quantity.toNat)) := by
    simp [bytes]
  rw [Vector.getElem_ofFn, hsplit, List.getD_eq_getElem?_getD,
    List.getElem?_append_right (by simp), List.getElem?_append_left (by simp [hi])]
  simp [hi]

theorem NewOrderMsg.read_bytes (m : NewOrderMsg) : NewOrderMsg.read m.bytes = m := by
  obtain ⟨hclient, hside, hprice, hquantity⟩ := m.field_bytes
  rw [NewOrderMsg.read, hclient, m.symbol_bytes, hside, hprice, hquantity, ofNat_leValue_64,
    ofNat_leValue_8, ofNat_leValue_32, ofNat_leValue_32]

theorem CancelOrderMsg.read_bytes (m : CancelOrderMsg) : CancelOrderMsg.read m.bytes = m := by
  have hclient : field 0 8 m.bytes = leValue (leBytes 8 m.clientOrderId.toNat) := by
    simp only [field, bytes, leBytes, List.drop_zero, List.take_succ_cons, List.take_zero]
  rw [CancelOrderMsg.read, hclient, ofNat_leValue_64]

end HftLob.Wire

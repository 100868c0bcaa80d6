import HftLob.Lib.Bytes
import HftLob.Types

/-!
# The write-ahead log

`WalConsumer` without its thread: the record of an event is the memory of the
`SequencedEvent`, 56 bytes on a little-endian 64-bit machine, with the padding between
the members left as it happens to be. `fwrite` hands the record to the C library;
`maybe_fsync` moves what the library holds to the file, by count, by time or when
forced. Writes succeed.

The decoder is not part of the source, which only writes the file.
-/

namespace HftLob.Pipeline

open HftLob.Lib.Bytes

/-! ## Records -/

/-- The bytes between the members of a `SequencedEvent`. -/
structure Padding where
  afterProducer : UInt8 × UInt8
  afterSide : UInt8 × UInt8 × UInt8
  afterQuantity : UInt8 × UInt8 × UInt8 × UInt8
  deriving Inhabited

/-- `sizeof(SequencedEvent)`. -/
def recordSize : Nat := 56

def eventTypeByte : EventType → UInt8
  | .newOrder => 1
  | .cancelOrder => 2
  | .marketDataOrder => 3
  | .admin => 4

def producerByte : ProducerId → UInt8
  | .gateway => 0
  | .feedReplay => 1
  | .admin => 2

/-- The object representation of an event. -/
def record (ev : SequencedEvent) (pad : Padding) : List UInt8 :=
  leBytes 8 ev.seqNum.toNat ++ leBytes 8 ev.ingressTsNs.toNat ++ leBytes 8 ev.sequenceTsNs.toNat
    ++ [eventTypeByte ev.type, producerByte ev.producer, pad.afterProducer.1, pad.afterProducer.2]
    ++ leBytes 4 ev.sessionId.toNat ++ leBytes 8 ev.clientOrderId.toNat
    ++ [ev.side, pad.afterSide.1, pad.afterSide.2.1, pad.afterSide.2.2]
    ++ leBytes 4 ev.price.toNat ++ leBytes 4 ev.quantity.toNat
    ++ [pad.afterQuantity.1, pad.afterQuantity.2.1, pad.afterQuantity.2.2.1,
        pad.afterQuantity.2.2.2]

def eventType? : Nat → Option EventType
  | 1 => some .newOrder
  | 2 => some .cancelOrder
  | 3 => some .marketDataOrder
  | 4 => some .admin
  | _ => none

def producer? : Nat → Option ProducerId
  | 0 => some .gateway
  | 1 => some .feedReplay
  | 2 => some .admin
  | _ => none

def decodeRecord (bytes : List UInt8) : Option SequencedEvent := do
  let type ← eventType? (field 24 1 bytes)
  let producer ← producer? (field 25 1 bytes)
  return {
    seqNum := UInt64.ofNat (field 0 8 bytes)
    ingressTsNs := UInt64.ofNat (field 8 8 bytes)
    sequenceTsNs := UInt64.ofNat (field 16 8 bytes)
    type := type
    producer := producer
    sessionId := UInt32.ofNat (field 28 4 bytes)
    clientOrderId := UInt64.ofNat (field 32 8 bytes)
    side := UInt8.ofNat (field 40 1 bytes)
    price := UInt32.ofNat (field 44 4 bytes)
    quantity := UInt32.ofNat (field 48 4 bytes) }

theorem length_record (ev : SequencedEvent) (pad : Padding) :
    (record ev pad).length = recordSize := by
  simp [record, recordSize]

theorem eventType?_byte (type : EventType) :
    eventType? (leValue [eventTypeByte type]) = some type := by
  cases type <;> rfl

theorem producer?_byte (p : ProducerId) : producer? (leValue [producerByte p]) = some p := by
  cases p <;> rfl

/-- Every member is at its offset. -/
theorem field_record (ev : SequencedEvent) (pad : Padding) :
    field 0 8 (record ev pad) = leValue (leBytes 8 ev.seqNum.toNat)
      ∧ field 8 8 (record ev pad) = leValue (leBytes 8 ev.ingressTsNs.toNat)
      ∧ field 16 8 (record ev pad) = leValue (leBytes 8 ev.sequenceTsNs.toNat)
      ∧ field 24 1 (record ev pad) = leValue [eventTypeByte ev.type]
      ∧ field 25 1 (record ev pad) = leValue [producerByte ev.producer]
      ∧ field 28 4 (record ev pad) = leValue (leBytes 4 ev.sessionId.toNat)
      ∧ field 32 8 (record ev pad) = leValue (leBytes 8 ev.clientOrderId.toNat)
      ∧ field 40 1 (record ev pad) = leValue [ev.side]
      ∧ field 44 4 (record ev pad) = leValue (leBytes 4 ev.price.toNat)
      ∧ field 48 4 (record ev pad) = leValue (leBytes 4 ev.quantity.toNat) := by
  -- with the fields written out byte by byte, an offset is a number of `drop`s
  simp only [field, record, leBytes, List.cons_append, List.nil_append, List.drop_succ_cons,
    List.drop_zero, List.take_succ_cons, List.take_zero, and_self]

/-- Whatever is in its padding, a record decodes to its event. -/
theorem decodeRecord_record (ev : SequencedEvent) (pad : Padding) :
    decodeRecord (record ev pad) = some ev := by
  obtain ⟨hseq, hingress, hts, htype, hproducer, hsession, hclient, hside, hprice, hquantity⟩ :=
    field_record ev pad
  unfold decodeRecord
  rw [htype, hproducer, hside, hseq, hingress, hts, hsession, hclient, hprice, hquantity,
    eventType?_byte, producer?_byte]
  simp only [ofNat_leValue_64, ofNat_leValue_32, ofNat_leValue_8]
  rfl

/-- A file of the records of the events, in order, each with some padding. -/
def IsLog (evs : List SequencedEvent) (bytes : List UInt8) : Prop :=
  ∃ pads : List Padding, pads.length = evs.length ∧ bytes = (List.zipWith record evs pads).flatten

theorem isLog_nil : IsLog [] [] := ⟨[], rfl, rfl⟩

theorem IsLog.concat {evs : List SequencedEvent} {bytes : List UInt8} (h : IsLog evs bytes)
    (ev : SequencedEvent) (pad : Padding) : IsLog (evs ++ [ev]) (bytes ++ record ev pad) := by
  obtain ⟨pads, hlen, rfl⟩ := h
  refine ⟨pads ++ [pad], by simp [hlen], ?_⟩
  rw [List.zipWith_append hlen.symm]
  simp

theorem IsLog.decode {evs : List SequencedEvent} {bytes : List UInt8} (h : IsLog evs bytes) :
    decodeAll recordSize decodeRecord bytes = some evs := by
  obtain ⟨pads, hlen, rfl⟩ := h
  refine decodeAll_flatten (by decide) ?_
  induction evs generalizing pads with
  | nil => exact .nil
  | cons ev evs ih =>
      cases pads with
      | nil => exact absurd hlen (by simp)
      | cons pad pads =>
          exact .cons ⟨length_record ev pad, decodeRecord_record ev pad⟩
            (ih pads (by simpa using hlen))

/-! ## The consumer -/

structure WalConsumer where
  /-- What is in the file, and synced. -/
  file : List UInt8
  /-- What the C library holds. -/
  buffered : List UInt8
  recordsWritten : Nat
  unsyncedCount : Nat
  isOpen : Bool

namespace WalConsumer

/-- As constructed; this is in the file already. -/
def init (file : List UInt8) : WalConsumer where
  file := file
  buffered := []
  recordsWritten := 0
  unsyncedCount := 0
  isOpen := false

/-- `open()`, which appends to what is there. -/
def openFile (w : WalConsumer) : WalConsumer := { w with isOpen := true }

/-- `elapsed`: `fsync_interval_` has passed since the last sync. -/
def maybeFsync (fsyncEveryN : Nat) (w : WalConsumer) (force elapsed : Bool) : WalConsumer :=
  if w.unsyncedCount = 0 ∧ ¬ force then w
  else if ¬ force ∧ w.unsyncedCount < fsyncEveryN ∧ ¬ elapsed then w
  else { w with file := w.file ++ w.buffered, buffered := [], unsyncedCount := 0 }

def append (fsyncEveryN : Nat) (w : WalConsumer) (ev : SequencedEvent) (pad : Padding)
    (elapsed : Bool) : WalConsumer :=
  maybeFsync fsyncEveryN
    { w with buffered := w.buffered ++ record ev pad
             recordsWritten := w.recordsWritten + 1
             unsyncedCount := w.unsyncedCount + 1 }
    false elapsed

def close (fsyncEveryN : Nat) (w : WalConsumer) : WalConsumer :=
  if w.isOpen then { w.maybeFsync fsyncEveryN true false with isOpen := false } else w

/-- Everything written so far, wherever it is. -/
def written (w : WalConsumer) : List UInt8 := w.file ++ w.buffered

variable {fsyncEveryN : Nat}

@[simp] theorem maybeFsync_written (w : WalConsumer) (force elapsed : Bool) :
    (w.maybeFsync fsyncEveryN force elapsed).written = w.written := by
  unfold maybeFsync
  split
  · rfl
  · split
    · rfl
    · simp [written]

@[simp] theorem maybeFsync_isOpen (w : WalConsumer) (force elapsed : Bool) :
    (w.maybeFsync fsyncEveryN force elapsed).isOpen = w.isOpen := by
  unfold maybeFsync
  split
  · rfl
  · split <;> rfl

@[simp] theorem append_written (w : WalConsumer) (ev : SequencedEvent) (pad : Padding)
    (elapsed : Bool) :
    (w.append fsyncEveryN ev pad elapsed).written = w.written ++ record ev pad := by
  rw [append, maybeFsync_written]
  simp [written]

@[simp] theorem append_isOpen (w : WalConsumer) (ev : SequencedEvent) (pad : Padding)
    (elapsed : Bool) : (w.append fsyncEveryN ev pad elapsed).isOpen = w.isOpen := by
  rw [append, maybeFsync_isOpen]

@[simp] theorem close_written (w : WalConsumer) : (w.close fsyncEveryN).written = w.written := by
  unfold close
  split
  · exact maybeFsync_written w true false
  · rfl

/-- After `close` nothing is left with the C library. -/
theorem close_buffered {w : WalConsumer} (h : w.isOpen) : (w.close fsyncEveryN).buffered = [] := by
  unfold close
  rw [if_pos h]
  simp [maybeFsync]

end WalConsumer

end HftLob.Pipeline

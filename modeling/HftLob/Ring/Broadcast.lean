import Mathlib.Algebra.Group.Nat.Defs
import HftLob.Lib.Circular
import HftLob.Lib.Machine

/-!
# The broadcast ring

`BroadcastRing<T, Capacity, MaxConsumers>`: one writer, several readers, a cursor
each. A step of the model is one atomic load or store or one access to a slot, so the
runs are the sequentially consistent interleavings of `try_publish`, with its scan of
one cursor at a time, and of the readers' `try_consume`.

A call starts with its first load, and leaves its result in the thread's state until
the next call. Consumers register while fewer than `Capacity` items are published;
one that comes later could find its items overwritten, as the source warns.

Besides the ring, the state keeps what was published and consumed so far, and for
each refused `try_publish` whether every consumer had fewer than `Capacity` unread
items from the start of that call to its end. No step looks at these.
-/

namespace HftLob.Ring

open HftLob.Lib

/-- A `size_t` that is a power of two. -/
structure RingCapacity where
  log2 : Nat
  fits : log2 < 64

def RingCapacity.size (cap : RingCapacity) : Nat := 2 ^ cap.log2

theorem RingCapacity.size_pos (cap : RingCapacity) : 0 < cap.size := Nat.two_pow_pos _

theorem RingCapacity.size_lt (cap : RingCapacity) : cap.size < 2 ^ 64 :=
  Nat.pow_lt_pow_right (by decide) cap.fits

/-- `cursor & kMask`. -/
def slotOf (cap : RingCapacity) (cursor : UInt64) : Nat :=
  (cursor &&& UInt64.ofNat (cap.size - 1)).toNat

theorem slotOf_eq (cap : RingCapacity) (cursor : UInt64) :
    slotOf cap cursor = cursor.toNat % cap.size := by
  have hlt := cap.size_lt
  unfold slotOf
  rw [UInt64.toNat_and, UInt64.toNat_ofNat', Nat.mod_eq_of_lt (by omega)]
  exact Nat.and_two_pow_sub_one_eq_mod _ _

/-- `UINT64_MAX`. -/
def uint64Max : UInt64 := 0xFFFFFFFFFFFFFFFF

/-- Where the writer is in `try_publish`. -/
inductive Writer (T : Type) where
  | idle
  /-- `write_cursor_` is loaded. -/
  | gate (item : T) (write : UInt64)
  /-- The cached minimum is too old; the scan is to load the number of consumers. -/
  | scanCount (item : T) (write : UInt64)
  /-- Of `n` cursors the first `i` are loaded. -/
  | scan (item : T) (write : UInt64) (n i : Nat) (min : UInt64)
  /-- The scan has returned. -/
  | scanned (item : T) (write : UInt64) (freshMin : UInt64)
  | storeSlot (item : T) (write : UInt64)
  | storeCursor (item : T) (write : UInt64)
  | returned (published : Bool)

/-- Where a reader is in `try_consume`. -/
inductive Reader (T : Type) where
  | idle
  /-- Its own cursor is loaded. -/
  | loaded (read : UInt64)
  | copy (read : UInt64)
  | storeCursor (read : UInt64) (out : T)
  | returned (out : Option T)

structure BroadcastRing (T : Type) where
  writeCursor : UInt64
  cachedMin : UInt64
  consumerCount : Nat
  cursors : Nat → UInt64
  slots : Nat → T
  writer : Writer T
  readers : Nat → Reader T
  /-- The items published so far. -/
  published : List T
  /-- What each consumer's successful calls returned. -/
  consumed : Nat → List T
  /-- Nobody was `Capacity` items behind at any time since the writer's call started. -/
  slack : Bool
  /-- `slack` at the end of each call that returned `false`. -/
  refusals : List Bool

inductive RingAction (T : Type) where
  | register
  /-- The writer calls `try_publish`. -/
  | publish (item : T)
  /-- The writer's next step. -/
  | write
  /-- A reader calls `try_consume`. -/
  | consume (id : Nat)
  /-- The reader's next step. -/
  | read (id : Nat)

namespace BroadcastRing

variable {T : Type}

/-- A ring as constructed; the slots are not initialised. -/
def init (slots : Nat → T) : BroadcastRing T where
  writeCursor := 0
  cachedMin := 0
  consumerCount := 0
  cursors := fun _ => 0
  slots := slots
  writer := .idle
  readers := fun _ => .idle
  published := []
  consumed := fun _ => []
  slack := true
  refusals := []

/-- Every registered consumer has fewer than `Capacity` items still to read. -/
def hasSlack (cap : RingCapacity) (r : BroadcastRing T) : Bool :=
  (List.range r.consumerCount).all
    fun id => decide (r.published.length < (r.consumed id).length + cap.size)

def register (cap : RingCapacity) (maxConsumers : Nat) (r : BroadcastRing T) :
    Option (BroadcastRing T) :=
  if r.writeCursor.toNat < cap.size ∧ r.consumerCount < maxConsumers then
    some { r with consumerCount := r.consumerCount + 1 }
  else none

/-- `try_publish` up to the load of `write_cursor_`. -/
def startPublish (r : BroadcastRing T) (item : T) : Option (BroadcastRing T) :=
  match r.writer with
  | .idle | .returned _ => some { r with writer := .gate item r.writeCursor }
  | .gate _ _ | .scanCount _ _ | .scan _ _ _ _ _ | .scanned _ _ _ | .storeSlot _ _
  | .storeCursor _ _ => none

/-- One step of the writer. -/
def writeStep (cap : RingCapacity) (r : BroadcastRing T) : Option (BroadcastRing T) :=
  match r.writer with
  | .idle | .returned _ => none
  | .gate item write =>
      if write - r.cachedMin ≥ UInt64.ofNat cap.size then
        some { r with writer := .scanCount item write }
      else some { r with writer := .storeSlot item write }
  -- `scan_min_consumer_cursor`, one load at a time
  | .scanCount item write =>
      some { r with writer := .scan item write r.consumerCount 0 uint64Max }
  | .scan item write n i min =>
      if i < n then
        let min := if r.cursors i < min then r.cursors i else min
        some { r with writer := .scan item write n (i + 1) min }
      else some { r with writer := .scanned item write (if n = 0 then r.writeCursor else min) }
  | .scanned item write freshMin =>
      if write - freshMin ≥ UInt64.ofNat cap.size then
        some { r with cachedMin := freshMin
                      writer := .returned false
                      refusals := r.refusals ++ [r.slack] }
      else some { r with cachedMin := freshMin, writer := .storeSlot item write }
  | .storeSlot item write =>
      some { r with slots := Function.update r.slots (slotOf cap write) item
                    writer := .storeCursor item write }
  -- the release store that makes the slot visible
  | .storeCursor item write =>
      some { r with writeCursor := write + 1
                    writer := .returned true
                    published := r.published ++ [item] }

/-- `try_consume` up to the load of the consumer's own cursor. -/
def startConsume (r : BroadcastRing T) (id : Nat) : Option (BroadcastRing T) :=
  if id < r.consumerCount then
    match r.readers id with
    | .idle | .returned _ =>
        some { r with readers := Function.update r.readers id (.loaded (r.cursors id)) }
    | .loaded _ | .copy _ | .storeCursor _ _ => none
  else none

/-- One step of a reader. -/
def readStep (cap : RingCapacity) (r : BroadcastRing T) (id : Nat) : Option (BroadcastRing T) :=
  match r.readers id with
  | .idle | .returned _ => none
  | .loaded read =>
      -- the acquire load: what was published before it is in the slots
      if read ≥ r.writeCursor then
        some { r with readers := Function.update r.readers id (.returned none) }
      else some { r with readers := Function.update r.readers id (.copy read) }
  | .copy read =>
      let out := r.slots (slotOf cap read)
      some { r with readers := Function.update r.readers id (.storeCursor read out) }
  | .storeCursor read out =>
      some { r with cursors := Function.update r.cursors id (read + 1)
                    readers := Function.update r.readers id (.returned (some out))
                    consumed := Function.update r.consumed id (r.consumed id ++ [out]) }

def act (cap : RingCapacity) (maxConsumers : Nat) (r : BroadcastRing T) :
    RingAction T → Option (BroadcastRing T)
  | .register => r.register cap maxConsumers
  | .publish item => r.startPublish item
  | .write => r.writeStep cap
  | .consume id => r.startConsume id
  | .read id => r.readStep cap id

/-- Whether `slack` goes on after this action: a new call starts afresh. -/
def slackBefore (r : BroadcastRing T) : RingAction T → Bool
  | .publish _ => true
  | .register | .write | .consume _ | .read _ => r.slack

def step (cap : RingCapacity) (maxConsumers : Nat) (r : BroadcastRing T) (a : RingAction T) :
    Option (BroadcastRing T) :=
  (r.act cap maxConsumers a).map
    fun r' => { r' with slack := r.slackBefore a && r'.hasSlack cap }

end BroadcastRing

end HftLob.Ring

import HftLob.Engine.Sinks
import HftLob.Pipeline.Db
import HftLob.Pipeline.Replay

/-!
# The process with its database

`Process` follows an event from the gateway to the matcher and the log. Here the two paths
that it leaves out are added: the acks, which the matcher pushes into the gateway's queue
and into `fills_`, and the database, whose thread takes requests from the ring and acks
from `fills_`.

A turn of `DbConsumer::run` is a batch from the ring, a batch from `fills_`, and a look at
whether a commit is due; after the turns come a drain of the ring, a drain of `fills_`, and
`close`. The thread's part at the ring is that of the other consumers, and its part at
`fills_` is between its `batchEnd` or `drained` there and what follows.

A statement of SQL succeeds unless the row's key is taken. The file is opened before there
is anything to write to it, so it is open from the start.
-/

namespace HftLob.Pipeline

open HftLob.Lib HftLob.Ring HftLob.Book HftLob.Engine

/-- Where the thread of the database is in its loop over `fills_`. -/
inductive FillsPc where
  /-- About to call `pop` for the ack `i` of this loop. -/
  | call (i : Nat)
  | popping (i : Nat)
  /-- Out of the loop. -/
  | done
  deriving DecidableEq

structure Store (cfg : Config) where
  process : Process cfg
  sinks : Sinks cfg.pool
  db : DbConsumer
  fillsPc : FillsPc

inductive StoreAction where
  | main (started : Bool)
  | push (item : SequencedEvent)
  | produce
  | sequencer (now : Nanos)
  | wal (pad : Padding) (elapsed : Bool)
  /-- The matcher's next step between two calls of `push_ack`. -/
  | matcher
  /-- Its next step in `push_ack`. -/
  | pushAck
  /-- A poll calls `pop` on the gateway's acks, or takes its next step in it. -/
  | drainAcks (call : Bool)
  /-- The next step of the database; `tsNs` is the time on a report that is written, `due`
  whether the batch interval has passed. -/
  | db (due : Bool) (tsNs : UInt64)

/-- What the database's thread does after a step at the ring. -/
def DbConsumer.deals (batchEveryN : Nat) (c : DbConsumer) (due : Bool) : Outcome → DbConsumer
  | .event ev => c.act batchEveryN (.event ev due)
  | .batchEnd => c.act batchEveryN (.poll due)
  | .drained => c.maybeFlush batchEveryN true false -- `close`
  | .quiet => c

namespace Store

variable {cfg : Config}

def init (cfg : Config) (buffers : ProducerId → Nat → SequencedEvent)
    (slots : Nat → SequencedEvent) (acksBuffer fillsBuffer : Nat → OutboundAck)
    (file : Database) : Store cfg where
  process := Process.init cfg buffers slots
  sinks := Sinks.init cfg.pool acksBuffer fillsBuffer
  db := DbConsumer.openFile file
  fillsPc := .call 0

def onProcess (s : Store cfg) (a : ProcessAction) : Option (Store cfg) :=
  (s.process.step a).map fun process => { s with process := process }

def onSinks (s : Store cfg) (a : SinkAction) (fillsPc : FillsPc) : Option (Store cfg) :=
  (s.sinks.step a).map fun sinks => { s with sinks := sinks, fillsPc := fillsPc }

/-- No `pop` of the gateway's acks is under way. -/
def drainDone (s : Store cfg) : Bool :=
  match s.sinks.acks.consumer with
  | .idle | .returned _ => true
  | .loaded _ | .copy _ | .storeTail _ _ => false

def mainStep (s : Store cfg) (started : Bool) : Option (Store cfg) :=
  if s.process.main = .polling ∧ !s.drainDone then none else s.onProcess (.main started)

/-- `apply` returns after the last of its calls of `push_ack`. -/
def matcherStep (s : Store cfg) : Option (Store cfg) :=
  match s.sinks.phase, s.sinks.rest with
  | .idle, [] =>
      (s.process.consumerStep matcherId s.process.matcher).bind fun (c, seq, out) =>
        let process := { s.process with matcher := c, sequencer := seq }.matcherDeals out
        match out with
        | .event ev => (s.sinks.step (.apply ev)).map fun sinks =>
            { s with process := process, sinks := sinks }
        | .quiet | .batchEnd | .drained => some { s with process := process }
  | _, _ => none

/-- `for (int i = 0; i < 32 && fills_.pop(ack); ++i)`, and without the bound in the drain. -/
def nextFill (s : Store cfg) (i : Nat) : FillsPc :=
  if s.process.dbThread.pc = .drained ∨ i + 1 < kMaxBatch then .call (i + 1) else .done

section Db

variable (batchEveryN : Nat)

/-- The next step of the loop over `fills_`. -/
def fillsStep (s : Store cfg) (due : Bool) (tsNs : UInt64) : Option (Store cfg) :=
  match s.fillsPc with
  | .call i => s.onSinks (.drainFills true) (.popping i)
  | .popping i =>
      match s.sinks.fills.consumer.result? with
      | none => s.onSinks (.drainFills false) (.popping i)
      | some none => some { s with fillsPc := .done }
      | some (some ack) =>
          some { s with db := s.db.act batchEveryN (.ack ack tsNs due), fillsPc := s.nextFill i }
  | .done => none

/-- The next step at the ring, or what follows the loop over `fills_`. -/
def ringStep (s : Store cfg) (due : Bool) : Option (Store cfg) :=
  (s.process.consumerStep dbId s.process.dbThread).map fun (c, seq, out) =>
    { s with process := { s.process with dbThread := c, sequencer := seq }
             db := s.db.deals batchEveryN due out
             fillsPc := .call 0 }

/-- The thread is in its loop over `fills_`. -/
def AtFills (s : Store cfg) : Prop :=
  (s.process.dbThread.pc = .batchEnd ∨ s.process.dbThread.pc = .drained) ∧ s.fillsPc ≠ .done

instance (s : Store cfg) : Decidable s.AtFills := inferInstanceAs (Decidable (_ ∧ _))

def dbStep (s : Store cfg) (due : Bool) (tsNs : UInt64) : Option (Store cfg) :=
  if s.AtFills then s.fillsStep batchEveryN due tsNs else s.ringStep batchEveryN due

def step (s : Store cfg) : StoreAction → Option (Store cfg)
  | .main started => s.mainStep started
  | .push item => s.onProcess (.push item)
  | .produce => s.onProcess .produce
  | .sequencer now => s.onProcess (.sequencer now)
  | .wal pad elapsed => s.onProcess (.wal pad elapsed)
  | .matcher => s.matcherStep
  | .pushAck => s.onSinks .push s.fillsPc
  | .drainAcks call =>
      if s.process.main = .polling then s.onSinks (.drainAcks call) s.fillsPc else none
  | .db due tsNs => s.dbStep batchEveryN due tsNs

end Db

end Store

end HftLob.Pipeline

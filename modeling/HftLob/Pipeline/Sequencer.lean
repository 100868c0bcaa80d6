import HftLob.Engine.Inv
import HftLob.Ring.Calls

/-!
# The sequencer

`Sequencer`: one input queue per producer, one output ring, and a thread that moves
events from the ones to the other and stamps them on the way. The thread pops at most
`kMaxBatch` events from a queue before it turns to the next, and tries an event it has
stamped again and again until the ring takes it.

A step of the thread is one step of the call it is in, or what it does between two
calls. The time of the stamp is any value. The number of refused publications and the
pause of an idle pass are left out: nothing reads them.
-/

namespace HftLob.Pipeline

open HftLob.Lib HftLob.Ring

def kMaxBatch : Nat := 32

/-- Where the sequencer's thread is in `run`. -/
inductive SequencerPc where
  /-- Not started. -/
  | ready
  /-- At the condition of the outer loop. -/
  | test
  /-- About to pop the event `i` of this batch from the queue of `p`. -/
  | pop (p : ProducerId) (i : Nat)
  | popping (p : ProducerId) (i : Nat)
  /-- The event is stamped; `try_publish` is under way or has to be looked at. -/
  | publishing (p : ProducerId) (i : Nat) (ev : SequencedEvent)
  /-- `run` has returned. -/
  | returned
  deriving DecidableEq

structure Sequencer where
  inputs : ProducerId → SpscRingBuffer SequencedEvent
  output : BroadcastRing SequencedEvent
  nextSeq : UInt64
  running : Bool
  pc : SequencerPc

inductive SequencerAction where
  /-- A consumer registers at the output ring. -/
  | register
  | start
  /-- The store to `running_` in `stop`. -/
  | stop
  /-- The producer `p` calls `push`. -/
  | push (p : ProducerId) (item : SequencedEvent)
  /-- The producer's next step. -/
  | produce (p : ProducerId)
  /-- The next step of `run`; `now` is what `now_ns` gives if it stamps an event. -/
  | run (now : Nanos)
  /-- A consumer calls `try_consume`. -/
  | consume (id : Nat)
  /-- The consumer's next step. -/
  | read (id : Nat)

namespace Sequencer

def init (buffers : ProducerId → Nat → SequencedEvent) (slots : Nat → SequencedEvent) :
    Sequencer where
  inputs := fun p => SpscRingBuffer.init (buffers p)
  output := BroadcastRing.init slots
  nextSeq := 1
  running := false
  pc := .ready

section Step

variable (capIn capOut : RingCapacity) (maxConsumers : Nat)

def onInput (s : Sequencer) (p : ProducerId) (a : SpscAction SequencedEvent) : Option Sequencer :=
  ((s.inputs p).step capIn a).map fun q => { s with inputs := Function.update s.inputs p q }

def onOutput (s : Sequencer) (a : RingAction SequencedEvent) : Option Sequencer :=
  (s.output.step capOut maxConsumers a).map fun r => { s with output := r }

/-- Where `run` goes when it is done with the queue of `p`. -/
def afterProducer : ProducerId → SequencerPc
  | .gateway => .pop .feedReplay 0
  | .feedReplay => .pop .admin 0
  | .admin => .test

def stamp (s : Sequencer) (p : ProducerId) (now : Nanos) (ev : SequencedEvent) : SequencedEvent :=
  { ev with seqNum := s.nextSeq, sequenceTsNs := now, producer := p }

/-- The next step of `run`. -/
def runStep (s : Sequencer) (now : Nanos) : Option Sequencer :=
  match s.pc with
  | .ready | .returned => none
  | .test => some { s with pc := if s.running then .pop .gateway 0 else .returned }
  | .pop p i => (s.onInput capIn p .pop).map fun s' => { s' with pc := .popping p i }
  | .popping p i =>
      match (s.inputs p).consumer.result? with
      | none => s.onInput capIn p .consume
      | some none => some { s with pc := afterProducer p } -- `break`
      | some (some ev) =>
          (s.onOutput capOut maxConsumers (.publish (s.stamp p now ev))).map fun s' =>
            { s' with nextSeq := s.nextSeq + 1, pc := .publishing p i (s.stamp p now ev) }
  | .publishing p i ev =>
      match s.output.writer.result? with
      | none => s.onOutput capOut maxConsumers .write
      | some false => s.onOutput capOut maxConsumers (.publish ev) -- spin rather than drop
      -- `for (int i = 0; i < kMaxBatch; ++i)`
      | some true =>
          some { s with pc := if i + 1 < kMaxBatch then .pop p (i + 1) else afterProducer p }

def step (s : Sequencer) : SequencerAction → Option Sequencer
  | .register => if s.pc = .ready then s.onOutput capOut maxConsumers .register else none
  | .start => if s.pc = .ready then some { s with running := true, pc := .test } else none
  | .stop => some { s with running := false }
  | .push p item => s.onInput capIn p (.push item)
  | .produce p => s.onInput capIn p .produce
  | .run now => s.runStep capIn capOut maxConsumers now
  | .consume id => s.onOutput capOut maxConsumers (.consume id)
  | .read id => s.onOutput capOut maxConsumers (.read id)

end Step

/-- Behind a producer's turn comes another one, or the test of the loop. -/
theorem afterProducer_ne (p : ProducerId) :
    afterProducer p ≠ .returned ∧ (∀ p' i, afterProducer p ≠ .popping p' i)
      ∧ ∀ p' i ev, afterProducer p ≠ .publishing p' i ev := by
  cases p <;> exact ⟨nofun, nofun, nofun⟩

end Sequencer

/-! ## The events between the queues -/

/-- What the sequencer leaves as it was. -/
def payload (ev : SequencedEvent) : SequencedEvent :=
  { ev with seqNum := 0, sequenceTsNs := 0, producer := .gateway }

namespace Sequencer

/-- The event that is popped and not yet stamped, if it came from `p`. -/
def justPopped (s : Sequencer) (p : ProducerId) : List SequencedEvent :=
  match s.pc with
  | .popping p' _ =>
      if p' = p then
        match (s.inputs p).consumer.result? with
        | some (some ev) => [ev]
        | _ => []
      else []
  | _ => []

/-- The event that is stamped and not yet published. -/
def inHand (s : Sequencer) : List SequencedEvent :=
  match s.pc with
  | .publishing _ _ ev => if s.output.writer.result? = some true then [] else [ev]
  | _ => []

/-- Every event stamped so far. -/
def stamped (s : Sequencer) : List SequencedEvent := s.output.published ++ s.inHand

/-- The `try_publish` under way, if any, is for the event in hand. -/
def WriterBusy (s : Sequencer) : Prop :=
  match s.pc with
  | .publishing _ _ ev => ∀ item, s.output.writer.item? = some item → item = ev
  | _ => s.output.writer.item? = none

end Sequencer

/-- Every event popped is in the stream, or is the one the thread has just popped. -/
structure SequencerInv (capIn capOut : RingCapacity) (s : Sequencer) : Prop where
  input : ∀ p, SpscInv capIn (s.inputs p)
  ring : s.output.published.length < 2 ^ 64 → RingInv capOut s.output
  writer : s.WriterBusy
  numbered : Engine.Stamped s.stamped
  nextSeq : s.nextSeq = UInt64.ofNat (s.stamped.length + 1)
  drained : ∀ p, (s.inputs p).popped.map payload
    = (s.stamped.filter (fun ev => ev.producer = p)).map payload ++ (s.justPopped p).map payload

end HftLob.Pipeline

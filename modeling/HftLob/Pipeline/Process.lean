import HftLob.Pipeline.Consumer
import HftLob.Pipeline.Wal

/-!
# The gateway process

`gateway_main`: the main thread constructs the components, starts them, polls its
connections until it is told to shut down, and then stops the sequencer and each
consumer in turn, where a `stop` clears the flag and joins the thread. Between any two
of its steps the sequencer and the three consumers make theirs.

What a poll does that matters here is `push` into the gateway's input queue, of any
event. Opening the files succeeds. Of the database consumer only its thread is
modelled: it holds up the ring if it is slow, but what it stores is not read back.
-/

namespace HftLob.Pipeline

open HftLob.Lib HftLob.Ring HftLob.Book HftLob.Engine

/-- The template parameters and the default of `fsync_every_n`. -/
structure Config where
  capIn : RingCapacity
  capOut : RingCapacity
  maxConsumers : Nat
  pool : PoolCapacity
  fsyncEveryN : Nat

/-- The consumers' ids, in the order in which `main` constructs them. -/
def matcherId : Nat := 0
def walId : Nat := 1
def dbId : Nat := 2

/-- Where the main thread is. -/
inductive MainPc where
  | registerMatcher
  | registerWal
  | registerDb
  | startWal
  | startDb
  | startMatcher
  | startSequencer
  | startServer
  | polling
  | stopSequencer
  | joinSequencer
  | stopMatcher
  | joinMatcher
  | stopWal
  | joinWal
  | stopDb
  | joinDb
  | done
  deriving DecidableEq

/-- How far the main thread has come. -/
def MainPc.pos : MainPc → Nat
  | .registerMatcher => 0
  | .registerWal => 1
  | .registerDb => 2
  | .startWal => 3
  | .startDb => 4
  | .startMatcher => 5
  | .startSequencer => 6
  | .startServer => 7
  | .polling => 8
  | .stopSequencer => 9
  | .joinSequencer => 10
  | .stopMatcher => 11
  | .joinMatcher => 12
  | .stopWal => 13
  | .joinWal => 14
  | .stopDb => 15
  | .joinDb => 16
  | .done => 17

structure Process (cfg : Config) where
  sequencer : Sequencer
  matcher : ConsumerThread
  engine : MatchingEngineConsumer cfg.pool
  /-- The acks constructed so far. -/
  acks : List OutboundAck
  walThread : ConsumerThread
  wal : WalConsumer
  dbThread : ConsumerThread
  main : MainPc

inductive ProcessAction where
  /-- The main thread's next step; `started` is what `server.start()` returns. -/
  | main (started : Bool)
  /-- A poll calls `push`. -/
  | push (item : SequencedEvent)
  /-- The next step of that call. -/
  | produce
  | sequencer (now : Nanos)
  | matcher
  /-- `pad` and `elapsed` are for a record that is written and a sync that may be due. -/
  | wal (pad : Padding) (elapsed : Bool)
  | db

namespace Process

variable {cfg : Config}

/-- A process on an empty log file. -/
def init (cfg : Config) (buffers : ProducerId → Nat → SequencedEvent)
    (slots : Nat → SequencedEvent) : Process cfg where
  sequencer := Sequencer.init buffers slots
  matcher := ConsumerThread.init
  engine := MatchingEngineConsumer.init cfg.pool
  acks := []
  walThread := ConsumerThread.init
  wal := WalConsumer.init []
  dbThread := ConsumerThread.init
  main := .registerMatcher

/-- A step of the sequencer, after which the main thread is at `main`. -/
def onSequencer (s : Process cfg) (a : SequencerAction) (main : MainPc) : Option (Process cfg) :=
  (s.sequencer.step cfg.capIn cfg.capOut cfg.maxConsumers a).map fun seq =>
    { s with sequencer := seq, main := main }

/-- `join()` waits until the thread has returned. -/
def join (s : Process cfg) (returned : Bool) (main : MainPc) : Option (Process cfg) :=
  if returned then some { s with main := main } else none

/-- No `push` is under way. -/
def pollDone (s : Process cfg) : Bool :=
  match (s.sequencer.inputs .gateway).producer with
  | .idle | .returned _ => true
  | .loaded _ _ | .storeSlot _ _ | .storeHead _ _ => false

def mainStep (s : Process cfg) (started : Bool) : Option (Process cfg) :=
  match s.main with
  | .registerMatcher => s.onSequencer .register .registerWal
  | .registerWal => s.onSequencer .register .registerDb
  | .registerDb => s.onSequencer .register .startWal
  | .startWal => s.walThread.start.map fun c =>
      { s with walThread := c, wal := s.wal.openFile, main := .startDb }
  | .startDb => s.dbThread.start.map fun c => { s with dbThread := c, main := .startMatcher }
  | .startMatcher => s.matcher.start.map fun c => { s with matcher := c, main := .startSequencer }
  | .startSequencer => s.onSequencer .start .startServer
  | .startServer => some { s with main := if started then .polling else .stopSequencer }
  -- `g_shutdown` is set: the loop ends after the poll under way
  | .polling => if s.pollDone then some { s with main := .stopSequencer } else none
  | .stopSequencer => s.onSequencer .stop .joinSequencer
  | .joinSequencer => s.join (s.sequencer.pc = .returned) .stopMatcher
  | .stopMatcher => some { s with matcher := s.matcher.stop, main := .joinMatcher }
  | .joinMatcher => s.join (s.matcher.pc = .returned) .stopWal
  | .stopWal => some { s with walThread := s.walThread.stop, main := .joinWal }
  | .joinWal => s.join (s.walThread.pc = .returned) .stopDb
  | .stopDb => some { s with dbThread := s.dbThread.stop, main := .joinDb }
  | .joinDb => s.join (s.dbThread.pc = .returned) .done
  | .done => none

/-- `apply` for an event, with the acks it constructs. -/
def matcherDeals (s : Process cfg) (out : Outcome) : Process cfg :=
  match out with
  | .event ev =>
      let (engine, acks) := s.engine.apply ev
      { s with engine := engine, acks := s.acks ++ acks }
  | .quiet | .batchEnd | .drained => s

/-- `append` for an event, a sync if one is due after a batch, `close` after the drain. -/
def walDeals (s : Process cfg) (pad : Padding) (elapsed : Bool) (out : Outcome) : Process cfg :=
  match out with
  | .event ev => { s with wal := s.wal.append cfg.fsyncEveryN ev pad elapsed }
  | .batchEnd => { s with wal := s.wal.maybeFsync cfg.fsyncEveryN false elapsed }
  | .drained => { s with wal := s.wal.close cfg.fsyncEveryN }
  | .quiet => s

def consumerStep (s : Process cfg) (id : Nat) (c : ConsumerThread) :
    Option (ConsumerThread × Sequencer × Outcome) :=
  c.step cfg.capIn cfg.capOut cfg.maxConsumers id s.sequencer

def step (s : Process cfg) : ProcessAction → Option (Process cfg)
  | .main started => s.mainStep started
  | .push item =>
      if s.main = .polling then s.onSequencer (.push .gateway item) .polling else none
  | .produce => if s.main = .polling then s.onSequencer (.produce .gateway) .polling else none
  | .sequencer now => s.onSequencer (.run now) s.main
  | .matcher => (s.consumerStep matcherId s.matcher).map fun (c, seq, out) =>
      { s with matcher := c, sequencer := seq }.matcherDeals out
  | .wal pad elapsed => (s.consumerStep walId s.walThread).map fun (c, seq, out) =>
      { s with walThread := c, sequencer := seq }.walDeals pad elapsed out
  | .db => (s.consumerStep dbId s.dbThread).map fun (c, seq, _) =>
      { s with dbThread := c, sequencer := seq }

end Process

end HftLob.Pipeline

import HftLob.Lib.Relational
import HftLob.Types

/-!
# The database consumer

`DbConsumer` writes two tables of one SQLite file: `orders` with a row for every request it
reads from the ring, under the request's sequence number, and `execution_reports` with a row
for every ack it reads from its own queue. Inserts go into a transaction that is committed
every so often, and when the consumer is closed. An insert that fails is only logged.

An integer in the file has 64 bits and a sign. What has 64 bits and none is cast on its way
in, so that a client order id from `2 ^ 63` on is negative there. The cast is one to one.
-/

namespace HftLob.Pipeline

open HftLob.Lib.Relational

/-! ## The file -/

/-- A row of `orders`; `seq_num` is the primary key. -/
structure OrderRow where
  seqNum : Int64
  tsNs : Int64
  eventType : EventType
  sessionId : UInt32
  clientOrderId : Int64
  side : UInt8
  price : UInt32
  quantity : UInt32
  deriving DecidableEq, Repr

/-- A row of `execution_reports`: an ack with a number and the time it was written. -/
structure ReportRow where
  id : Nat
  tsNs : Int64
  sessionId : UInt32
  clientOrderId : Int64
  exchangeOrderId : Int64
  status : ExecStatus
  fillPrice : UInt32
  fillQuantity : UInt32
  leavesQuantity : UInt32
  deriving DecidableEq, Repr

structure Database where
  orders : List OrderRow
  executionReports : List ReportRow
  /-- What `AUTOINCREMENT` has given out last. -/
  lastId : Nat
  deriving DecidableEq, Repr

def orderRow (ev : SequencedEvent) : OrderRow where
  seqNum := ev.seqNum.toInt64
  tsNs := ev.sequenceTsNs.toInt64
  eventType := ev.type
  sessionId := ev.sessionId
  clientOrderId := ev.clientOrderId.toInt64
  side := ev.side
  price := ev.price
  quantity := ev.quantity

def reportRow (id : Nat) (tsNs : UInt64) (ack : OutboundAck) : ReportRow where
  id := id
  tsNs := tsNs.toInt64
  sessionId := ack.sessionId
  clientOrderId := ack.clientOrderId.toInt64
  exchangeOrderId := ack.exchangeOrderId.toInt64
  status := ack.status
  fillPrice := ack.fillPrice
  fillQuantity := ack.fillQuantity
  leavesQuantity := ack.leavesQuantity

/-- The ack that a row is of. -/
def ReportRow.toOutboundAck (r : ReportRow) : OutboundAck where
  sessionId := r.sessionId
  clientOrderId := r.clientOrderId.toUInt64
  exchangeOrderId := r.exchangeOrderId.toUInt64
  status := r.status
  fillPrice := r.fillPrice
  fillQuantity := r.fillQuantity
  leavesQuantity := r.leavesQuantity

@[simp] theorem reportRow_toOutboundAck (id : Nat) (tsNs : UInt64) (ack : OutboundAck) :
    (reportRow id tsNs ack).toOutboundAck = ack := by
  simp [reportRow, ReportRow.toOutboundAck]

theorem toInt64_inj {x y : UInt64} : x.toInt64 = y.toInt64 ↔ x = y := by
  constructor
  · intro h
    rw [← x.toUInt64_toInt64, h, y.toUInt64_toInt64]
  · exact fun h => by rw [h]

theorem toUInt64_eq_iff {x : Int64} {y : UInt64} : x.toUInt64 = y ↔ x = y.toInt64 := by
  rw [← toInt64_inj, x.toInt64_toUInt64]

theorem toInt_toInt64 {x : UInt64} (h : x.toNat < 2 ^ 63) : x.toInt64.toInt = x.toNat := by
  have hbits : 2 * x.toBitVec.toNat < 2 ^ 64 := by
    rw [UInt64.toNat_toBitVec]
    omega
  rw [← Int64.toInt_toBitVec, UInt64.toBitVec_toInt64, BitVec.toInt_eq_toNat_of_lt hbits,
    UInt64.toNat_toBitVec]

namespace Database

def empty : Database := ⟨[], [], 0⟩

/-- `step_checked` logs that the number is taken and goes on. -/
def insertOrder (db : Database) (ev : SequencedEvent) : Database :=
  { db with orders := insertRow OrderRow.seqNum db.orders (orderRow ev) }

def insertReport (db : Database) (ack : OutboundAck) (tsNs : UInt64) : Database :=
  { db with executionReports := db.executionReports ++ [reportRow (db.lastId + 1) tsNs ack]
            lastId := db.lastId + 1 }

end Database

/-! ## The consumer -/

structure DbConsumer where
  /-- What others see of the file. -/
  committed : Database
  /-- What this connection sees, the open transaction included. -/
  working : Database
  inTxn : Bool
  pending : Nat

/-- Something the consumer's thread does; `due` is whether the batch interval has passed. -/
inductive DbAction where
  /-- An event is taken from the ring. -/
  | event (ev : SequencedEvent) (due : Bool)
  /-- An ack is taken from `fills_`, at this time. -/
  | ack (ack : OutboundAck) (tsNs : UInt64) (due : Bool)
  /-- `maybe_flush` at the end of a turn. -/
  | poll (due : Bool)

/-- The events that get a row. -/
def IsRequest (ev : SequencedEvent) : Prop := ev.type = .newOrder ∨ ev.type = .cancelOrder

instance (ev : SequencedEvent) : Decidable (IsRequest ev) := inferInstanceAs (Decidable (_ ∨ _))

namespace DbConsumer

/-- `open`, on what is in the file. -/
def openFile (file : Database) : DbConsumer := ⟨file, file, true, 0⟩

def maybeFlush (batchEveryN : Nat) (force due : Bool) (c : DbConsumer) : DbConsumer :=
  if c.pending = 0 ∧ !force then c
  else if !force ∧ c.pending < batchEveryN ∧ !due then c
  else
    { c with committed := if c.inTxn then c.working else c.committed
             pending := 0
             inTxn := !force }

def appendOrder (batchEveryN : Nat) (c : DbConsumer) (ev : SequencedEvent) (due : Bool) :
    DbConsumer :=
  maybeFlush batchEveryN false due
    { c with working := c.working.insertOrder ev, pending := c.pending + 1 }

def appendExecutionReport (batchEveryN : Nat) (c : DbConsumer) (ack : OutboundAck)
    (tsNs : UInt64) (due : Bool) : DbConsumer :=
  maybeFlush batchEveryN false due
    { c with working := c.working.insertReport ack tsNs, pending := c.pending + 1 }

def act (batchEveryN : Nat) (c : DbConsumer) : DbAction → DbConsumer
  | .event ev due => if IsRequest ev then c.appendOrder batchEveryN ev due else c
  | .ack ack tsNs due => c.appendExecutionReport batchEveryN ack tsNs due
  | .poll due => c.maybeFlush batchEveryN false due

/-- The thread from `open` to `close`: what is in the file then. -/
def session (batchEveryN : Nat) (file : Database) (actions : List DbAction) : Database :=
  (maybeFlush batchEveryN true false (actions.foldl (act batchEveryN) (openFile file))).committed

end DbConsumer

/-! ## What a session leaves in the file -/

/-- What an action does to the tables, committed or not. -/
def Database.apply (db : Database) : DbAction → Database
  | .event ev _ => if IsRequest ev then db.insertOrder ev else db
  | .ack ack tsNs _ => db.insertReport ack tsNs
  | .poll _ => db

theorem DbConsumer.maybeFlush_working (n : Nat) (force due : Bool) (c : DbConsumer) :
    (c.maybeFlush n force due).working = c.working := by
  unfold maybeFlush
  split
  · rfl
  · split <;> rfl

theorem DbConsumer.maybeFlush_inTxn (n : Nat) (due : Bool) {c : DbConsumer} (h : c.inTxn = true) :
    (c.maybeFlush n false due).inTxn = true := by
  unfold maybeFlush
  split
  · exact h
  · split
    · exact h
    · rfl

theorem DbConsumer.act_working (n : Nat) (c : DbConsumer) (a : DbAction) :
    (c.act n a).working = c.working.apply a := by
  cases a with
  | event ev due =>
      dsimp only [act, Database.apply]
      split
      · exact maybeFlush_working n false due _
      · rfl
  | ack ack tsNs due => exact maybeFlush_working n false due _
  | poll due => exact maybeFlush_working n false due c

theorem DbConsumer.act_inTxn (n : Nat) {c : DbConsumer} (a : DbAction) (h : c.inTxn = true) :
    (c.act n a).inTxn = true := by
  cases a with
  | event ev due =>
      dsimp only [act]
      split
      · exact maybeFlush_inTxn n due h
      · exact h
  | ack ack tsNs due => exact maybeFlush_inTxn n due h
  | poll due => exact maybeFlush_inTxn n due h

/-- **Batching loses nothing**: when the consumer is closed, all its inserts are in the file,
whenever it committed. -/
theorem DbConsumer.session_eq (n : Nat) (file : Database) (actions : List DbAction) :
    session n file actions = actions.foldl Database.apply file := by
  have hrun : ∀ (actions : List DbAction) (c : DbConsumer), c.inTxn = true →
      (actions.foldl (act n) c).working = actions.foldl Database.apply c.working
        ∧ (actions.foldl (act n) c).inTxn = true := by
    intro actions
    induction actions with
    | nil => exact fun c h => ⟨rfl, h⟩
    | cons a actions ih =>
        intro c h
        rw [List.foldl_cons, List.foldl_cons, ← act_working n c a]
        exact ih _ (act_inTxn n a h)
  obtain ⟨hworking, hinTxn⟩ := hrun actions (openFile file) rfl
  rw [session, maybeFlush, if_neg (by simp), if_neg (by simp), hinTxn]
  exact hworking

/-! ## The tables after a list of actions -/

def DbAction.event? : DbAction → Option SequencedEvent
  | .event ev _ => some ev
  | .ack _ _ _ | .poll _ => none

def DbAction.ack? : DbAction → Option OutboundAck
  | .ack a _ _ => some a
  | .event _ _ | .poll _ => none

/-- The rows that a list of events offers to the table. -/
def requestRows (events : List SequencedEvent) : List OrderRow :=
  (events.filter fun ev => decide (IsRequest ev)).map orderRow

theorem requestRows_cons (ev : SequencedEvent) (events : List SequencedEvent) :
    requestRows (ev :: events)
      = if IsRequest ev then orderRow ev :: requestRows events else requestRows events := by
  by_cases h : IsRequest ev <;> simp [requestRows, h]

theorem mem_requestRows {events : List SequencedEvent} {o : OrderRow} :
    o ∈ requestRows events ↔ ∃ ev ∈ events, IsRequest ev ∧ orderRow ev = o := by
  simp [requestRows, and_assoc]

theorem orders_foldl_apply (actions : List DbAction) (db : Database) :
    (actions.foldl Database.apply db).orders
      = insertAll OrderRow.seqNum db.orders (requestRows (actions.filterMap DbAction.event?)) := by
  induction actions generalizing db with
  | nil => rfl
  | cons a actions ih =>
      rw [List.foldl_cons, ih]
      cases a with
      | event ev due =>
          have hcons : (DbAction.event ev due :: actions).filterMap DbAction.event?
              = ev :: actions.filterMap DbAction.event? := rfl
          rw [hcons, requestRows_cons, Database.apply]
          split <;> rfl
      | ack ack tsNs due => rfl
      | poll due => rfl

theorem reports_foldl_apply (actions : List DbAction) (db : Database) :
    (actions.foldl Database.apply db).executionReports.map ReportRow.toOutboundAck
      = db.executionReports.map ReportRow.toOutboundAck ++ actions.filterMap DbAction.ack? := by
  induction actions generalizing db with
  | nil => simp
  | cons a actions ih =>
      rw [List.foldl_cons, ih]
      cases a with
      | event ev due =>
          rw [List.filterMap_cons_none rfl, Database.apply]
          split <;> rfl
      | ack ack tsNs due =>
          simp [Database.apply, Database.insertReport, DbAction.ack?]
      | poll due => rfl

/-- Reports are numbered as they come. -/
structure Numbered (db : Database) : Prop where
  ids : db.executionReports.Pairwise fun r r' => r.id < r'.id
  last : ∀ r ∈ db.executionReports, r.id ≤ db.lastId

theorem numbered_empty : Numbered .empty := ⟨List.Pairwise.nil, by simp [Database.empty]⟩

theorem Numbered.apply {db : Database} (h : Numbered db) (a : DbAction) :
    Numbered (db.apply a) := by
  cases a with
  | event ev due =>
      dsimp only [Database.apply]
      split
      · exact ⟨h.ids, h.last⟩
      · exact h
  | ack ack tsNs due =>
      dsimp only [Database.apply, Database.insertReport]
      constructor
      · rw [List.pairwise_append]
        refine ⟨h.ids, List.pairwise_singleton _ _, fun r hr r' hr' => ?_⟩
        rw [List.mem_singleton.mp hr']
        exact Nat.lt_succ_of_le (h.last r hr)
      · intro r hr
        rcases List.mem_append.mp hr with hr | hr
        · exact Nat.le_succ_of_le (h.last r hr)
        · rw [List.mem_singleton.mp hr]
          exact Nat.le_refl _
  | poll due => exact h

theorem Numbered.foldl {db : Database} (h : Numbered db) (actions : List DbAction) :
    Numbered (actions.foldl Database.apply db) := by
  induction actions generalizing db with
  | nil => exact h
  | cons a actions ih => exact ih (h.apply a)

end HftLob.Pipeline

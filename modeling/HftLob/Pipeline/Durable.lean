import HftLob.Lib.Batch
import HftLob.Pipeline.Db
import HftLob.Pipeline.Wal

/-!
# What a crash loses

Both consumers write in batches, by the same policy: `maybe_fsync` and `maybe_flush` are
written out twice in the source, with other names. Each is a `Batch` of its own records,
whatever the clock says: the log of the records it writes, the database of the rows it
inserts. What `Batch` knows of a crash is then true of both.

With one exception. `append_order` counts its row whether or not the table took it, and the
table does not take a second row under a sequence number that it has. Such a row is missing
at every later point, also once the file is closed.
-/

namespace HftLob.Pipeline

open HftLob.Lib HftLob.Lib.Relational

/-! ## The log -/

/-- A call to a `WalConsumer` that is open; `elapsed` is whether the interval has passed. -/
inductive WalCall where
  | append (ev : SequencedEvent) (pad : Padding) (elapsed : Bool)
  | maybeFsync (force elapsed : Bool)

def WalCall.toBatch : WalCall → Batch.Call (SequencedEvent × Padding)
  | .append ev pad elapsed => .append (ev, pad) elapsed
  | .maybeFsync force elapsed => .flush force elapsed

namespace WalConsumer

def call (n : Nat) (w : WalConsumer) : WalCall → WalConsumer
  | .append ev pad elapsed => w.append n ev pad elapsed
  | .maybeFsync force elapsed => w.maybeFsync n force elapsed

/-- The calls in turn, on a file that was opened with this in it. -/
def run (n : Nat) (file : List UInt8) (calls : List WalCall) : WalConsumer :=
  calls.foldl (call n) (init file).openFile

end WalConsumer

/-- The bytes of some records. -/
def bytesOf (records : List (SequencedEvent × Padding)) : List UInt8 :=
  records.flatMap fun r => record r.1 r.2

theorem bytesOf_append (records records' : List (SequencedEvent × Padding)) :
    bytesOf (records ++ records') = bytesOf records ++ bytesOf records' := List.flatMap_append

theorem isLog_bytesOf (records : List (SequencedEvent × Padding)) :
    IsLog (records.map Prod.fst) (bytesOf records) := by
  refine ⟨records.map Prod.snd, by rw [List.length_map, List.length_map], ?_⟩
  rw [List.zipWith_map, List.zipWith_self]
  rfl

/-- The consumer holds a batch of records, behind what was in the file. -/
structure WalHolds (file : List UInt8) (w : WalConsumer) (b : Batch (SequencedEvent × Padding)) :
    Prop where
  file : w.file = file ++ bytesOf b.durable
  buffered : w.buffered = bytesOf b.pending
  count : w.unsyncedCount = b.pending.length
  isOpen : w.isOpen = true

theorem WalConsumer.maybeFsync_eq (n : Nat) (w : WalConsumer) (force elapsed : Bool) :
    w.maybeFsync n force elapsed
      = if Batch.Due n force elapsed w.unsyncedCount then
          { w with file := w.file ++ w.buffered, buffered := [], unsyncedCount := 0 }
        else w := by
  unfold maybeFsync
  simp only [Bool.not_eq_true]
  exact Batch.ite_due _ _

section Wal

variable {file : List UInt8} {w : WalConsumer} {b : Batch (SequencedEvent × Padding)}

theorem WalHolds.maybeFsync (h : WalHolds file w b) (n : Nat) (force elapsed : Bool) :
    WalHolds file (w.maybeFsync n force elapsed) (b.flush n force elapsed) := by
  obtain ⟨hfile, hbuffered, hcount, hopen⟩ := h
  rw [WalConsumer.maybeFsync_eq, Batch.flush, hcount]
  split
  · refine ⟨?_, rfl, rfl, hopen⟩
    dsimp only
    rw [hfile, hbuffered, bytesOf_append, List.append_assoc]
  · exact ⟨hfile, hbuffered, hcount, hopen⟩

theorem WalHolds.call (h : WalHolds file w b) (n : Nat) (c : WalCall) :
    WalHolds file (w.call n c) (b.call n c.toBatch) := by
  cases c with
  | append ev pad elapsed =>
      have hwritten : WalHolds file { w with
          buffered := w.buffered ++ record ev pad, recordsWritten := w.recordsWritten + 1,
          unsyncedCount := w.unsyncedCount + 1 } ⟨b.durable, b.pending ++ [(ev, pad)]⟩ := by
        refine ⟨h.file, ?_, ?_, h.isOpen⟩
        · dsimp only
          rw [bytesOf_append, h.buffered]
          exact congrArg _ (List.append_nil _).symm
        · dsimp only
          rw [List.length_append, h.count]
          rfl
      exact hwritten.maybeFsync n false elapsed
  | maybeFsync force elapsed => exact h.maybeFsync n force elapsed

/-- **The log is a batch of its records.** -/
theorem WalHolds.run (n : Nat) (file : List UInt8) (calls : List WalCall) :
    WalHolds file (WalConsumer.run n file calls) (Batch.run n (calls.map WalCall.toBatch)) := by
  rw [Batch.run, List.foldl_map]
  refine List.foldl_rel (r := WalHolds file) ⟨(List.append_nil file).symm, rfl, rfl, rfl⟩ ?_
  exact fun c _ w b h => h.call n c

end Wal

/-- The events of the calls. -/
def loggedEvents (calls : List WalCall) : List SequencedEvent :=
  calls.filterMap fun
    | .append ev _ _ => some ev
    | .maybeFsync _ _ => none

theorem loggedEvents_eq (calls : List WalCall) :
    (Batch.appended (calls.map WalCall.toBatch)).map Prod.fst = loggedEvents calls := by
  rw [Batch.appended, List.filterMap_map, List.map_filterMap]
  refine congrArg (fun f => List.filterMap f calls) (funext fun c => ?_)
  cases c <;> rfl

/-- Behind what was in the file is a log of the first events, and less than a batch of the
others is missing. -/
def LogDurable (n : Nat) (file : List UInt8) (events : List SequencedEvent) (w : WalConsumer) :
    Prop :=
  ∃ kept log, kept <+: events ∧ events.length < kept.length + max 1 n
    ∧ IsLog kept log ∧ w.file = file ++ log

/-- At every crash point between the calls, and once the file is closed. -/
structure LogSafe (n : Nat) (file : List UInt8) (calls : List WalCall) : Prop where
  crash : ∀ done, done <+: calls →
    LogDurable n file (loggedEvents done) (WalConsumer.run n file done)
  closed : ∃ log, IsLog (loggedEvents calls) log
    ∧ ((WalConsumer.run n file calls).close n).file = file ++ log

theorem logSafe (n : Nat) (file : List UInt8) (calls : List WalCall) : LogSafe n file calls := by
  constructor
  · intro done _
    have hholds := WalHolds.run n file done
    obtain ⟨hkept, hmissing⟩ := Batch.run_durable (n := n) (done.map WalCall.toBatch)
    refine ⟨_, _, ?_, ?_, isLog_bytesOf _, hholds.file⟩
    · rw [← loggedEvents_eq]
      exact hkept.map Prod.fst
    · rw [← loggedEvents_eq, List.length_map, List.length_map]
      exact hmissing
  · have hholds := WalHolds.run n file calls
    have hclosed := (hholds.maybeFsync n true false).file
    rw [Batch.flush_forced, Batch.run_written] at hclosed
    refine ⟨_, loggedEvents_eq calls ▸ isLog_bytesOf _, ?_⟩
    rw [WalConsumer.close, if_pos hholds.isOpen]
    exact hclosed

/-! ## The database -/

inductive DbRecord where
  | order (ev : SequencedEvent)
  /-- An ack, and the time at which it is written. -/
  | report (ack : OutboundAck) (tsNs : UInt64)

/-- A call to a `DbConsumer` that is open; `due` is whether the interval has passed. Only
`close` forces a flush. -/
inductive DbCall where
  | append (r : DbRecord) (due : Bool)
  | maybeFlush (due : Bool)

def DbCall.toBatch : DbCall → Batch.Call DbRecord
  | .append r due => .append r due
  | .maybeFlush due => .flush false due

def Database.insert (db : Database) : DbRecord → Database
  | .order ev => db.insertOrder ev
  | .report ack tsNs => db.insertReport ack tsNs

namespace DbConsumer

def call (n : Nat) (c : DbConsumer) : DbCall → DbConsumer
  | .append (.order ev) due => c.appendOrder n ev due
  | .append (.report ack tsNs) due => c.appendExecutionReport n ack tsNs due
  | .maybeFlush due => c.maybeFlush n false due

/-- The calls in turn, on a file that was opened with this in it. -/
def run (n : Nat) (file : Database) (calls : List DbCall) : DbConsumer :=
  calls.foldl (call n) (openFile file)

def close (n : Nat) (c : DbConsumer) : DbConsumer := c.maybeFlush n true false

theorem maybeFlush_eq (n : Nat) (force due : Bool) (c : DbConsumer) :
    c.maybeFlush n force due
      = if Batch.Due n force due c.pending then
          { c with committed := if c.inTxn then c.working else c.committed
                   pending := 0
                   inTxn := !force }
        else c := by
  unfold maybeFlush
  simp only [Bool.not_eq_true']
  exact Batch.ite_due _ _

end DbConsumer

/-- The consumer holds a batch of records, on top of what was in the file, with the
transaction open. -/
structure DbHolds (file : Database) (c : DbConsumer) (b : Batch DbRecord) : Prop where
  committed : c.committed = b.durable.foldl Database.insert file
  working : c.working = (b.durable ++ b.pending).foldl Database.insert file
  count : c.pending = b.pending.length
  inTxn : c.inTxn = true

section Db

variable {file : Database} {c : DbConsumer} {b : Batch DbRecord}

theorem DbHolds.maybeFlush (h : DbHolds file c b) (n : Nat) (due : Bool) :
    DbHolds file (c.maybeFlush n false due) (b.flush n false due) := by
  obtain ⟨hcommitted, hworking, hcount, hinTxn⟩ := h
  rw [DbConsumer.maybeFlush_eq, Batch.flush, hcount, if_pos hinTxn]
  split
  · refine ⟨hworking, ?_, rfl, rfl⟩
    rw [List.append_nil]
    exact hworking
  · exact ⟨hcommitted, hworking, hcount, hinTxn⟩

theorem DbHolds.close (h : DbHolds file c b) (n : Nat) :
    (c.close n).committed = (b.durable ++ b.pending).foldl Database.insert file := by
  have hdue : Batch.Due n true false c.pending := Or.inl rfl
  rw [DbConsumer.close, DbConsumer.maybeFlush_eq, if_pos hdue, if_pos h.inTxn]
  exact h.working

/-- An insert, up to the flush that follows it. -/
theorem DbHolds.insert (h : DbHolds file c b) (r : DbRecord) :
    DbHolds file { c with working := c.working.insert r, pending := c.pending + 1 }
      ⟨b.durable, b.pending ++ [r]⟩ := by
  refine ⟨h.committed, ?_, ?_, h.inTxn⟩
  · dsimp only
    rw [h.working, ← List.append_assoc, List.foldl_concat]
  · dsimp only
    rw [List.length_append, h.count]
    rfl

theorem DbHolds.call (h : DbHolds file c b) (n : Nat) (a : DbCall) :
    DbHolds file (c.call n a) (b.call n a.toBatch) := by
  cases a with
  | append r due =>
      cases r with
      | order ev => exact (h.insert (.order ev)).maybeFlush n due
      | report ack tsNs => exact (h.insert (.report ack tsNs)).maybeFlush n due
  | maybeFlush due => exact h.maybeFlush n due

/-- **The database is a batch of its inserts.** -/
theorem DbHolds.run (n : Nat) (file : Database) (calls : List DbCall) :
    DbHolds file (DbConsumer.run n file calls) (Batch.run n (calls.map DbCall.toBatch)) := by
  rw [Batch.run, List.foldl_map]
  refine List.foldl_rel (r := DbHolds file) ⟨rfl, rfl, rfl, rfl⟩ ?_
  exact fun a _ c b h => h.call n a

end Db

/-! ## Rows -/

/-- The rows that the records offer to `orders`. -/
def orderRows (records : List DbRecord) : List OrderRow :=
  records.filterMap fun
    | .order ev => some (orderRow ev)
    | .report _ _ => none

/-- The acks that the records have for `execution_reports`, with their times as the file has
them. -/
def reportRows (records : List DbRecord) : List (OutboundAck × Int64) :=
  records.filterMap fun
    | .order _ => none
    | .report ack tsNs => some (ack, tsNs.toInt64)

/-- Both tables have a row for each of the records, in their order, behind what was there. -/
structure HasRows (file : Database) (records : List DbRecord) (db : Database) : Prop where
  orders : db.orders = file.orders ++ orderRows records
  reports : db.executionReports.map (fun r => (r.toOutboundAck, r.tsNs))
    = file.executionReports.map (fun r => (r.toOutboundAck, r.tsNs)) ++ reportRows records

theorem orders_foldl_insert (records : List DbRecord) (file : Database) :
    (records.foldl Database.insert file).orders
      = insertAll OrderRow.seqNum file.orders (orderRows records) := by
  induction records generalizing file with
  | nil => rfl
  | cons r records ih =>
      rw [List.foldl_cons, ih]
      cases r <;> rfl

theorem reports_foldl_insert (records : List DbRecord) (file : Database) :
    (records.foldl Database.insert file).executionReports.map (fun r => (r.toOutboundAck, r.tsNs))
      = file.executionReports.map (fun r => (r.toOutboundAck, r.tsNs)) ++ reportRows records := by
  induction records generalizing file with
  | nil => exact (List.append_nil _).symm
  | cons r records ih =>
      rw [List.foldl_cons, ih]
      cases r with
      | order ev => rfl
      | report ack tsNs =>
          have htsNs : (reportRow (file.lastId + 1) tsNs ack).tsNs = tsNs.toInt64 := rfl
          simp [Database.insert, Database.insertReport, reportRows, htsNs]

/-- **Every record gets its row exactly if no sequence number is taken.** -/
theorem hasRows_foldl_iff (records : List DbRecord) (file : Database) :
    HasRows file records (records.foldl Database.insert file)
      ↔ FreshKeys OrderRow.seqNum file.orders (orderRows records) := by
  rw [← insertAll_eq_append_iff, ← orders_foldl_insert]
  exact ⟨HasRows.orders, fun h => ⟨h, reports_foldl_insert records file⟩⟩

def insertedRecords (calls : List DbCall) : List DbRecord :=
  calls.filterMap fun
    | .append r _ => some r
    | .maybeFlush _ => none

theorem insertedRecords_eq (calls : List DbCall) :
    Batch.appended (calls.map DbCall.toBatch) = insertedRecords calls := by
  rw [Batch.appended, List.filterMap_map]
  refine congrArg (fun f => List.filterMap f calls) (funext fun c => ?_)
  cases c <;> rfl

/-- The committed rows are those of the first records, and less than a batch of the others is
missing. -/
def RowsDurable (n : Nat) (file : Database) (records : List DbRecord) (c : DbConsumer) : Prop :=
  ∃ kept, kept <+: records ∧ records.length < kept.length + max 1 n
    ∧ HasRows file kept c.committed

/-- At every crash point between the calls, and once the file is closed. -/
structure RowsSafe (n : Nat) (file : Database) (calls : List DbCall) : Prop where
  crash : ∀ done, done <+: calls →
    (DbConsumer.run n file done).inTxn = true
      ∧ RowsDurable n file (insertedRecords done) (DbConsumer.run n file done)
  closed : HasRows file (insertedRecords calls) ((DbConsumer.run n file calls).close n).committed

/-- No call of `append_order` has a sequence number that is in `orders` by then. -/
def NumbersFresh (file : Database) (calls : List DbCall) : Prop :=
  FreshKeys OrderRow.seqNum file.orders (orderRows (insertedRecords calls))

theorem rowsSafe_iff (n : Nat) (file : Database) (calls : List DbCall) :
    RowsSafe n file calls ↔ NumbersFresh file calls := by
  have hclosed : ((DbConsumer.run n file calls).close n).committed
      = (insertedRecords calls).foldl Database.insert file := by
    rw [(DbHolds.run n file calls).close, Batch.run_written, insertedRecords_eq]
  constructor
  · intro h
    have hall := h.closed
    rw [hclosed] at hall
    exact (hasRows_foldl_iff _ file).mp hall
  · intro h
    refine ⟨fun done hdone => ?_, hclosed ▸ (hasRows_foldl_iff _ file).mpr h⟩
    have hholds := DbHolds.run n file done
    obtain ⟨hkept, hmissing⟩ := Batch.run_durable (n := n) (done.map DbCall.toBatch)
    rw [insertedRecords_eq] at hkept hmissing
    refine ⟨hholds.inTxn, _, hkept, hmissing, ?_⟩
    rw [hholds.committed]
    refine (hasRows_foldl_iff _ file).mpr (h.of_sublist ?_)
    have hsub : (Batch.run n (done.map DbCall.toBatch)).durable.Sublist (insertedRecords calls) :=
      hkept.sublist.trans (hdone.sublist.filterMap _)
    exact hsub.filterMap _

/--
**A crash loses less than a batch from the end, and closing loses nothing**: of the log
always, and of the database exactly if no sequence number comes twice. For every batch
size, every behaviour of the clock, every further call and every point between the calls;
and while the database is open, its transaction is.
-/
theorem bounded_loss_iff (fsyncEveryN : Nat) (logFile : List UInt8) (walCalls : List WalCall)
    (batchEveryN : Nat) (file : Database) (dbCalls : List DbCall) :
    LogSafe fsyncEveryN logFile walCalls ∧ RowsSafe batchEveryN file dbCalls
      ↔ NumbersFresh file dbCalls := by
  rw [rowsSafe_iff]
  exact ⟨And.right, fun h => ⟨logSafe fsyncEveryN logFile walCalls, h⟩⟩

/-- An event of the sequencer's first number, after each start of the program. -/
def firstRequest (clientOrderId : UInt64) : SequencedEvent :=
  { seqNum := 1, ingressTsNs := 0, sequenceTsNs := 0, type := .newOrder, producer := .gateway,
    sessionId := 5, clientOrderId := clientOrderId, side := 0, price := 100, quantity := 10 }

/-- The program runs twice on one file, and each run has an order: the second is not in the
file when both are closed. -/
theorem restarted_order_missing :
    let first := ((DbConsumer.run 256 .empty
      [.append (.order (firstRequest 1)) false]).close 256).committed
    let second := ((DbConsumer.run 256 first
      [.append (.order (firstRequest 2)) false]).close 256).committed
    second.orders = [orderRow (firstRequest 1)]
      ∧ ¬ HasRows first [.order (firstRequest 2)] second := by
  intro first second
  have horders : second.orders = [orderRow (firstRequest 1)] := by decide
  have hfirst : first.orders = [orderRow (firstRequest 1)] := by decide
  refine ⟨horders, fun hrows => ?_⟩
  have hlen := congrArg List.length hrows.orders
  rw [horders, hfirst] at hlen
  exact absurd hlen (by decide)

end HftLob.Pipeline

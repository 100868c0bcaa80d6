import HftLob.Engine.Inv
import HftLob.Pipeline.Db
import HftLob.Pipeline.Replay
import Mathlib.Data.List.Sort

/-!
# The order history

`HISTORY_QUERY` of the bridge reads the file that the database consumer of the gateway
writes: one row for each new order, joined with the latest report under its exchange id, which
is the sequence number of the order. The file outlives the gateway, but the numbers do not:
every run has a sequencer of its own, which starts with one again.

So the history of several runs over one file is right exactly if no new order has a number
that an earlier run has used (`history_shows_each_fate_iff`).
-/

namespace HftLob.Bridge

open HftLob.Engine HftLob.Pipeline HftLob.Lib.Relational

/-! ## The query -/

/-- The columns that come from a report. -/
structure Execution where
  exchangeOrderId : Int64
  status : ExecStatus
  fillPrice : UInt32
  fillQuantity : UInt32
  leavesQuantity : UInt32
  deriving DecidableEq, Repr

def ReportRow.execution (r : ReportRow) : Execution :=
  ⟨r.exchangeOrderId, r.status, r.fillPrice, r.fillQuantity, r.leavesQuantity⟩

/-- What the row of an ack has in them. -/
def execution (ack : OutboundAck) : Execution :=
  ⟨ack.exchangeOrderId.toInt64, ack.status, ack.fillPrice, ack.fillQuantity, ack.leavesQuantity⟩

theorem execution_toOutboundAck (r : ReportRow) :
    execution r.toOutboundAck = ReportRow.execution r := by
  simp [execution, ReportRow.toOutboundAck, ReportRow.execution]

/-- An order and what has become of it; nulls if there is no report. -/
structure Fate where
  seqNum : Int64
  sessionId : UInt32
  clientOrderId : Int64
  side : UInt8
  price : UInt32
  quantity : UInt32
  execution : Option Execution
  deriving DecidableEq, Repr

structure HistoryRow extends Fate where
  tsNs : Int64
  deriving DecidableEq, Repr

/-- The columns of the `SELECT`. -/
def historyRow (o : OrderRow) (e : Option ReportRow) : HistoryRow where
  seqNum := o.seqNum
  sessionId := o.sessionId
  clientOrderId := o.clientOrderId
  side := o.side
  price := o.price
  quantity := o.quantity
  execution := e.map ReportRow.execution
  tsNs := match e with
    | some r => r.tsNs
    | none => o.tsNs -- `COALESCE`

/-- The rows of `execution_reports` that the subquery numbers. -/
def reportsWithId (db : Database) : List ReportRow :=
  db.executionReports.filter fun r => r.exchangeOrderId ≠ 0

/-- `HISTORY_QUERY` without its `LIMIT`. -/
def historyQuery (db : Database) : List HistoryRow :=
  let joined := leftJoin db.orders (reportsWithId db) fun o r =>
    r.exchangeOrderId = o.seqNum
      ∧ rowNumberDesc (fun r : ReportRow => r.exchangeOrderId) ReportRow.id (reportsWithId db) r = 1
  ((joined.filter fun p => p.1.eventType = .newOrder).map fun p => historyRow p.1 p.2).insertionSort
    fun a b => b.seqNum ≤ a.seqNum

/-- The order rows that are shown. -/
def newOrderRows (db : Database) : List OrderRow :=
  db.orders.filter fun o => o.eventType = .newOrder

/-- The latest report under an exchange id other than zero. -/
def latestReport (x : Int64) (db : Database) : Option ReportRow :=
  ((reportsWithId db).filter fun r => r.exchangeOrderId = x).getLast?

/-- **What the query computes**: each new order with its latest report. -/
theorem historyQuery_perm {db : Database} (h : Numbered db) :
    (historyQuery db).Perm
      ((newOrderRows db).map fun o => historyRow o (latestReport o.seqNum db)) := by
  have hids : (reportsWithId db).Pairwise fun r r' => r.id < r'.id := h.ids.filter _
  have hmatching : ∀ o : OrderRow, (reportsWithId db).filter
      (fun r => r.exchangeOrderId = o.seqNum ∧ rowNumberDesc (fun r : ReportRow =>
        r.exchangeOrderId) ReportRow.id (reportsWithId db) r = 1)
      = (latestReport o.seqNum db).toList :=
    fun o => filter_rowNumberDesc_one hids o.seqNum
  unfold historyQuery
  dsimp only
  refine (List.perm_insertionSort _ _).trans (List.Perm.of_eq ?_)
  rw [leftJoin_eq_map hmatching, List.filter_map, List.map_map]
  rfl

/-- The report of an order is its latest ack. -/
theorem latestReport_ack {db : Database} {x : UInt64} (hx : x ≠ 0) :
    (latestReport x.toInt64 db).map ReportRow.toOutboundAck
      = latestAck x (db.executionReports.map ReportRow.toOutboundAck) := by
  have hx : x.toInt64 ≠ 0 := fun hzero => hx (toInt64_inj.mp hzero)
  have hsame : (reportsWithId db).filter (fun r => r.exchangeOrderId = x.toInt64)
      = db.executionReports.filter fun r => r.toOutboundAck.exchangeOrderId = x := by
    rw [reportsWithId, List.filter_filter]
    refine List.filter_congr fun r _ => ?_
    have hid : r.toOutboundAck.exchangeOrderId = x ↔ r.exchangeOrderId = x.toInt64 :=
      toUInt64_eq_iff
    by_cases hr : r.exchangeOrderId = x.toInt64
    · simp [hid, hr, hx]
    · simp [hid, hr]
  rw [latestReport, hsame, latestAck, acksOf, List.filter_map, List.getLast?_map]
  rfl

/-! ## Orders and what has become of them -/

/-- The order of an event, and the last that some acks say of it. -/
def fateAmong (acks : List OutboundAck) (ev : SequencedEvent) : Fate where
  seqNum := ev.seqNum.toInt64
  sessionId := ev.sessionId
  clientOrderId := ev.clientOrderId.toInt64
  side := ev.side
  price := ev.price
  quantity := ev.quantity
  execution := (latestAck ev.seqNum acks).map execution

def newOrdersOf (events : List SequencedEvent) : List SequencedEvent :=
  events.filter fun ev => ev.type = .newOrder

theorem requestRows_newOrders (events : List SequencedEvent) :
    (requestRows events).filter (fun o => o.eventType = .newOrder)
      = (newOrdersOf events).map orderRow := by
  rw [requestRows, List.filter_map, newOrdersOf, List.filter_filter]
  congr 1
  refine List.filter_congr fun ev _ => ?_
  by_cases hnew : ev.type = .newOrder
  · simp [orderRow, hnew, IsRequest]
  · simp [orderRow, hnew]

/-- The row of an order is its fate if it is joined with its latest ack. -/
theorem historyRow_toFate {acks : List OutboundAck} {ev : SequencedEvent} {e : Option ReportRow}
    (h : e.map ReportRow.toOutboundAck = latestAck ev.seqNum acks) :
    (historyRow (orderRow ev) e).toFate = fateAmong acks ev := by
  have hexecution : e.map ReportRow.execution = (latestAck ev.seqNum acks).map execution := by
    rw [← h, Option.map_map]
    exact congrFun (congrArg Option.map (funext fun r => (execution_toOutboundAck r).symm)) e
  simp only [historyRow, orderRow, fateAmong, hexecution]

/-! ## Runs of the gateway over one file -/

/-- One run of the gateway: what its sequencer published, what a fresh engine answers to
that, and what its database consumer did, which in the end has read all of both. The two
come over different queues, so they are mixed in any way. -/
structure GatewayRun (cap : Book.PoolCapacity) where
  events : List SequencedEvent
  stamped : Stamped events
  length_lt : events.length < 2 ^ 64
  actions : List DbAction
  consumed : actions.filterMap DbAction.event? = events
  reported : actions.filterMap DbAction.ack?
    = ((MatchingEngineConsumer.init cap).replay events).2

namespace GatewayRun

variable {cap : Book.PoolCapacity}

def acks (run : GatewayRun cap) : List OutboundAck :=
  ((MatchingEngineConsumer.init cap).replay run.events).2

def newOrders (run : GatewayRun cap) : List SequencedEvent := newOrdersOf run.events

theorem sequenced (run : GatewayRun cap) : Sequenced run.events :=
  run.stamped.sequenced run.length_lt

theorem seqNum_ne_zero (run : GatewayRun cap) {ev : SequencedEvent} (hev : ev ∈ run.events) :
    ev.seqNum ≠ 0 := by
  have hpos := run.sequenced.1 ev hev
  intro hzero
  rw [hzero] at hpos
  exact absurd hpos (by decide)

/-- Acks are about orders of their run. -/
theorem acksOf_eq_nil {run : GatewayRun cap} {x : UInt64} (hx : x ≠ 0)
    (h : ∀ ev ∈ run.events, ¬ Submits ev x) : acksOf x run.acks = [] := by
  rw [acksOf, List.filter_eq_nil_iff]
  intro a ha hax
  have hid : a.exchangeOrderId = x := of_decide_eq_true hax
  rcases (engineInv_replay run.sequenced).ledger.known a ha with ⟨hzero, _⟩ | ⟨ev, hev, hsub⟩
  · exact hx (hid.symm.trans hzero)
  · exact h ev hev (hid ▸ hsub)

end GatewayRun

section Runs

variable {cap : Book.PoolCapacity}

/-- The file after one run after the other. -/
def persist (batchEveryN : Nat) (runs : List (GatewayRun cap)) : Database :=
  runs.foldl (fun file run => DbConsumer.session batchEveryN file run.actions) .empty

/-- The order of an event and the last ack that the engine of its run produced for it. -/
def fateIn (run : GatewayRun cap) (ev : SequencedEvent) : Fate := fateAmong run.acks ev

def fates (runs : List (GatewayRun cap)) : List Fate :=
  runs.flatMap fun run => run.newOrders.map (fateIn run)

/-- No new order has a number under which an earlier run has put a request in the file. -/
def NumbersUnused (runs : List (GatewayRun cap)) : Prop :=
  runs.Pairwise fun earlier later => ∀ ev ∈ earlier.events, IsRequest ev →
    ∀ ev' ∈ later.events, ev'.type = .newOrder → ev.seqNum ≠ ev'.seqNum

variable {runs : List (GatewayRun cap)}

theorem persist_eq (n : Nat) (runs : List (GatewayRun cap)) :
    persist n runs = (runs.flatMap GatewayRun.actions).foldl Database.apply .empty := by
  have hrun : ∀ (runs : List (GatewayRun cap)) (file : Database),
      runs.foldl (fun file run => DbConsumer.session n file run.actions) file
        = (runs.flatMap GatewayRun.actions).foldl Database.apply file := by
    intro runs
    induction runs with
    | nil => exact fun _ => rfl
    | cons run runs ih =>
        intro file
        rw [List.foldl_cons, ih, DbConsumer.session_eq, List.flatMap_cons, List.foldl_append]
  exact hrun runs .empty

/-- All rows that the runs offer to `orders`. -/
def offered (runs : List (GatewayRun cap)) : List OrderRow :=
  runs.flatMap fun run => requestRows run.events

theorem orders_persist (n : Nat) (runs : List (GatewayRun cap)) :
    (persist n runs).orders = insertAll OrderRow.seqNum [] (offered runs) := by
  have hevents : (runs.flatMap GatewayRun.actions).filterMap DbAction.event?
      = runs.flatMap GatewayRun.events := by
    rw [List.filterMap_flatMap]
    exact List.flatMap_congr fun run _ => run.consumed
  rw [persist_eq, orders_foldl_apply, hevents, offered, requestRows, List.filter_flatMap,
    List.map_flatMap]
  rfl

theorem acks_persist (n : Nat) (runs : List (GatewayRun cap)) :
    (persist n runs).executionReports.map ReportRow.toOutboundAck
      = runs.flatMap GatewayRun.acks := by
  rw [persist_eq, reports_foldl_apply, List.filterMap_flatMap]
  exact List.flatMap_congr fun run _ => run.reported

/-- The rows of new orders that the runs offer. -/
theorem offered_newOrders (runs : List (GatewayRun cap)) :
    (offered runs).filter (fun o => o.eventType = .newOrder)
      = runs.flatMap fun run => run.newOrders.map orderRow := by
  rw [offered, List.filter_flatMap]
  exact List.flatMap_congr fun run _ => requestRows_newOrders run.events

/-- **Every new order gets a row exactly if its number is unused.** -/
theorem newOrderRows_persist_iff (n : Nat) :
    newOrderRows (persist n runs) = (runs.flatMap fun run => run.newOrders.map orderRow)
      ↔ NumbersUnused runs := by
  rw [newOrderRows, orders_persist, ← offered_newOrders, filter_insertAll_eq_iff, offered,
    List.pairwise_flatMap]
  have hwithin : ∀ run ∈ runs, (requestRows run.events).Pairwise
      fun o o' => (decide (o'.eventType = .newOrder)) = true → o.seqNum ≠ o'.seqNum := by
    intro run _
    rw [requestRows, List.pairwise_map]
    refine (run.sequenced.2.filter _).imp fun hlt _ he => ?_
    exact absurd (toInt64_inj.mp he) (UInt64.ne_of_lt hlt)
  rw [and_iff_right hwithin, NumbersUnused]
  constructor
  · intro h
    refine h.imp fun hrows ev hev hreq ev' hev' hnew he => ?_
    exact hrows (orderRow ev) (mem_requestRows.mpr ⟨ev, hev, hreq, rfl⟩) (orderRow ev')
      (mem_requestRows.mpr ⟨ev', hev', Or.inl hnew, rfl⟩) (decide_eq_true hnew)
      (toInt64_inj.mpr he)
  · intro h
    refine h.imp fun hevents o ho o' ho' hnew he => ?_
    obtain ⟨ev, hev, hreq, rfl⟩ := mem_requestRows.mp ho
    obtain ⟨ev', hev', _, rfl⟩ := mem_requestRows.mp ho'
    exact hevents ev hev hreq ev' hev' (of_decide_eq_true hnew) (toInt64_inj.mp he)

/-- What the acks of all runs say of an order is what those of its run say. -/
theorem NumbersUnused.latestAck_eq (h : NumbersUnused runs) {run : GatewayRun cap}
    (hrun : run ∈ runs) {ev : SequencedEvent} (hev : ev ∈ run.newOrders) :
    latestAck ev.seqNum (runs.flatMap GatewayRun.acks) = latestAck ev.seqNum run.acks := by
  obtain ⟨hev, hnew⟩ := List.mem_filter.mp hev
  have hnew : ev.type = .newOrder := of_decide_eq_true hnew
  have hpos := run.seqNum_ne_zero hev
  obtain ⟨before, after, rfl⟩ := List.append_of_mem hrun
  rw [NumbersUnused, List.pairwise_append, List.pairwise_cons] at h
  obtain ⟨_, ⟨hafter, _⟩, hbefore⟩ := h
  have hnone : ∀ other : GatewayRun cap, (∀ o ∈ other.events, ¬ Submits o ev.seqNum) →
      acksOf ev.seqNum other.acks = [] := fun other => GatewayRun.acksOf_eq_nil hpos
  have hbefore : (before.flatMap GatewayRun.acks).filter (fun a => a.exchangeOrderId = ev.seqNum)
      = [] := by
    rw [List.filter_flatMap, List.flatMap_eq_nil_iff]
    intro other hother
    refine hnone other fun o ho hsub => ?_
    exact hbefore other hother run List.mem_cons_self o ho (Or.inl hsub.1) ev hev hnew hsub.2
  have hafter : (after.flatMap GatewayRun.acks).filter (fun a => a.exchangeOrderId = ev.seqNum)
      = [] := by
    rw [List.filter_flatMap, List.flatMap_eq_nil_iff]
    intro other hother
    refine hnone other fun o ho hsub => ?_
    exact hafter other hother ev hev (Or.inl hnew) o ho hsub.1 hsub.2.symm
  rw [latestAck, latestAck, acksOf, List.flatMap_append, List.flatMap_cons, List.filter_append,
    List.filter_append, hbefore, hafter, List.nil_append, List.append_nil]
  rfl

/-- The engine has answered every new order. -/
theorem fates_answered : ∀ fate ∈ fates runs, fate.execution.isSome := by
  intro fate hfate
  obtain ⟨run, _, hfate⟩ := List.mem_flatMap.mp hfate
  obtain ⟨ev, hev, rfl⟩ := List.mem_map.mp hfate
  obtain ⟨hev, hnew⟩ := List.mem_filter.mp hev
  obtain ⟨a, ha, hid⟩ : ∃ a ∈ run.acks, a.exchangeOrderId = ev.seqNum :=
    newOrder_acked hev (of_decide_eq_true hnew)
  have hne : acksOf ev.seqNum run.acks ≠ [] :=
    List.ne_nil_of_mem (List.mem_filter.mpr ⟨ha, decide_eq_true hid⟩)
  show ((acksOf ev.seqNum run.acks).getLast?.map execution).isSome
  rw [Option.isSome_map, List.getLast?_isSome]
  exact hne

/-- The rows of the query, against the new orders of the runs. -/
theorem historyQuery_persist_iff (n : Nat) :
    ((historyQuery (persist n runs)).map HistoryRow.toFate).Perm (fates runs)
      ↔ NumbersUnused runs := by
  have hnumbered : Numbered (persist n runs) := by
    rw [persist_eq]
    exact numbered_empty.foldl _
  have hquery := historyQuery_perm hnumbered
  have hacks := acks_persist n runs
  rw [← newOrderRows_persist_iff n]
  constructor
  · -- there are as many rows as new orders, so that no row was refused
    intro h
    have hlen := h.length_eq
    rw [List.length_map, hquery.length_eq, List.length_map] at hlen
    have hsub : (newOrderRows (persist n runs)).Sublist
        (runs.flatMap fun run => run.newOrders.map orderRow) := by
      rw [← offered_newOrders, newOrderRows, orders_persist]
      exact (insertAll_sublist _).filter _
    refine hsub.eq_of_length ?_
    rw [hlen, fates, List.length_flatMap, List.length_flatMap]
    simp only [List.length_map]
  · intro h
    have hunused := (newOrderRows_persist_iff n).mp h
    refine (hquery.map _).trans (List.Perm.of_eq ?_)
    rw [List.map_map, h, fates, List.map_flatMap]
    refine List.flatMap_congr fun run hrun => ?_
    rw [List.map_map]
    refine List.map_congr_left fun ev hev => historyRow_toFate ?_
    have hpos : ev.seqNum ≠ 0 := run.seqNum_ne_zero (List.mem_of_mem_filter hev)
    show (latestReport ev.seqNum.toInt64 _).map _ = _
    rw [latestReport_ack hpos, hacks]
    exact hunused.latestAck_eq hrun hev

/-- **The history shows each order's own fate exactly if numbers are not used twice**: the
rows of the query are, in some order, the new orders of all runs with the last ack of each,
which there always is. -/
theorem history_shows_each_fate_iff (batchEveryN : Nat) (runs : List (GatewayRun cap)) :
    (((historyQuery (persist batchEveryN runs)).map HistoryRow.toFate).Perm (fates runs)
      ↔ NumbersUnused runs) ∧ ∀ fate ∈ fates runs, fate.execution.isSome :=
  ⟨historyQuery_persist_iff batchEveryN, fates_answered⟩

end Runs

/-- Two runs over one file with an order each: the second is refused, as the number of the
first is in the table, and its ack is shown as the fate of the first. -/
theorem second_run_hides_order :
    let cap : Book.PoolCapacity := ⟨1, by decide⟩
    let buy : SequencedEvent :=
      { seqNum := 1, sessionId := 4, clientOrderId := 1, side := 0, price := 100, quantity := 5 }
    let sell : SequencedEvent :=
      { seqNum := 1, sessionId := 4, clientOrderId := 1, side := 1, price := 90, quantity := 7 }
    ∃ first second : GatewayRun cap, first.events = [buy] ∧ second.events = [sell]
      ∧ fates [first, second] = [⟨1, 4, 1, 0, 100, 5, some ⟨1, .accepted, 0, 0, 5⟩⟩,
          ⟨1, 4, 1, 1, 90, 7, some ⟨1, .accepted, 0, 0, 7⟩⟩]
      ∧ (historyQuery (persist 256 [first, second])).map HistoryRow.toFate
          = [⟨1, 4, 1, 0, 100, 5, some ⟨1, .accepted, 0, 0, 7⟩⟩] := by
  intro cap buy sell
  refine ⟨⟨[buy], rfl, by decide, [.event buy false, .ack ⟨4, 1, 1, .accepted, 0, 0, 5⟩ 0 false],
      rfl, by decide⟩,
    ⟨[sell], rfl, by decide, [.event sell false, .ack ⟨4, 1, 1, .accepted, 0, 0, 7⟩ 0 false],
      rfl, by decide⟩, rfl, rfl, ?_, ?_⟩
  · decide
  · decide

end HftLob.Bridge

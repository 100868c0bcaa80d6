import HftLob.Pipeline.Persisted

/-!
# What another connection sees of the file

The bridge opens the file for each of its requests, and does so while the gateway writes to it.
It then sees what was committed last. `maybe_flush` commits when it likes, and the two
tables are filled from two queues that know nothing of each other, so what there is to see is
an initial part of the one table and an initial part of the other.

At every moment of a run, then, the file holds the requests among the first events of the
stream, and some of the engine's acks to it: the first ones, if none was dropped
(`Readable.snapshot`).
-/

namespace HftLob.Pipeline

open HftLob.Lib HftLob.Lib.Relational HftLob.Ring HftLob.Book HftLob.Engine

variable {cfg : Config} {n : Nat} {s s' : Store cfg}

/-! ## What is committed -/

/-- What is committed is an initial part of what is written. -/
structure Behind (c : DbConsumer) : Prop where
  orders : c.committed.orders <+: c.working.orders
  reports : c.committed.executionReports <+: c.working.executionReports
  committed : Numbered c.committed
  working : Numbered c.working

/-- Rows are only added, and at the end. -/
theorem Database.apply_grows (db : Database) (a : DbAction) :
    db.orders <+: (db.apply a).orders
      ∧ db.executionReports <+: (db.apply a).executionReports := by
  cases a with
  | event ev due =>
      dsimp only [Database.apply]
      split
      · refine ⟨?_, List.prefix_rfl⟩
        dsimp only [Database.insertOrder, insertRow]
        split
        · exact List.prefix_rfl
        · exact List.prefix_append _ _
      · exact ⟨List.prefix_rfl, List.prefix_rfl⟩
  | ack ack tsNs due => exact ⟨List.prefix_rfl, List.prefix_append _ _⟩
  | poll due => exact ⟨List.prefix_rfl, List.prefix_rfl⟩

/-- A flush commits everything or nothing. -/
theorem DbConsumer.maybeFlush_committed (c : DbConsumer) (force due : Bool) :
    (c.maybeFlush n force due).committed = c.committed
      ∨ (c.maybeFlush n force due).committed = c.working := by
  unfold DbConsumer.maybeFlush
  split
  · exact Or.inl rfl
  · split
    · exact Or.inl rfl
    · dsimp only
      split
      · exact Or.inr rfl
      · exact Or.inl rfl

theorem DbConsumer.act_committed (c : DbConsumer) (a : DbAction) :
    (c.act n a).committed = c.committed ∨ (c.act n a).committed = (c.act n a).working := by
  rw [DbConsumer.act_working]
  cases a with
  | event ev due =>
      dsimp only [DbConsumer.act, Database.apply]
      split
      · exact DbConsumer.maybeFlush_committed _ false due
      · exact Or.inl rfl
  | ack ack tsNs due => exact DbConsumer.maybeFlush_committed _ false due
  | poll due => exact DbConsumer.maybeFlush_committed c false due

theorem Behind.of_committed {c c' : DbConsumer} (h : Behind c)
    (horders : c.working.orders <+: c'.working.orders)
    (hreports : c.working.executionReports <+: c'.working.executionReports)
    (hworking : Numbered c'.working)
    (hcommitted : c'.committed = c.committed ∨ c'.committed = c'.working) : Behind c' := by
  rcases hcommitted with hsame | hall
  · refine ⟨?_, ?_, hsame ▸ h.committed, hworking⟩
    · rw [hsame]
      exact h.orders.trans horders
    · rw [hsame]
      exact h.reports.trans hreports
  · refine ⟨?_, ?_, hall ▸ hworking, hworking⟩ <;> rw [hall]

theorem Behind.act {c : DbConsumer} (h : Behind c) (a : DbAction) : Behind (c.act n a) := by
  have hwork := DbConsumer.act_working n c a
  obtain ⟨horders, hreports⟩ := c.working.apply_grows a
  rw [← hwork] at horders hreports
  exact h.of_committed horders hreports (hwork ▸ h.working.apply a) (c.act_committed a)

theorem Behind.close {c : DbConsumer} (h : Behind c) : Behind (c.maybeFlush n true false) := by
  have hwork := DbConsumer.maybeFlush_working n true false c
  have hcommitted := DbConsumer.maybeFlush_committed (n := n) c true false
  rw [← hwork] at hcommitted
  refine h.of_committed ?_ ?_ ?_ hcommitted <;> rw [hwork]
  exact h.working

/-! ## Along a run -/

/-- What a step does to the database and to the matcher's queues. -/
structure Touches (n : Nat) (s s' : Store cfg) : Prop where
  db : s'.db = s.db ∨ (∃ act, s'.db = s.db.act n act) ∨ s'.db = s.db.maybeFlush n true false
  sinks : s'.sinks = s.sinks ∨ ∃ k, s.sinks.step k = some s'.sinks

theorem touches_onProcess {a : ProcessAction} (hs : s.onProcess a = some s') :
    Touches n s s' := by
  obtain ⟨process, _, rfl⟩ := onProcess_eq_some hs
  exact ⟨Or.inl rfl, Or.inl rfl⟩

theorem touches_onSinks {k : SinkAction} {fillsPc : FillsPc}
    (hs : s.onSinks k fillsPc = some s') : Touches n s s' := by
  obtain ⟨sinks, hk, rfl⟩ := onSinks_eq_some hs
  exact ⟨Or.inl rfl, Or.inr ⟨k, hk⟩⟩

theorem touches_fillsStep {due : Bool} {tsNs : UInt64} (hs : s.fillsStep n due tsNs = some s') :
    Touches n s s' := by
  unfold Store.fillsStep at hs
  split at hs
  · exact touches_onSinks hs
  · split at hs
    · exact touches_onSinks hs
    · cases hs
      exact ⟨Or.inl rfl, Or.inl rfl⟩
    · rename_i ack _
      cases hs
      exact ⟨Or.inr (Or.inl ⟨.ack ack tsNs due, rfl⟩), Or.inl rfl⟩
  · exact absurd hs (by simp)

theorem touches_ringStep {due : Bool} (hs : s.ringStep n due = some s') : Touches n s s' := by
  obtain ⟨⟨c, seq, out⟩, _, rfl⟩ := Option.map_eq_some_iff.mp hs
  refine ⟨?_, Or.inl rfl⟩
  cases out with
  | event ev => exact Or.inr (Or.inl ⟨.event ev due, rfl⟩)
  | batchEnd => exact Or.inr (Or.inl ⟨.poll due, rfl⟩)
  | drained => exact Or.inr (Or.inr rfl)
  | quiet => exact Or.inl rfl

theorem touches_step {a : StoreAction} (hs : s.step n a = some s') : Touches n s s' := by
  cases a with
  | main started =>
      dsimp only [Store.step, Store.mainStep] at hs
      split at hs
      · exact absurd hs (by simp)
      · exact touches_onProcess hs
  | push item => exact touches_onProcess hs
  | produce => exact touches_onProcess hs
  | sequencer now => exact touches_onProcess hs
  | wal pad elapsed => exact touches_onProcess hs
  | matcher =>
      obtain ⟨_, _, c, seq, out, sinks, _, rfl, hout⟩ := matcherStep_eq_some hs
      refine ⟨Or.inl rfl, ?_⟩
      rcases hout with ⟨ev, _, hk⟩ | ⟨_, hk⟩
      · exact Or.inr ⟨_, hk⟩
      · exact Or.inl hk
  | pushAck => exact touches_onSinks hs
  | drainAcks call =>
      dsimp only [Store.step] at hs
      split at hs
      · exact touches_onSinks hs
      · exact absurd hs (by simp)
  | db due tsNs =>
      dsimp only [Store.step, Store.dbStep] at hs
      split at hs
      · exact touches_fillsStep hs
      · exact touches_ringStep hs

structure Readable (s : Store cfg) : Prop where
  inv : StoreInv .empty s
  behind : Behind s.db
  inOrder : InOrder s.sinks

theorem Readable.step (h : Readable s) {a : StoreAction} (hs : s.step n a = some s') :
    Readable s' := by
  have htouches := touches_step hs
  refine ⟨storeInv_step h.inv hs, ?_, ?_⟩
  · rcases htouches.db with hsame | ⟨act, hact⟩ | hclose
    · exact hsame ▸ h.behind
    · exact hact ▸ h.behind.act act
    · exact hclose ▸ h.behind.close
  · rcases htouches.sinks with hsame | ⟨k, hk⟩
    · exact hsame ▸ h.inOrder
    · exact h.inOrder.step hk

theorem ThreadInv.handled_published {id : Nat} {c : ConsumerThread} {q : Sequencer}
    {handled : List SequencedEvent} (h : ThreadInv id c q handled)
    (hinv : SequencerInv cfg.capIn cfg.capOut q) (hlen : q.output.published.length < 2 ^ 64) :
    handled <+: q.output.published := by
  have hconsumed : q.output.consumed id <+: q.output.published := by
    rw [(hinv.ring hlen).consumed id]
    exact List.take_prefix _ _
  exact List.IsPrefix.trans ⟨_, h.flow.symm⟩ hconsumed

theorem replay_isPrefix {cap : PoolCapacity} {e : MatchingEngineConsumer cap}
    {events events' : List SequencedEvent} (h : events <+: events') :
    (e.replay events).2 <+: (e.replay events').2 := by
  obtain ⟨rest, rfl⟩ := h
  rw [MatchingEngineConsumer.replay, MatchingEngineConsumer.replay, Mealy.run_append]
  exact List.prefix_append _ _

/-- What a reader finds in the file, against the stream of the run. -/
structure Snapshot (s : Store cfg) (events : List SequencedEvent) : Prop where
  published : events <+: s.process.sequencer.output.published
  orders : s.db.committed.orders = requestRows events
  reports : List.Sublist (s.db.committed.executionReports.map ReportRow.toOutboundAck)
    ((MatchingEngineConsumer.init cfg.pool).replay s.process.sequencer.output.published).2
  whole : s.sinks.acksDropped = 0 → s.sinks.fillsDropped = 0 →
    s.db.committed.executionReports.map ReportRow.toOutboundAck
      <+: ((MatchingEngineConsumer.init cfg.pool).replay s.process.sequencer.output.published).2
  /-- When the process is done, nothing is missing. -/
  done : s.process.main = .done → events = s.process.sequencer.output.published
    ∧ (s.sinks.acksDropped = 0 → s.sinks.fillsDropped = 0 →
      s.db.committed.executionReports.map ReportRow.toOutboundAck
        = ((MatchingEngineConsumer.init cfg.pool).replay s.process.sequencer.output.published).2)

theorem Readable.orders (h : Readable s)
    (hlen : s.process.sequencer.output.published.length < 2 ^ 64) :
    ∃ events, events <+: s.process.sequencer.output.published
      ∧ s.db.committed.orders = requestRows events
      ∧ (s.process.main = .done → events = s.process.sequencer.output.published) := by
  by_cases hdone : s.process.main = .done
  · exact ⟨_, List.prefix_rfl, h.inv.orders hdone hlen, fun _ => rfl⟩
  obtain ⟨handled, hthread, horders⟩ := h.inv.db.orders
  have hhandled := hthread.handled_published h.inv.process.sequencer hlen
  have hfresh : FreshKeys OrderRow.seqNum [] (requestRows handled) :=
    (requestRows_fresh (h.inv.process.sequencer.sequenced hlen)).of_sublist
      ((hhandled.sublist.filter _).map orderRow)
  have hbehind := h.behind.orders
  rw [horders, show Database.empty.orders = [] from rfl,
    (insertAll_eq_append_iff _ _).mpr hfresh, List.nil_append, requestRows,
    List.prefix_map_iff] at hbehind
  obtain ⟨requests, hrequests, hcommitted⟩ := hbehind
  obtain ⟨events, hevents, rfl⟩ := List.prefix_filter_iff.mp hrequests
  exact ⟨events, hevents.trans hhandled, hcommitted, fun hmain => absurd hmain hdone⟩

/-- The reports are among what went into `fills_`, which are acks of the engine. -/
theorem Readable.reports (h : Readable s) :
    s.db.committed.executionReports.map ReportRow.toOutboundAck <+: s.sinks.fills.pushed := by
  have hbehind := h.behind.reports.map ReportRow.toOutboundAck
  have hworking : s.db.working.executionReports.map ReportRow.toOutboundAck
      <+: s.sinks.fills.popped := ⟨s.fillInHand, h.inv.db.reports⟩
  exact (hbehind.trans hworking).trans h.inv.fills.order

theorem Readable.constructed (h : Readable s)
    (hlen : s.process.sequencer.output.published.length < 2 ^ 64) :
    s.sinks.constructed
      <+: ((MatchingEngineConsumer.init cfg.pool).replay
          s.process.sequencer.output.published).2 := by
  obtain ⟨handled, hthread, hreplay⟩ := h.inv.process.matcher
  have hacks : s.sinks.constructed <+: s.process.acks := ⟨_, h.inv.synced.acks⟩
  refine hacks.trans ?_
  have hmatched := replay_isPrefix (e := MatchingEngineConsumer.init cfg.pool)
    (hthread.handled_published h.inv.process.sequencer hlen)
  rwa [hreplay] at hmatched

theorem Readable.snapshot (h : Readable s)
    (hlen : s.process.sequencer.output.published.length < 2 ^ 64)
    (hacked : ((MatchingEngineConsumer.init cfg.pool).replay
      s.process.sequencer.output.published).2.length < 2 ^ 64) :
    ∃ events, Snapshot s events := by
  obtain ⟨events, hpublished, horders, hall⟩ := h.orders hlen
  have hconstructed := h.constructed hlen
  refine ⟨events, hpublished, horders, ?_, fun hacks hfills => ?_,
    fun hdone => ⟨hall hdone, (h.inv.mirrors hdone hlen hacked).whole⟩⟩
  · exact (h.reports.sublist.trans h.inv.sifted.sublist).trans hconstructed.sublist
  · have hfew := Nat.lt_of_le_of_lt hconstructed.length_le hacked
    exact (h.reports.trans (h.inOrder.constructed h.inv.sinks hfew hacks hfills)).trans
      hconstructed

end HftLob.Pipeline

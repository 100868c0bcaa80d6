import HftLob.Engine.Sifted
import HftLob.Pipeline.Store

/-!
# The database holds what the log replays to

The log and the database are written by two threads that share nothing but the ring, and
the reports in the database come by a third way, through the matcher. When the process has
shut down they agree: the rows of `orders` are the requests in the log, and the rows of
`execution_reports` are what a replay of the log says, apart from the acks that were dropped
on the way, which are counted.

The drain of `fills_` may stop at the first `pop` that finds nothing only because the matcher
has been joined by then. That is the order of the stops in `main`, and `DbInv` carries it.
-/

namespace HftLob.Pipeline

open HftLob.Lib HftLob.Lib.Relational HftLob.Ring HftLob.Book HftLob.Engine

variable {cfg : Config} {n : Nat} {file : Database}

/-! ## What the other threads do to the database's -/

section Process

variable {p p' : Process cfg}

/-- A step of the process that is neither the matcher's nor the database's. -/
structure Aside (p p' : Process cfg) : Prop where
  quiet : Quiet cfg.capIn cfg.capOut cfg.maxConsumers dbId p.sequencer p'.sequencer
  engine : p'.engine = p.engine ∧ p'.acks = p.acks
  matcher : p'.matcher = p.matcher ∨ p.matcher.start = some p'.matcher
    ∨ p'.matcher = p.matcher.stop
  db : p'.dbThread = p.dbThread ∨ p.dbThread.start = some p'.dbThread
    -- `db->stop()` comes after the sequencer and the matcher have been joined
    ∨ p'.dbThread = p.dbThread.stop ∧ p'.sequencer.pc = .returned ∧ p.matcher.pc = .returned
  main : p'.main = .done → p.main = .done ∨ p.dbThread.pc = .returned

theorem aside_onSequencer {a : SequencerAction} {main : MainPc}
    (hs : p.onSequencer a main = some p') (hconsume : ∀ id, a ≠ .consume id)
    (hread : ∀ id, a ≠ .read id) (hmain : main = p.main ∨ main ≠ .done) : Aside p p' := by
  obtain ⟨seq, hseq, rfl⟩ := onSequencer_eq_some hs
  refine ⟨Or.inr ⟨a, hseq, hconsume dbId, hread dbId⟩, ⟨rfl, rfl⟩, Or.inl rfl, Or.inl rfl,
    fun hdone => ?_⟩
  rcases hmain with hmain | hmain
  · exact Or.inl (hmain.symm.trans hdone)
  · exact absurd hdone hmain

theorem aside_goto {main : MainPc} (hmain : main = .done → p.dbThread.pc = .returned) :
    Aside p { p with main := main } :=
  ⟨Or.inl rfl, ⟨rfl, rfl⟩, Or.inl rfl, Or.inl rfl, fun hdone => Or.inr (hmain hdone)⟩

theorem ProcessInv.aside_mainStep (h : ProcessInv p) {started : Bool}
    (hs : p.mainStep started = some p') : Aside p p' := by
  unfold Process.mainStep at hs
  cases hm : p.main with
  | registerMatcher | registerWal | registerDb | startSequencer | stopSequencer =>
      rw [hm] at hs
      exact aside_onSequencer hs nofun nofun (Or.inr nofun)
  | startWal =>
      rw [hm] at hs
      obtain ⟨c, _, rfl⟩ := Option.map_eq_some_iff.mp hs
      exact ⟨Or.inl rfl, ⟨rfl, rfl⟩, Or.inl rfl, Or.inl rfl, nofun⟩
  | startDb =>
      rw [hm] at hs
      obtain ⟨c, hc, rfl⟩ := Option.map_eq_some_iff.mp hs
      exact ⟨Or.inl rfl, ⟨rfl, rfl⟩, Or.inl rfl, Or.inr (Or.inl hc), nofun⟩
  | startMatcher =>
      rw [hm] at hs
      obtain ⟨c, hc, rfl⟩ := Option.map_eq_some_iff.mp hs
      exact ⟨Or.inl rfl, ⟨rfl, rfl⟩, Or.inr (Or.inl hc), Or.inl rfl, nofun⟩
  | startServer =>
      rw [hm] at hs
      cases hs
      refine aside_goto ?_
      cases started <;> nofun
  | polling =>
      rw [hm] at hs
      dsimp only at hs
      split at hs
      · cases hs
        exact aside_goto nofun
      · exact absurd hs (by simp)
  | joinSequencer | joinMatcher | joinWal =>
      rw [hm] at hs
      obtain ⟨_, rfl⟩ := join_eq_some hs
      exact aside_goto nofun
  | joinDb =>
      rw [hm] at hs
      obtain ⟨hreturned, rfl⟩ := join_eq_some hs
      exact aside_goto fun _ => of_decide_eq_true hreturned
  | stopMatcher =>
      rw [hm] at hs
      cases hs
      exact ⟨Or.inl rfl, ⟨rfl, rfl⟩, Or.inr (Or.inr rfl), Or.inl rfl, nofun⟩
  | stopWal =>
      rw [hm] at hs
      cases hs
      exact ⟨Or.inl rfl, ⟨rfl, rfl⟩, Or.inl rfl, Or.inl rfl, nofun⟩
  | stopDb =>
      rw [hm] at hs
      cases hs
      have hseq : p.sequencer.pc = .returned := h.joined.sequencer (by rw [hm]; decide)
      have hmatcher : p.matcher.pc = .returned := h.joined.matcher (by rw [hm]; decide)
      exact ⟨Or.inl rfl, ⟨rfl, rfl⟩, Or.inl rfl, Or.inr (Or.inr ⟨rfl, hseq, hmatcher⟩),
        nofun⟩
  | done => rw [hm] at hs; exact absurd hs (by simp)

theorem aside_walStep {pad : Padding} {elapsed : Bool}
    (hs : p.step (.wal pad elapsed) = some p') : Aside p p' := by
  obtain ⟨⟨c, seq, out⟩, hc, rfl⟩ := Option.map_eq_some_iff.mp hs
  have hquiet : Quiet cfg.capIn cfg.capOut cfg.maxConsumers dbId p.sequencer seq :=
    ConsumerThread.step_quiet hc (by decide)
  cases out <;> exact ⟨hquiet, ⟨rfl, rfl⟩, Or.inl rfl, Or.inl rfl, Or.inl⟩

theorem ProcessInv.aside (h : ProcessInv p) {a : ProcessAction} (hs : p.step a = some p')
    (hmatcher : a ≠ .matcher) (hdb : a ≠ .db) : Aside p p' := by
  cases a with
  | main started => exact h.aside_mainStep hs
  | push item | produce =>
      dsimp only [Process.step] at hs
      split at hs
      · exact aside_onSequencer hs nofun nofun (Or.inr nofun)
      · exact absurd hs (by simp)
  | sequencer now => exact aside_onSequencer hs nofun nofun (Or.inl rfl)
  | matcher => exact absurd rfl hmatcher
  | wal pad elapsed => exact aside_walStep hs
  | db => exact absurd rfl hdb

theorem ConsumerThread.start_pc {c c' : ConsumerThread} (h : c.start = some c') :
    c.pc = .ready ∧ c'.running = true ∧ c'.pc = .test := by
  unfold ConsumerThread.start at h
  split at h
  · cases h
    exact ⟨‹_›, rfl, rfl⟩
  · exact absurd h (by simp)

theorem Aside.matcher_returned (h : Aside p p') :
    p'.matcher.pc = .returned ↔ p.matcher.pc = .returned := by
  rcases h.matcher with hm | hm | hm
  · rw [hm]
  · obtain ⟨hready, _, htest⟩ := ConsumerThread.start_pc hm
    rw [hready, htest]
    exact ⟨nofun, nofun⟩
  · rw [hm]
    rfl

end Process

/-! ## The matcher and its queues -/

variable {s s' : Store cfg}

/-- The matcher in `Process` and the one in `Sinks` are one. -/
structure Synced (s : Store cfg) : Prop where
  engine : s.sinks.engine = s.process.engine
  acks : s.sinks.constructed ++ s.sinks.rest = s.process.acks
  /-- The thread does not return out of `push_ack`. -/
  returned : s.process.matcher.pc = .returned → s.sinks.phase = .idle ∧ s.sinks.rest = []

theorem Synced.aside (h : Synced s) {p : Process cfg} (hp : Aside s.process p) :
    Synced { s with process := p } where
  engine := h.engine.trans hp.engine.1.symm
  acks := h.acks.trans hp.engine.2.symm
  returned := fun hpc => h.returned (hp.matcher_returned.mp hpc)

theorem onProcess_eq_some {a : ProcessAction} (hs : s.onProcess a = some s') :
    ∃ p, s.process.step a = some p ∧ s' = { s with process := p } := by
  obtain ⟨p, hp, he⟩ := Option.map_eq_some_iff.mp hs
  exact ⟨p, hp, he.symm⟩

theorem onSinks_eq_some {a : SinkAction} {fillsPc : FillsPc} (hs : s.onSinks a fillsPc = some s') :
    ∃ sinks, s.sinks.step a = some sinks
      ∧ s' = { s with sinks := sinks, fillsPc := fillsPc } := by
  obtain ⟨sinks, hk, he⟩ := Option.map_eq_some_iff.mp hs
  exact ⟨sinks, hk, he.symm⟩

/-- The matcher's thread makes a step between two calls of `push_ack`, and hands an event on
to `apply`. -/
theorem matcherStep_eq_some (hs : s.matcherStep = some s') :
    s.sinks.phase = .idle ∧ s.sinks.rest = [] ∧
      ∃ c seq out sinks, s.process.consumerStep matcherId s.process.matcher = some (c, seq, out)
        ∧ s' = { s with
            process := { s.process with matcher := c, sequencer := seq }.matcherDeals out,
            sinks := sinks }
        ∧ ((∃ ev, out = .event ev ∧ s.sinks.step (.apply ev) = some sinks)
            ∨ (∀ ev, out ≠ .event ev) ∧ sinks = s.sinks) := by
  unfold Store.matcherStep at hs
  split at hs
  · rename_i hphase hrest
    obtain ⟨⟨c, seq, out⟩, hc, hs⟩ := Option.bind_eq_some_iff.mp hs
    refine ⟨hphase, hrest, c, seq, out, ?_⟩
    dsimp only at hs
    split at hs
    · obtain ⟨sinks, hk, rfl⟩ := Option.map_eq_some_iff.mp hs
      exact ⟨sinks, hc, rfl, Or.inl ⟨_, rfl, hk⟩⟩
    all_goals
      cases hs
      exact ⟨s.sinks, hc, rfl, Or.inr ⟨nofun, rfl⟩⟩
  · exact absurd hs (by simp)

/-- What `apply` does to the queues: nothing yet. -/
theorem applyStep_spec {cap : PoolCapacity} {k k' : Sinks cap} {ev : SequencedEvent}
    (hk : k.step (.apply ev) = some k') :
    k'.engine = (k.engine.apply ev).1 ∧ k'.rest = (k.engine.apply ev).2
      ∧ k'.constructed = k.constructed ∧ k'.fills = k.fills := by
  dsimp only [Sinks.step] at hk
  split at hk
  · cases hk
    exact ⟨rfl, rfl, rfl, rfl⟩
  · exact absurd hk (by simp)

theorem Synced.matcherStep (h : Synced s) (hs : s.matcherStep = some s') : Synced s' := by
  obtain ⟨hphase, hrest, c, seq, out, sinks, hc, rfl, hout⟩ := matcherStep_eq_some hs
  rcases hout with ⟨ev, rfl, hk⟩ | ⟨hne, rfl⟩
  · obtain ⟨hengine, hacks, hconstructed, _⟩ := applyStep_spec hk
    have hbefore := h.acks
    rw [hrest, List.append_nil] at hbefore
    refine ⟨?_, ?_, fun hpc => ?_⟩
    · dsimp only [Process.matcherDeals]
      rw [hengine, h.engine]
    · dsimp only [Process.matcherDeals]
      rw [hacks, hconstructed, h.engine, hbefore]
    · -- after an event the thread goes on
      exact absurd ((ConsumerThread.step_returns hc).mp hpc) nofun
  · cases out with
    | event ev => exact absurd rfl (hne ev)
    | quiet | batchEnd | drained => exact ⟨h.engine, h.acks, fun _ => ⟨hphase, hrest⟩⟩

theorem Synced.pushAck (h : Synced s) {sinks : Sinks cfg.pool}
    (hk : s.sinks.step .push = some sinks)
    (fillsPc : FillsPc) : Synced { s with sinks := sinks, fillsPc := fillsPc } := by
  obtain ⟨hengine, hacks⟩ := pushAck_constructed hk
  refine ⟨hengine.trans h.engine, hacks.trans h.acks, fun hpc => ?_⟩
  obtain ⟨hphase, hrest⟩ := h.returned hpc
  -- a thread that has returned pushes nothing
  dsimp only [Sinks.step] at hk
  rw [Sinks.pushAck, hphase] at hk
  dsimp only at hk
  rw [hrest] at hk
  cases hk

/-- The consumers of the queues leave the matcher's part of them alone. -/
theorem Synced.drain (h : Synced s) {sinks : Sinks cfg.pool} {fillsPc : FillsPc} {db : DbConsumer}
    (hengine : sinks.engine = s.sinks.engine) (hphase : sinks.phase = s.sinks.phase)
    (hacks : sinks.constructed = s.sinks.constructed ∧ sinks.rest = s.sinks.rest) :
    Synced { s with sinks := sinks, fillsPc := fillsPc, db := db } where
  engine := hengine.trans h.engine
  acks := by
    dsimp only
    rw [hacks.1, hacks.2]
    exact h.acks
  returned := fun hpc => by
    dsimp only
    rw [hphase, hacks.2]
    exact h.returned hpc

/-! ## The database's thread -/

/-- The ack that is popped and not yet written. -/
def Store.fillInHand (s : Store cfg) : List OutboundAck :=
  match s.fillsPc with
  | .popping _ =>
      match s.sinks.fills.consumer.result? with
      | some (some ack) => [ack]
      | _ => []
  | .call _ | .done => []

/-- The drain of `fills_` has found nothing more. -/
def Store.FillsDrained (s : Store cfg) : Prop :=
  match s.process.dbThread.pc with
  | .returned => True
  | .drained =>
      match s.fillsPc with
      | .call _ => False
      | .popping _ => s.sinks.fills.consumer.result? = some none
      | .done => True
  | .ready | .test | .call _ | .consuming _ | .batchEnd => False

/-- The tables are what the thread has taken from the ring and from `fills_`. -/
structure DbInv (file : Database) (s : Store cfg) : Prop where
  written : ∃ actions : List DbAction,
    ThreadInv dbId s.process.dbThread s.process.sequencer (actions.filterMap DbAction.event?)
      ∧ s.db.working = actions.foldl Database.apply file
      ∧ actions.filterMap DbAction.ack? ++ s.fillInHand = s.sinks.fills.popped
  loop : s.process.dbThread.pc ≠ .batchEnd → s.process.dbThread.pc ≠ .drained →
    s.fillsPc = .call 0
  inTxn : s.process.dbThread.pc ≠ .returned → s.db.inTxn = true
  closed : s.process.dbThread.pc = .returned → s.db.committed = s.db.working
  stopped : s.process.dbThread.running = false →
    s.process.dbThread.pc = .ready ∨ s.process.matcher.pc = .returned
  draining : Draining s.process.dbThread.pc → s.process.matcher.pc = .returned
  drained : s.FillsDrained → s.sinks.fills.popped = s.sinks.fills.pushed
  joined : s.process.main = .done → s.process.dbThread.pc = .returned

theorem dbInv_init (cfg : Config) (buffers : ProducerId → Nat → SequencedEvent)
    (slots : Nat → SequencedEvent) (acksBuffer fillsBuffer : Nat → OutboundAck)
    (file : Database) : DbInv file (Store.init cfg buffers slots acksBuffer fillsBuffer file) where
  written := ⟨[], threadInv_init _ buffers slots, rfl, rfl⟩
  loop := fun _ _ => rfl
  inTxn := fun _ => rfl
  closed := nofun
  stopped := fun _ => Or.inl rfl
  draining := fun h => h.elim
  drained := fun h => h.elim
  joined := nofun

theorem DbInv.orders (h : DbInv file s) :
    ∃ handled, ThreadInv dbId s.process.dbThread s.process.sequencer handled
      ∧ s.db.working.orders = insertAll OrderRow.seqNum file.orders (requestRows handled) := by
  obtain ⟨actions, hthread, hworking, _⟩ := h.written
  exact ⟨_, hthread, by rw [hworking, orders_foldl_apply]⟩

theorem DbInv.reports (h : DbInv file s) :
    s.db.working.executionReports.map ReportRow.toOutboundAck ++ s.fillInHand
      = file.executionReports.map ReportRow.toOutboundAck ++ s.sinks.fills.popped := by
  obtain ⟨actions, _, hworking, hacks⟩ := h.written
  rw [hworking, reports_foldl_apply, List.append_assoc, hacks]

theorem Store.FillsDrained.draining (h : s.FillsDrained) : Draining s.process.dbThread.pc := by
  unfold Store.FillsDrained at h
  cases hpc : s.process.dbThread.pc with
  | returned => trivial
  | drained => trivial
  | _ => rw [hpc] at h; exact h.elim

/-- A step of another thread that leaves the database's pc, and its part of `fills_`. -/
theorem DbInv.frame (h : DbInv file s) (hpc : s'.process.dbThread.pc = s.process.dbThread.pc)
    (hthread : ∀ handled, ThreadInv dbId s.process.dbThread s.process.sequencer handled →
      ThreadInv dbId s'.process.dbThread s'.process.sequencer handled)
    (hdb : s'.db = s.db) (hloop : s'.fillsPc = s.fillsPc)
    (hconsumer : s'.sinks.fills.consumer = s.sinks.fills.consumer)
    (hpopped : s'.sinks.fills.popped = s.sinks.fills.popped)
    (hpushed : s.FillsDrained → s'.sinks.fills.pushed = s.sinks.fills.pushed)
    (hstopped : s'.process.dbThread.running = false →
      s.process.dbThread.running = false ∨ s.process.matcher.pc = .returned)
    (hmatcher : s.process.matcher.pc = .returned → s'.process.matcher.pc = .returned)
    (hmain : s'.process.main = .done → s.process.main = .done ∨ s.process.dbThread.pc = .returned) :
    DbInv file s' where
  written := by
    obtain ⟨actions, hinv, hworking, hacks⟩ := h.written
    have hhand : s'.fillInHand = s.fillInHand := by
      unfold Store.fillInHand
      rw [hloop, hconsumer]
    rw [hdb, hhand, hpopped]
    exact ⟨actions, hthread _ hinv, hworking, hacks⟩
  loop := by rw [hpc, hloop]; exact h.loop
  inTxn := by rw [hpc, hdb]; exact h.inTxn
  closed := by rw [hpc, hdb]; exact h.closed
  stopped := by
    intro hstop
    rw [hpc]
    rcases hstopped hstop with hbefore | hreturned
    · exact (h.stopped hbefore).imp_right hmatcher
    · exact Or.inr (hmatcher hreturned)
  draining := by
    rw [hpc]
    exact fun hd => hmatcher (h.draining hd)
  drained := by
    have hsame : s'.FillsDrained ↔ s.FillsDrained := by
      unfold Store.FillsDrained
      rw [hpc, hloop, hconsumer]
    intro hd
    rw [hpopped, hpushed (hsame.mp hd)]
    exact h.drained (hsame.mp hd)
  joined := by
    intro hdone
    rw [hpc]
    rcases hmain hdone with hdone | hreturned
    · exact h.joined hdone
    · exact hreturned

/-- The thread of the database is started. -/
theorem DbInv.started (h : DbInv file s) {p : Process cfg} (hp : Aside s.process p)
    (hstart : s.process.dbThread.start = some p.dbThread) :
    DbInv file { s with process := p } := by
  obtain ⟨hready, hrunning, htest⟩ := ConsumerThread.start_pc hstart
  obtain ⟨actions, hinv, hwritten⟩ := h.written
  have hnot : ∀ {pc : ConsumerPc}, pc ≠ .test → p.dbThread.pc ≠ pc := fun hne he =>
    hne (he.symm.trans htest)
  refine ⟨⟨actions, (hinv.start hstart).frame hp.quiet, hwritten⟩,
    fun _ _ => h.loop (by rw [hready]; nofun) (by rw [hready]; nofun),
    fun _ => h.inTxn (by rw [hready]; nofun), fun hpc => absurd hpc (hnot nofun),
    fun hstop => ?_, fun hd => ?_, fun hd => ?_, fun hdone => ?_⟩
  · rw [hrunning] at hstop
    cases hstop
  · rw [htest] at hd
    exact hd.elim
  · have hd := hd.draining
    rw [htest] at hd
    exact hd.elim
  · -- a thread that is not started yet is not joined
    rcases hp.main hdone with hdone | hreturned
    · rw [h.joined hdone] at hready
      cases hready
    · rw [hreturned] at hready
      cases hready

theorem DbInv.aside (h : DbInv file s) {p : Process cfg} (hp : Aside s.process p) :
    DbInv file { s with process := p } := by
  have hmatcher := hp.matcher_returned.mpr
  rcases hp.db with hsame | hstart | ⟨hstop, hseq, hreturned⟩
  · refine h.frame (congrArg _ hsame) (fun handled hinv => ?_) rfl rfl rfl rfl (fun _ => rfl)
      (fun hrun => Or.inl (hsame ▸ hrun)) hmatcher hp.main
    dsimp only
    rw [hsame]
    exact hinv.frame hp.quiet
  · exact h.started hp hstart
  · have hpc : p.dbThread.pc = s.process.dbThread.pc := by rw [hstop]; rfl
    refine h.frame hpc (fun handled hinv => ?_) rfl rfl rfl rfl
      (fun _ => rfl) (fun _ => Or.inr hreturned) hmatcher hp.main
    dsimp only
    rw [hstop]
    exact (hinv.frame hp.quiet).stop hseq

theorem DbInv.matcherStep (h : DbInv file s) (hs : s.matcherStep = some s') : DbInv file s' := by
  obtain ⟨_, _, c, seq, out, sinks, hc, rfl, hout⟩ := matcherStep_eq_some hs
  have hfills : sinks.fills = s.sinks.fills := by
    rcases hout with ⟨ev, _, hk⟩ | ⟨_, hk⟩
    · exact (applyStep_spec hk).2.2.2
    · rw [hk]
  have hquiet : Quiet cfg.capIn cfg.capOut cfg.maxConsumers dbId s.process.sequencer seq :=
    ConsumerThread.step_quiet hc (by decide)
  have hnot := ConsumerThread.not_returned hc
  cases out <;>
    exact h.frame rfl (fun _ hinv => hinv.frame hquiet) rfl rfl (congrArg _ hfills)
      (congrArg _ hfills) (fun _ => congrArg _ hfills) Or.inl (fun hpc => absurd hpc hnot) Or.inl

/-- While the drain of `fills_` is over, nothing is pushed there. -/
theorem DbInv.pushAck (h : DbInv file s) (hsync : Synced s) {sinks : Sinks cfg.pool}
    (hk : s.sinks.step .push = some sinks) : DbInv file { s with sinks := sinks } := by
  have hdrained : ¬ s.FillsDrained := by
    intro hd
    obtain ⟨hphase, hrest⟩ := hsync.returned (h.draining hd.draining)
    dsimp only [Sinks.step] at hk
    rw [Sinks.pushAck, hphase] at hk
    dsimp only at hk
    rw [hrest] at hk
    cases hk
  have hfills : sinks.fills.consumer = s.sinks.fills.consumer
      ∧ sinks.fills.popped = s.sinks.fills.popped := by
    rcases pushAck_fills hk with hsame | ⟨a, ha, hf⟩
    · rw [hsame]
      exact ⟨rfl, rfl⟩
    · obtain ⟨hpopped, hconsumer, _⟩ := producer_spec ha hf
      exact ⟨hconsumer, hpopped⟩
  exact h.frame rfl (fun _ hinv => hinv) rfl rfl hfills.1 hfills.2 (fun hd => absurd hd hdrained)
    Or.inl id Or.inl

theorem fillInHand_of_not_popping (h : ∀ i, s.fillsPc ≠ .popping i) : s.fillInHand = [] := by
  unfold Store.fillInHand
  split
  · rename_i i hi
    exact absurd hi (h i)
  all_goals rfl

theorem fillInHand_of_result {i : Nat} (hpc : s.fillsPc = .popping i)
    (hres : ∀ ack, s.sinks.fills.consumer.result? ≠ some (some ack)) : s.fillInHand = [] := by
  unfold Store.fillInHand
  rw [hpc]
  dsimp only
  split
  · rename_i ack hack
    exact absurd hack (hres ack)
  · rfl

theorem fillInHand_some {i : Nat} {ack : OutboundAck} (hpc : s.fillsPc = .popping i)
    (hres : s.sinks.fills.consumer.result? = some (some ack)) : s.fillInHand = [ack] := by
  unfold Store.fillInHand
  rw [hpc]
  dsimp only
  rw [hres]

/-- A step of the loop over `fills_`: the thread does not move at the ring. -/
theorem DbInv.atFills (h : DbInv file s) (hat : s.AtFills) {sinks : Sinks cfg.pool}
    {db : DbConsumer} {fillsPc : FillsPc} (more : List DbAction)
    (hevents : more.filterMap DbAction.event? = [])
    (hworking : db.working = more.foldl Database.apply s.db.working)
    (hinTxn : s.db.inTxn = true → db.inTxn = true)
    (hacks : ∀ acks, acks ++ s.fillInHand = s.sinks.fills.popped →
      acks ++ (more.filterMap DbAction.ack?
        ++ Store.fillInHand { s with sinks := sinks, db := db, fillsPc := fillsPc })
        = sinks.fills.popped)
    (hdrained : Store.FillsDrained { s with sinks := sinks, db := db, fillsPc := fillsPc } →
      sinks.fills.popped = sinks.fills.pushed) :
    DbInv file { s with sinks := sinks, db := db, fillsPc := fillsPc } := by
  have hreturned : s.process.dbThread.pc ≠ .returned := by
    rcases hat.1 with hpc | hpc <;> (rw [hpc]; nofun)
  obtain ⟨actions, hinv, hwritten, hacked⟩ := h.written
  refine ⟨⟨actions ++ more, ?_, ?_, ?_⟩, fun hbatch hdrain => ?_,
    fun hpc => hinTxn (h.inTxn hpc), fun hpc => absurd hpc hreturned, h.stopped, h.draining,
    hdrained, h.joined⟩
  · rw [List.filterMap_append, hevents, List.append_nil]
    exact hinv
  · rw [List.foldl_append, ← hwritten]
    exact hworking
  · rw [List.filterMap_append, List.append_assoc]
    exact hacks _ hacked
  · rcases hat.1 with hpc | hpc
    · exact absurd hpc hbatch
    · exact absurd hpc hdrain

theorem Store.FillsDrained.result (h : s.FillsDrained) {i : Nat} (hloop : s.fillsPc = .popping i)
    (hpc : s.process.dbThread.pc = .batchEnd ∨ s.process.dbThread.pc = .drained) :
    s.sinks.fills.consumer.result? = some none := by
  unfold Store.FillsDrained at h
  rw [hloop] at h
  rcases hpc with hpc | hpc
  · rw [hpc] at h
    exact h.elim
  · rw [hpc] at h
    exact h

theorem drainFills_eq_some {cap : PoolCapacity} {k k' : Sinks cap} {call : Bool}
    (hk : k.step (.drainFills call) = some k') :
    ∃ fills, k.fills.step ackQueue (if call then .pop else .consume) = some fills
      ∧ k' = { k with fills := fills } := by
  obtain ⟨fills, hf, he⟩ := Option.map_eq_some_iff.mp hk
  exact ⟨fills, hf, he.symm⟩

theorem DbInv.callFill (h : DbInv file s) (hat : s.AtFills) {i : Nat} (hloop : s.fillsPc = .call i)
    (hs : s.onSinks (.drainFills true) (.popping i) = some s') : DbInv file s' := by
  obtain ⟨sinks, hk, rfl⟩ := onSinks_eq_some hs
  obtain ⟨fills, hf, rfl⟩ := drainFills_eq_some hk
  obtain ⟨hpopped, _, _, hres⟩ := pop_spec hf
  refine h.atFills hat [] rfl rfl id (fun acks hacks => ?_) fun hd => ?_
  · rw [fillInHand_of_not_popping (by rw [hloop]; nofun)] at hacks
    rw [fillInHand_of_result rfl (by dsimp only; rw [hres]; nofun)]
    dsimp only
    rw [hpopped]
    exact hacks
  · -- the call has only begun
    have hnone := hd.result rfl hat.1
    dsimp only at hnone
    rw [hres] at hnone
    cases hnone

theorem SpscInv.popped_of_empty {T : Type} {cap : RingCapacity} {q q' : SpscRingBuffer T}
    (h : SpscInv cap q) (hq : q.step cap .consume = some q')
    (hres : q'.consumer.result? = some none) : q.popped = q.pushed := by
  have hnone : q'.consumer = .returned none := by
    cases hco : q'.consumer with
    | returned out => rw [hco] at hres; rw [Option.some.inj hres]
    | _ => rw [hco] at hres; cases hres
  have hstored : q.pushed.length - q.popped.length = 0 := h.empty hq hnone
  exact h.order.eq_of_length_le (by omega)

theorem DbInv.popFill (h : DbInv file s) (hfills : SpscInv ackQueue s.sinks.fills)
    (hat : s.AtFills) {i : Nat} (hloop : s.fillsPc = .popping i)
    (hs : s.onSinks (.drainFills false) (.popping i) = some s') : DbInv file s' := by
  obtain ⟨sinks, hk, rfl⟩ := onSinks_eq_some hs
  obtain ⟨fills, hf, rfl⟩ := drainFills_eq_some hk
  have hbefore : s.fillInHand = [] :=
    fillInHand_of_result hloop fun ack hack => nomatch (consume_result hf).symm.trans hack
  obtain ⟨hpushed, _, hspec⟩ := consumer_spec hf
  refine h.atFills hat [] rfl rfl id (fun acks hacks => ?_) fun hd => ?_
  · rw [hbefore, List.append_nil] at hacks
    dsimp only
    rcases hspec with ⟨hpopped, hgo⟩ | ⟨out, hpopped, hout⟩
    · rw [hpopped, fillInHand_of_result rfl, ← hacks]
      · exact List.append_nil _
      · intro ack hack
        dsimp only at hack
        rcases hgo with hgo | hgo <;> (rw [hgo] at hack; cases hack)
    · rw [hpopped, fillInHand_some rfl hout, ← hacks]
      rfl
  · have hnone := hd.result rfl hat.1
    rcases hspec with ⟨hpopped, _⟩ | ⟨out, _, hout⟩
    · dsimp only
      rw [hpopped, hpushed]
      exact SpscInv.popped_of_empty hfills hf hnone
    · dsimp only at hnone
      rw [hout] at hnone
      cases hnone

theorem DbInv.writeFill (h : DbInv file s) (hat : s.AtFills) {i : Nat} {ack : OutboundAck}
    {due : Bool} {tsNs : UInt64} (hloop : s.fillsPc = .popping i)
    (hres : s.sinks.fills.consumer.result? = some (some ack)) :
    DbInv file { s with db := s.db.act n (.ack ack tsNs due), fillsPc := s.nextFill i } := by
  have hnext : ∀ j, s.nextFill i ≠ .popping j := by
    intro j
    unfold Store.nextFill
    split <;> nofun
  refine h.atFills hat [.ack ack tsNs due] rfl (DbConsumer.act_working n _ _)
    (DbConsumer.act_inTxn n _) (fun acks hacks => ?_) fun hd => ?_
  · rw [fillInHand_some hloop hres] at hacks
    rw [fillInHand_of_not_popping hnext, List.append_nil]
    exact hacks
  · -- in the drain there is no bound on the loop
    unfold Store.FillsDrained Store.nextFill at hd
    dsimp only at hd
    rcases hat.1 with hpc | hpc
    · rw [hpc] at hd
      exact hd.elim
    · rw [hpc, if_pos (Or.inl rfl)] at hd
      exact hd.elim

theorem DbInv.fillsStep (h : DbInv file s) (hfills : SpscInv ackQueue s.sinks.fills)
    (hat : s.AtFills) {due : Bool} {tsNs : UInt64} (hs : s.fillsStep n due tsNs = some s') :
    DbInv file s' := by
  unfold Store.fillsStep at hs
  split at hs
  · exact h.callFill hat ‹_› hs
  · rename_i i hloop
    split at hs
    · exact h.popFill hfills hat hloop hs
    · rename_i hres
      cases hs
      have hbefore : s.fillInHand = [] :=
        fillInHand_of_result hloop fun ack hack => nomatch hres.symm.trans hack
      refine h.atFills hat [] rfl rfl id (fun acks hacks => ?_) fun hd => h.drained ?_
      · rw [hbefore] at hacks
        exact hacks
      · unfold Store.FillsDrained at hd ⊢
        rw [hloop, hres]
        rcases hat.1 with hpc | hpc
        · rw [hpc] at hd
          exact hd.elim
        · rw [hpc]
    · cases hs
      exact h.writeFill hat hloop ‹_›
  · exact absurd hs (by simp)

/-! ## The thread at the ring -/

theorem ConsumerThread.step_goes {capIn capOut : RingCapacity} {maxConsumers id : Nat}
    {c c' : ConsumerThread} {q q' : Sequencer} {out : Outcome}
    (hs : c.step capIn capOut maxConsumers id q = some (c', q', out)) :
    c'.running = c.running ∧ c.pc ≠ .ready ∧ (c'.pc = .returned → c.pc = .drained)
      ∧ (Draining c'.pc → Draining c.pc ∨ c.running = false) := by
  unfold ConsumerThread.step at hs
  cases hpc : c.pc with
  | ready => rw [hpc] at hs; exact absurd hs (by simp)
  | returned => rw [hpc] at hs; exact absurd hs (by simp)
  | test =>
      rw [hpc] at hs
      cases hs
      cases hrun : c.running with
      | true => exact ⟨rfl, nofun, nofun, fun hd => hd.elim⟩
      | false => exact ⟨rfl, nofun, nofun, fun _ => Or.inr rfl⟩
  | call l =>
      rw [hpc] at hs
      obtain ⟨t, _, he⟩ := Option.map_eq_some_iff.mp hs
      cases he
      refine ⟨rfl, nofun, nofun, fun hd => ?_⟩
      cases l with
      | batch i => exact hd.elim
      | drain => exact Or.inl trivial
  | consuming l =>
      rw [hpc] at hs
      dsimp only at hs
      split at hs
      · obtain ⟨t, _, he⟩ := Option.map_eq_some_iff.mp hs
        cases he
        rw [hpc]
        exact ⟨rfl, nofun, nofun, Or.inl⟩
      · cases hs
        cases l with
        | batch i => exact ⟨rfl, nofun, nofun, fun hd => hd.elim⟩
        | drain => exact ⟨rfl, nofun, nofun, fun _ => Or.inl trivial⟩
      · cases hs
        cases l with
        | batch i =>
            rcases ConsumerLoop.next_batch i with hn | ⟨j, hn⟩ <;>
              (dsimp only; rw [hn]; exact ⟨rfl, nofun, nofun, fun hd => hd.elim⟩)
        | drain => exact ⟨rfl, nofun, nofun, fun _ => Or.inl trivial⟩
  | batchEnd =>
      rw [hpc] at hs
      cases hs
      exact ⟨rfl, nofun, nofun, fun hd => hd.elim⟩
  | drained =>
      rw [hpc] at hs
      cases hs
      exact ⟨rfl, nofun, fun _ => rfl, fun _ => Or.inl trivial⟩

/-- What the thread does to the tables after a step at the ring. -/
def Outcome.dealt (due : Bool) : Outcome → List DbAction
  | .event ev => [.event ev due]
  | .quiet | .batchEnd | .drained => []

theorem Outcome.dealt_events (due : Bool) (out : Outcome) :
    (out.dealt due).filterMap DbAction.event? = out.events
      ∧ (out.dealt due).filterMap DbAction.ack? = [] := by
  cases out <;> exact ⟨rfl, rfl⟩

theorem DbConsumer.deals_working (c : DbConsumer) (due : Bool) (out : Outcome) :
    (c.deals n due out).working = (out.dealt due).foldl Database.apply c.working := by
  cases out with
  | event ev => exact DbConsumer.act_working n c _
  | quiet => rfl
  | batchEnd => exact DbConsumer.maybeFlush_working n false due c
  | drained => exact DbConsumer.maybeFlush_working n true false c

theorem DbConsumer.deals_inTxn {c : DbConsumer} (h : c.inTxn = true) {out : Outcome}
    (hout : out ≠ .drained) (due : Bool) : (c.deals n due out).inTxn = true := by
  cases out with
  | event ev => exact DbConsumer.act_inTxn n _ h
  | quiet => exact h
  | batchEnd => exact DbConsumer.act_inTxn n _ h
  | drained => exact absurd rfl hout

/-- `close` commits. -/
theorem DbConsumer.close_committed {c : DbConsumer} (h : c.inTxn = true) :
    (c.maybeFlush n true false).committed = (c.maybeFlush n true false).working := by
  unfold DbConsumer.maybeFlush
  rw [if_neg (by simp), if_neg (by simp)]
  dsimp only
  rw [if_pos h]

theorem DbInv.ringStep (h : DbInv file s)
    (hinv : SequencerInv cfg.capIn cfg.capOut s.process.sequencer) (hat : ¬ s.AtFills) {due : Bool}
    (hs : s.ringStep n due = some s') : DbInv file s' := by
  obtain ⟨⟨c, seq, out⟩, hc, rfl⟩ := Option.map_eq_some_iff.mp hs
  obtain ⟨actions, hthread, hwritten, hacks⟩ := h.written
  obtain ⟨hrunning, hready, hreturns, hdraining⟩ := ConsumerThread.step_goes hc
  have hnot := ConsumerThread.not_returned hc
  have hclosing := ConsumerThread.step_returns hc
  obtain ⟨hevents, hnoAcks⟩ := out.dealt_events due
  -- the loop over `fills_` is over, or has not begun
  have hloop : ∀ i, s.fillsPc ≠ .popping i := by
    intro i hi
    by_cases hpc : s.process.dbThread.pc = .batchEnd ∨ s.process.dbThread.pc = .drained
    · exact hat ⟨hpc, by rw [hi]; nofun⟩
    · rw [h.loop (fun he => hpc (Or.inl he)) (fun he => hpc (Or.inr he))] at hi
      cases hi
  have hstopped : s.process.dbThread.running = false → s.process.matcher.pc = .returned :=
    fun hstop => (h.stopped hstop).resolve_left hready
  refine ⟨⟨actions ++ out.dealt due, ?_, ?_, ?_⟩, fun _ _ => rfl, fun hpc => ?_, fun hpc => ?_,
    fun hstop => Or.inr (hstopped (hrunning ▸ hstop)), fun hd => ?_, fun hd => ?_,
    fun hdone => absurd (h.joined hdone) hnot⟩
  · rw [List.filterMap_append, hevents]
    exact hthread.step hinv hc
  · rw [List.foldl_append, ← hwritten]
    exact DbConsumer.deals_working s.db due out
  · rw [fillInHand_of_not_popping hloop] at hacks
    rw [List.filterMap_append, hnoAcks, List.append_nil]
    exact hacks
  · exact DbConsumer.deals_inTxn (h.inTxn hnot) (fun hout => hpc (hclosing.mpr hout)) due
  · have hout := hclosing.mp hpc
    rw [hout]
    exact DbConsumer.close_committed (h.inTxn hnot)
  · rcases hdraining hd with hd | hstop
    · exact h.draining hd
    · exact hstopped hstop
  · -- `run` returns from the end of the drain of `fills_`
    refine h.drained ?_
    unfold Store.FillsDrained at hd ⊢
    dsimp only at hd
    cases hpc : c.pc with
    | returned =>
        have hdrained := hreturns hpc
        have hdone : s.fillsPc = .done := by
          by_contra hne
          exact hat ⟨Or.inr hdrained, hne⟩
        rw [hdrained, hdone]
        trivial
    | _ => rw [hpc] at hd; exact hd.elim

/-! ## Whole runs -/

structure StoreInv (file : Database) (s : Store cfg) : Prop where
  process : ProcessInv s.process
  sinks : SinkInv s.sinks
  sifted : Sifted s.sinks
  fills : SpscInv ackQueue s.sinks.fills
  synced : Synced s
  db : DbInv file s

theorem storeInv_init (cfg : Config) (buffers : ProducerId → Nat → SequencedEvent)
    (slots : Nat → SequencedEvent) (acksBuffer fillsBuffer : Nat → OutboundAck)
    (file : Database) :
    StoreInv file (Store.init cfg buffers slots acksBuffer fillsBuffer file) where
  process := processInv_init cfg buffers slots
  sinks := sinkInv_init cfg.pool acksBuffer fillsBuffer
  sifted := sifted_init cfg.pool acksBuffer fillsBuffer
  fills := spscInv_init fillsBuffer
  synced := ⟨rfl, rfl, nofun⟩
  db := dbInv_init cfg buffers slots acksBuffer fillsBuffer file

/-- A step of the queues alone. -/
theorem StoreInv.onSinks (h : StoreInv file s) {a : SinkAction} {fillsPc : FillsPc}
    (hs : s.onSinks a fillsPc = some s') (hsynced : Synced s') (hdb : DbInv file s') :
    StoreInv file s' := by
  obtain ⟨sinks, hk, rfl⟩ := onSinks_eq_some hs
  exact ⟨h.process, (h.sinks.step hk).1, h.sifted.step hk, spscInv_fills h.fills hk, hsynced, hdb⟩

theorem StoreInv.onProcess (h : StoreInv file s) {a : ProcessAction} (hs : s.onProcess a = some s')
    (hmatcher : a ≠ .matcher) (hdb : a ≠ .db) : StoreInv file s' := by
  obtain ⟨p, hp, rfl⟩ := onProcess_eq_some hs
  have haside := h.process.aside hp hmatcher hdb
  exact ⟨processInv_step h.process hp, h.sinks, h.sifted, h.fills, h.synced.aside haside,
    h.db.aside haside⟩

theorem StoreInv.matcherStep (h : StoreInv file s) (hs : s.matcherStep = some s') :
    StoreInv file s' := by
  have hsynced := h.synced.matcherStep hs
  have hdb := h.db.matcherStep hs
  obtain ⟨_, _, c, seq, out, sinks, hc, rfl, hout⟩ := matcherStep_eq_some hs
  have hprocess := h.process.matcherStep hc
  rcases hout with ⟨ev, _, hk⟩ | ⟨_, rfl⟩
  · exact ⟨hprocess, (h.sinks.step hk).1, h.sifted.step hk, spscInv_fills h.fills hk, hsynced, hdb⟩
  · exact ⟨hprocess, h.sinks, h.sifted, h.fills, hsynced, hdb⟩

/-- The gateway takes its acks; nothing else looks at that end of the queue. -/
theorem StoreInv.drainAcks (h : StoreInv file s) {call : Bool}
    (hs : s.onSinks (.drainAcks call) s.fillsPc = some s') : StoreInv file s' := by
  obtain ⟨sinks, hk, he⟩ := onSinks_eq_some hs
  obtain ⟨acks, _, rfl⟩ := Option.map_eq_some_iff.mp hk
  refine h.onSinks hs ?_ ?_
  · rw [he]
    exact h.synced.drain rfl rfl ⟨rfl, rfl⟩
  · rw [he]
    exact h.db.frame rfl (fun _ hinv => hinv) rfl rfl rfl rfl (fun _ => rfl) Or.inl id Or.inl

theorem Synced.fillsStep (h : Synced s) {due : Bool} {tsNs : UInt64}
    (hs : s.fillsStep n due tsNs = some s') : Synced s' := by
  have hdrain : ∀ {call : Bool} {fillsPc : FillsPc},
      s.onSinks (.drainFills call) fillsPc = some s' → Synced s' := by
    intro call fillsPc hs
    obtain ⟨sinks, hk, rfl⟩ := onSinks_eq_some hs
    obtain ⟨fills, _, rfl⟩ := drainFills_eq_some hk
    exact h.drain rfl rfl ⟨rfl, rfl⟩
  unfold Store.fillsStep at hs
  split at hs
  · exact hdrain hs
  · split at hs
    · exact hdrain hs
    all_goals
      cases hs
      exact h.drain rfl rfl ⟨rfl, rfl⟩
  · exact absurd hs (by simp)

/-- The loop over `fills_` takes steps of its queue, or none. -/
theorem fillsStep_sinks {due : Bool} {tsNs : UInt64} (hs : s.fillsStep n due tsNs = some s') :
    s'.process = s.process ∧ (s'.sinks = s.sinks ∨ ∃ a, s.sinks.step a = some s'.sinks) := by
  have hdrain : ∀ {call : Bool} {fillsPc : FillsPc},
      s.onSinks (.drainFills call) fillsPc = some s' →
        s'.process = s.process ∧ (s'.sinks = s.sinks ∨ ∃ a, s.sinks.step a = some s'.sinks) := by
    intro call fillsPc hs
    obtain ⟨sinks, hk, rfl⟩ := onSinks_eq_some hs
    exact ⟨rfl, Or.inr ⟨_, hk⟩⟩
  unfold Store.fillsStep at hs
  split at hs
  · exact hdrain hs
  · split at hs
    · exact hdrain hs
    all_goals
      cases hs
      exact ⟨rfl, Or.inl rfl⟩
  · exact absurd hs (by simp)

theorem StoreInv.dbStep (h : StoreInv file s) {due : Bool} {tsNs : UInt64}
    (hs : s.dbStep n due tsNs = some s') : StoreInv file s' := by
  unfold Store.dbStep at hs
  split at hs
  · rename_i hat
    have hsynced := h.synced.fillsStep hs
    have hdb := h.db.fillsStep h.fills hat hs
    obtain ⟨hprocess, hsinks⟩ := fillsStep_sinks hs
    refine ⟨hprocess ▸ h.process, ?_, ?_, ?_, hsynced, hdb⟩
    all_goals rcases hsinks with hsame | ⟨a, hk⟩
    · exact hsame ▸ h.sinks
    · exact (h.sinks.step hk).1
    · exact hsame ▸ h.sifted
    · exact h.sifted.step hk
    · exact hsame ▸ h.fills
    · exact spscInv_fills h.fills hk
  · rename_i hat
    have hdb := h.db.ringStep h.process.sequencer hat hs
    obtain ⟨⟨c, seq, out⟩, hc, rfl⟩ := Option.map_eq_some_iff.mp hs
    exact ⟨h.process.dbStep hc, h.sinks, h.sifted, h.fills,
      ⟨h.synced.engine, h.synced.acks, h.synced.returned⟩, hdb⟩

theorem storeInv_step {a : StoreAction} (h : StoreInv file s) (hs : s.step n a = some s') :
    StoreInv file s' := by
  cases a with
  | main started =>
      dsimp only [Store.step, Store.mainStep] at hs
      split at hs
      · exact absurd hs (by simp)
      · exact h.onProcess hs nofun nofun
  | push item => exact h.onProcess hs nofun nofun
  | produce => exact h.onProcess hs nofun nofun
  | sequencer now => exact h.onProcess hs nofun nofun
  | wal pad elapsed => exact h.onProcess hs nofun nofun
  | matcher => exact h.matcherStep hs
  | pushAck =>
      obtain ⟨sinks, hk, he⟩ := onSinks_eq_some hs
      exact h.onSinks hs (he ▸ h.synced.pushAck hk _) (he ▸ h.db.pushAck h.synced hk)
  | drainAcks call =>
      dsimp only [Store.step] at hs
      split at hs
      · exact h.drainAcks hs
      · exact absurd hs (by simp)
  | db due tsNs => exact h.dbStep hs

theorem storeInv_exec {buffers : ProducerId → Nat → SequencedEvent}
    {slots : Nat → SequencedEvent} {acksBuffer fillsBuffer : Nat → OutboundAck}
    {actions : List StoreAction}
    (hrun : Machine.exec (Store.step n) (Store.init cfg buffers slots acksBuffer fillsBuffer file)
      actions = some s) : StoreInv file s :=
  Machine.exec_preserves (fun _ _ _ h hs => storeInv_step h hs) actions _ s
    (storeInv_init cfg buffers slots acksBuffer fillsBuffer file) hrun

/-! ## After the shutdown -/

theorem requestRows_fresh {events : List SequencedEvent} (h : Sequenced events) :
    FreshKeys OrderRow.seqNum [] (requestRows events) := by
  refine ⟨?_, fun r _ => by simp⟩
  rw [requestRows, List.map_map, List.Nodup, List.pairwise_map]
  exact (h.2.sublist List.filter_sublist).imp fun hlt he => UInt64.ne_of_lt hlt (toInt64_inj.mp he)

theorem SequencerInv.sequenced {capIn capOut : RingCapacity} {q : Sequencer}
    (h : SequencerInv capIn capOut q) (hlen : q.output.published.length < 2 ^ 64) :
    Sequenced q.output.published := by
  refine Stamped.sequenced (stamped_of_getElem? fun k ev hk => ?_) hlen
  have hlt : k < q.output.published.length := (List.getElem?_eq_some_iff.mp hk).1
  exact h.numbered.getElem? (by rw [Sequencer.stamped, List.getElem?_append_left hlt, hk])

/-- What the database says, against the events of the log. -/
structure Mirrors (s : Store cfg) (events : List SequencedEvent) : Prop where
  orders : s.db.committed.orders = requestRows events
  /-- The reports are some of the engine's acks, in its order. -/
  reports : List.Sublist (s.db.committed.executionReports.map ReportRow.toOutboundAck)
    ((MatchingEngineConsumer.init cfg.pool).replay events).2
  /-- Those that are missing are counted. -/
  counted : ((MatchingEngineConsumer.init cfg.pool).replay events).2.length
    = s.db.committed.executionReports.length + s.sinks.acksDropped.toNat
      + s.sinks.fillsDropped.toNat
  whole : s.sinks.acksDropped = 0 → s.sinks.fillsDropped = 0 →
    s.db.committed.executionReports.map ReportRow.toOutboundAck
      = ((MatchingEngineConsumer.init cfg.pool).replay events).2

/-- When the process is done, the matcher and the database's thread have returned. -/
theorem StoreInv.returned (h : StoreInv file s) (hdone : s.process.main = .done) :
    s.process.matcher.pc = .returned ∧ s.process.dbThread.pc = .returned :=
  ⟨h.process.joined.matcher (by rw [hdone]; decide), h.db.joined hdone⟩

theorem StoreInv.orders (h : StoreInv .empty s) (hdone : s.process.main = .done)
    (hlen : s.process.sequencer.output.published.length < 2 ^ 64) :
    s.db.committed.orders = requestRows s.process.sequencer.output.published := by
  obtain ⟨handled, hthread, horders⟩ := h.db.orders
  have hpc := (h.returned hdone).2
  rw [h.db.closed hpc, horders, hthread.complete hpc hlen]
  -- no number is given out twice, so no row is refused
  exact (insertAll_eq_append_iff _ _).mpr
    (requestRows_fresh (h.process.sequencer.sequenced hlen))

/-- All that went into `fills_` was taken out and written. -/
theorem StoreInv.drained (h : StoreInv file s) (hdone : s.process.main = .done) :
    s.fillInHand = [] ∧ s.sinks.fills.popped = s.sinks.fills.pushed := by
  have hpc := (h.returned hdone).2
  have hloop := h.db.loop (by rw [hpc]; nofun) (by rw [hpc]; nofun)
  have hdrained : s.FillsDrained := by
    unfold Store.FillsDrained
    rw [hpc]
    trivial
  exact ⟨fillInHand_of_not_popping (by rw [hloop]; nofun), h.db.drained hdrained⟩

theorem StoreInv.reports (h : StoreInv .empty s) (hdone : s.process.main = .done) :
    s.db.committed.executionReports.map ReportRow.toOutboundAck = s.sinks.fills.pushed := by
  obtain ⟨hhand, hpopped⟩ := h.drained hdone
  have hreports := h.db.reports
  rw [hhand, List.append_nil, hpopped] at hreports
  rw [h.db.closed (h.returned hdone).2, hreports]
  rfl

/-- The acks that did not get into `fills_` are counted. -/
theorem StoreInv.counted (h : StoreInv file s) (hdone : s.process.main = .done)
    (hacked : s.process.acks.length < 2 ^ 64) :
    List.Sublist s.sinks.fills.pushed s.process.acks
      ∧ s.process.acks.length
        = s.sinks.fills.pushed.length + s.sinks.acksDropped.toNat + s.sinks.fillsDropped.toNat := by
  obtain ⟨hphase, hrest⟩ := h.synced.returned (h.returned hdone).1
  have hacks := h.synced.acks
  rw [hrest, List.append_nil] at hacks
  have hlost := h.sinks.dropped (hacks ▸ hacked)
  have hledgers := h.sinks
  rw [SinkInv, hphase] at hledgers
  have hpersistence := hledgers.persistence
  have hdropped := hledgers.dropped
  rw [List.length_nil] at hdropped
  refine ⟨hacks ▸ h.sifted.sublist, ?_⟩
  rw [← hacks]
  omega

theorem StoreInv.undropped (h : StoreInv file s) (hdone : s.process.main = .done)
    (hacked : s.process.acks.length < 2 ^ 64) (hacks : s.sinks.acksDropped = 0)
    (hfills : s.sinks.fillsDropped = 0) : s.sinks.fills.pushed = s.process.acks := by
  obtain ⟨hsub, hcount⟩ := h.counted hdone hacked
  rw [hacks, hfills, UInt64.toNat_zero, Nat.add_zero] at hcount
  exact hsub.eq_of_length hcount.symm

theorem StoreInv.mirrors (h : StoreInv .empty s) (hdone : s.process.main = .done)
    (hlen : s.process.sequencer.output.published.length < 2 ^ 64)
    (hacked : ((MatchingEngineConsumer.init cfg.pool).replay
      s.process.sequencer.output.published).2.length < 2 ^ 64) :
    Mirrors s s.process.sequencer.output.published := by
  have hreplay := h.process.applied (by rw [hdone]; decide) hlen
  have hreports := h.reports hdone
  rw [hreplay] at hacked
  obtain ⟨hsub, hcount⟩ := h.counted hdone hacked
  refine ⟨h.orders hdone hlen, ?_, ?_, fun hacks hfills => ?_⟩
  · rw [hreports, hreplay]
    exact hsub
  · rw [hreplay, hcount, ← hreports, List.length_map]
  · rw [hreports, hreplay]
    exact h.undropped hdone hacked hacks hfills

/-- **The database holds what the log replays to**: when the process has shut down, the log
decodes to events whose requests are the rows of `orders`, and the rows of
`execution_reports` are what a fresh engine says to those events, but for the acks that were
dropped. -/
theorem database_mirrors_log (cfg : Config) (batchEveryN : Nat)
    (buffers : ProducerId → Nat → SequencedEvent) (slots : Nat → SequencedEvent)
    (acksBuffer fillsBuffer : Nat → OutboundAck) (actions : List StoreAction) (s : Store cfg)
    (hrun : Machine.exec (Store.step batchEveryN)
      (Store.init cfg buffers slots acksBuffer fillsBuffer .empty) actions = some s)
    (hdone : s.process.main = .done)
    (hlen : s.process.sequencer.output.published.length < 2 ^ 64)
    (hacked : ((MatchingEngineConsumer.init cfg.pool).replay
      s.process.sequencer.output.published).2.length < 2 ^ 64) :
    ∃ events, Bytes.decodeAll recordSize decodeRecord s.process.wal.file = some events
      ∧ Mirrors s events := by
  have h := storeInv_exec hrun
  have hlog := h.process.logged (by rw [hdone]; decide) hlen
  exact ⟨s.process.sequencer.output.published, hlog.decode, h.mirrors hdone hlen hacked⟩

/-- One order on its way through the whole process: into the log, into `orders`, and its
acceptance, by way of the matcher and `fills_`, into `execution_reports`. -/
theorem database_mirrors_log_one_order :
    let cfg : Config := ⟨⟨1, by decide⟩, ⟨0, by decide⟩, 8, ⟨1, by decide⟩, 256⟩
    let pad : Padding := ⟨(7, 7), (7, 7, 7), (7, 7, 7, 7)⟩
    let blank : OutboundAck := ⟨0, 0, 0, .accepted, 0, 0, 0⟩
    let actions : List StoreAction :=
      List.replicate 8 (StoreAction.main true)
      ++ [StoreAction.push { sessionId := 4, clientOrderId := 9, price := 100, quantity := 5 },
          .produce, .produce, .produce]
      ++ List.replicate 9 (StoreAction.sequencer 70) ++ [StoreAction.main true, .main true]
      ++ List.replicate 11 (StoreAction.sequencer 71) ++ [StoreAction.main true, .main true]
      ++ List.replicate 6 StoreAction.matcher ++ List.replicate 9 StoreAction.pushAck
      ++ List.replicate 4 StoreAction.matcher ++ [StoreAction.main true, .main true]
      ++ List.replicate 10 (StoreAction.wal pad false) ++ [StoreAction.main true, .main true]
      ++ List.replicate 18 (StoreAction.db false 77) ++ [StoreAction.main true]
    ∃ s, Machine.exec (Store.step 256) (Store.init cfg (fun _ _ => {}) (fun _ => {})
        (fun _ => blank) (fun _ => blank) .empty) actions = some s
      ∧ s.process.main = .done ∧ s.sinks.acksDropped = 0 ∧ s.sinks.fillsDropped = 0
      ∧ s.db.committed.executionReports.map (fun r => (r.id, r.clientOrderId, r.status))
          = [(1, 9, .accepted)]
      ∧ ∃ events, Bytes.decodeAll recordSize decodeRecord s.process.wal.file = some events
        ∧ Mirrors s events := by
  intro cfg pad blank actions
  have heval : ((Machine.exec (Store.step 256) (Store.init cfg (fun _ _ => {}) (fun _ => {})
      (fun _ => blank) (fun _ => blank) .empty) actions).map fun s =>
        (s.process.main, s.sinks.acksDropped, s.sinks.fillsDropped,
          s.process.sequencer.output.published.length,
          ((MatchingEngineConsumer.init cfg.pool).replay
            s.process.sequencer.output.published).2.length)) = some (.done, 0, 0, 1, 1) := by
    decide +kernel
  have hreports : ((Machine.exec (Store.step 256) (Store.init cfg (fun _ _ => {}) (fun _ => {})
      (fun _ => blank) (fun _ => blank) .empty) actions).map fun s =>
        s.db.committed.executionReports.map fun r => (r.id, r.clientOrderId, r.status))
      = some [(1, 9, .accepted)] := by
    decide +kernel
  obtain ⟨s, hs, heval⟩ := Option.map_eq_some_iff.mp heval
  simp only [Prod.mk.injEq] at heval
  obtain ⟨hdone, hacks, hfills, hpublished, hacked⟩ := heval
  rw [hs] at hreports
  exact ⟨s, hs, hdone, hacks, hfills, Option.some.inj hreports,
    database_mirrors_log cfg 256 (fun _ _ => {}) (fun _ => {}) (fun _ => blank) (fun _ => blank)
      actions s hs hdone (by rw [hpublished]; decide) (by rw [hacked]; decide)⟩

end HftLob.Pipeline

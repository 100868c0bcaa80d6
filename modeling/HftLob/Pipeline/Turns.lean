import Mathlib.Data.Prod.Lex
import HftLob.Lib.LeadsTo
import HftLob.Pipeline.CatchUp

/-!
# A consumer that gets its turns keeps up

The scheduler gives turns to threads. In its turn a thread makes its next step, or none if
it waits for another; which step of the matcher is next depends on whether it is in
`push_ack`. Nothing is assumed of the order of the turns.

Whatever has been published is consumed in the end by every consumer that keeps getting
turns, and one that has been told to stop returns. Neither needs the other consumers, or
somebody who takes the acks.
-/

namespace HftLob.Pipeline

open HftLob.Lib HftLob.Ring HftLob.Book HftLob.Engine

/-! ## What only grows -/

namespace Sequencer

variable {capIn capOut : RingCapacity} {maxConsumers : Nat} {q q' : Sequencer}

theorem runStep_published {now : Nanos} (hq : q.runStep capIn capOut maxConsumers now = some q') :
    q.output.published <+: q'.output.published := by
  have honOutput : ∀ {b : RingAction SequencedEvent} {t : Sequencer},
      q.onOutput capOut maxConsumers b = some t → q.output.published <+: t.output.published := by
    intro b t ht
    obtain ⟨r, hr, rfl⟩ := onOutput_eq_some ht
    exact step_published hr
  unfold Sequencer.runStep at hq
  split at hq
  · exact absurd hq (by simp)
  · exact absurd hq (by simp)
  · cases hq; exact List.prefix_rfl
  · obtain ⟨t, ht, rfl⟩ := Option.map_eq_some_iff.mp hq
    obtain ⟨input, _, rfl⟩ := onInput_eq_some ht
    exact List.prefix_rfl
  · split at hq
    · obtain ⟨input, _, rfl⟩ := onInput_eq_some hq
      exact List.prefix_rfl
    · cases hq; exact List.prefix_rfl
    · obtain ⟨t, ht, rfl⟩ := Option.map_eq_some_iff.mp hq
      have hgrows := honOutput ht
      exact hgrows
  · split at hq
    · exact honOutput hq
    · exact honOutput hq
    · cases hq; exact List.prefix_rfl

/-- Nobody but the thread of the sequencer publishes. -/
theorem step_published_eq {a : SequencerAction} (hq : q.step capIn capOut maxConsumers a = some q')
    (hrun : ∀ now, a ≠ .run now) : q'.output.published = q.output.published := by
  cases a with
  | register =>
      dsimp only [Sequencer.step] at hq
      split at hq
      · obtain ⟨r, hr, rfl⟩ := onOutput_eq_some hq
        exact (register_spec hr).1
      · exact absurd hq (by simp)
  | start =>
      dsimp only [Sequencer.step] at hq
      split at hq
      · cases hq; rfl
      · exact absurd hq (by simp)
  | stop => cases hq; rfl
  | push p item => obtain ⟨input, _, rfl⟩ := onInput_eq_some hq; rfl
  | produce p => obtain ⟨input, _, rfl⟩ := onInput_eq_some hq; rfl
  | run now => exact absurd rfl (hrun now)
  | consume id =>
      obtain ⟨r, hr, rfl⟩ := onOutput_eq_some hq
      exact (consume_spec hr).1.published
  | read id =>
      obtain ⟨r, hr, rfl⟩ := onOutput_eq_some hq
      exact (read_spec hr).1.published

theorem step_consumed {a : SequencerAction} (hq : q.step capIn capOut maxConsumers a = some q')
    (id : Nat) : (q.output.consumed id).length ≤ (q'.output.consumed id).length := by
  by_cases hconsume : a = .consume id
  · subst hconsume
    obtain ⟨r, hr, rfl⟩ := onOutput_eq_some hq
    dsimp only
    rw [(consume_spec hr).2.1]
  by_cases hread : a = .read id
  · subst hread
    obtain ⟨r, hr, rfl⟩ := onOutput_eq_some hq
    dsimp only
    rcases (read_spec hr).2.2 with ⟨hsame, _⟩ | ⟨out, hmore, _⟩
    · rw [hsame]
    · rw [hmore, List.length_append]
      omega
  rw [(step_other hq hconsume hread).1]

end Sequencer

section Moves

variable {cfg : Config} {n : Nat} {s s' : Store cfg} {worker : Option Worker}

theorem ThreadMove.published (h : ThreadMove s s' worker) :
    s.process.sequencer.output.published.length ≤ s'.process.sequencer.output.published.length
      ∧ (worker ≠ some .sequencer → s'.process.sequencer.output.published
          = s.process.sequencer.output.published) := by
  have hquiet : s'.process.sequencer.output.published
      = s.process.sequencer.output.published →
      s.process.sequencer.output.published.length
        ≤ s'.process.sequencer.output.published.length
      ∧ (worker ≠ some .sequencer → s'.process.sequencer.output.published
          = s.process.sequencer.output.published) :=
    fun he => ⟨by rw [he], fun _ => he⟩
  cases h with
  | main started hworker hstep =>
      rcases Process.mainStep_sequencer hstep with he | ⟨a, hgoverns, ha⟩
      · exact hquiet (by rw [he])
      · exact hquiet (Sequencer.step_published_eq ha hgoverns.ne.1)
  | sequencer a ha hworker hstep _ _ =>
      rcases hworker with ⟨⟨now, rfl⟩, hseq⟩ | ⟨haccepts, _⟩
      · exact ⟨(Sequencer.runStep_published hstep).length_le, fun hne => absurd hseq hne⟩
      · exact hquiet (Sequencer.step_published_eq hstep haccepts.ne)
  | follower x _ out hstep _ _ =>
      rcases ConsumerThread.step_sequencer hstep with he | ⟨a, ha, hread⟩
      · exact hquiet (by rw [he])
      · refine hquiet (Sequencer.step_published_eq ha fun now he => ?_)
        rcases hread with rfl | rfl <;> exact nomatch he
  | still hprocess => exact hquiet (by rw [hprocess])

/-- When the sequencer has returned, the stream is complete. -/
theorem ThreadMove.complete (h : ThreadMove s s' worker)
    (hpc : s.process.sequencer.pc = .returned) :
    s'.process.sequencer.pc = .returned
      ∧ s'.process.sequencer.output.published = s.process.sequencer.output.published := by
  cases h with
  | main started _ hstep =>
      rcases Process.mainStep_sequencer hstep with he | ⟨a, _, ha⟩
      · rw [he]; exact ⟨hpc, rfl⟩
      · exact step_returned ha hpc
  | sequencer a _ _ hstep _ _ => exact step_returned hstep hpc
  | follower x _ out hstep _ _ =>
      rcases ConsumerThread.step_sequencer hstep with he | ⟨a, ha, _⟩
      · rw [he]; exact ⟨hpc, rfl⟩
      · exact step_returned ha hpc
  | still hprocess => rw [hprocess]; exact ⟨hpc, rfl⟩

theorem ThreadMove.consumed (h : ThreadMove s s' worker) (id : Nat) :
    (s.process.sequencer.output.consumed id).length
      ≤ (s'.process.sequencer.output.consumed id).length := by
  cases h with
  | main started _ hstep =>
      rcases Process.mainStep_sequencer hstep with he | ⟨a, _, ha⟩
      · rw [he]
      · exact Sequencer.step_consumed ha id
  | sequencer a _ _ hstep _ _ => exact Sequencer.step_consumed hstep id
  | follower x _ out hstep _ _ =>
      rcases ConsumerThread.step_sequencer hstep with he | ⟨a, ha, _⟩
      · rw [he]
      · exact Sequencer.step_consumed ha id
  | still hprocess => rw [hprocess]

/-- Where a consumer is, and what it has consumed. -/
structure FollowerSame (x : Follower) (s s' : Store cfg) : Prop where
  pc : (s'.process.thread x).pc = (s.process.thread x).pc
  reader : s'.process.sequencer.output.readers x.id = s.process.sequencer.output.readers x.id
  consumed : s'.process.sequencer.output.consumed x.id
    = s.process.sequencer.output.consumed x.id

/-- Once the threads are started, nobody else moves a consumer. -/
theorem ThreadMove.followerSame (h : ThreadMove s s' worker) {x : Follower}
    (hne : worker ≠ some (.follower x))
    (hstarted : MainPc.startServer.pos ≤ s.process.main.pos) : FollowerSame x s s' := by
  have hquiet : ∀ {a : SequencerAction},
      s.process.sequencer.step cfg.capIn cfg.capOut cfg.maxConsumers a
        = some s'.process.sequencer → (a ≠ .consume x.id ∧ a ≠ .read x.id) →
      (s'.process.thread x).pc = (s.process.thread x).pc → FollowerSame x s s' := by
    intro a ha hnot hpc
    obtain ⟨hconsumed, hreader⟩ := step_other ha hnot.1 hnot.2
    exact ⟨hpc, hreader, hconsumed⟩
  cases h with
  | main started _ hstep =>
      have hpc : (s'.process.thread x).pc = (s.process.thread x).pc := by
        refine (Process.mainStep_thread hstep x).resolve_right fun hstart => ?_
        rw [hstart.1] at hstarted
        revert hstarted
        cases x <;> decide
      rcases Process.mainStep_sequencer hstep with he | ⟨a, hgoverns, ha⟩
      · exact ⟨hpc, by rw [he], by rw [he]⟩
      · exact hquiet ha (hgoverns.ne.2 x.id) hpc
  | sequencer a ha _ hstep hthreads _ => exact hquiet hstep (ha.2 x.id) (by rw [hthreads])
  | follower y hworker out hstep hthreads _ =>
      have hxy : x ≠ y := fun he => hne (by rw [hworker, he])
      rcases ConsumerThread.step_quiet hstep (Follower.id_ne hxy) with he | ⟨a, ha, hnot⟩
      · exact ⟨by rw [hthreads x hxy], by rw [he], by rw [he]⟩
      · exact hquiet ha hnot (by rw [hthreads x hxy])
  | still hprocess => exact ⟨by rw [hprocess], by rw [hprocess], by rw [hprocess]⟩

end Moves

/-! ## Turns -/

namespace Store

variable {cfg : Config}

/-- What the thread of this action does next: the matcher has to finish `apply` before it
goes back to the ring. -/
def next (s : Store cfg) : StoreAction → StoreAction
  | .matcher | .pushAck =>
      match s.sinks.phase, s.sinks.rest with
      | .idle, [] => .matcher
      | _, _ => .pushAck
  | .main started => .main started
  | .push item => .push item
  | .produce => .produce
  | .sequencer now => .sequencer now
  | .wal pad elapsed => .wal pad elapsed
  | .drainAcks call => .drainAcks call
  | .db due tsNs => .db due tsNs

/-- A turn. A thread that has to wait does nothing with it. -/
def turn (n : Nat) (s : Store cfg) (a : StoreAction) : Store cfg := (s.step n (s.next a)).getD s

variable {n : Nat} {s : Store cfg} {a : StoreAction} {file : Database}

theorem worker_next (s : Store cfg) (a : StoreAction) : (s.next a).worker = a.worker := by
  cases a with
  | matcher | pushAck => unfold Store.next; dsimp only; split <;> rfl
  | _ => rfl

theorem turn_cases (n : Nat) (s : Store cfg) (a : StoreAction) :
    s.step n (s.next a) = some (s.turn n a) ∨ s.turn n a = s := by
  unfold Store.turn
  cases s.step n (s.next a) with
  | none => exact Or.inr rfl
  | some s' => exact Or.inl rfl

theorem turn_eq {s' : Store cfg} (h : s.step n (s.next a) = some s') : s.turn n a = s' := by
  unfold Store.turn
  rw [h]
  rfl

theorem turn_move (n : Nat) (s : Store cfg) (a : StoreAction) :
    ThreadMove s (s.turn n a) a.worker := by
  rcases turn_cases n s a with hstep | hsame
  · rw [← worker_next s a]
    exact threadMove_step hstep
  · exact .still (by rw [hsame])

/-- A state in which every thread is started and able to go on. -/
structure Live (file : Database) (s : Store cfg) : Prop where
  inv : StoreInv file s
  poised : s.Poised
  started : MainPc.startServer.pos ≤ s.process.main.pos
  short : s.process.sequencer.output.published.length < 2 ^ 64

theorem Live.able (h : Live file s) (x : Follower) : ∃ handled,
    ConsumerThread.Able cfg.capIn cfg.capOut x.id (s.process.thread x) s.process.sequencer
      handled := by
  have hthread : ∃ handled, ThreadInv x.id (s.process.thread x) s.process.sequencer handled := by
    cases x with
    | matcher =>
        obtain ⟨handled, hthread, _⟩ := h.inv.process.matcher
        exact ⟨handled, hthread⟩
    | wal =>
        obtain ⟨handled, hthread, _⟩ := h.inv.process.wal
        exact ⟨handled, hthread⟩
    | db =>
        obtain ⟨handled, hthread, _⟩ := h.inv.db.orders
        exact ⟨handled, hthread⟩
  have hready : (s.process.thread x).pc ≠ .ready :=
    h.poised.staged.started x (Nat.lt_of_lt_of_le (by cases x <;> decide) h.started)
  obtain ⟨handled, hthread⟩ := hthread
  exact ⟨handled, h.inv.process.sequencer, hthread, h.poised.threads x, hready, h.short⟩

theorem Live.consumed_le (h : Live file s) (id : Nat) :
    (s.process.sequencer.output.consumed id).length
      ≤ s.process.sequencer.output.published.length := by
  rw [(h.inv.process.sequencer.ring h.short).consumed id]
  exact List.length_take_le' _ _

/-- A consumer is told to stop after the sequencer has been joined. -/
theorem Live.returned (h : Live file s) {x : Follower}
    (hx : x.joining.pos ≤ s.process.main.pos) : s.process.sequencer.pc = .returned :=
  h.inv.process.joined.sequencer (Nat.le_trans (by cases x <;> decide) hx)

/-! ## A consumer's own turn -/

/-- Something keeps the consumer from the ring. -/
def Occupied (s : Store cfg) : Follower → Prop
  | .matcher => s.sinks.Busy
  | .wal => False
  | .db => s.AtFills

theorem next_matcher (ha : a.worker = some (.follower .matcher)) :
    (s.sinks.Busy → s.next a = .pushAck) ∧ (¬s.sinks.Busy → s.next a = .matcher) := by
  have hmatch : s.next a = match s.sinks.phase, s.sinks.rest with
      | .idle, [] => StoreAction.matcher
      | _, _ => .pushAck := by
    cases a with
    | matcher | pushAck => rfl
    | _ => exact nomatch ha
  rw [hmatch]
  unfold Sinks.Busy
  constructor
  · intro hbusy
    split
    · rename_i hphase hrest
      exact absurd ⟨hphase, hrest⟩ hbusy
    · rfl
  · intro hfree
    obtain ⟨hphase, hrest⟩ := not_not.mp hfree
    rw [hphase, hrest]

/-- With nothing else to do, a consumer takes its next step at the ring. -/
theorem turn_ring {x : Follower} (ha : a.worker = some (.follower x)) (hfree : ¬s.Occupied x)
    {c : ConsumerThread} {q : Sequencer} {out : Outcome}
    (hc : (s.process.thread x).step cfg.capIn cfg.capOut cfg.maxConsumers x.id
      s.process.sequencer = some (c, q, out)) :
    (s.turn n a).process.thread x = c ∧ (s.turn n a).process.sequencer = q := by
  cases x with
  | matcher =>
      have hstep : s.process.consumerStep matcherId s.process.matcher = some (c, q, out) := hc
      obtain ⟨hphase, hrest⟩ := not_not.mp hfree
      obtain ⟨s', hs', hthread, hseq⟩ : ∃ s', s.matcherStep = some s'
          ∧ s'.process.matcher = c ∧ s'.process.sequencer = q := by
        unfold Store.matcherStep
        rw [hphase, hrest]
        dsimp only
        rw [hstep]
        cases out with
        | event ev =>
            dsimp only [Option.bind, Sinks.step]
            rw [hphase, hrest]
            exact ⟨_, rfl, rfl, rfl⟩
        | quiet | batchEnd | drained => exact ⟨_, rfl, rfl, rfl⟩
      have hturn : s.step n (s.next a) = some s' := by
        rw [(next_matcher ha).2 hfree]
        exact hs'
      rw [turn_eq hturn]
      exact ⟨hthread, hseq⟩
  | wal =>
      have hstep : s.process.consumerStep walId s.process.walThread = some (c, q, out) := hc
      cases a with
      | wal pad elapsed =>
          have hturn : s.step n (.wal pad elapsed) = some { s with
              process := { s.process with walThread := c, sequencer := q }.walDeals pad elapsed
                out } := by
            dsimp only [Store.step, Store.onProcess, Process.step]
            rw [hstep]
            rfl
          rw [turn_eq hturn]
          cases out <;> exact ⟨rfl, rfl⟩
      | _ => exact nomatch ha
  | db =>
      have hstep : s.process.consumerStep dbId s.process.dbThread = some (c, q, out) := hc
      cases a with
      | db due tsNs =>
          have hturn : s.step n (.db due tsNs) = some { s with
              process := { s.process with dbThread := c, sequencer := q }
              db := s.db.deals n due out
              fillsPc := .call 0 } := by
            have hat : ¬s.AtFills := hfree
            dsimp only [Store.step, Store.dbStep]
            rw [if_neg hat]
            dsimp only [Store.ringStep]
            rw [hstep]
            rfl
          rw [turn_eq hturn]
          exact ⟨rfl, rfl⟩
      | _ => exact nomatch ha

/-- How much of something else a consumer has to do before it is back at the ring. -/
def localRank (s : Store cfg) : Follower → Nat
  | .matcher => s.sinks.pushRank
  | .wal => 0
  | .db => s.fillsPc.batchRank s.sinks.fills.consumer

theorem turn_push (h : s.Poised) (ha : a.worker = some (.follower .matcher))
    (hbusy : s.sinks.Busy) :
    (s.turn n a).process = s.process ∧ (s.turn n a).sinks.pushRank < s.sinks.pushRank := by
  obtain ⟨k, hk, hlt⟩ := h.sinks.push_closer hbusy
  have hturn : s.step n (s.next a) = some { s with sinks := k } := by
    rw [(next_matcher ha).1 hbusy]
    dsimp only [Store.step, Store.onSinks, Sinks.step]
    rw [hk]
    rfl
  rw [turn_eq hturn]
  exact ⟨rfl, hlt⟩

theorem turn_fills {s' : Store cfg} {due : Bool} {tsNs : UInt64} (hat : s.AtFills)
    (hs : s.fillsStep n due tsNs = some s') : s.turn n (.db due tsNs) = s' := by
  refine turn_eq ?_
  dsimp only [Store.next, Store.step, Store.dbStep]
  rw [if_pos hat]
  exact hs

theorem turn_occupied {x : Follower} (h : s.Poised) (ha : a.worker = some (.follower x))
    (hoccupied : s.Occupied x) (hbatch : (s.process.thread x).pc ≠ .drained) :
    (s.turn n a).process = s.process ∧ (s.turn n a).localRank x < s.localRank x := by
  cases x with
  | matcher => exact turn_push h ha hoccupied
  | wal => exact hoccupied.elim
  | db =>
      cases a with
      | db due tsNs =>
          have hpc := hoccupied.1.resolve_right hbatch
          obtain ⟨s', hs', hlt⟩ := h.batch_closer hoccupied hpc
          rw [turn_fills hoccupied hs']
          exact ⟨(fillsStep_sinks hs').1, hlt⟩
      | _ => exact nomatch ha

/-- Nobody else does a consumer's work. -/
theorem turn_localRank {x : Follower} (ha : a.worker ≠ some (.follower x)) :
    (s.turn n a).localRank x = s.localRank x := by
  rcases turn_cases n s a with hstep | hsame
  · rw [← worker_next s a] at ha
    cases x with
    | matcher =>
        have hpush := pushSame_step hstep ha
        dsimp only [localRank, Sinks.pushRank, Sinks.phaseRank]
        rw [hpush.phase, hpush.rest, hpush.acks, hpush.fills]
    | wal => rfl
    | db =>
        have hpop := popSame_step hstep ha
        dsimp only [localRank]
        rw [hpop.loop, hpop.consumer]
  · rw [hsame]

/-- The same for a consumer that is to stop; the database then drains `fills_`. -/
def lastRank (s : Store cfg) : Follower → Nat
  | .matcher => s.sinks.pushRank
  | .wal => 0
  | .db =>
      if s.process.dbThread.pc = .drained then
        s.fillsPc.drainRank s.sinks.fills.stored s.sinks.fills.consumer
      else s.fillsPc.batchRank s.sinks.fills.consumer

theorem turn_last {x : Follower} (h : s.Live file) (ha : a.worker = some (.follower x))
    (hoccupied : s.Occupied x) :
    (s.turn n a).process = s.process ∧ (s.turn n a).lastRank x < s.lastRank x := by
  cases x with
  | matcher => exact turn_push h.poised ha hoccupied
  | wal => exact hoccupied.elim
  | db =>
      cases a with
      | db due tsNs =>
          unfold lastRank
          by_cases hpc : s.process.dbThread.pc = .drained
          · obtain ⟨s', hs', hlt⟩ := h.poised.drain_closer h.inv.fills hoccupied hpc
            rw [turn_fills hoccupied hs']
            have hprocess := (fillsStep_sinks hs').1
            dsimp only
            rw [hprocess, if_pos hpc, if_pos hpc]
            exact ⟨rfl, hlt⟩
          · obtain ⟨s', hs', hlt⟩ :=
              h.poised.batch_closer hoccupied (hoccupied.1.resolve_right hpc)
            rw [turn_fills hoccupied hs']
            have hprocess := (fillsStep_sinks hs').1
            dsimp only
            rw [hprocess, if_neg hpc, if_neg hpc]
            exact ⟨rfl, hlt⟩
      | _ => exact nomatch ha

/-- A matcher that has returned makes no use of its turns. -/
theorem turn_matcher_returned (h : Synced s) (hpc : s.process.matcher.pc = .returned)
    (ha : a.worker = some (.follower .matcher)) : s.turn n a = s := by
  have hfree : ¬s.sinks.Busy := not_not.mpr (h.returned hpc)
  have hnone : s.step n (s.next a) = none := by
    rw [(next_matcher ha).2 hfree]
    dsimp only [Store.step, Store.matcherStep]
    split
    · dsimp only [Process.consumerStep, ConsumerThread.step]
      rw [hpc]
      rfl
    · rfl
  unfold Store.turn
  rw [hnone]
  rfl

theorem turn_lastRank {x : Follower} (h : s.Live file) (ha : a.worker ≠ some (.follower x)) :
    (s.turn n a).lastRank x = s.lastRank x := by
  have hlocal := turn_localRank (n := n) (s := s) ha
  cases x with
  | matcher | wal => exact hlocal
  | db =>
      have hpc : (s.turn n a).process.dbThread.pc = s.process.dbThread.pc :=
        ((turn_move n s a).followerSame ha h.started).pc
      unfold lastRank
      dsimp only
      rw [hpc]
      by_cases hdrained : s.process.dbThread.pc = .drained
      · rw [if_pos hdrained, if_pos hdrained]
        -- the matcher was joined before the database was told to stop
        have hmatcher := h.inv.db.draining (by rw [hdrained]; trivial)
        by_cases hworker : a.worker = some (.follower .matcher)
        · rw [turn_matcher_returned h.inv.synced hmatcher hworker]
        · rcases turn_cases n s a with hstep | hsame
          · rw [← worker_next s a] at ha hworker
            have hpop := popSame_step hstep ha
            dsimp only [SpscRingBuffer.stored]
            rw [hpop.loop, hpop.consumer, hpop.popped, (pushSame_step hstep hworker).pushed]
          · rw [hsame]
      · rw [if_neg hdrained, if_neg hdrained]
        exact hlocal

end Store

/-! ## What consumers get done -/

section LeadsTo

variable {cfg : Config} (n : Nat) (file : Database) (fair : Worker → Prop)
  (during : Store cfg → Prop)

/-- The process under a scheduler, as long as `during` holds. -/
def schedule : Scheduled (Store cfg) StoreAction Worker where
  act := fun s a => s.turn n a
  party := StoreAction.worker
  fair := fair
  Inv := fun s => s.Live file ∧ during s

variable {n file fair during}

/-- **A consumer keeps up**: what is published it consumes in the end. -/
theorem catches_up (x : Follower) (hx : fair (.follower x)) (m : Nat) :
    (schedule n file fair during).LeadsTo
      (fun s => m ≤ s.process.sequencer.output.published.length)
      (fun s => m ≤ (s.process.sequencer.output.consumed x.id).length) := by
  refine Scheduled.leadsTo_of_measure
    (fun s => m - (s.process.sequencer.output.consumed x.id).length) fun v => ?_
  refine Scheduled.leadsTo_of_rank (Worker.follower x) hx
    (fun s => toLex ((s.process.thread x).pc.catchRank (s.process.sequencer.output.readers x.id),
      s.localRank x)) ?_ ?_
  · rintro s a ⟨hlive, _⟩ _ ⟨hm, hv⟩ ha
    have hmove := Store.turn_move n s a
    have hsame := hmove.followerSame ha hlive.started
    refine Or.inr ⟨⟨Nat.le_trans hm hmove.published.1, ?_⟩, ?_⟩
    · show m - ((s.turn n a).process.sequencer.output.consumed x.id).length = v
      rw [hsame.consumed]
      exact hv
    · show toLex (((s.turn n a).process.thread x).pc.catchRank
        ((s.turn n a).process.sequencer.output.readers x.id), (s.turn n a).localRank x) = _
      rw [hsame.pc, hsame.reader, Store.turn_localRank ha]
  · rintro s a ⟨hlive, _⟩ _ ⟨hm, hv⟩ ha
    have hmove := Store.turn_move n s a
    have hm' := Nat.le_trans hm hmove.published.1
    have hv : m - (s.process.sequencer.output.consumed x.id).length = v := hv
    by_cases hdone : m ≤ (s.process.sequencer.output.consumed x.id).length
    · exact Or.inl (Or.inl (Nat.le_trans hdone (hmove.consumed x.id)))
    have hlag : (s.process.sequencer.output.consumed x.id).length
        < s.process.sequencer.output.published.length := by omega
    obtain ⟨handled, hable⟩ := hlive.able x
    by_cases hoccupied : s.Occupied x
    · -- the thread is not at the ring: something else gets shorter
      have hbatch : (s.process.thread x).pc ≠ .drained := by
        intro hpc
        refine hable.not_exhausted hlag ?_
        unfold Exhausted
        rw [hpc]
        trivial
      obtain ⟨hprocess, hlocal⟩ := Store.turn_occupied (n := n) hlive.poised ha hoccupied hbatch
      refine Or.inr ⟨⟨hm', ?_⟩, Prod.Lex.toLex_lt_toLex.mpr (Or.inr ⟨?_, hlocal⟩)⟩
      · show m - ((s.turn n a).process.sequencer.output.consumed x.id).length = v
        rw [hprocess]
        exact hv
      · show ((s.turn n a).process.thread x).pc.catchRank
          ((s.turn n a).process.sequencer.output.readers x.id) = _
        rw [hprocess]
    · obtain ⟨c, q, out, hstep, hnext⟩ := hable.catch hlag
      obtain ⟨hthread, hseq⟩ := Store.turn_ring (n := n) ha hoccupied hstep
      rw [← hseq, ← hthread] at hnext
      rcases hnext with hmore | ⟨hsame, hcloser⟩
      · refine Or.inl (Or.inr ⟨hm', ?_⟩)
        show m - ((s.turn n a).process.sequencer.output.consumed x.id).length < v
        omega
      · refine Or.inr ⟨⟨hm', ?_⟩, Prod.Lex.toLex_lt_toLex.mpr (Or.inl hcloser)⟩
        show m - ((s.turn n a).process.sequencer.output.consumed x.id).length = v
        rw [hsame]
        exact hv

/-- A consumer that has read the whole stream and is to stop returns. -/
theorem winds_down (x : Follower) (hx : fair (.follower x)) :
    (schedule n file fair during).LeadsTo
      (fun s => (x.joining.pos ≤ s.process.main.pos
        ∧ (s.process.sequencer.output.consumed x.id).length
          = s.process.sequencer.output.published.length)
        ∧ (s.process.thread x).pc ≠ .returned)
      (fun s => (s.process.thread x).pc = .returned) := by
  refine Scheduled.leadsTo_of_rank (Worker.follower x) hx
    (fun s => toLex ((s.process.thread x).pc.windRank (s.process.sequencer.output.readers x.id),
      s.lastRank x)) ?_ ?_
  · rintro s a ⟨hlive, _⟩ _ ⟨⟨hpos, hall⟩, hback⟩ ha
    have hmove := Store.turn_move n s a
    have hsame := hmove.followerSame ha hlive.started
    have hpub := (hmove.complete (hlive.returned hpos)).2
    refine Or.inr ⟨⟨⟨Nat.le_trans hpos hmove.pos, ?_⟩, ?_⟩, ?_⟩
    · show ((s.turn n a).process.sequencer.output.consumed x.id).length
        = (s.turn n a).process.sequencer.output.published.length
      rw [hsame.consumed, hpub]
      exact hall
    · show ((s.turn n a).process.thread x).pc ≠ .returned
      rw [hsame.pc]
      exact hback
    · show toLex (((s.turn n a).process.thread x).pc.windRank
        ((s.turn n a).process.sequencer.output.readers x.id), (s.turn n a).lastRank x) = _
      rw [hsame.pc, hsame.reader, Store.turn_lastRank hlive ha]
  · rintro s a ⟨hlive, _⟩ ⟨hlive', _⟩ ⟨⟨hpos, hall⟩, hback⟩ ha
    have hmove := Store.turn_move n s a
    have hpub := (hmove.complete (hlive.returned hpos)).2
    have hall' : ((s.turn n a).process.sequencer.output.consumed x.id).length
        = (s.turn n a).process.sequencer.output.published.length := by
      have hle : ((s.turn n a).process.sequencer.output.consumed x.id).length
        ≤ (s.turn n a).process.sequencer.output.published.length := hlive'.consumed_le x.id
      have hge := hmove.consumed x.id
      rw [hpub] at hle ⊢
      omega
    by_cases hback' : ((s.turn n a).process.thread x).pc = .returned
    · exact Or.inl hback'
    refine Or.inr ⟨⟨⟨Nat.le_trans hpos hmove.pos, hall'⟩, hback'⟩,
      Prod.Lex.toLex_lt_toLex.mpr ?_⟩
    by_cases hoccupied : s.Occupied x
    · obtain ⟨hprocess, hlast⟩ := Store.turn_last (n := n) hlive ha hoccupied
      refine Or.inr ⟨?_, hlast⟩
      show ((s.turn n a).process.thread x).pc.windRank
        ((s.turn n a).process.sequencer.output.readers x.id) = _
      rw [hprocess]
    · obtain ⟨handled, hable⟩ := hlive.able x
      have hstop := hlive.poised.staged.told x hpos
      obtain ⟨c, q, out, hstep, hcloser⟩ := hable.wind hall hstop hback
      obtain ⟨hthread, hseq⟩ := Store.turn_ring (n := n) ha hoccupied hstep
      rw [← hseq, ← hthread] at hcloser
      exact Or.inl hcloser

/-- **A consumer that is to stop returns**, after it has read the whole stream. -/
theorem stops (x : Follower) (hx : fair (.follower x)) :
    (schedule n file fair during).LeadsTo (fun s => x.joining.pos ≤ s.process.main.pos)
      (fun s => (s.process.thread x).pc = .returned) := by
  -- The stream is complete, so there is a number of events to catch up with.
  refine Scheduled.leadsTo_of_value
    (fun s => s.process.sequencer.output.published.length) fun m => ?_
  have hcatch : (schedule n file fair during).LeadsTo
      (fun s => m ≤ s.process.sequencer.output.published.length)
      (fun s => m ≤ (s.process.sequencer.output.consumed x.id).length) := catches_up x hx m
  have hstable : ∀ s a, (schedule n file fair during).Inv s →
      (schedule n file fair during).Inv (s.turn n a) →
      x.joining.pos ≤ s.process.main.pos ∧ s.process.sequencer.output.published.length = m →
      x.joining.pos ≤ (s.turn n a).process.main.pos
        ∧ (s.turn n a).process.sequencer.output.published.length = m := by
    rintro s a ⟨hlive, _⟩ _ ⟨hpos, hm⟩
    have hmove := Store.turn_move n s a
    rw [(hmove.complete (hlive.returned hpos)).2]
    exact ⟨Nat.le_trans hpos hmove.pos, hm⟩
  have hall := hcatch.and_stable hstable
  refine (hall.mono (fun s _ h => ⟨Nat.le_of_eq h.2.symm, h⟩) fun _ _ => id).trans ?_
  refine Scheduled.LeadsTo.cases (Scheduled.leadsTo_of_imp fun _ _ => id) (winds_down x hx) ?_
  rintro s ⟨hlive, _⟩ ⟨hm, hpos, hpub⟩
  by_cases hback : (s.process.thread x).pc = .returned
  · exact Or.inl hback
  · refine Or.inr ⟨⟨hpos, ?_⟩, hback⟩
    have hle := hlive.consumed_le x.id
    omega

end LeadsTo

end HftLob.Pipeline

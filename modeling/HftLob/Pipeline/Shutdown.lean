import HftLob.Pipeline.Replay

/-!
# What a shutdown loses

The consumers drain the ring before they return. The sequencer does not drain its input
queues: `run` leaves its loop at the first test that finds `running_` cleared, with
whatever has been pushed since its last pass still in the queues. So an order that the
gateway accepted is lost exactly when it is in the queue at that moment.
-/

namespace HftLob.Pipeline

open HftLob.Lib HftLob.Ring HftLob.Book HftLob.Engine

variable {cfg : Config} {s s' : Process cfg}

/-- `head_ == tail_` in the gateway's input queue. -/
def QueueEmpty (s : Process cfg) : Prop :=
  (s.sequencer.inputs .gateway).tail = (s.sequencer.inputs .gateway).head

instance (s : Process cfg) : Decidable (QueueEmpty s) :=
  inferInstanceAs (Decidable (_ = _))

/-- If this step is the test that ends `run`, it is made with the queue empty. -/
def ExitsEmpty (s : Process cfg) (a : ProcessAction) : Prop :=
  match a with
  | .sequencer _ => s.sequencer.pc = .test → s.sequencer.running = false → QueueEmpty s
  | _ => True

instance (s : Process cfg) : ∀ a, Decidable (ExitsEmpty s a)
  | .sequencer _ => inferInstanceAs (Decidable (_ → _ → _))
  | .main _ | .push _ | .produce | .matcher | .wal _ _ | .db => .isTrue trivial

/-- Every event the gateway pushed is sequenced, applied and logged. -/
structure NothingLost (s : Process cfg) : Prop where
  sequenced : (s.sequencer.inputs .gateway).pushed.map payload
    = (s.sequencer.output.published.filter (fun ev => ev.producer = .gateway)).map payload
  applied : (MatchingEngineConsumer.init cfg.pool).replay s.sequencer.output.published
    = (s.engine, s.acks)
  logged : IsLog s.sequencer.output.published s.wal.file

/-! ## When the queue closes -/

/-- The flag is cleared, and `run` returns, only after the poll loop has ended. -/
structure Closing (s : Process cfg) : Prop where
  flag : s.sequencer.running = false →
    s.sequencer.pc = .ready ∨ MainPc.joinSequencer.pos ≤ s.main.pos
  exited : s.sequencer.pc = .returned → MainPc.joinSequencer.pos ≤ s.main.pos

section Sequencer

variable {capIn capOut : RingCapacity} {maxConsumers : Nat} {q q' : Sequencer}

/-- `run` keeps the flag, and returns only from a test that finds it cleared. -/
theorem runStep_flag {now : Nanos} (hs : q.runStep capIn capOut maxConsumers now = some q') :
    q'.running = q.running ∧ q.pc ≠ .ready ∧ q.pc ≠ .returned
      ∧ (q'.pc = .returned ↔ q.pc = .test ∧ q.running = false)
      ∧ (q'.pc = .returned → q'.inputs = q.inputs) := by
  unfold Sequencer.runStep at hs
  cases hpc : q.pc with
  | ready => rw [hpc] at hs; exact absurd hs (by simp)
  | returned => rw [hpc] at hs; exact absurd hs (by simp)
  | test =>
      rw [hpc] at hs
      cases hs
      cases hrun : q.running with
      | true => simp
      | false => simp
  | pop p i =>
      rw [hpc] at hs
      obtain ⟨t, ht, rfl⟩ := Option.map_eq_some_iff.mp hs
      obtain ⟨r, _, rfl⟩ := onInput_eq_some ht
      simp
  | popping p i =>
      rw [hpc] at hs
      dsimp only at hs
      split at hs
      · obtain ⟨r, _, rfl⟩ := onInput_eq_some hs
        simp [hpc]
      · cases hs
        simp [(Sequencer.afterProducer_ne p).1]
      · obtain ⟨t, ht, rfl⟩ := Option.map_eq_some_iff.mp hs
        obtain ⟨r, _, rfl⟩ := onOutput_eq_some ht
        simp
  | publishing p i ev =>
      rw [hpc] at hs
      dsimp only at hs
      split at hs
      · obtain ⟨r, _, rfl⟩ := onOutput_eq_some hs
        simp [hpc]
      · obtain ⟨r, _, rfl⟩ := onOutput_eq_some hs
        simp [hpc]
      · cases hs
        have hne : (if i + 1 < kMaxBatch then SequencerPc.pop p (i + 1)
            else Sequencer.afterProducer p) ≠ .returned := by
          split
          · exact nofun
          · exact (Sequencer.afterProducer_ne p).1
        simp [hne]

/-- A consumer's step leaves the sequencer's own state alone. -/
theorem ConsumerThread.step_sequencer_frame {id : Nat} {c c' : ConsumerThread} {out : Outcome}
    (hs : c.step capIn capOut maxConsumers id q = some (c', q', out)) :
    q'.running = q.running ∧ q'.pc = q.pc ∧ q'.inputs = q.inputs := by
  rcases ConsumerThread.step_sequencer hs with rfl | ⟨a, ha, rfl | rfl⟩
  · exact ⟨rfl, rfl, rfl⟩
  · obtain ⟨r, _, rfl⟩ := onOutput_eq_some ha
    exact ⟨rfl, rfl, rfl⟩
  · obtain ⟨r, _, rfl⟩ := onOutput_eq_some ha
    exact ⟨rfl, rfl, rfl⟩

end Sequencer

/-- What a step of the process does to the sequencer's own state. -/
inductive Moves (s s' : Process cfg) : ProcessAction → Prop where
  | run {now : Nanos}
      (hrun : s.sequencer.runStep cfg.capIn cfg.capOut cfg.maxConsumers now = some s'.sequencer)
      (hmain : s'.main = s.main) : Moves s s' (.sequencer now)
  | poll {a : ProcessAction} (hact : ∀ now, a ≠ .sequencer now) (hpoll : s.main = .polling)
      (hmain : s'.main = s.main) (hflag : s'.sequencer.running = s.sequencer.running)
      (hpc : s'.sequencer.pc = s.sequencer.pc) : Moves s s' a
  | start {a : ProcessAction} (hact : ∀ now, a ≠ .sequencer now) (hready : s.sequencer.pc = .ready)
      (hflag : s'.sequencer.running = true) (hpc : s'.sequencer.pc = .test) : Moves s s' a
  | stop {a : ProcessAction} (hact : ∀ now, a ≠ .sequencer now)
      (hmain : s'.main = .joinSequencer) (hpos : s.main.pos ≤ MainPc.joinSequencer.pos)
      (hpc : s'.sequencer.pc = s.sequencer.pc)
      (hinputs : s'.sequencer.inputs = s.sequencer.inputs) : Moves s s' a
  | other {a : ProcessAction} (hact : ∀ now, a ≠ .sequencer now)
      (hmain : s.main.pos ≤ s'.main.pos) (hflag : s'.sequencer.running = s.sequencer.running)
      (hpc : s'.sequencer.pc = s.sequencer.pc)
      (hinputs : s'.sequencer.inputs = s.sequencer.inputs) : Moves s s' a

theorem mainStep_moves {started : Bool} (hs : s.mainStep started = some s') :
    Moves s s' (.main started) := by
  have hact : ∀ now, ProcessAction.main started ≠ .sequencer now := nofun
  unfold Process.mainStep at hs
  cases hm : s.main with
  | registerMatcher | registerWal | registerDb =>
      rw [hm] at hs
      obtain ⟨seq, hseq, rfl⟩ := onSequencer_eq_some hs
      dsimp only [Sequencer.step] at hseq
      split at hseq
      · obtain ⟨r, _, rfl⟩ := onOutput_eq_some hseq
        exact .other hact (by rw [hm]; simp [MainPc.pos]) rfl rfl rfl
      · exact absurd hseq (by simp)
  | startSequencer =>
      rw [hm] at hs
      obtain ⟨seq, hseq, rfl⟩ := onSequencer_eq_some hs
      dsimp only [Sequencer.step] at hseq
      split at hseq
      · rename_i hready
        cases hseq
        exact .start hact hready rfl rfl
      · exact absurd hseq (by simp)
  | stopSequencer =>
      rw [hm] at hs
      obtain ⟨seq, hseq, rfl⟩ := onSequencer_eq_some hs
      cases hseq
      exact .stop hact rfl (by rw [hm]; decide) rfl rfl
  | startWal | startDb | startMatcher =>
      rw [hm] at hs
      obtain ⟨c, _, rfl⟩ := Option.map_eq_some_iff.mp hs
      exact .other hact (by rw [hm]; simp [MainPc.pos]) rfl rfl rfl
  | startServer =>
      rw [hm] at hs
      cases hs
      refine .other hact ?_ rfl rfl rfl
      rw [hm]
      cases started <;> simp [MainPc.pos]
  | polling =>
      rw [hm] at hs
      dsimp only at hs
      split at hs
      · cases hs
        exact .other hact (by rw [hm]; simp [MainPc.pos]) rfl rfl rfl
      · exact absurd hs (by simp)
  | stopMatcher | stopWal | stopDb =>
      rw [hm] at hs
      cases hs
      exact .other hact (by rw [hm]; simp [MainPc.pos]) rfl rfl rfl
  | joinSequencer | joinMatcher | joinWal | joinDb =>
      rw [hm] at hs
      obtain ⟨_, rfl⟩ := join_eq_some hs
      exact .other hact (by rw [hm]; simp [MainPc.pos]) rfl rfl rfl
  | done => rw [hm] at hs; exact absurd hs (by simp)

theorem matcherDeals_sequencer (s : Process cfg) (out : Outcome) :
    (s.matcherDeals out).sequencer = s.sequencer ∧ (s.matcherDeals out).main = s.main := by
  cases out <;> exact ⟨rfl, rfl⟩

theorem walDeals_sequencer (s : Process cfg) (pad : Padding) (elapsed : Bool) (out : Outcome) :
    (s.walDeals pad elapsed out).sequencer = s.sequencer
      ∧ (s.walDeals pad elapsed out).main = s.main := by
  cases out <;> exact ⟨rfl, rfl⟩

/-- A step of a consumer's thread, whatever it then does with an event. -/
theorem moves_of_consumer {a : ProcessAction} (hact : ∀ now, a ≠ .sequencer now) {id : Nat}
    {c c' : ConsumerThread} {out : Outcome}
    (hs : s.consumerStep id c = some (c', s'.sequencer, out)) (hmain : s'.main = s.main) :
    Moves s s' a := by
  obtain ⟨hflag, hpc, hinputs⟩ := ConsumerThread.step_sequencer_frame hs
  exact .other hact (by rw [hmain]) hflag hpc hinputs

theorem step_moves {a : ProcessAction} (hs : s.step a = some s') : Moves s s' a := by
  cases a with
  | main started => exact mainStep_moves hs
  | push item =>
      dsimp only [Process.step] at hs
      split at hs
      · obtain ⟨seq, hseq, rfl⟩ := onSequencer_eq_some hs
        obtain ⟨q, _, rfl⟩ := onInput_eq_some hseq
        exact .poll nofun ‹_› (Eq.symm ‹_›) rfl rfl
      · exact absurd hs (by simp)
  | produce =>
      dsimp only [Process.step] at hs
      split at hs
      · obtain ⟨seq, hseq, rfl⟩ := onSequencer_eq_some hs
        obtain ⟨q, _, rfl⟩ := onInput_eq_some hseq
        exact .poll nofun ‹_› (Eq.symm ‹_›) rfl rfl
      · exact absurd hs (by simp)
  | sequencer now =>
      obtain ⟨seq, hseq, rfl⟩ := onSequencer_eq_some hs
      exact .run hseq rfl
  | matcher =>
      obtain ⟨⟨c, seq, out⟩, hc, rfl⟩ := Option.map_eq_some_iff.mp hs
      obtain ⟨hseq, hmain⟩ :=
        matcherDeals_sequencer { s with matcher := c, sequencer := seq } out
      exact moves_of_consumer nofun (by rw [hseq]; exact hc) hmain
  | wal pad elapsed =>
      obtain ⟨⟨c, seq, out⟩, hc, rfl⟩ := Option.map_eq_some_iff.mp hs
      obtain ⟨hseq, hmain⟩ :=
        walDeals_sequencer { s with walThread := c, sequencer := seq } pad elapsed out
      exact moves_of_consumer nofun (by rw [hseq]; exact hc) hmain
  | db =>
      obtain ⟨⟨c, seq, out⟩, hc, rfl⟩ := Option.map_eq_some_iff.mp hs
      exact moves_of_consumer nofun hc rfl

theorem closing_init (cfg : Config) (buffers : ProducerId → Nat → SequencedEvent)
    (slots : Nat → SequencedEvent) : Closing (Process.init cfg buffers slots) where
  flag := fun _ => Or.inl rfl
  exited := nofun

theorem Closing.step {a : ProcessAction} (h : Closing s) (hm : Moves s s' a) : Closing s' := by
  cases hm with
  | run hrun hmain =>
      obtain ⟨hflag, hready, _, hexits, _⟩ := runStep_flag hrun
      refine ⟨fun hstop => Or.inr ?_, fun hpc => ?_⟩
      · -- `run` itself does not store to the flag, and it runs, so it is not `ready`
        rw [hmain]
        rw [hflag] at hstop
        exact (h.flag hstop).resolve_left hready
      · rw [hmain]
        exact (h.flag (hexits.mp hpc).2).resolve_left hready
  -- the gateway fills its queue and nothing else
  | poll hact hpoll hmain hflag hpc =>
      refine ⟨?_, ?_⟩
      · rw [hflag, hpc, hmain]
        exact h.flag
      · rw [hpc, hmain]
        exact h.exited
  | start hact hready hflag hpc =>
      refine ⟨fun hstop => ?_, fun hret => ?_⟩
      · rw [hflag] at hstop
        cases hstop
      · rw [hpc] at hret
        cases hret
  | stop hact hmain hpos hpc hinputs =>
      exact ⟨fun _ => Or.inr (by rw [hmain]), fun _ => by rw [hmain]⟩
  | other hact hmain hflag hpc hinputs =>
      refine ⟨fun hstop => ?_, fun hret => ?_⟩
      · rw [hflag] at hstop
        rw [hpc]
        exact (h.flag hstop).imp_right fun hle => Nat.le_trans hle hmain
      · rw [hpc] at hret
        exact Nat.le_trans (h.exited hret) hmain

/-- When `run` has returned, its queues stay as they are. -/
theorem Closing.frozen {a : ProcessAction} (h : Closing s) (hm : Moves s s' a)
    (hpc : s.sequencer.pc = .returned) :
    s'.sequencer.pc = .returned ∧ s'.sequencer.inputs = s.sequencer.inputs := by
  cases hm with
  | run hrun hmain => exact absurd hpc (runStep_flag hrun).2.2.1
  | poll hact hpoll hmain hflag hpc' =>
      -- nobody pushes after the poll loop
      have hle := h.exited hpc
      rw [hpoll] at hle
      exact absurd (show 10 ≤ 8 from hle) (by omega)
  | start hact hready hflag hpc' =>
      rw [hready] at hpc
      cases hpc
  | stop hact hmain hpos hpc' hinputs => exact ⟨hpc'.trans hpc, hinputs⟩
  | other hact hmain hflag hpc' hinputs => exact ⟨hpc'.trans hpc, hinputs⟩

/-- `run` returns from its test. -/
theorem Moves.exits {a : ProcessAction} (hm : Moves s s' a) (hpc : s.sequencer.pc ≠ .returned)
    (hpc' : s'.sequencer.pc = .returned) :
    s'.sequencer.inputs = s.sequencer.inputs ∧ (ExitsEmpty s a ↔ QueueEmpty s) := by
  cases hm with
  | run hrun hmain =>
      obtain ⟨_, _, _, hexits, hinputs⟩ := runStep_flag hrun
      -- this is the test that the condition speaks of
      obtain ⟨htest, hflag⟩ := hexits.mp hpc'
      exact ⟨hinputs hpc', fun h => h htest hflag, fun h _ _ => h⟩
  | poll hact hpoll hmain hflag hsame => exact absurd (hsame.symm.trans hpc') hpc
  | start hact hready hflag hsame =>
      rw [hsame] at hpc'
      cases hpc'
  | stop hact hmain hpos hsame hinputs => exact absurd (hsame.symm.trans hpc') hpc
  | other hact hmain hflag hsame hinputs => exact absurd (hsame.symm.trans hpc') hpc

theorem exitsEmpty_of_ne {a : ProcessAction} (hact : ∀ now, a ≠ .sequencer now) :
    ExitsEmpty s a := by
  cases a with
  | sequencer now => exact absurd rfl (hact now)
  | _ => trivial

theorem Moves.exitsEmpty {a : ProcessAction} (hm : Moves s s' a)
    (hpc' : s'.sequencer.pc ≠ .returned) : ExitsEmpty s a := by
  cases hm with
  | run hrun hmain =>
      intro htest hflag
      exact absurd ((runStep_flag hrun).2.2.2.1.mpr ⟨htest, hflag⟩) hpc'
  | poll hact => exact exitsEmpty_of_ne hact
  | start hact => exact exitsEmpty_of_ne hact
  | stop hact => exact exitsEmpty_of_ne hact
  | other hact => exact exitsEmpty_of_ne hact

/-! ## Whole runs -/

/-- From `run`'s return on, nothing changes in the queues. -/
theorem exec_frozen (actions : List ProcessAction) (s u : Process cfg) (h : Closing s)
    (hpc : s.sequencer.pc = .returned) (hrun : Machine.exec Process.step s actions = some u) :
    Machine.Along Process.step ExitsEmpty s actions ∧ (QueueEmpty u ↔ QueueEmpty s) := by
  induction actions generalizing s with
  | nil => cases hrun; exact ⟨trivial, Iff.rfl⟩
  | cons a as ih =>
      obtain ⟨t, ht, hrun⟩ := Machine.exec_cons.mp hrun
      have hm := step_moves ht
      obtain ⟨hpc', hinputs⟩ := h.frozen hm hpc
      obtain ⟨halong, hiff⟩ := ih t (h.step hm) hpc' hrun
      refine ⟨.cons ?_ fun t' ht' => ?_, hiff.trans ?_⟩
      · -- no later step is a test of `run`
        cases a with
        | sequencer now =>
            intro htest _
            rw [hpc] at htest
            cases htest
        | _ => trivial
      · rw [ht] at ht'
        cases ht'
        exact halong
      · unfold QueueEmpty
        rw [hinputs]

/-- The queue is empty at the end of a run exactly if it was when `run` returned. -/
theorem along_iff_queueEmpty (actions : List ProcessAction) (s u : Process cfg) (h : Closing s)
    (hpc : s.sequencer.pc ≠ .returned) (hend : u.sequencer.pc = .returned)
    (hrun : Machine.exec Process.step s actions = some u) :
    Machine.Along Process.step ExitsEmpty s actions ↔ QueueEmpty u := by
  induction actions generalizing s with
  | nil => cases hrun; exact absurd hend hpc
  | cons a as ih =>
      obtain ⟨t, ht, hrun⟩ := Machine.exec_cons.mp hrun
      have hm := step_moves ht
      have hsplit : Machine.Along Process.step ExitsEmpty s (a :: as)
          ↔ ExitsEmpty s a ∧ Machine.Along Process.step ExitsEmpty t as :=
        ⟨fun ha => ⟨ha.1, ha.tail ht⟩, fun ha => .cons ha.1 fun t' ht' =>
          Option.some.inj (ht.symm.trans ht') ▸ ha.2⟩
      rw [hsplit]
      by_cases hpc' : t.sequencer.pc = .returned
      · obtain ⟨hinputs, hexits⟩ := hm.exits hpc hpc'
        obtain ⟨halong, hiff⟩ := exec_frozen as t u (h.step hm) hpc' hrun
        have hsame : QueueEmpty t ↔ QueueEmpty s := by
          unfold QueueEmpty
          rw [hinputs]
        rw [hiff, hsame, hexits]
        exact ⟨And.left, fun hq => ⟨hq, halong⟩⟩
      · rw [ih t (h.step hm) hpc' hrun]
        exact ⟨And.right, fun hq => ⟨hm.exitsEmpty hpc', hq⟩⟩

theorem ProcessInv.sequenced_iff (h : ProcessInv s) (hpc : s.sequencer.pc = .returned) :
    (s.sequencer.inputs .gateway).pushed.map payload
        = (s.sequencer.output.published.filter (fun ev => ev.producer = .gateway)).map payload
      ↔ QueueEmpty s := by
  have hinput := h.sequencer.input .gateway
  have hempty : EmptyHanded s.sequencer.pc := by rw [hpc]; trivial
  have hdrained := h.sequencer.drained .gateway
  rw [stamped_of_emptyHanded hempty, justPopped_of_emptyHanded hempty, List.map_nil,
    List.append_nil] at hdrained
  unfold QueueEmpty
  rw [← hdrained, hinput.empty_iff]
  constructor
  · intro hmap
    have hlen : (s.sequencer.inputs .gateway).pushed.length
        = (s.sequencer.inputs .gateway).popped.length := by
      simpa using congrArg List.length hmap
    exact hinput.order.eq_of_length_le (Nat.le_of_eq hlen)
  · intro heq
    rw [heq]

/-- **Nothing accepted is lost exactly if the queue is empty at the test that ends `run`.** -/
theorem nothing_lost_iff_exits_empty (cfg : Config) (buffers : ProducerId → Nat → SequencedEvent)
    (slots : Nat → SequencedEvent) (actions : List ProcessAction) (s : Process cfg)
    (hrun : Machine.exec Process.step (Process.init cfg buffers slots) actions = some s)
    (hdone : s.main = .done) (hlen : s.sequencer.output.published.length < 2 ^ 64) :
    NothingLost s ↔ Machine.Along Process.step ExitsEmpty
        (Process.init cfg buffers slots) actions := by
  have h := processInv_exec buffers slots actions hrun
  have hpc : s.sequencer.pc = .returned := h.joined.sequencer (by rw [hdone]; decide)
  rw [along_iff_queueEmpty actions _ s (closing_init cfg buffers slots) nofun hpc hrun,
    ← h.sequenced_iff hpc]
  -- what is sequenced is applied and logged in any case
  exact ⟨NothingLost.sequenced, fun hseq => ⟨hseq, h.applied (by rw [hdone]; decide) hlen,
    h.logged (by rw [hdone]; decide) hlen⟩⟩

/-- The order is popped before the shutdown begins, and reaches both consumers. -/
theorem nothing_lost_iff_exits_empty_one_order :
    let cfg : Config := ⟨⟨1, by decide⟩, ⟨0, by decide⟩, 8, ⟨1, by decide⟩, 256⟩
    let actions : List ProcessAction :=
      List.replicate 8 (ProcessAction.main true)
      ++ [ProcessAction.push { sessionId := 4, clientOrderId := 9, price := 100, quantity := 5 },
          .produce, .produce, .produce]
      ++ List.replicate 9 (ProcessAction.sequencer 70) ++ [ProcessAction.main true, .main true]
      ++ List.replicate 11 (ProcessAction.sequencer 71) ++ [ProcessAction.main true, .main true]
      ++ List.replicate 10 ProcessAction.matcher ++ [ProcessAction.main true, .main true]
      ++ List.replicate 10 (ProcessAction.wal default false)
      ++ [ProcessAction.main true, .main true]
      ++ List.replicate 10 ProcessAction.db ++ [ProcessAction.main true]
    ∃ s, Machine.exec Process.step (Process.init cfg (fun _ _ => {}) (fun _ => {})) actions = some s
      ∧ s.main = .done ∧ s.sequencer.output.published.length = 1 ∧ NothingLost s := by
  intro cfg actions
  have heval : ((Machine.exec Process.step (Process.init cfg (fun _ _ => {}) (fun _ => {}))
      actions).map fun s => (s.main, s.sequencer.output.published.length)) = some (.done, 1) := by
    decide +kernel
  obtain ⟨s, hs, heval⟩ := Option.map_eq_some_iff.mp heval
  rw [Prod.mk.injEq] at heval
  obtain ⟨hmain, hpub⟩ := heval
  refine ⟨s, hs, hmain, hpub, ?_⟩
  exact (nothing_lost_iff_exits_empty cfg (fun _ _ => {}) (fun _ => {}) actions s hs hmain
    (by rw [hpub]; decide)).mpr (by decide +kernel)

/-- An order is accepted, and the shutdown begins before the sequencer's next pass: its test
finds the flag cleared, and the order stays in the queue for good. -/
theorem accepted_order_lost_at_shutdown :
    let cfg : Config := ⟨⟨1, by decide⟩, ⟨0, by decide⟩, 8, ⟨1, by decide⟩, 256⟩
    let order : SequencedEvent :=
      { sessionId := 4, clientOrderId := 9, price := 100, quantity := 5 }
    let actions : List ProcessAction :=
      List.replicate 8 (ProcessAction.main true)
      ++ [ProcessAction.push order, .produce, .produce, .produce]
      ++ [ProcessAction.main true, .main true] ++ [ProcessAction.sequencer 70]
      ++ [ProcessAction.main true, .main true]
      ++ List.replicate 5 ProcessAction.matcher ++ [ProcessAction.main true, .main true]
      ++ List.replicate 5 (ProcessAction.wal default false) ++ [ProcessAction.main true, .main true]
      ++ List.replicate 5 ProcessAction.db ++ [ProcessAction.main true]
    ∃ s, Machine.exec Process.step (Process.init cfg (fun _ _ => {}) (fun _ => {})) actions = some s
      ∧ s.main = .done ∧ (s.sequencer.inputs .gateway).pushed = [order]
      ∧ s.sequencer.output.published = [] ∧ s.wal.file = [] ∧ ¬ NothingLost s := by
  intro cfg order actions
  have heval : ((Machine.exec Process.step (Process.init cfg (fun _ _ => {}) (fun _ => {}))
      actions).map fun s => (s.main, (s.sequencer.inputs .gateway).pushed,
        s.sequencer.output.published, s.wal.file)) = some (.done, [order], [], []) := by
    decide +kernel
  obtain ⟨s, hs, heval⟩ := Option.map_eq_some_iff.mp heval
  rw [Prod.mk.injEq, Prod.mk.injEq, Prod.mk.injEq] at heval
  obtain ⟨hmain, hpushed, hpub, hfile⟩ := heval
  refine ⟨s, hs, hmain, hpushed, hpub, hfile, fun hkept => ?_⟩
  have hseq := hkept.sequenced
  rw [hpushed, hpub] at hseq
  cases hseq

end HftLob.Pipeline

import HftLob.Pipeline.Backpressure

/-!
# The shutdown comes to its end

`main` stops the sequencer and the three consumers one after the other, and waits for each.
The sequencer may be waiting for room in the ring at that moment, the matcher for room in the
clients' queue, which nobody empties any more, and the database has acks to drain. All of it
ends, under every scheduler that keeps giving each thread its turns.

For the matcher this rests on the limit of the spins in `push_ack`; for the sequencer on the
order in which the threads are stopped: the consumers still run while it is waited for.
-/

namespace HftLob.Pipeline

open HftLob.Lib HftLob.Ring HftLob.Book HftLob.Engine

/-! ## What was accepted bounds the stream -/

namespace Sequencer

variable {capIn capOut : RingCapacity} {maxConsumers : Nat} {q q' : Sequencer}

/-- How many events the input queues have accepted. -/
def accepted (q : Sequencer) : Nat :=
  (q.inputs .gateway).pushed.length + (q.inputs .feedReplay).pushed.length
    + (q.inputs .admin).pushed.length

theorem accepted_congr (h : ∀ p, (q'.inputs p).pushed = (q.inputs p).pushed) :
    q'.accepted = q.accepted := by
  unfold accepted
  rw [h, h, h]

theorem length_filter_producers (events : List SequencedEvent) :
    (events.filter fun ev => ev.producer = .gateway).length
      + (events.filter fun ev => ev.producer = .feedReplay).length
      + (events.filter fun ev => ev.producer = .admin).length = events.length := by
  induction events with
  | nil => rfl
  | cons ev events ih =>
      simp only [List.filter_cons, List.length_cons]
      cases ev.producer <;> simp <;> omega

theorem published_le_accepted (h : SequencerInv capIn capOut q) :
    q.output.published.length ≤ q.accepted := by
  have hqueue : ∀ p, (q.stamped.filter fun ev => ev.producer = p).length
      ≤ (q.inputs p).pushed.length := by
    intro p
    have hpopped := congrArg List.length (h.drained p)
    have hle := (h.input p).order.length_le
    rw [List.length_append, List.length_map, List.length_map] at hpopped
    omega
  have hall := length_filter_producers q.stamped
  have hstamped : q.output.published.length ≤ q.stamped.length := by
    unfold stamped
    rw [List.length_append]
    omega
  have hgateway := hqueue .gateway
  have hfeed := hqueue .feedReplay
  have hadmin := hqueue .admin
  unfold accepted
  omega

/-- The thread only takes from the queues. -/
theorem runStep_pushed {now : Nanos} (hq : q.runStep capIn capOut maxConsumers now = some q')
    (p : ProducerId) : (q'.inputs p).pushed = (q.inputs p).pushed := by
  have honInput : ∀ {p' : ProducerId} {b : SpscAction SequencedEvent} {t : Sequencer},
      (b = .pop ∨ b = .consume) → q.onInput capIn p' b = some t →
        (t.inputs p).pushed = (q.inputs p).pushed := by
    intro p' b t hb ht
    obtain ⟨input, hinput, rfl⟩ := onInput_eq_some ht
    dsimp only
    by_cases hp : p = p'
    · rw [hp, Function.update_self]
      rcases hb with rfl | rfl
      · exact (pop_spec hinput).2.1
      · exact (consumer_spec hinput).1
    · rw [Function.update_of_ne hp]
  unfold Sequencer.runStep at hq
  -- by where the thread is; it touches a queue only in a `pop`
  split at hq
  · exact absurd hq (by simp)
  · exact absurd hq (by simp)
  · cases hq; rfl
  · obtain ⟨t, ht, rfl⟩ := Option.map_eq_some_iff.mp hq
    have hpushed := honInput (Or.inl rfl) ht
    exact hpushed
  · split at hq
    · exact honInput (Or.inr rfl) hq
    · cases hq; rfl
    · obtain ⟨t, ht, rfl⟩ := Option.map_eq_some_iff.mp hq
      obtain ⟨r, _, rfl⟩ := onOutput_eq_some ht
      rfl
  · split at hq
    · obtain ⟨r, _, rfl⟩ := onOutput_eq_some hq
      rfl
    · obtain ⟨r, _, rfl⟩ := onOutput_eq_some hq
      rfl
    · cases hq; rfl

/-- Nor does `main` push when it starts or stops the thread. -/
theorem governs_inputs {a : SequencerAction} (ha : Process.Governs a)
    (hq : q.step capIn capOut maxConsumers a = some q') : q'.inputs = q.inputs := by
  rcases ha with rfl | rfl | rfl
  · dsimp only [Sequencer.step] at hq
    split at hq
    · obtain ⟨r, _, rfl⟩ := onOutput_eq_some hq
      rfl
    · exact absurd hq (by simp)
  · dsimp only [Sequencer.step] at hq
    split at hq
    · cases hq; rfl
    · exact absurd hq (by simp)
  · cases hq; rfl

end Sequencer

namespace Store

variable {cfg : Config} {n : Nat} {s : Store cfg} {a : StoreAction} {file : Database}

/-- Only the poll loop pushes, and it is in nobody's turn. -/
theorem accepted_of_no_push (hquiet : s.process.main = .polling → a.worker ≠ none) :
    (s.turn n a).process.sequencer.accepted = s.process.sequencer.accepted := by
  cases turn_move n s a with
  | main started _ hmain =>
      rcases Process.mainStep_sequencer hmain with he | ⟨b, hgoverns, hb⟩
      · rw [he]
      · exact Sequencer.accepted_congr fun p => by rw [Sequencer.governs_inputs hgoverns hb]
  | sequencer b _ hworker hb _ _ =>
      rcases hworker with ⟨⟨now, rfl⟩, _⟩ | ⟨_, hmain, hnone⟩
      · exact Sequencer.accepted_congr (Sequencer.runStep_pushed hb)
      · exact absurd hnone (hquiet hmain)
  | follower x _ out hx _ _ =>
      exact Sequencer.accepted_congr fun p => by
        rw [(ConsumerThread.step_sequencer_frame hx).2.2]
  | still hprocess => rw [hprocess]

/-- After the poll loop nothing is accepted any more. -/
theorem turn_accepted (hstop : MainPc.stopSequencer.pos ≤ s.process.main.pos) :
    (s.turn n a).process.sequencer.accepted = s.process.sequencer.accepted := by
  refine accepted_of_no_push fun hmain => ?_
  rw [hmain] at hstop
  exact absurd hstop (by decide)

/-! ## What stays so -/

theorem turn_main (n : Nat) (s : Store cfg) (a : StoreAction) :
    (s.turn n a).process.main = s.process.main
      ∨ s.process.main.pos < (s.turn n a).process.main.pos ∧ a.worker = some .main := by
  cases turn_move n s a with
  | main started hworker hstep => exact Or.inr ⟨Process.mainStep_pos hstep, hworker⟩
  | sequencer b _ _ _ _ hmain => exact Or.inl hmain
  | follower x _ out _ _ hmain => exact Or.inl hmain
  | still hprocess => exact Or.inl (by rw [hprocess])

theorem turn_thread_returned {x : Follower} (h : (s.process.thread x).pc = .returned) (n : Nat)
    (a : StoreAction) : ((s.turn n a).process.thread x).pc = .returned := by
  cases turn_move n s a with
  | main started _ hstep =>
      rcases Process.mainStep_thread hstep x with hpc | ⟨_, hstart⟩
      · rw [hpc]; exact h
      · exact nomatch h.symm.trans (ConsumerThread.start_pc hstart).1
  | sequencer b _ _ _ hthreads _ => rw [hthreads]; exact h
  | follower y _ out hstep hthreads _ =>
      by_cases hxy : x = y
      · -- a thread that has returned takes no step
        subst hxy
        unfold ConsumerThread.step at hstep
        rw [h] at hstep
        exact nomatch hstep
      · rw [hthreads x hxy]; exact h
  | still hprocess => rw [hprocess]; exact h

theorem turn_live (h : s.Live file)
    (hshort : (s.turn n a).process.sequencer.accepted < 2 ^ 64) : (s.turn n a).Live file := by
  have hstarted := Nat.le_trans h.started (turn_move n s a).pos
  -- a turn is a step, or nothing if the thread cannot move
  have hboth : StoreInv file (s.turn n a) ∧ (s.turn n a).Poised := by
    rcases turn_cases n s a with hstep | hsame
    · exact ⟨storeInv_step h.inv hstep, h.poised.step h.inv hstep⟩
    · rw [hsame]
      exact ⟨h.inv, h.poised⟩
  have hle := Sequencer.published_le_accepted hboth.1.process.sequencer
  exact ⟨hboth.1, hboth.2, hstarted, Nat.lt_of_le_of_lt hle hshort⟩

end Store

/-! ## One thread after the other -/

section LeadsTo

variable {cfg : Config} {n : Nat} {file : Database} {fair : Worker → Prop}
  {during : Store cfg → Prop}

/-- Told to stop, the sequencer finishes its pass and returns. -/
theorem sequencer_returns (hfair : fair .sequencer) (hall : ∀ x, fair (.follower x)) :
    (schedule n file fair during).LeadsTo
      (fun s => MainPc.joinSequencer.pos ≤ s.process.main.pos)
      (fun s => s.process.sequencer.pc = .returned) := by
  have hpass : (schedule n file fair during).LeadsTo (fun _ => True)
      (fun s => s.process.sequencer.pc = .test ∨ s.process.sequencer.pc = .returned) :=
    pass_ends hfair hall
  have htold := hpass.and_stable
    (R := fun s => MainPc.joinSequencer.pos ≤ s.process.main.pos)
    fun s a _ _ h => Nat.le_trans h (Store.turn_move n s a).pos
  have hleaves : (schedule n file fair during).LeadsTo
      (fun s => s.process.sequencer.pc = .test
        ∧ MainPc.joinSequencer.pos ≤ s.process.main.pos)
      (fun s => s.process.sequencer.pc = .returned) := by
    refine Scheduled.leadsTo_of_turn Worker.sequencer hfair ?_ ?_
    · rintro s a ⟨hlive, _⟩ _ ⟨htest, hpos⟩ ha
      exact Or.inr ⟨(hlive.sequencerSame ha).pc.trans htest,
        Nat.le_trans hpos (Store.turn_move n s a).pos⟩
    · -- the condition of the loop, with the flag cleared
      rintro s a ⟨hlive, _⟩ _ ⟨htest, hpos⟩ ha
      have hflag := hlive.poised.staged.stopped hpos
      refine Store.turn_runs (n := n) (s := s) (P := fun q => q.pc = .returned) ha fun now => ?_
      unfold Sequencer.runStep
      rw [htest, hflag]
      exact ⟨_, rfl, rfl⟩
  refine (htold.mono (fun s _ h => ⟨trivial, h⟩) fun _ _ => id).trans ?_
  refine Scheduled.LeadsTo.cases hleaves
    (Scheduled.leadsTo_of_imp (P := fun s => s.process.sequencer.pc = .returned)
      fun _ _ => id) fun s _ h => ?_
  exact h.1.imp_left fun htest => ⟨htest, h.2⟩

/-- `main` leaves a stage that it can leave. -/
theorem main_advances (hfair : fair .main) {m : MainPc} (hm : m ≠ .polling)
    {G : Store cfg → Prop} (hG : ∀ s a, G s → G (s.turn n a))
    (hstep : ∀ (s : Store cfg) (started : Bool), s.process.main = m → G s →
      ∃ p, s.process.mainStep started = some p) :
    (schedule n file fair during).LeadsTo (fun s => s.process.main = m ∧ G s)
      (fun s => m.pos < s.process.main.pos) := by
  refine Scheduled.leadsTo_of_turn Worker.main hfair ?_ ?_
  · rintro s a _ _ ⟨hmain, hgoal⟩ _
    rcases Store.turn_main n s a with hsame | ⟨hmore, _⟩
    · exact Or.inr ⟨hsame.trans hmain, hG s a hgoal⟩
    · exact Or.inl (hmain ▸ hmore)
  · rintro s a _ _ ⟨hmain, hgoal⟩ ha
    cases a with
    | main started =>
        obtain ⟨p, hp⟩ := hstep s started hmain hgoal
        have hpolling : ¬(s.process.main = .polling ∧ !s.drainDone) :=
          fun h => hm (hmain.symm.trans h.1)
        have hturn : s.step n (s.next (.main started)) = some { s with process := p } := by
          dsimp only [Store.next, Store.step, Store.mainStep]
          rw [if_neg hpolling]
          dsimp only [Store.onProcess, Process.step]
          rw [hp]
          rfl
        show m.pos < (s.turn n (.main started)).process.main.pos
        rw [Store.turn_eq hturn, ← hmain]
        exact Process.mainStep_pos hp
    | _ => exact nomatch ha

/-- `main` waits for a thread that is going to return. -/
theorem main_joins (hfair : fair .main) {m : MainPc} (hm : m ≠ .polling)
    {G : Store cfg → Prop} (hG : ∀ s a, G s → G (s.turn n a))
    (hstep : ∀ (s : Store cfg) (started : Bool), s.process.main = m → G s →
      ∃ p, s.process.mainStep started = some p)
    (hreturns : (schedule n file fair during).LeadsTo (fun s => m.pos ≤ s.process.main.pos) G) :
    (schedule n file fair during).LeadsTo (fun s => s.process.main = m)
      (fun s => m.pos < s.process.main.pos) := by
  have huntil := hreturns.until (R := fun s => s.process.main = m)
    (B := fun s => m.pos < s.process.main.pos) fun s a _ _ hmain =>
      (Store.turn_main n s a).imp (fun hsame => hsame.trans hmain) fun hmore => hmain ▸ hmore.1
  have hstays : (schedule n file fair during).LeadsTo (fun s => s.process.main = m)
      (fun s => (G s ∧ s.process.main = m) ∨ m.pos < s.process.main.pos) :=
    huntil.mono (fun s _ hmain => ⟨by rw [hmain], hmain⟩) fun _ _ => id
  refine hstays.or_else ?_
  exact (main_advances hfair hm hG hstep).mono (fun s _ h => ⟨h.2, h.1⟩) fun _ _ => id

theorem join_returned {p : Process cfg} {main : MainPc} {returned : Bool} (h : returned = true) :
    ∃ p', p.join returned main = some p' := by
  unfold Process.join
  rw [h]
  exact ⟨_, rfl⟩

theorem mainStep_joining {p : Process cfg} {x : Follower} (hmain : p.main = x.joining)
    (h : (p.thread x).pc = .returned) (started : Bool) :
    ∃ p', p.mainStep started = some p' := by
  unfold Process.mainStep
  rw [hmain]
  cases x <;> exact join_returned (decide_eq_true h)

theorem main_joins_follower (hfair : ∀ w, fair w) (x : Follower) :
    (schedule n file fair during).LeadsTo (fun s => s.process.main = x.joining)
      (fun s => x.joining.pos < s.process.main.pos) :=
  main_joins (hfair _) (by cases x <;> nofun)
    (fun _ a h => Store.turn_thread_returned h n a)
    (fun _ started hmain h => mainStep_joining hmain h started) (stops x (hfair _))

/-- `main` leaves every stage of the shutdown. -/
theorem stage_ends (hfair : ∀ w, fair w) {m : MainPc} (hstop : MainPc.stopSequencer.pos ≤ m.pos)
    (hdone : m ≠ .done) :
    (schedule n file fair during).LeadsTo (fun s => s.process.main = m)
      (fun s => m.pos < s.process.main.pos) := by
  -- a store to a flag can always be made
  have hflag : (∀ (s : Store cfg) (started : Bool), s.process.main = m → True →
      ∃ p, s.process.mainStep started = some p) → m ≠ .polling →
      (schedule n file fair during).LeadsTo (fun s => s.process.main = m)
        (fun s => m.pos < s.process.main.pos) := by
    intro hstep hm
    exact (main_advances (hfair _) hm (fun _ _ h => h) hstep).mono
      (fun s _ h => ⟨h, trivial⟩) fun _ _ => id
  cases m with
  | stopSequencer | stopMatcher | stopWal | stopDb =>
      refine hflag (fun s started hmain _ => ?_) nofun
      unfold Process.mainStep
      rw [hmain]
      exact ⟨_, rfl⟩
  | joinSequencer =>
      refine main_joins (hfair _) nofun (G := fun s => s.process.sequencer.pc = .returned)
        (fun s a h => ((Store.turn_move n s a).complete h).1) (fun s started hmain h => ?_)
        (sequencer_returns (hfair _) fun x => hfair _)
      unfold Process.mainStep
      rw [hmain]
      exact join_returned (decide_eq_true h)
  | joinMatcher => exact main_joins_follower hfair .matcher
  | joinWal => exact main_joins_follower hfair .wal
  | joinDb => exact main_joins_follower hfair .db
  | done => exact absurd rfl hdone
  | registerMatcher | registerWal | registerDb | startWal | startDb | startMatcher
  | startSequencer | startServer | polling => exact absurd hstop (by decide)

theorem shutdown_ends (hfair : ∀ w, fair w) :
    (schedule n file fair during).LeadsTo
      (fun s => MainPc.stopSequencer.pos ≤ s.process.main.pos)
      (fun s => s.process.main = .done) := by
  refine Scheduled.leadsTo_of_measure (fun s => MainPc.done.pos - s.process.main.pos) fun v => ?_
  refine Scheduled.leadsTo_of_value (fun s => s.process.main) fun m => ?_
  by_cases hdone : m = .done
  · exact Scheduled.leadsTo_of_imp fun s _ h => Or.inl (h.2.trans hdone)
  by_cases hstop : MainPc.stopSequencer.pos ≤ m.pos
  · by_cases hv : MainPc.done.pos - m.pos = v
    · have hlt : m.pos < MainPc.done.pos := by
        cases m <;> first | exact absurd rfl hdone | decide
      refine (stage_ends hfair hstop hdone).mono (fun s _ h => h.2) fun s _ hmore => ?_
      exact Or.inr ⟨by omega, by omega⟩
    · refine Scheduled.leadsTo_of_imp fun s _ h => absurd ?_ hv
      rw [← h.2]
      exact h.1.2
  · refine Scheduled.leadsTo_of_imp fun s _ h => absurd ?_ hstop
    rw [← h.2]
    exact h.1.1

end LeadsTo

/-! ## The process ends -/

/-- The process after `j` of the scheduler's turns. -/
def Store.after {cfg : Config} (n : Nat) (s : Store cfg) (turns : Nat → StoreAction) :
    Nat → Store cfg
  | 0 => s
  | j + 1 => (Store.after n s turns j).turn n (turns j)

section Terminates

variable {cfg : Config} {n : Nat} {s : Store cfg} {file : Database}

/-- What a turn of the shutdown needs, and keeps. -/
def Store.Closes (s : Store cfg) : Prop :=
  MainPc.stopSequencer.pos ≤ s.process.main.pos ∧ s.process.sequencer.accepted < 2 ^ 64

theorem Store.after_closes (hlive : s.Live file) (hcloses : s.Closes)
    (turns : Nat → StoreAction) (j : Nat) :
    (s.after n turns j).Live file ∧ (s.after n turns j).Closes := by
  induction j with
  | zero => exact ⟨hlive, hcloses⟩
  | succ j ih =>
      obtain ⟨hlive, hstop, hshort⟩ := ih
      have hshort' : (s.after n turns (j + 1)).process.sequencer.accepted < 2 ^ 64 := by
        show ((s.after n turns j).turn n (turns j)).process.sequencer.accepted < _
        rw [turn_accepted hstop]
        exact hshort
      exact ⟨turn_live hlive hshort',
        Nat.le_trans hstop (turn_move n _ (turns j)).pos, hshort'⟩

theorem run_eq_after (fair : Worker → Prop) (during : Store cfg → Prop) (s : Store cfg)
    (turns : Nat → StoreAction) (j : Nat) :
    (schedule n file fair during).run s turns j = s.after n turns j := by
  induction j with
  | zero => rfl
  | succ j ih =>
      show ((schedule n file fair during).run s turns j).turn n (turns j) = _
      rw [ih]
      rfl

theorem live_exec {buffers : ProducerId → Nat → SequencedEvent}
    {slots : Nat → SequencedEvent} {acksBuffer fillsBuffer : Nat → OutboundAck}
    {actions : List StoreAction}
    (hrun : Machine.exec (Store.step n) (Store.init cfg buffers slots acksBuffer fillsBuffer file)
      actions = some s) (hstarted : MainPc.startServer.pos ≤ s.process.main.pos)
    (hshort : s.process.sequencer.accepted < 2 ^ 64) : s.Live file := by
  have hboth : StoreInv file s ∧ s.Poised :=
    Machine.exec_preserves (I := fun s => StoreInv file s ∧ s.Poised)
      (fun _ _ _ h hs => ⟨storeInv_step h.1 hs, h.2.step h.1 hs⟩) actions _ s
      ⟨storeInv_init cfg buffers slots acksBuffer fillsBuffer file,
        Store.poised_init cfg buffers slots acksBuffer fillsBuffer file⟩ hrun
  have hle := Sequencer.published_le_accepted hboth.1.process.sequencer
  exact ⟨hboth.1, hboth.2, hstarted, Nat.lt_of_le_of_lt hle hshort⟩

/-- **The shutdown ends**: once the poll loop is left, under any scheduler that forgets none
of the five threads, every `join` of `main` returns. However full the rings are, no thread
waits for another that waits for it. -/
theorem shutdown_terminates {buffers : ProducerId → Nat → SequencedEvent}
    {slots : Nat → SequencedEvent} {acksBuffer fillsBuffer : Nat → OutboundAck}
    {actions : List StoreAction}
    (hrun : Machine.exec (Store.step n) (Store.init cfg buffers slots acksBuffer fillsBuffer file)
      actions = some s)
    (hstop : MainPc.stopSequencer.pos ≤ s.process.main.pos)
    (hshort : s.process.sequencer.accepted < 2 ^ 64)
    (turns : Nat → StoreAction)
    (hfair : ∀ (w : Worker) (i : Nat), ∃ j, i ≤ j ∧ (turns j).worker = some w) :
    ∃ j, (s.after n turns j).process.main = .done := by
  have hcloses : s.Closes := ⟨hstop, hshort⟩
  have hwithin : (schedule n file (fun _ => True) Store.Closes).Within s turns := by
    intro j
    rw [run_eq_after]
    exact Store.after_closes (live_exec hrun (Nat.le_trans (by decide) hstop) hshort) hcloses
      turns j
  obtain ⟨j, hdone⟩ := shutdown_ends (fun _ => trivial) turns (fun w _ => hfair w) s hwithin hstop
  rw [run_eq_after] at hdone
  exact ⟨j, hdone⟩

/-- The threads in turn. -/
def roundRobin (i : Nat) : StoreAction :=
  match i % 5 with
  | 0 => .main true
  | 1 => .sequencer 71
  | 2 => .matcher
  | 3 => .wal ⟨(7, 7), (7, 7, 7), (7, 7, 7, 7)⟩ false
  | _ => .db false 77

theorem roundRobin_fair (w : Worker) (i : Nat) :
    ∃ j, i ≤ j ∧ (roundRobin j).worker = some w := by
  have hmod : ∀ k, k < 5 → (5 * i + k) % 5 = k := by omega
  rcases w with _ | _ | x
  · exact ⟨5 * i + 0, by omega, by rw [roundRobin, hmod 0 (by decide)]; rfl⟩
  · exact ⟨5 * i + 1, by omega, by rw [roundRobin, hmod 1 (by decide)]; rfl⟩
  · cases x
    · exact ⟨5 * i + 2, by omega, by rw [roundRobin, hmod 2 (by decide)]; rfl⟩
    · exact ⟨5 * i + 3, by omega, by rw [roundRobin, hmod 3 (by decide)]; rfl⟩
    · exact ⟨5 * i + 4, by omega, by rw [roundRobin, hmod 4 (by decide)]; rfl⟩

/-- One order is in its queue when the poll loop is left, and nobody has read anything. -/
theorem shutdown_terminates_one_order :
    let cfg : Config := ⟨⟨1, by decide⟩, ⟨0, by decide⟩, 8, ⟨1, by decide⟩, 256⟩
    let blank : OutboundAck := ⟨0, 0, 0, .accepted, 0, 0, 0⟩
    let actions : List StoreAction :=
      List.replicate 8 (StoreAction.main true)
      ++ [StoreAction.push { sessionId := 4, clientOrderId := 9, price := 100, quantity := 5 },
          .produce, .produce, .produce, .main true]
    ∃ s, Machine.exec (Store.step 256) (Store.init cfg (fun _ _ => {}) (fun _ => {})
        (fun _ => blank) (fun _ => blank) .empty) actions = some s
      ∧ s.process.main = .stopSequencer ∧ s.process.sequencer.accepted = 1
      ∧ s.process.sequencer.output.published.length = 0
      ∧ ∃ j, (s.after 256 roundRobin j).process.main = .done := by
  intro cfg blank actions
  have heval : ((Machine.exec (Store.step 256) (Store.init cfg (fun _ _ => {}) (fun _ => {})
      (fun _ => blank) (fun _ => blank) .empty) actions).map fun s =>
        (s.process.main, s.process.sequencer.accepted,
          s.process.sequencer.output.published.length)) = some (.stopSequencer, 1, 0) := by
    decide +kernel
  obtain ⟨s, hrun, hs⟩ := Option.map_eq_some_iff.mp heval
  obtain ⟨hmain, haccepted, hpublished⟩ :
      s.process.main = .stopSequencer ∧ s.process.sequencer.accepted = 1
        ∧ s.process.sequencer.output.published.length = 0 := by
    simpa using hs
  refine ⟨s, hrun, hmain, haccepted, hpublished, ?_⟩
  exact shutdown_terminates hrun (by rw [hmain]) (by rw [haccepted]; decide) roundRobin
    roundRobin_fair

end Terminates

end HftLob.Pipeline

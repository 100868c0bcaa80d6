import HftLob.Pipeline.Persisted

/-!
# No thread is stuck in a call

The invariants so far say what a step leads to when it is made. That a thread can make one
at all is another matter: a call can only start when the last one of the same thread has
returned, and a thread that is about to look at the result of a call has to have made it.
`Poised` says this of every thread of the process, and with it how far `main` has come:
which consumers are registered, which threads are started, and which have been told to stop.
-/

namespace HftLob.Ring

variable {T : Type} {cap : RingCapacity} {maxConsumers : Nat}

/-! ## Calls that are over -/

def Producer.AtRest : Producer T → Prop
  | .idle | .returned _ => True
  | .loaded _ _ | .storeSlot _ _ | .storeHead _ _ => False

def Consumer.AtRest : Consumer T → Prop
  | .idle | .returned _ => True
  | .loaded _ | .copy _ | .storeTail _ _ => False

def Reader.AtRest : Reader T → Prop
  | .idle | .returned _ => True
  | .loaded _ | .copy _ | .storeCursor _ _ => False

theorem Consumer.atRest_of_result {c : Consumer T} {out : Option T} (h : c.result? = some out) :
    c.AtRest := by
  cases c with
  | returned out => trivial
  | _ => cases h

theorem Reader.atRest_of_result {r : Reader T} {out : Option T} (h : r.result? = some out) :
    r.AtRest := by
  cases r with
  | returned out => trivial
  | _ => cases h

theorem pop_not_idle {q q' : SpscRingBuffer T} (hq : q.step cap .pop = some q') :
    q'.consumer ≠ .idle := by
  dsimp only [SpscRingBuffer.step, SpscRingBuffer.startPop] at hq
  split at hq
  all_goals first | (cases hq; nofun) | exact absurd hq (by simp)

theorem consume_not_idle {q q' : SpscRingBuffer T} (hq : q.step cap .consume = some q') :
    q'.consumer ≠ .idle := by
  dsimp only [SpscRingBuffer.step, SpscRingBuffer.consume] at hq
  split at hq
  · exact absurd hq (by simp)
  · exact absurd hq (by simp)
  · split at hq <;> (cases hq; nofun)
  · cases hq; nofun
  · cases hq; nofun

theorem push_not_idle {q q' : SpscRingBuffer T} {item : T} (hq : q.startPush item = some q') :
    q'.producer ≠ .idle := by
  unfold SpscRingBuffer.startPush at hq
  split at hq
  all_goals first | (cases hq; nofun) | exact absurd hq (by simp)

theorem produce_not_idle {q q' : SpscRingBuffer T} (hq : q.produce cap = some q') :
    q'.producer ≠ .idle := by
  unfold SpscRingBuffer.produce at hq
  split at hq
  · exact absurd hq (by simp)
  · exact absurd hq (by simp)
  · split at hq <;> (cases hq; nofun)
  · cases hq; nofun
  · cases hq; nofun

theorem Writer.ne_idle_of_item? {w : Writer T} {item : T} (h : w.item? = some item) :
    w ≠ .idle := by
  rintro rfl
  cases h

theorem write_not_idle {r r' : BroadcastRing T} (hr : r.step cap maxConsumers .write = some r') :
    r'.writer ≠ .idle := by
  obtain ⟨_, _, item, _, ⟨_, hitem | hfalse⟩ | ⟨_, htrue⟩⟩ := write_spec hr
  · exact Writer.ne_idle_of_item? hitem
  · rw [hfalse]; nofun
  · rw [htrue]; nofun

theorem readers_not_idle {r r' : BroadcastRing T} {id : Nat}
    (hr : r.step cap maxConsumers (.consume id) = some r'
      ∨ r.step cap maxConsumers (.read id) = some r') : r'.readers id ≠ .idle := by
  rcases hr with hr | hr
  · obtain ⟨t, ht, rfl⟩ := step_eq_some hr
    dsimp only [BroadcastRing.act, BroadcastRing.startConsume] at ht
    split at ht
    · split at ht
      all_goals first
        | (cases ht; dsimp only; rw [Function.update_self]; nofun)
        | exact absurd ht (by simp)
    · exact absurd ht (by simp)
  · obtain ⟨t, ht, rfl⟩ := step_eq_some hr
    dsimp only [BroadcastRing.act, BroadcastRing.readStep] at ht
    split at ht
    · exact absurd ht (by simp)
    · exact absurd ht (by simp)
    · split at ht <;> (cases ht; dsimp only; rw [Function.update_self]; nofun)
    · cases ht; dsimp only; rw [Function.update_self]; nofun
    · cases ht; dsimp only; rw [Function.update_self]; nofun

/-- Consumers do not unregister. -/
theorem step_consumerCount {r r' : BroadcastRing T} {a : RingAction T}
    (hr : r.step cap maxConsumers a = some r') :
    r'.consumerCount = r.consumerCount
      ∨ a = .register ∧ r'.consumerCount = r.consumerCount + 1 := by
  obtain ⟨t, ht, rfl⟩ := step_eq_some hr
  dsimp only
  cases a with
  | register =>
      dsimp only [BroadcastRing.act, BroadcastRing.register] at ht
      split at ht
      · cases ht; exact Or.inr ⟨rfl, rfl⟩
      · exact absurd ht (by simp)
  | publish item =>
      dsimp only [BroadcastRing.act, BroadcastRing.startPublish] at ht
      split at ht
      all_goals first | (cases ht; exact Or.inl rfl) | exact absurd ht (by simp)
  | write =>
      -- the phases of `try_publish`, and the two ends of its scan
      dsimp only [BroadcastRing.act, BroadcastRing.writeStep] at ht
      split at ht
      all_goals try split at ht
      all_goals first | (cases ht; exact Or.inl rfl) | exact absurd ht (by simp)
  | consume id =>
      dsimp only [BroadcastRing.act, BroadcastRing.startConsume] at ht
      split at ht
      · split at ht
        all_goals first | (cases ht; exact Or.inl rfl) | exact absurd ht (by simp)
      · exact absurd ht (by simp)
  | read id =>
      dsimp only [BroadcastRing.act, BroadcastRing.readStep] at ht
      split at ht
      all_goals try split at ht
      all_goals first | (cases ht; exact Or.inl rfl) | exact absurd ht (by simp)

end HftLob.Ring

namespace HftLob.Pipeline

open HftLob.Lib HftLob.Ring HftLob.Book HftLob.Engine

/-! ## The sequencer -/

namespace Sequencer

structure Poised (q : Sequencer) : Prop where
  atRest : ∀ p, (∀ i, q.pc ≠ .popping p i) → (q.inputs p).consumer.AtRest
  popping : ∀ p i, q.pc = .popping p i → (q.inputs p).consumer ≠ .idle
  publishing : ∀ p i ev, q.pc = .publishing p i ev → q.output.writer ≠ .idle

variable {capIn capOut : RingCapacity} {maxConsumers : Nat} {q q' : Sequencer}

theorem poised_init (buffers : ProducerId → Nat → SequencedEvent)
    (slots : Nat → SequencedEvent) : (Sequencer.init buffers slots).Poised :=
  ⟨fun _ _ => trivial, nofun, nofun⟩

/-- A step that is not the thread's own, nor the start of it. -/
theorem Poised.frame (h : q.Poised) (hpc : q'.pc = q.pc)
    (hinputs : ∀ p, (q'.inputs p).consumer = (q.inputs p).consumer)
    (hwriter : q'.output.writer = q.output.writer) : q'.Poised where
  atRest := fun p hp => by rw [hinputs]; exact h.atRest p (by rwa [hpc] at hp)
  popping := fun p i hp => by rw [hinputs]; exact h.popping p i (by rwa [hpc] at hp)
  publishing := fun p i ev hp => by rw [hwriter]; exact h.publishing p i ev (by rwa [hpc] at hp)

/-- The thread is between two calls, and goes on with another. -/
theorem Poised.goto (h : q.Poised) {pc : SequencerPc}
    (hrest : ∀ p i, q.pc = .popping p i → (q.inputs p).consumer.AtRest)
    (hpop : ∀ p i, pc ≠ .popping p i) (hpub : ∀ p i ev, pc ≠ .publishing p i ev) :
    Poised { q with pc := pc } where
  atRest := fun p _ => by
    -- the queue it was at, if it was at one, and the others
    by_cases hp : ∃ i, q.pc = .popping p i
    · obtain ⟨i, hi⟩ := hp
      exact hrest p i hi
    · exact h.atRest p fun i hi => hp ⟨i, hi⟩
  popping := fun p i hp => absurd hp (hpop p i)
  publishing := fun p i ev hp => absurd hp (hpub p i ev)

/-- `startPop`, or a step of the call that it began. -/
theorem Poised.onInput (h : q.Poised) {p : ProducerId} {i : Nat} {a : SpscAction SequencedEvent}
    (hpc : q.pc = .pop p i ∧ a = .pop ∨ q.pc = .popping p i ∧ a = .consume)
    (hq : q.onInput capIn p a = some q') : Poised { q' with pc := .popping p i } := by
  obtain ⟨input, hinput, rfl⟩ := onInput_eq_some hq
  have hne : input.consumer ≠ .idle := by
    rcases hpc with ⟨_, rfl⟩ | ⟨_, rfl⟩
    · exact pop_not_idle hinput
    · exact consume_not_idle hinput
  refine ⟨fun p' hp' => ?_, fun p' i' hp' => ?_, nofun⟩
  · -- at every other queue the last call is over, before the step and after it
    have hother : p' ≠ p := fun he => hp' i (by rw [he])
    dsimp only
    rw [Function.update_of_ne hother]
    refine h.atRest p' fun i' hi' => ?_
    rcases hpc with ⟨hpc, _⟩ | ⟨hpc, _⟩ <;> (rw [hpc] at hi'; cases hi')
    exact hother rfl
  · cases hp'
    dsimp only
    rw [Function.update_self]
    exact hne

theorem Poised.runStep (h : q.Poised) {now : Nanos}
    (hq : q.runStep capIn capOut maxConsumers now = some q') : q'.Poised := by
  unfold Sequencer.runStep at hq
  cases hpc : q.pc with
  | ready => rw [hpc] at hq; exact absurd hq (by simp)
  | returned => rw [hpc] at hq; exact absurd hq (by simp)
  | test =>
      rw [hpc] at hq
      cases hq
      refine h.goto (by rw [hpc]; nofun) (fun p i => ?_) fun p i ev => ?_ <;> split <;> nofun
  | pop p i =>
      rw [hpc] at hq
      obtain ⟨t, ht, rfl⟩ := Option.map_eq_some_iff.mp hq
      exact h.onInput (Or.inl ⟨hpc, rfl⟩) ht
  | popping p i =>
      rw [hpc] at hq
      dsimp only at hq
      split at hq
      · -- `pop` has not returned yet
        have hnext := h.onInput (Or.inr ⟨hpc, rfl⟩) hq
        obtain ⟨input, _, rfl⟩ := onInput_eq_some hq
        exact hnext.frame hpc (fun _ => rfl) rfl
      · -- the queue is empty, and the next one has its turn
        rename_i hres
        cases hq
        refine h.goto (fun p' i' hp' => ?_) (afterProducer_ne p).2.1 (afterProducer_ne p).2.2
        rw [hpc] at hp'
        cases hp'
        exact Consumer.atRest_of_result hres
      · -- an event: it is stamped, and `try_publish` begins
        rename_i ev hres
        obtain ⟨t, ht, rfl⟩ := Option.map_eq_some_iff.mp hq
        obtain ⟨r, hr, rfl⟩ := onOutput_eq_some ht
        have hwriter := Writer.ne_idle_of_item? (publish_spec hr).2.1
        refine ⟨fun p' _ => ?_, nofun, fun _ _ _ _ => hwriter⟩
        by_cases hp : p' = p
        · rw [hp]
          exact Consumer.atRest_of_result hres
        · refine h.atRest p' fun i' hi' => hp ?_
          rw [hpc] at hi'
          cases hi'
          rfl
  | publishing p i ev =>
      rw [hpc] at hq
      dsimp only at hq
      have hrest : ∀ p', (q.inputs p').consumer.AtRest :=
        fun p' => h.atRest p' (by rw [hpc]; nofun)
      split at hq
      · obtain ⟨r, hr, rfl⟩ := onOutput_eq_some hq
        exact ⟨fun p' _ => hrest p', fun p' i' hp' => (nomatch hpc.symm.trans hp'),
          fun _ _ _ _ => write_not_idle hr⟩
      · -- no room: the same event again
        obtain ⟨r, hr, rfl⟩ := onOutput_eq_some hq
        exact ⟨fun p' _ => hrest p', fun p' i' hp' => (nomatch hpc.symm.trans hp'),
          fun _ _ _ _ => Writer.ne_idle_of_item? (publish_spec hr).2.1⟩
      · -- published; the drain of this queue goes on, or the next queue has its turn
        cases hq
        refine h.goto (by rw [hpc]; nofun) (fun p' i' => ?_) fun p' i' ev' => ?_
        · split
          · nofun
          · exact (afterProducer_ne p).2.1 p' i'
        · split
          · nofun
          · exact (afterProducer_ne p).2.2 p' i' ev'

/-- A producer's step leaves the other end of its queue alone. -/
theorem Poised.produce (h : q.Poised) {p : ProducerId} {a : SpscAction SequencedEvent}
    (ha : a = .produce ∨ ∃ item, a = .push item) (hq : q.onInput capIn p a = some q') :
    q'.Poised := by
  obtain ⟨input, hinput, rfl⟩ := onInput_eq_some hq
  refine h.frame rfl (fun p' => ?_) rfl
  dsimp only
  by_cases hp : p' = p
  · rw [hp, Function.update_self, (producer_spec ha hinput).2.1]
  · rw [Function.update_of_ne hp]

theorem Poised.step (h : q.Poised) {a : SequencerAction}
    (hq : q.step capIn capOut maxConsumers a = some q') : q'.Poised := by
  cases a with
  | register =>
      dsimp only [Sequencer.step] at hq
      split at hq
      · obtain ⟨r, hr, rfl⟩ := onOutput_eq_some hq
        exact h.frame rfl (fun _ => rfl) (register_spec hr).2.1
      · exact absurd hq (by simp)
  | start =>
      dsimp only [Sequencer.step] at hq
      split at hq
      · rename_i hready
        cases hq
        exact ⟨fun p _ => h.atRest p (by rw [hready]; nofun), nofun, nofun⟩
      · exact absurd hq (by simp)
  | stop => cases hq; exact h.frame rfl (fun _ => rfl) rfl
  | push p item => exact h.produce (Or.inr ⟨item, rfl⟩) hq
  | produce p => exact h.produce (Or.inl rfl) hq
  | run now => exact h.runStep hq
  | consume id =>
      obtain ⟨r, hr, rfl⟩ := onOutput_eq_some hq
      exact h.frame rfl (fun _ => rfl) (consume_spec hr).1.writer
  | read id =>
      obtain ⟨r, hr, rfl⟩ := onOutput_eq_some hq
      exact h.frame rfl (fun _ => rfl) (read_spec hr).1.writer

/-- What is once started stays so, and what is told to stop is not told otherwise. -/
theorem step_started {a : SequencerAction} (hq : q.step capIn capOut maxConsumers a = some q')
    (hpc : q.pc ≠ .ready) :
    q'.pc ≠ .ready ∧ (q.running = false → q'.running = false) := by
  cases a with
  | register | start =>
      dsimp only [Sequencer.step] at hq
      rw [if_neg hpc] at hq
      exact absurd hq (by simp)
  | stop => cases hq; exact ⟨hpc, fun _ => rfl⟩
  | push p item => obtain ⟨input, _, rfl⟩ := onInput_eq_some hq; exact ⟨hpc, id⟩
  | produce p => obtain ⟨input, _, rfl⟩ := onInput_eq_some hq; exact ⟨hpc, id⟩
  | consume id' => obtain ⟨r, _, rfl⟩ := onOutput_eq_some hq; exact ⟨hpc, id⟩
  | read id' => obtain ⟨r, _, rfl⟩ := onOutput_eq_some hq; exact ⟨hpc, id⟩
  | run now =>
      -- `run` is never entered twice: wherever it goes on, it is past its first line
      have hne : ∀ p, afterProducer p ≠ .ready := fun p => by cases p <;> nofun
      dsimp only [Sequencer.step, Sequencer.runStep] at hq
      split at hq
      · exact absurd hq (by simp)
      · exact absurd hq (by simp)
      · cases hq
        refine ⟨?_, id⟩
        dsimp only
        split <;> nofun
      · obtain ⟨t, ht, rfl⟩ := Option.map_eq_some_iff.mp hq
        obtain ⟨input, _, rfl⟩ := onInput_eq_some ht
        exact ⟨nofun, id⟩
      · split at hq
        · obtain ⟨input, _, rfl⟩ := onInput_eq_some hq
          exact ⟨hpc, id⟩
        · cases hq
          exact ⟨hne _, id⟩
        · obtain ⟨t, ht, rfl⟩ := Option.map_eq_some_iff.mp hq
          obtain ⟨r, _, rfl⟩ := onOutput_eq_some ht
          exact ⟨nofun, id⟩
      · split at hq
        · obtain ⟨r, _, rfl⟩ := onOutput_eq_some hq
          exact ⟨hpc, id⟩
        · obtain ⟨r, _, rfl⟩ := onOutput_eq_some hq
          exact ⟨hpc, id⟩
        · cases hq
          refine ⟨?_, id⟩
          dsimp only
          split
          · nofun
          · exact hne _

theorem step_registered {a : SequencerAction} (hq : q.step capIn capOut maxConsumers a = some q') :
    q'.output.consumerCount = q.output.consumerCount
      ∨ a = .register ∧ q'.output.consumerCount = q.output.consumerCount + 1 := by
  have honOutput : ∀ {b : RingAction SequencedEvent} {t : Sequencer},
      q.onOutput capOut maxConsumers b = some t → b ≠ .register →
        t.output.consumerCount = q.output.consumerCount := by
    intro b t ht hb
    obtain ⟨r, hr, rfl⟩ := onOutput_eq_some ht
    exact (step_consumerCount hr).resolve_right fun h => hb h.1
  cases a with
  | register =>
      dsimp only [Sequencer.step] at hq
      split at hq
      · obtain ⟨r, hr, rfl⟩ := onOutput_eq_some hq
        exact (step_consumerCount hr).imp_right fun h => ⟨rfl, h.2⟩
      · exact absurd hq (by simp)
  | start =>
      dsimp only [Sequencer.step] at hq
      split at hq
      · cases hq; exact Or.inl rfl
      · exact absurd hq (by simp)
  | stop => cases hq; exact Or.inl rfl
  | push p item => obtain ⟨input, _, rfl⟩ := onInput_eq_some hq; exact Or.inl rfl
  | produce p => obtain ⟨input, _, rfl⟩ := onInput_eq_some hq; exact Or.inl rfl
  | consume id => exact Or.inl (honOutput hq nofun)
  | read id => exact Or.inl (honOutput hq nofun)
  | run now =>
      -- the thread only pops and publishes
      refine Or.inl ?_
      dsimp only [Sequencer.step, Sequencer.runStep] at hq
      split at hq
      · exact absurd hq (by simp)
      · exact absurd hq (by simp)
      · cases hq; rfl
      · obtain ⟨t, ht, rfl⟩ := Option.map_eq_some_iff.mp hq
        obtain ⟨input, _, rfl⟩ := onInput_eq_some ht
        rfl
      · split at hq
        · obtain ⟨input, _, rfl⟩ := onInput_eq_some hq; rfl
        · cases hq; rfl
        · obtain ⟨t, ht, rfl⟩ := Option.map_eq_some_iff.mp hq
          have hcount : t.output.consumerCount = q.output.consumerCount := honOutput ht nofun
          exact hcount
      · split at hq
        · exact honOutput hq nofun
        · exact honOutput hq nofun
        · cases hq; rfl

end Sequencer

/-! ## The consumers -/

namespace ConsumerThread

structure Poised (id : Nat) (c : ConsumerThread) (q : Sequencer) : Prop where
  atRest : (∀ l, c.pc ≠ .consuming l) → (q.output.readers id).AtRest
  consuming : ∀ l, c.pc = .consuming l → q.output.readers id ≠ .idle
  registered : c.pc ≠ .ready → id < q.output.consumerCount

variable {capIn capOut : RingCapacity} {maxConsumers id : Nat} {c c' : ConsumerThread}
  {q q' : Sequencer} {out : Outcome}

theorem poised_init (id : Nat) (buffers : ProducerId → Nat → SequencedEvent)
    (slots : Nat → SequencedEvent) :
    Poised id ConsumerThread.init (Sequencer.init buffers slots) :=
  ⟨fun _ => trivial, nofun, fun h => absurd rfl h⟩

theorem Poised.frame (h : Poised id c q) (hq : Quiet capIn capOut maxConsumers id q q') :
    Poised id c q' := by
  rcases hq with rfl | ⟨a, ha, hconsume, hread⟩
  · exact h
  obtain ⟨_, hreader⟩ := step_other ha hconsume hread
  refine ⟨fun hpc => by rw [hreader]; exact h.atRest hpc,
    fun l hpc => by rw [hreader]; exact h.consuming l hpc, fun hpc => ?_⟩
  have hid := h.registered hpc
  rcases Sequencer.step_registered ha with hsame | ⟨_, hmore⟩ <;> omega

theorem Poised.start (h : Poised id c q) (hc : c.start = some c')
    (hid : id < q.output.consumerCount) : Poised id c' q := by
  unfold ConsumerThread.start at hc
  split at hc
  · rename_i hready
    cases hc
    exact ⟨fun _ => h.atRest (by rw [hready]; nofun), nofun, fun _ => hid⟩
  · exact absurd hc (by simp)

/-- The thread is between two calls. -/
theorem Poised.goto (h : Poised id c q) {pc : ConsumerPc} (hready : c.pc ≠ .ready)
    (hrest : (q.output.readers id).AtRest) (hpc : ∀ l, pc ≠ .consuming l) :
    Poised id { c with pc := pc } q :=
  ⟨fun _ => hrest, fun l hl => absurd hl (hpc l), fun _ => h.registered hready⟩

theorem Poised.step (h : Poised id c q)
    (hc : c.step capIn capOut maxConsumers id q = some (c', q', out)) : Poised id c' q' := by
  unfold ConsumerThread.step at hc
  cases hpc : c.pc with
  | ready => rw [hpc] at hc; exact absurd hc (by simp)
  | returned => rw [hpc] at hc; exact absurd hc (by simp)
  | test =>
      rw [hpc] at hc
      cases hc
      refine h.goto (by rw [hpc]; nofun) (h.atRest (by rw [hpc]; nofun)) fun l => ?_
      split <;> nofun
  | call l =>
      rw [hpc] at hc
      obtain ⟨t, ht, he⟩ := Option.map_eq_some_iff.mp hc
      cases he
      have hid := h.registered (by rw [hpc]; nofun)
      obtain ⟨r, hr, rfl⟩ := onOutput_eq_some ht
      refine ⟨fun hl => absurd rfl (hl l), fun _ _ => readers_not_idle (Or.inl hr), fun _ => ?_⟩
      have hcount := (step_consumerCount hr).resolve_right nofun
      dsimp only
      omega
  | consuming l =>
      rw [hpc] at hc
      have hid := h.registered (by rw [hpc]; nofun)
      dsimp only at hc
      split at hc
      · -- `try_consume` has not returned yet
        obtain ⟨t, ht, he⟩ := Option.map_eq_some_iff.mp hc
        cases he
        obtain ⟨r, hr, rfl⟩ := onOutput_eq_some ht
        refine ⟨fun hl => absurd hpc (hl l), fun _ _ => readers_not_idle (Or.inr hr), fun _ => ?_⟩
        have hcount := (step_consumerCount hr).resolve_right nofun
        dsimp only
        omega
      · rename_i hres
        cases hc
        refine h.goto (by rw [hpc]; nofun) (Reader.atRest_of_result hres) ?_
        cases l <;> nofun
      · -- an event; a batch ends after so many of them, the last drain does not
        rename_i ev hres
        cases hc
        refine h.goto (by rw [hpc]; nofun) (Reader.atRest_of_result hres) ?_
        cases l with
        | batch i => rcases ConsumerLoop.next_batch i with hn | ⟨j, hn⟩ <;> (rw [hn]; nofun)
        | drain => nofun
  | batchEnd =>
      rw [hpc] at hc
      cases hc
      exact h.goto (by rw [hpc]; nofun) (h.atRest (by rw [hpc]; nofun)) nofun
  | drained =>
      rw [hpc] at hc
      cases hc
      exact h.goto (by rw [hpc]; nofun) (h.atRest (by rw [hpc]; nofun)) nofun

theorem step_ne_ready (hc : c.step capIn capOut maxConsumers id q = some (c', q', out)) :
    c'.pc ≠ .ready := by
  unfold ConsumerThread.step at hc
  split at hc
  · exact absurd hc (by simp)
  · exact absurd hc (by simp)
  · cases hc
    dsimp only
    split <;> nofun
  · obtain ⟨t, _, he⟩ := Option.map_eq_some_iff.mp hc
    cases he
    nofun
  · rename_i l hpc
    split at hc
    · obtain ⟨t, _, he⟩ := Option.map_eq_some_iff.mp hc
      cases he
      rw [hpc]
      nofun
    · cases hc
      cases l <;> nofun
    · cases hc
      cases l with
      | batch i =>
          rcases ConsumerLoop.next_batch i with hn | ⟨j, hn⟩ <;> (dsimp only; rw [hn]; nofun)
      | drain => nofun
  · cases hc; nofun
  · cases hc; nofun

end ConsumerThread

end HftLob.Pipeline

namespace HftLob.Engine

open HftLob.Lib HftLob.Ring HftLob.Book

/-! ## The matcher's two queues -/

namespace Sinks

variable {cap : PoolCapacity} {s s' : Sinks cap}

structure Poised (s : Sinks cap) : Prop where
  acks : (∀ ack spins, s.phase ≠ .client ack spins) → s.acks.producer.AtRest
  client : ∀ ack spins, s.phase = .client ack spins → s.acks.producer ≠ .idle
  fills : (∀ ack, s.phase ≠ .persistence ack) → s.fills.producer.AtRest
  persistence : ∀ ack, s.phase = .persistence ack → s.fills.producer ≠ .idle

theorem poised_init (cap : PoolCapacity) (acksBuffer fillsBuffer : Nat → OutboundAck) :
    (Sinks.init cap acksBuffer fillsBuffer).Poised :=
  ⟨fun _ => trivial, nofun, fun _ => trivial, nofun⟩

theorem Poised.frame (h : s.Poised) (hphase : s'.phase = s.phase)
    (hacks : s'.acks.producer = s.acks.producer) (hfills : s'.fills.producer = s.fills.producer) :
    s'.Poised where
  acks := by rw [hphase, hacks]; exact h.acks
  client := by rw [hphase, hacks]; exact h.client
  fills := by rw [hphase, hfills]; exact h.fills
  persistence := by rw [hphase, hfills]; exact h.persistence

/-- `acks_.push`, while nothing is under way at the other queue. -/
theorem Poised.onAcks (h : s.Poised) {ack : OutboundAck} {spins : Nat} {rest constructed}
    {acks : SpscRingBuffer OutboundAck} (hphase : ∀ ack, s.phase ≠ .persistence ack)
    (hacks : acks.producer ≠ .idle) :
    Poised { s with acks := acks, phase := .client ack spins, rest := rest,
                    constructed := constructed } where
  acks := fun hne => absurd rfl (hne ack spins)
  client := fun _ _ _ => hacks
  fills := fun _ => h.fills hphase
  persistence := nofun

theorem poised_onFills {ack : OutboundAck} {offered}
    {fills : SpscRingBuffer OutboundAck} (hacks : s.acks.producer.AtRest)
    (hfills : fills.producer ≠ .idle) :
    Poised { s with fills := fills, phase := .persistence ack, offered := offered } where
  acks := fun _ => hacks
  client := nofun
  fills := fun hne => absurd rfl (hne ack)
  persistence := fun _ _ => hfills

theorem Poised.pushAck (h : s.Poised) (hs : s.pushAck = some s') : s'.Poised := by
  unfold Sinks.pushAck at hs
  cases hphase : s.phase with
  | idle =>
      rw [hphase] at hs
      dsimp only at hs
      split at hs
      · exact absurd hs (by simp)
      · obtain ⟨acks, hstart, rfl⟩ := Option.map_eq_some_iff.mp hs
        exact h.onAcks (by rw [hphase]; nofun) (push_not_idle hstart)
  | client ack spins =>
      rw [hphase] at hs
      have hother : ∀ ack, s.phase ≠ .persistence ack := by rw [hphase]; nofun
      have hrest := h.fills hother
      dsimp only at hs
      split at hs
      · -- the client's queue has taken it, and persistence is next
        rename_i hproducer
        obtain ⟨fills, hstart, rfl⟩ := Option.map_eq_some_iff.mp hs
        exact poised_onFills (by rw [hproducer]; trivial) (push_not_idle hstart)
      · rename_i hproducer
        split at hs
        · -- dropped; persistence never sees it
          cases hs
          exact ⟨fun _ => by rw [hproducer]; trivial, nofun, fun _ => hrest, nofun⟩
        · obtain ⟨acks, hstart, rfl⟩ := Option.map_eq_some_iff.mp hs
          exact h.onAcks hother (push_not_idle hstart)
      all_goals
        obtain ⟨acks, hproduce, rfl⟩ := Option.map_eq_some_iff.mp hs
        exact h.onAcks hother (produce_not_idle hproduce)
  | persistence ack =>
      rw [hphase] at hs
      have hother : ∀ ack spins, s.phase ≠ .client ack spins := by rw [hphase]; nofun
      have hrest := h.acks hother
      dsimp only at hs
      split at hs
      · rename_i hproducer
        cases hs
        exact ⟨fun _ => hrest, nofun, fun _ => by rw [hproducer]; trivial, nofun⟩
      · rename_i hproducer
        cases hs
        exact ⟨fun _ => hrest, nofun, fun _ => by rw [hproducer]; trivial, nofun⟩
      all_goals
        obtain ⟨fills, hproduce, rfl⟩ := Option.map_eq_some_iff.mp hs
        exact poised_onFills hrest (produce_not_idle hproduce)

theorem Poised.step (h : s.Poised) {a : SinkAction} (hs : s.step a = some s') : s'.Poised := by
  cases a with
  | apply ev =>
      dsimp only [Sinks.step] at hs
      split at hs
      · rename_i hphase _
        cases hs
        exact h.frame hphase.symm rfl rfl
      · exact absurd hs (by simp)
  | push => exact h.pushAck hs
  | drainAcks call =>
      obtain ⟨acks, hacks, rfl⟩ := Option.map_eq_some_iff.mp hs
      exact h.frame rfl (drain_spec hacks).2 rfl
  | drainFills call =>
      obtain ⟨fills, hfills, rfl⟩ := Option.map_eq_some_iff.mp hs
      exact h.frame rfl rfl (drain_spec hfills).2

end Sinks

end HftLob.Engine

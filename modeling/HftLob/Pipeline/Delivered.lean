import HftLob.Pipeline.Fair
import HftLob.Pipeline.Terminates

/-!
# What the gateway has accepted is delivered

An event is in the gateway's queue, and the gateway has nothing more to do with it. As long
as `main` polls, the sequencer comes back to the queue, pass after pass, takes the event out
and publishes it, and each of the three consumers reads it. Fairness to the four threads is
all that is needed: new events in the queue, a full ring and acks nobody takes do not keep
the event from any of them.
-/

namespace HftLob.Ring

variable {T : Type} {cap : RingCapacity} {q : SpscRingBuffer T}

/-- A `pop` under way at a queue with something in it gets closer to taking it out. -/
theorem SpscInv.take_closer (h : SpscInv cap q) (hsome : q.popped.length < q.pushed.length)
    (hres : q.consumer.result? = none) (hidle : q.consumer ≠ .idle) :
    ∃ q', q.step cap .consume = some q'
      ∧ (q.popped.length < q'.popped.length
        ∨ (q'.popped = q.popped ∧ q'.consumer.result? = none)
          ∧ q'.consumer.toGo < q.consumer.toGo) := by
  have hok := h.consumer
  unfold ConsumerOk at hok
  dsimp only [SpscRingBuffer.step, SpscRingBuffer.consume]
  cases hco : q.consumer with
  | idle => exact absurd hco hidle
  | returned out => rw [hco] at hres; exact nomatch hres
  | loaded tail =>
      rw [hco] at hok
      -- with something in the queue the call does not come back empty
      have hne : tail ≠ q.head := by
        rw [show tail = q.tail from hok]
        intro hempty
        rw [h.empty_iff.mp hempty] at hsome
        exact Nat.lt_irrefl _ hsome
      dsimp only
      rw [if_neg hne]
      exact ⟨_, rfl, Or.inr ⟨⟨rfl, rfl⟩, show 3 < 4 by omega⟩⟩
  | copy tail => exact ⟨_, rfl, Or.inr ⟨⟨rfl, rfl⟩, show 2 < 3 by omega⟩⟩
  | storeTail tail out =>
      refine ⟨_, rfl, Or.inl ?_⟩
      dsimp only
      rw [List.length_append]
      exact Nat.lt_succ_self _

theorem popped_grows {a : SpscAction T} {q' : SpscRingBuffer T} (hq : q.step cap a = some q') :
    q.popped.length ≤ q'.popped.length := by
  cases a with
  | push item => rw [(producer_spec (Or.inr ⟨item, rfl⟩) hq).1]
  | produce => rw [(producer_spec (Or.inl rfl) hq).1]
  | pop => rw [(pop_spec hq).1]
  | consume =>
      rcases (consumer_spec hq).2.2 with ⟨hpopped, _⟩ | ⟨out, hpopped, _⟩
      · rw [hpopped]
      · rw [hpopped, List.length_append]
        exact Nat.le_add_right _ _

end HftLob.Ring

namespace HftLob.Pipeline

open HftLob.Lib HftLob.Ring HftLob.Book HftLob.Engine

/-! ## At the gateway's queue -/

namespace Sequencer

variable {capIn capOut : RingCapacity} {maxConsumers : Nat} {q q' : Sequencer} {now : Nanos}

/-- The thread is about to pop from the gateway's queue, or in the call. -/
def Fetching (q : Sequencer) : Prop :=
  (∃ i, q.pc = .pop .gateway i)
    ∨ (∃ i, q.pc = .popping .gateway i) ∧ (q.inputs .gateway).consumer.result? = none

theorem Poised.fetch_closer (h : q.Poised) (hinv : SequencerInv capIn capOut q)
    (hsome : (q.inputs .gateway).popped.length < (q.inputs .gateway).pushed.length)
    (hfetch : q.Fetching) :
    ∃ q', q.runStep capIn capOut maxConsumers now = some q'
      ∧ ((q.inputs .gateway).popped.length < (q'.inputs .gateway).popped.length
        ∨ (q'.Fetching ∧ (q'.inputs .gateway).popped = (q.inputs .gateway).popped)
          ∧ q'.popRank < q.popRank) := by
  rcases hfetch with ⟨i, hpc⟩ | ⟨⟨i, hpc⟩, hres⟩
  · -- the call begins, which takes nothing out yet
    obtain ⟨input, hinput, hloaded, hq⟩ := h.pop_begins hpc
    refine ⟨_, hq, Or.inr ⟨⟨Or.inr ⟨⟨i, rfl⟩, ?_⟩, ?_⟩, ?_⟩⟩
    · dsimp only
      rw [Function.update_self, hloaded]
      rfl
    · dsimp only
      rw [Function.update_self, (pop_spec hinput).1]
    · unfold popRank
      rw [hpc]
      dsimp only
      rw [Function.update_self, hloaded]
      show 4 < 5
      omega
  · obtain ⟨input, hinput, hcloser⟩ :=
      (hinv.input .gateway).take_closer hsome hres (h.popping .gateway i hpc)
    refine ⟨_, runStep_pop hpc hres hinput, ?_⟩
    unfold Fetching popRank
    dsimp only
    rw [Function.update_self, hpc]
    dsimp only
    rw [Function.update_self]
    refine hcloser.imp_right fun hcloser => ⟨⟨Or.inr ⟨⟨i, rfl⟩, hcloser.1.2⟩, hcloser.1.1⟩, ?_⟩
    exact hcloser.2

theorem onInput_popped {p p' : ProducerId} {a : SpscAction SequencedEvent}
    (hq : q.onInput capIn p a = some q') :
    (q.inputs p').popped.length ≤ (q'.inputs p').popped.length := by
  obtain ⟨input, hinput, rfl⟩ := onInput_eq_some hq
  dsimp only
  by_cases hp : p' = p
  · rw [hp, Function.update_self]
    exact popped_grows hinput
  · rw [Function.update_of_ne hp]

/-- The producers' steps, and those at the ring, take nothing out of a queue. -/
theorem step_popped {a : SequencerAction} (hq : q.step capIn capOut maxConsumers a = some q')
    (hrun : ∀ now, a ≠ .run now) (p : ProducerId) :
    (q'.inputs p).popped = (q.inputs p).popped := by
  have honInput : ∀ {p' : ProducerId} {b : SpscAction SequencedEvent},
      (b = .produce ∨ ∃ item, b = .push item) → q.onInput capIn p' b = some q' →
        (q'.inputs p).popped = (q.inputs p).popped := by
    intro p' b hb ht
    obtain ⟨input, hinput, rfl⟩ := onInput_eq_some ht
    dsimp only
    by_cases hp : p = p'
    · rw [hp, Function.update_self, (producer_spec hb hinput).1]
    · rw [Function.update_of_ne hp]
  cases a with
  | register | start =>
      dsimp only [Sequencer.step] at hq
      split at hq
      · first
        | (obtain ⟨r, _, rfl⟩ := onOutput_eq_some hq; rfl)
        | (cases hq; rfl)
      · exact absurd hq (by simp)
  | stop => cases hq; rfl
  | push p' item => exact honInput (Or.inr ⟨item, rfl⟩) hq
  | produce p' => exact honInput (Or.inl rfl) hq
  | run now => exact absurd rfl (hrun now)
  | consume id | read id =>
      obtain ⟨r, _, rfl⟩ := onOutput_eq_some hq
      rfl

theorem runStep_popped (hq : q.runStep capIn capOut maxConsumers now = some q')
    (p : ProducerId) : (q.inputs p).popped.length ≤ (q'.inputs p).popped.length := by
  unfold Sequencer.runStep at hq
  -- by where the thread is; only in a `pop` does a queue change
  split at hq
  · exact absurd hq (by simp)
  · exact absurd hq (by simp)
  · cases hq; exact Nat.le_refl _
  · obtain ⟨t, ht, rfl⟩ := Option.map_eq_some_iff.mp hq
    have hle : (q.inputs p).popped.length ≤ (t.inputs p).popped.length := onInput_popped ht
    exact hle
  · split at hq
    · exact onInput_popped hq
    · cases hq; exact Nat.le_refl _
    · obtain ⟨t, ht, rfl⟩ := Option.map_eq_some_iff.mp hq
      obtain ⟨r, _, rfl⟩ := onOutput_eq_some ht
      exact Nat.le_refl _
  · split at hq
    · obtain ⟨r, _, rfl⟩ := onOutput_eq_some hq
      exact Nat.le_refl _
    · obtain ⟨r, _, rfl⟩ := onOutput_eq_some hq
      exact Nat.le_refl _
    · cases hq; exact Nat.le_refl _

end Sequencer

/-! ## What the turns do to the queue and the stream -/

namespace Store

variable {cfg : Config} {n : Nat} {s : Store cfg} {a : StoreAction} {file : Database}

theorem turn_pushed (n : Nat) (s : Store cfg) (a : StoreAction) (p : ProducerId) :
    (s.process.sequencer.inputs p).pushed
      <+: ((s.turn n a).process.sequencer.inputs p).pushed := by
  cases turn_move n s a with
  | main started _ hmain =>
      rcases Process.mainStep_sequencer hmain with he | ⟨b, _, hb⟩
      · rw [he]
      · exact (keeps_step hb).pushed p
  | sequencer b _ _ hb _ _ => exact (keeps_step hb).pushed p
  | follower x _ out hx _ _ => rw [(ConsumerThread.step_sequencer_frame hx).2.2]
  | still hprocess => rw [hprocess]

/-- Nobody but the sequencer pops. -/
theorem turn_popped (ha : a.worker ≠ some .sequencer) (p : ProducerId) :
    ((s.turn n a).process.sequencer.inputs p).popped
      = (s.process.sequencer.inputs p).popped := by
  cases turn_move n s a with
  | main started _ hmain =>
      rcases Process.mainStep_sequencer hmain with he | ⟨b, hgoverns, hb⟩
      · rw [he]
      · rw [Sequencer.governs_inputs hgoverns hb]
  | sequencer b hquiet hworker hb _ _ =>
      rcases hworker with ⟨_, hseq⟩ | ⟨haccepts, _⟩
      · exact absurd hseq ha
      · exact Sequencer.step_popped hb haccepts.ne p
  | follower x _ out hx _ _ => rw [(ConsumerThread.step_sequencer_frame hx).2.2]
  | still hprocess => rw [hprocess]

theorem turn_popped_le (n : Nat) (s : Store cfg) (a : StoreAction) (p : ProducerId) :
    (s.process.sequencer.inputs p).popped.length
      ≤ ((s.turn n a).process.sequencer.inputs p).popped.length := by
  by_cases ha : a.worker = some .sequencer
  · obtain ⟨now, hrun | ⟨_, hsame⟩⟩ := turn_run (n := n) (s := s) ha
    · exact Sequencer.runStep_popped hrun p
    · rw [hsame]
  · rw [turn_popped ha]

theorem turn_published (n : Nat) (s : Store cfg) (a : StoreAction) :
    s.process.sequencer.output.published
      <+: (s.turn n a).process.sequencer.output.published := by
  by_cases ha : a.worker = some .sequencer
  · obtain ⟨now, hrun | ⟨_, hsame⟩⟩ := turn_run (n := n) (s := s) ha
    · exact Sequencer.runStep_published hrun
    · rw [hsame]
  · rw [(turn_move n s a).published.2 ha]

/-- The poll loop goes on. -/
def Polls (s : Store cfg) : Prop := Closing s.process ∧ s.process.main = .polling

theorem Polls.running (h : s.Polls) (hlive : s.Live file) :
    s.process.sequencer.running = true := by
  by_contra hstop
  rcases h.1.flag (Bool.eq_false_of_not_eq_true hstop) with hready | hpos
  · exact hlive.sequencer_started hready
  · rw [h.2] at hpos
    exact absurd hpos (by decide)

theorem Polls.not_returned (h : s.Polls) : s.process.sequencer.pc ≠ .returned := by
  intro hpc
  have hpos := h.1.exited hpc
  rw [h.2] at hpos
  exact absurd hpos (by decide)

theorem closing_threadMove {s s' : Store cfg} {worker : Option Worker} (h : Closing s.process)
    (hmove : ThreadMove s s' worker) : Closing s'.process := by
  have hquiet : s'.process.main = s.process.main →
      s'.process.sequencer.running = s.process.sequencer.running →
      s'.process.sequencer.pc = s.process.sequencer.pc → Closing s'.process := by
    intro hmain hflag hpc
    refine ⟨fun hf => ?_, fun hp => ?_⟩
    · rw [hpc, hmain]
      exact h.flag (hflag.symm.trans hf)
    · rw [hmain]
      exact h.exited (hpc.symm.trans hp)
  cases hmove with
  | main started _ hstep => exact h.step (mainStep_moves hstep)
  | sequencer b hb hworker hstep _ hmain =>
      -- a step of the thread, or of a poll at the input queue
      rcases hworker with ⟨⟨now, rfl⟩, _⟩ | ⟨⟨item, rfl⟩ | rfl, _⟩
      · exact h.step (.run hstep hmain)
      · obtain ⟨input, _, he⟩ := onInput_eq_some hstep
        exact hquiet hmain (by rw [he]) (by rw [he])
      · obtain ⟨input, _, he⟩ := onInput_eq_some hstep
        exact hquiet hmain (by rw [he]) (by rw [he])
  | follower x _ out hx _ hmain =>
      obtain ⟨hflag, hpc, _⟩ := ConsumerThread.step_sequencer_frame hx
      exact hquiet hmain hflag hpc
  | still hprocess => rw [hprocess]; exact h

/-- The gateway has pushed more than `m` events, and the sequencer has popped `c` of them. -/
def Waiting (m c : Nat) (s : Store cfg) : Prop :=
  m < (s.process.sequencer.inputs .gateway).pushed.length
    ∧ (s.process.sequencer.inputs .gateway).popped.length = c

theorem Waiting.turn {m c : Nat} (h : s.Waiting m c) (n : Nat) (a : StoreAction) :
    (s.turn n a).Waiting m c
      ∨ c < ((s.turn n a).process.sequencer.inputs .gateway).popped.length := by
  have hpushed := Nat.lt_of_lt_of_le h.1 (turn_pushed n s a .gateway).length_le
  have hle := turn_popped_le n s a .gateway
  rw [h.2] at hle
  exact (Nat.eq_or_lt_of_le hle).imp_left fun hsame => ⟨hpushed, hsame.symm⟩

/-- Among the first `k` events of the stream are more than `m` of the gateway. -/
def Streamed (m k : Nat) (s : Store cfg) : Prop :=
  k ≤ s.process.sequencer.output.published.length
    ∧ m < ((s.process.sequencer.output.published.take k).filter
      fun ev => ev.producer = .gateway).length

theorem Streamed.turn {m k : Nat} (h : s.Streamed m k) (n : Nat) (a : StoreAction) :
    (s.turn n a).Streamed m k := by
  obtain ⟨rest, hrest⟩ := turn_published n s a
  refine ⟨Nat.le_trans h.1 (turn_published n s a).length_le, ?_⟩
  rw [← hrest, List.take_append_of_le_length h.1]
  exact h.2

/-- A consumer that has read the first `k` events has read those of the gateway. -/
theorem Streamed.consumed {m k : Nat} {x : Follower} (h : s.Streamed m k) (hlive : s.Live file)
    (hcaught : s.CaughtUp k x) :
    m < ((s.process.sequencer.output.consumed x.id).filter
      fun ev => ev.producer = .gateway).length := by
  have hring := hlive.inv.process.sequencer.ring hlive.short
  unfold CaughtUp at hcaught
  rw [hring.consumed x.id] at hcaught ⊢
  have hle := Nat.le_trans hcaught (List.length_take_le _ _)
  exact Nat.lt_of_lt_of_le h.2 ((List.take_prefix_take_left hle).filter _).length_le

end Store

/-! ## From the queue to the consumers -/

section LeadsTo

variable {cfg : Config} {n : Nat} {file : Database} {fair : Worker → Prop} {m c k : Nat}

theorem fetches (hfair : fair .sequencer) (hc : c ≤ m) :
    (schedule n file fair fun s : Store cfg => s.Polls).LeadsTo
      (fun s => s.process.sequencer.Fetching ∧ s.Waiting m c)
      (fun s => c < (s.process.sequencer.inputs .gateway).popped.length) := by
  refine Scheduled.leadsTo_of_rank Worker.sequencer hfair
    (fun s => s.process.sequencer.popRank) ?_ ?_
  · -- another thread: it can push to the queue, but not move the sequencer
    rintro s a ⟨hlive, _⟩ _ ⟨hfetch, hwaits⟩ ha
    have hsame := hlive.sequencerSame (n := n) ha
    refine (hwaits.turn n a).symm.imp_right fun hwaits' => ⟨⟨?_, hwaits'⟩, ?_⟩
    · show (s.turn n a).process.sequencer.Fetching
      unfold Sequencer.Fetching
      rw [hsame.pc, hsame.consumers]
      exact hfetch
    · show (s.turn n a).process.sequencer.popRank = s.process.sequencer.popRank
      unfold Sequencer.popRank
      rw [hsame.pc]
      split <;> first | rfl | rw [hsame.consumers]
  · -- its own turn
    rintro s a ⟨hlive, _⟩ _ ⟨hfetch, hwaits⟩ ha
    have hsome : (s.process.sequencer.inputs .gateway).popped.length
        < (s.process.sequencer.inputs .gateway).pushed.length := by
      rw [hwaits.2]
      exact Nat.lt_of_le_of_lt hc hwaits.1
    have hnext := Store.turn_runs (n := n) ha fun now =>
      hlive.poised.sequencer.fetch_closer hlive.inv.process.sequencer hsome hfetch
    rcases hwaits.turn n a with hwaits' | hmore
    · rcases hnext with hmore | ⟨⟨hfetch', _⟩, hcloser⟩
      · exact Or.inl (hwaits.2 ▸ hmore)
      · exact Or.inr ⟨⟨hfetch', hwaits'⟩, hcloser⟩
    · exact Or.inl hmore

/-- A new pass begins with the gateway's queue. -/
theorem pass_begins (hfair : fair .sequencer) :
    (schedule n file fair fun s : Store cfg => s.Polls).LeadsTo
      (fun s => s.process.sequencer.pc = .test ∧ s.Waiting m c)
      (fun s => (s.process.sequencer.Fetching ∧ s.Waiting m c)
        ∨ c < (s.process.sequencer.inputs .gateway).popped.length) := by
  refine Scheduled.leadsTo_of_turn Worker.sequencer hfair ?_ ?_
  · rintro s a ⟨hlive, _⟩ _ ⟨htest, hwaits⟩ ha
    have hsame := hlive.sequencerSame (n := n) ha
    rcases hwaits.turn n a with hwaits' | hmore
    · exact Or.inr ⟨hsame.pc.trans htest, hwaits'⟩
    · exact Or.inl (Or.inr hmore)
  · rintro s a ⟨hlive, hpolls⟩ _ ⟨htest, hwaits⟩ ha
    have hnext : (s.turn n a).process.sequencer.Fetching := by
      refine Store.turn_runs (n := n) (s := s) (P := Sequencer.Fetching) ha fun now => ?_
      unfold Sequencer.runStep
      rw [htest, hpolls.running hlive]
      exact ⟨_, rfl, Or.inl ⟨0, rfl⟩⟩
    exact (hwaits.turn n a).imp_left fun hwaits' => ⟨hnext, hwaits'⟩

/-- **The sequencer comes back to the queue**, however long its passes are. -/
theorem pops (hfair : fair .sequencer) (hall : ∀ x, fair (.follower x)) :
    (schedule n file fair fun s : Store cfg => s.Polls).LeadsTo
      (fun s => m < (s.process.sequencer.inputs .gateway).pushed.length)
      (fun s => m < (s.process.sequencer.inputs .gateway).popped.length) := by
  -- while `m` is still in the queue, one more event is taken out in each round
  have hround : ∀ c, c ≤ m → (schedule n file fair fun s : Store cfg => s.Polls).LeadsTo
      (fun s => s.Waiting m c)
      (fun s => c < (s.process.sequencer.inputs .gateway).popped.length) := by
    intro c hc
    have hpass : (schedule n file fair fun s : Store cfg => s.Polls).LeadsTo (fun _ => True)
        (fun s => s.process.sequencer.pc = .test ∨ s.process.sequencer.pc = .returned) :=
      pass_ends hfair hall
    have huntil := hpass.until (R := fun s => s.Waiting m c)
      (B := fun s => c < (s.process.sequencer.inputs .gateway).popped.length)
      fun s a _ _ hwaits => hwaits.turn n a
    refine Scheduled.LeadsTo.or_else
      (Q := fun s => s.process.sequencer.pc = .test ∧ s.Waiting m c)
      (huntil.mono (fun s _ h => ⟨trivial, h⟩) fun s hs h => ?_)
      ((pass_begins hfair).or_else (fetches hfair hc))
    exact h.imp_left fun h => ⟨h.1.resolve_right hs.2.not_returned, h.2⟩
  -- and after at most `m + 1` rounds it is out
  refine Scheduled.leadsTo_of_measure
    (fun s => m + 1 - (s.process.sequencer.inputs .gateway).popped.length) fun v => ?_
  refine Scheduled.leadsTo_of_value
    (fun s => (s.process.sequencer.inputs .gateway).popped.length) fun c => ?_
  by_cases hc : c ≤ m
  · have hstays := (hround c hc).and_stable
      (R := fun s => m < (s.process.sequencer.inputs .gateway).pushed.length)
      fun s a _ _ h => Nat.lt_of_lt_of_le h (Store.turn_pushed n s a .gateway).length_le
    by_cases hv : m + 1 - c = v
    · refine hstays.mono (fun s _ h => ⟨⟨h.1.1, h.2⟩, h.1.1⟩) fun s _ h => Or.inr ⟨h.2, ?_⟩
      have hmore := h.1
      omega
    · refine Scheduled.leadsTo_of_imp fun s _ h => absurd ?_ hv
      rw [← h.2]
      exact h.1.2
  · refine Scheduled.leadsTo_of_imp fun s _ h => Or.inl ?_
    rw [h.2]
    omega

/-- At the end of the pass what was popped is published. -/
theorem streams (hfair : fair .sequencer) (hall : ∀ x, fair (.follower x)) :
    (schedule n file fair fun s : Store cfg => s.Polls).LeadsTo
      (fun s => m < (s.process.sequencer.inputs .gateway).pushed.length)
      (fun s => ∃ k, s.Streamed m k) := by
  have hpass : (schedule n file fair fun s : Store cfg => s.Polls).LeadsTo (fun _ => True)
      (fun s => s.process.sequencer.pc = .test ∨ s.process.sequencer.pc = .returned) :=
    pass_ends hfair hall
  have hpopped := hpass.and_stable
    (R := fun s => m < (s.process.sequencer.inputs .gateway).popped.length)
    fun s a _ _ h => Nat.lt_of_lt_of_le h (Store.turn_popped_le n s a .gateway)
  refine (pops hfair hall).trans (hpopped.mono (fun s _ h => ⟨trivial, h⟩) fun s hs h => ?_)
  obtain ⟨hpc, hm⟩ := h
  -- between two passes the sequencer has nothing in hand
  have htest := hpc.resolve_right hs.2.not_returned
  have hdrained := congrArg List.length (hs.1.inv.process.sequencer.drained .gateway)
  unfold Sequencer.stamped Sequencer.inHand Sequencer.justPopped at hdrained
  rw [htest] at hdrained
  simp only [List.length_map, List.append_nil, List.map_nil] at hdrained
  refine ⟨s.process.sequencer.output.published.length, Nat.le_refl _, ?_⟩
  rw [List.take_length, ← hdrained]
  exact hm

/-- And each consumer reads it. -/
theorem delivers (hall : ∀ x, fair (.follower x)) :
    (schedule n file fair fun s : Store cfg => s.Polls).LeadsTo (fun s => s.Streamed m k)
      (fun s => ∀ x : Follower, m < ((s.process.sequencer.output.consumed x.id).filter
        fun ev => ev.producer = .gateway).length) := by
  have hreads : ∀ (x : Follower) {C : Store cfg → Prop}, (∀ s a, C s → C (s.turn n a)) →
      (schedule n file fair fun s : Store cfg => s.Polls).LeadsTo
        (fun s => s.Streamed m k ∧ C s)
        (fun s => s.Streamed m k ∧ C s ∧ s.CaughtUp k x) := by
    intro x C hC
    have hcatch : (schedule n file fair fun s : Store cfg => s.Polls).LeadsTo
        (fun s => k ≤ s.process.sequencer.output.published.length)
        (fun s => s.CaughtUp k x) := catches_up x (hall x) k
    have hstays := hcatch.and_stable (R := fun s => s.Streamed m k ∧ C s)
      fun s a _ _ h => ⟨h.1.turn n a, hC s a h.2⟩
    exact hstays.mono (fun s _ h => ⟨h.1.1, h⟩) fun s _ h => ⟨h.2.1, h.2.2, h.1⟩
  -- one after the other, each with what the ones before it have read
  have hmatcher := hreads .matcher (C := fun _ => True) fun _ _ h => h
  have hwal := hreads .wal (C := fun s => True ∧ s.CaughtUp k .matcher)
    fun _ a h => ⟨trivial, h.2.turn n a⟩
  have hdb := hreads .db (C := fun s => (True ∧ s.CaughtUp k .matcher) ∧ s.CaughtUp k .wal)
    fun _ a h => ⟨⟨trivial, h.1.2.turn n a⟩, h.2.turn n a⟩
  refine ((hmatcher.trans hwal).trans hdb).mono (fun s _ h => ⟨h, trivial⟩) fun s hs h => ?_
  obtain ⟨hstreamed, ⟨⟨_, hm⟩, hw⟩, hd⟩ := h
  intro x
  cases x with
  | matcher => exact hstreamed.consumed hs.1 hm
  | wal => exact hstreamed.consumed hs.1 hw
  | db => exact hstreamed.consumed hs.1 hd

end LeadsTo

/-! ## Every event -/

section Delivered

variable {cfg : Config} {n : Nat} {s : Store cfg} {file : Database}

theorem closing_exec {buffers : ProducerId → Nat → SequencedEvent}
    {slots : Nat → SequencedEvent} {acksBuffer fillsBuffer : Nat → OutboundAck}
    {actions : List StoreAction}
    (hrun : Machine.exec (Store.step n) (Store.init cfg buffers slots acksBuffer fillsBuffer file)
      actions = some s) : Closing s.process :=
  Machine.exec_preserves (I := fun s : Store cfg => Closing s.process)
    (fun _ _ _ h hs => Store.closing_threadMove h (threadMove_step hs)) actions _ s
    (closing_init cfg buffers slots) hrun

theorem Store.after_polls {turns : Nat → StoreAction} (hlive : s.Live file)
    (hclosing : Closing s.process)
    (hpolling : ∀ j, (s.after n turns j).process.main = .polling)
    (hshort : ∀ j, (s.after n turns j).process.sequencer.accepted < 2 ^ 64) (j : Nat) :
    (s.after n turns j).Live file ∧ (s.after n turns j).Polls := by
  induction j with
  | zero => exact ⟨hlive, hclosing, hpolling 0⟩
  | succ j ih =>
      exact ⟨turn_live ih.1 (hshort (j + 1)),
        closing_threadMove ih.2.1 (turn_move n _ (turns j)), hpolling (j + 1)⟩

theorem Store.after_pushed (s : Store cfg) (turns : Nat → StoreAction) (p : ProducerId)
    (j : Nat) : (s.process.sequencer.inputs p).pushed
      <+: ((s.after n turns j).process.sequencer.inputs p).pushed := by
  induction j with
  | zero => exact List.prefix_rfl
  | succ j ih => exact ih.trans (turn_pushed n _ (turns j) p)

/-- **What is accepted is delivered**: while `main` polls, the event number `m` that the
gateway has pushed comes to the matcher, the log and the database, as the event number `m` of
the gateway in the stream, under any scheduler that forgets none of the four threads. -/
theorem accepted_event_reaches_consumers {buffers : ProducerId → Nat → SequencedEvent}
    {slots : Nat → SequencedEvent} {acksBuffer fillsBuffer : Nat → OutboundAck}
    {actions : List StoreAction}
    (hrun : Machine.exec (Store.step n) (Store.init cfg buffers slots acksBuffer fillsBuffer file)
      actions = some s)
    (turns : Nat → StoreAction)
    (hfair : ∀ w : Worker, w ≠ .main → ∀ i, ∃ j, i ≤ j ∧ (turns j).worker = some w)
    (hpolling : ∀ j, (s.after n turns j).process.main = .polling)
    (hshort : ∀ j, (s.after n turns j).process.sequencer.accepted < 2 ^ 64)
    (m : Nat) (hm : m < (s.process.sequencer.inputs .gateway).pushed.length) :
    ∃ j, ∀ x : Follower, ∃ ev,
      (((s.after n turns j).process.sequencer.output.consumed x.id).filter
          fun ev => ev.producer = .gateway)[m]? = some ev
        ∧ (s.process.sequencer.inputs .gateway).pushed[m]?.map payload = some (payload ev) := by
  have hstarted : MainPc.startServer.pos ≤ s.process.main.pos := by
    rw [show s.process.main = .polling from hpolling 0]
    decide
  have hlive : s.Live file := live_exec hrun hstarted (hshort 0)
  have hpolls := Store.after_polls hlive (closing_exec hrun) hpolling hshort
  -- the poll loop goes on, so every state of the schedule is as the lemmas above need it
  have hwithin : (schedule n file (fun w => w ≠ .main) fun s : Store cfg => s.Polls).Within s
      turns := by
    intro j
    rw [run_eq_after]
    exact hpolls j
  have hleads : (schedule n file (fun w => w ≠ .main) fun s : Store cfg => s.Polls).LeadsTo
      (fun s => m < (s.process.sequencer.inputs .gateway).pushed.length)
      (fun s => ∀ x : Follower, m < ((s.process.sequencer.output.consumed x.id).filter
        fun ev => ev.producer = .gateway).length) :=
    (streams nofun fun _ => nofun).trans fun turns hfair s hs ⟨k, hk⟩ =>
      delivers (k := k) (fun _ => nofun) turns hfair s hs hk
  obtain ⟨j, hj⟩ := hleads turns hfair s hwithin hm
  rw [run_eq_after] at hj
  refine ⟨j, fun x => ?_⟩
  -- it is the same event: streams keep the order of their queue
  have hsequencer := (hpolls j).1.inv.process.sequencer
  have hread := (hsequencer.ring (hpolls j).1.short).consumed x.id
  have hx := hj x
  rw [hread] at hx ⊢
  obtain ⟨ev, hev, hpayload⟩ := hsequencer.getElem?_take hx
  refine ⟨ev, hev, ?_⟩
  rw [← hpayload, List.prefix_iff_getElem?.mp (Store.after_pushed s turns .gateway j) m hm,
    List.getElem?_eq_getElem hm]

/-- The four threads in turn. -/
def fourInTurn (i : Nat) : StoreAction :=
  match i % 4 with
  | 0 => .sequencer 71
  | 1 => .matcher
  | 2 => .wal ⟨(7, 7), (7, 7, 7), (7, 7, 7, 7)⟩ false
  | _ => .db false 77

theorem fourInTurn_fair (w : Worker) (hw : w ≠ .main) (i : Nat) :
    ∃ j, i ≤ j ∧ (fourInTurn j).worker = some w := by
  have hmod : ∀ k, k < 4 → (4 * i + k) % 4 = k := by omega
  rcases w with _ | _ | x
  · exact absurd rfl hw
  · exact ⟨4 * i + 0, by omega, by rw [fourInTurn, hmod 0 (by decide)]; rfl⟩
  · cases x
    · exact ⟨4 * i + 1, by omega, by rw [fourInTurn, hmod 1 (by decide)]; rfl⟩
    · exact ⟨4 * i + 2, by omega, by rw [fourInTurn, hmod 2 (by decide)]; rfl⟩
    · exact ⟨4 * i + 3, by omega, by rw [fourInTurn, hmod 3 (by decide)]; rfl⟩

theorem fourInTurn_worker (i : Nat) :
    (fourInTurn i).worker ≠ none ∧ (fourInTurn i).worker ≠ some .main := by
  unfold fourInTurn
  split <;> exact ⟨nofun, nofun⟩

theorem after_fourInTurn (s : Store cfg) (j : Nat) :
    (s.after n fourInTurn j).process.main = s.process.main
      ∧ (s.after n fourInTurn j).process.sequencer.accepted = s.process.sequencer.accepted := by
  induction j with
  | zero => exact ⟨rfl, rfl⟩
  | succ j ih =>
      obtain ⟨hnone, hmain⟩ := fourInTurn_worker j
      refine ⟨?_, (Store.accepted_of_no_push fun _ => hnone).trans ih.2⟩
      exact ((Store.turn_main n _ (fourInTurn j)).resolve_right fun h => hmain h.2).trans ih.1

/-- One order is in its queue, and nobody has read anything. -/
theorem accepted_event_reaches_consumers_one_order :
    let cfg : Config := ⟨⟨1, by decide⟩, ⟨0, by decide⟩, 8, ⟨1, by decide⟩, 256⟩
    let blank : OutboundAck := ⟨0, 0, 0, .accepted, 0, 0, 0⟩
    let order : SequencedEvent :=
      { sessionId := 4, clientOrderId := 9, price := 100, quantity := 5 }
    let actions : List StoreAction :=
      List.replicate 8 (StoreAction.main true) ++ [.push order, .produce, .produce, .produce]
    ∃ s, Machine.exec (Store.step 256) (Store.init cfg (fun _ _ => {}) (fun _ => {})
        (fun _ => blank) (fun _ => blank) .empty) actions = some s
      ∧ (s.process.sequencer.inputs .gateway).pushed.length = 1
      ∧ s.process.sequencer.output.published.length = 0
      ∧ ∃ j, ∀ x : Follower, ∃ ev,
        (((s.after 256 fourInTurn j).process.sequencer.output.consumed x.id).filter
            fun ev => ev.producer = .gateway)[0]? = some ev
          ∧ (s.process.sequencer.inputs .gateway).pushed[0]?.map payload
              = some (payload ev) := by
  intro cfg blank order actions
  have heval : ((Machine.exec (Store.step 256) (Store.init cfg (fun _ _ => {}) (fun _ => {})
      (fun _ => blank) (fun _ => blank) .empty) actions).map fun s =>
        (s.process.main, s.process.sequencer.accepted,
          (s.process.sequencer.inputs .gateway).pushed.length,
          s.process.sequencer.output.published.length)) = some (.polling, 1, 1, 0) := by
    decide +kernel
  obtain ⟨s, hrun, hs⟩ := Option.map_eq_some_iff.mp heval
  obtain ⟨hmain, haccepted, hpushed, hpublished⟩ :
      s.process.main = .polling ∧ s.process.sequencer.accepted = 1
        ∧ (s.process.sequencer.inputs .gateway).pushed.length = 1
        ∧ s.process.sequencer.output.published.length = 0 := by
    simpa using hs
  refine ⟨s, hrun, hpushed, hpublished, ?_⟩
  refine accepted_event_reaches_consumers hrun fourInTurn fourInTurn_fair
    (fun j => ((after_fourInTurn s j).1).trans hmain) (fun j => ?_) 0 (by rw [hpushed]; decide)
  rw [(after_fourInTurn s j).2, haccepted]
  decide

end Delivered

end HftLob.Pipeline

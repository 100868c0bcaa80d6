import HftLob.Pipeline.Sequencer

/-!
# One gap-free order that keeps every producer's order

An event is in one place at a time: in its input queue, in the thread's hands, or in
the ring. `SequencerInv` follows it through all of them, and says that the stream of
stamped events, the one still in hand included, is numbered from one without a gap.
-/

namespace HftLob.Pipeline

open HftLob.Lib HftLob.Ring

variable {capIn capOut : RingCapacity} {maxConsumers : Nat} {s s' : Sequencer}

theorem onInput_eq_some {p : ProducerId} {a : SpscAction SequencedEvent}
    (hs : s.onInput capIn p a = some s') :
    ∃ q, (s.inputs p).step capIn a = some q
      ∧ s' = { s with inputs := Function.update s.inputs p q } := by
  obtain ⟨q, hq, he⟩ := Option.map_eq_some_iff.mp hs
  exact ⟨q, hq, he.symm⟩

theorem onOutput_eq_some {a : RingAction SequencedEvent}
    (hs : s.onOutput capOut maxConsumers a = some s') :
    ∃ r, s.output.step capOut maxConsumers a = some r ∧ s' = { s with output := r } := by
  obtain ⟨r, hr, he⟩ := Option.map_eq_some_iff.mp hs
  exact ⟨r, hr, he.symm⟩

theorem afterProducer_cases (p : ProducerId) :
    Sequencer.afterProducer p = .test ∨ ∃ p', Sequencer.afterProducer p = .pop p' 0 := by
  cases p with
  | gateway => exact Or.inr ⟨_, rfl⟩
  | feedReplay => exact Or.inr ⟨_, rfl⟩
  | admin => exact Or.inl rfl

/-- Between two events the thread holds none. -/
def EmptyHanded : SequencerPc → Prop
  | .popping _ _ | .publishing _ _ _ => False
  | .ready | .test | .pop _ _ | .returned => True

theorem emptyHanded_afterProducer (p : ProducerId) : EmptyHanded (Sequencer.afterProducer p) := by
  rcases afterProducer_cases p with h | ⟨p', h⟩ <;> (rw [h]; trivial)

theorem justPopped_of_emptyHanded (h : EmptyHanded s.pc) (p : ProducerId) :
    s.justPopped p = [] := by
  unfold Sequencer.justPopped
  cases hpc : s.pc with
  | popping p' i => rw [hpc] at h; exact h.elim
  | _ => rfl

theorem stamped_of_emptyHanded (h : EmptyHanded s.pc) : s.stamped = s.output.published := by
  unfold Sequencer.stamped Sequencer.inHand
  cases hpc : s.pc with
  | publishing p i ev => rw [hpc] at h; exact h.elim
  | _ => simp

theorem writerBusy_of_emptyHanded (h : EmptyHanded s.pc) :
    s.WriterBusy ↔ s.output.writer.item? = none := by
  unfold Sequencer.WriterBusy
  cases hpc : s.pc with
  | publishing p i ev => rw [hpc] at h; exact h.elim
  | _ => exact Iff.rfl

theorem stamped_popping {p : ProducerId} {i : Nat} (hpc : s.pc = .popping p i) :
    s.stamped = s.output.published := by
  unfold Sequencer.stamped Sequencer.inHand
  rw [hpc, List.append_nil]

theorem stamped_publishing {p : ProducerId} {i : Nat} {ev : SequencedEvent}
    (hpc : s.pc = .publishing p i ev) (hw : s.output.writer.result? ≠ some true) :
    s.stamped = s.output.published ++ [ev] := by
  unfold Sequencer.stamped Sequencer.inHand
  rw [hpc]
  dsimp only
  rw [if_neg hw]

theorem stamped_published {p : ProducerId} {i : Nat} {ev : SequencedEvent}
    (hpc : s.pc = .publishing p i ev) (hw : s.output.writer.result? = some true) :
    s.stamped = s.output.published := by
  unfold Sequencer.stamped Sequencer.inHand
  rw [hpc]
  dsimp only
  rw [if_pos hw, List.append_nil]

theorem justPopped_publishing {p p' : ProducerId} {i : Nat} {ev : SequencedEvent}
    (hpc : s.pc = .publishing p i ev) : s.justPopped p' = [] := by
  unfold Sequencer.justPopped
  rw [hpc]

theorem justPopped_some {p : ProducerId} {i : Nat} {ev : SequencedEvent}
    (hpc : s.pc = .popping p i) (hres : (s.inputs p).consumer.result? = some (some ev)) :
    s.justPopped p = [ev] := by
  unfold Sequencer.justPopped
  rw [hpc]
  dsimp only
  rw [if_pos rfl, hres]

theorem justPopped_none {p : ProducerId} {i : Nat} (hpc : s.pc = .popping p i)
    (hres : ∀ ev, (s.inputs p).consumer.result? ≠ some (some ev)) : s.justPopped p = [] := by
  unfold Sequencer.justPopped
  rw [hpc]
  dsimp only
  rw [if_pos rfl]
  split
  · rename_i ev hev
    exact absurd hev (hres ev)
  · rfl

theorem justPopped_other {p p' : ProducerId} {i : Nat} (hpc : s.pc = .popping p i)
    (hne : p' ≠ p) : s.justPopped p' = [] := by
  unfold Sequencer.justPopped
  rw [hpc]
  dsimp only
  rw [if_neg (Ne.symm hne)]

theorem sequencerInv_init (buffers : ProducerId → Nat → SequencedEvent)
    (slots : Nat → SequencedEvent) : SequencerInv capIn capOut (Sequencer.init buffers slots) where
  input := fun p => spscInv_init (buffers p)
  ring := fun _ => ringInv_init slots
  writer := rfl
  numbered := rfl
  nextSeq := rfl
  drained := fun _ => rfl

/-! ## One step -/

/-- A step that stamps nothing: what it pops it has in its hands. -/
theorem SequencerInv.frame (h : SequencerInv capIn capOut s)
    (hinput : ∀ p, SpscInv capIn (s'.inputs p))
    (hring : s'.output.published.length < 2 ^ 64 → RingInv capOut s'.output)
    (hwriter : s'.WriterBusy) (hstamped : s'.stamped = s.stamped) (hnext : s'.nextSeq = s.nextSeq)
    (hflow : ∀ p, ∃ more, (s'.inputs p).popped = (s.inputs p).popped ++ more
      ∧ s'.justPopped p = s.justPopped p ++ more) :
    SequencerInv capIn capOut s' where
  input := hinput
  ring := hring
  writer := hwriter
  numbered := by rw [hstamped]; exact h.numbered
  nextSeq := by rw [hnext, hstamped]; exact h.nextSeq
  drained := by
    intro p
    obtain ⟨more, hpopped, hjust⟩ := hflow p
    rw [hpopped, hjust, hstamped, List.map_append, List.map_append, h.drained p, List.append_assoc]

theorem SequencerInv.input_update (h : SequencerInv capIn capOut s) {p : ProducerId}
    {a : SpscAction SequencedEvent} {q : SpscRingBuffer SequencedEvent}
    (hq : (s.inputs p).step capIn a = some q) (p' : ProducerId) :
    SpscInv capIn (Function.update s.inputs p q p') := by
  by_cases hp : p' = p
  · rw [hp, Function.update_self]
    exact spscInv_step (h.input p) hq
  · rw [Function.update_of_ne hp]
    exact h.input p'

theorem SequencerInv.ring_step (h : SequencerInv capIn capOut s)
    {a : RingAction SequencedEvent} {r : BroadcastRing SequencedEvent}
    (hr : s.output.step capOut maxConsumers a = some r) (hlen : r.published.length < 2 ^ 64) :
    RingInv capOut r :=
  ringInv_step (h.ring (Nat.lt_of_le_of_lt (step_published hr).length_le hlen)) hr hlen

/-- A step that only moves the thread on, between two events. -/
theorem SequencerInv.goto (h : SequencerInv capIn capOut s) {pc : SequencerPc} {running : Bool}
    (hpc : EmptyHanded pc) (hwriter : s.output.writer.item? = none)
    (hstamped : s.stamped = s.output.published) (hjust : ∀ p, s.justPopped p = []) :
    SequencerInv capIn capOut { s with running := running, pc := pc } := by
  refine h.frame h.input h.ring ((writerBusy_of_emptyHanded hpc).mpr hwriter) ?_ rfl ?_
  · rw [stamped_of_emptyHanded hpc, hstamped]
  · intro p
    exact ⟨[], (List.append_nil _).symm, by rw [justPopped_of_emptyHanded hpc, hjust p]; rfl⟩

/-- The producers' steps. -/
theorem SequencerInv.produce (h : SequencerInv capIn capOut s) {p : ProducerId}
    {a : SpscAction SequencedEvent} (ha : a = .produce ∨ ∃ item, a = .push item)
    (hs : s.onInput capIn p a = some s') : SequencerInv capIn capOut s' := by
  obtain ⟨q, hq, rfl⟩ := onInput_eq_some hs
  obtain ⟨hpopped, hconsumer, _⟩ := producer_spec ha hq
  have hsame : ∀ p', (Function.update s.inputs p q p').popped = (s.inputs p').popped
      ∧ (Function.update s.inputs p q p').consumer = (s.inputs p').consumer := by
    intro p'
    by_cases hp : p' = p
    · rw [hp, Function.update_self]
      exact ⟨hpopped, hconsumer⟩
    · rw [Function.update_of_ne hp]
      exact ⟨rfl, rfl⟩
  refine h.frame (h.input_update hq) h.ring h.writer rfl rfl fun p' => ⟨[], ?_, ?_⟩
  · rw [List.append_nil]
    exact (hsame p').1
  · rw [List.append_nil]
    unfold Sequencer.justPopped
    dsimp only
    rw [(hsame p').2]

/-- The consumers' steps, and registering. -/
theorem SequencerInv.observe (h : SequencerInv capIn capOut s) {a : RingAction SequencedEvent}
    (hs : s.onOutput capOut maxConsumers a = some s')
    (hsame : ∀ r, s.output.step capOut maxConsumers a = some r →
      r.published = s.output.published ∧ r.writer = s.output.writer) :
    SequencerInv capIn capOut s' := by
  obtain ⟨r, hr, rfl⟩ := onOutput_eq_some hs
  obtain ⟨hpub, hwr⟩ := hsame r hr
  refine h.frame h.input (h.ring_step hr) ?_ ?_ rfl
    fun p => ⟨[], (List.append_nil _).symm, (List.append_nil _).symm⟩
  · have hbusy := h.writer
    unfold Sequencer.WriterBusy at hbusy ⊢
    dsimp only
    rw [hwr]
    exact hbusy
  · unfold Sequencer.stamped Sequencer.inHand
    dsimp only
    rw [hpub, hwr]

/-! ## The steps of the thread -/

theorem SequencerInv.startPop (h : SequencerInv capIn capOut s) {p : ProducerId} {i : Nat}
    (hpc : s.pc = .pop p i) (hs : s.onInput capIn p .pop = some s') :
    SequencerInv capIn capOut { s' with pc := .popping p i } := by
  obtain ⟨q, hq, rfl⟩ := onInput_eq_some hs
  obtain ⟨hpopped, _, _, hres⟩ := pop_spec hq
  have hempty : EmptyHanded s.pc := by rw [hpc]; trivial
  refine h.frame (h.input_update hq) h.ring ((writerBusy_of_emptyHanded hempty).mp h.writer) ?_ rfl
    fun p' => ⟨[], ?_, ?_⟩
  · rw [stamped_popping rfl, stamped_of_emptyHanded hempty]
  · dsimp only
    rw [List.append_nil]
    by_cases hp : p' = p
    · rw [hp, Function.update_self, hpopped]
    · rw [Function.update_of_ne hp]
  · rw [justPopped_of_emptyHanded hempty]
    by_cases hp : p' = p
    · rw [hp]
      refine justPopped_none rfl fun ev hev => ?_
      dsimp only at hev
      rw [Function.update_self, hres] at hev
      cases hev
    · exact justPopped_other rfl hp

theorem SequencerInv.popStep (h : SequencerInv capIn capOut s) {p : ProducerId} {i : Nat}
    (hpc : s.pc = .popping p i) (hres : (s.inputs p).consumer.result? = none)
    (hs : s.onInput capIn p .consume = some s') : SequencerInv capIn capOut s' := by
  obtain ⟨q, hq, rfl⟩ := onInput_eq_some hs
  obtain ⟨_, _, hspec⟩ := consumer_spec hq
  refine h.frame (h.input_update hq) h.ring h.writer rfl rfl fun p' => ?_
  by_cases hp : p' = p
  · subst hp
    have hbefore : s.justPopped p' = [] := justPopped_none hpc fun ev hev => by
      rw [hres] at hev
      cases hev
    have hself : Function.update s.inputs p' q p' = q := Function.update_self ..
    rw [hbefore]
    dsimp only
    rw [hself]
    rcases hspec with ⟨hpopped, hgo⟩ | ⟨out, hpopped, hout⟩
    · refine ⟨[], by rw [hpopped, List.append_nil], justPopped_none hpc fun ev hev => ?_⟩
      dsimp only at hev
      rw [hself] at hev
      rcases hgo with hgo | hgo <;> (rw [hgo] at hev; cases hev)
    · -- the store to `tail_` hands over one event, which is then in hand
      refine ⟨[out], hpopped, justPopped_some hpc ?_⟩
      dsimp only
      rw [hself]
      exact hout
  · refine ⟨[], ?_, ?_⟩
    · dsimp only
      rw [Function.update_of_ne hp, List.append_nil]
    · rw [justPopped_other hpc hp]
      exact justPopped_other hpc hp

theorem stamped_startPublish {p : ProducerId} {i : Nat} {ev : SequencedEvent} {now : Nanos}
    (hpc : s.pc = .popping p i)
    (hs : s.onOutput capOut maxConsumers (.publish (s.stamp p now ev)) = some s') :
    ({ s' with nextSeq := s.nextSeq + 1, pc := .publishing p i (s.stamp p now ev) }
      : Sequencer).stamped = s.stamped ++ [s.stamp p now ev] := by
  obtain ⟨r, hr, rfl⟩ := onOutput_eq_some hs
  obtain ⟨_, hitem, hpub, _, _⟩ := publish_spec hr
  rw [stamped_publishing rfl (Writer.result?_ne_of_item? hitem true), stamped_popping hpc]
  dsimp only
  rw [hpub]

/-- The popped event is stamped with the next number and offered to the ring. -/
theorem SequencerInv.startPublish (h : SequencerInv capIn capOut s) {p : ProducerId} {i : Nat}
    {ev : SequencedEvent} {now : Nanos} (hpc : s.pc = .popping p i)
    (hres : (s.inputs p).consumer.result? = some (some ev))
    (hs : s.onOutput capOut maxConsumers (.publish (s.stamp p now ev)) = some s') :
    SequencerInv capIn capOut
      { s' with nextSeq := s.nextSeq + 1, pc := .publishing p i (s.stamp p now ev) } := by
  have hstamped := stamped_startPublish hpc hs
  obtain ⟨r, hr, rfl⟩ := onOutput_eq_some hs
  obtain ⟨_, hitem, _, _, _⟩ := publish_spec hr
  have hlen : (s.stamped ++ [s.stamp p now ev]).length = s.stamped.length + 1 := by simp
  refine ⟨h.input, h.ring_step hr, ?_, ?_, ?_, fun p' => ?_⟩
  · intro item hw
    exact Option.some.inj (hw.symm.trans hitem)
  · -- its number is the length of what was stamped before it
    rw [hstamped]
    exact h.numbered.concat h.nextSeq
  · rw [hstamped, hlen, h.nextSeq]
    exact (UInt64.ofNat_add _ 1).symm
  · rw [justPopped_publishing rfl, hstamped, List.filter_append, List.map_append, List.map_nil,
      List.append_nil]
    have hdrained := h.drained p'
    dsimp only
    rw [hdrained]
    congr 1
    -- only the queue the event came from had one in hand
    by_cases hp : p' = p
    · rw [hp, justPopped_some hpc hres]
      simp [Sequencer.stamp, payload]
    · rw [justPopped_other hpc hp]
      simp [Sequencer.stamp, Ne.symm hp]

/-- A step of `try_publish` moves the event in hand into the ring, or leaves it in hand. -/
theorem SequencerInv.stamped_write (h : SequencerInv capIn capOut s) {p : ProducerId} {i : Nat}
    {ev : SequencedEvent} (hpc : s.pc = .publishing p i ev)
    (hs : s.onOutput capOut maxConsumers .write = some s') : s'.stamped = s.stamped := by
  obtain ⟨r, hr, rfl⟩ := onOutput_eq_some hs
  obtain ⟨_, _, item, hitem, hspec⟩ := write_spec hr
  have hbusy := h.writer
  unfold Sequencer.WriterBusy at hbusy
  rw [hpc] at hbusy
  rw [stamped_publishing hpc (Writer.result?_ne_of_item? hitem true)]
  rcases hspec with ⟨hpub, hgo⟩ | ⟨hpub, hdone⟩
  · have hwriting : r.writer.result? ≠ some true := by
      rcases hgo with hgo | hfull
      · exact Writer.result?_ne_of_item? hgo true
      · rw [hfull]
        simp [Writer.result?]
    rw [stamped_publishing (s := { s with output := r }) hpc hwriting]
    dsimp only
    rw [hpub]
  · have hreturned : r.writer.result? = some true := by rw [hdone]; rfl
    rw [stamped_published (s := { s with output := r }) hpc hreturned]
    dsimp only
    rw [hpub, hbusy item hitem]

theorem SequencerInv.publishStep (h : SequencerInv capIn capOut s) {p : ProducerId} {i : Nat}
    {ev : SequencedEvent} (hpc : s.pc = .publishing p i ev)
    (hs : s.onOutput capOut maxConsumers .write = some s') : SequencerInv capIn capOut s' := by
  have hstamped := h.stamped_write hpc hs
  obtain ⟨r, hr, rfl⟩ := onOutput_eq_some hs
  obtain ⟨_, _, item, hitem, hspec⟩ := write_spec hr
  have hbusy := h.writer
  unfold Sequencer.WriterBusy at hbusy
  rw [hpc] at hbusy
  refine h.frame h.input (h.ring_step hr) ?_ hstamped rfl
    fun p' => ⟨[], (List.append_nil _).symm, (List.append_nil _).symm⟩
  unfold Sequencer.WriterBusy
  dsimp only
  rw [hpc]
  intro item' hitem'
  rcases hspec with ⟨_, hgo | hfull⟩ | ⟨_, hdone⟩
  · rw [hgo] at hitem'
    rw [← Option.some.inj hitem']
    exact hbusy item hitem
  · -- refused: the call is over, and the event is still in hand
    rw [hfull] at hitem'
    cases hitem'
  · rw [hdone] at hitem'
    cases hitem'

theorem stamped_retry {p : ProducerId} {i : Nat} {ev : SequencedEvent}
    (hpc : s.pc = .publishing p i ev) (hres : s.output.writer.result? = some false)
    (hs : s.onOutput capOut maxConsumers (.publish ev) = some s') : s'.stamped = s.stamped := by
  obtain ⟨r, hr, rfl⟩ := onOutput_eq_some hs
  obtain ⟨_, hitem, hpub, _, _⟩ := publish_spec hr
  have hwriting : r.writer.result? ≠ some true := Writer.result?_ne_of_item? hitem true
  rw [stamped_publishing (s := { s with output := r }) hpc hwriting,
    stamped_publishing hpc (by rw [hres]; simp)]
  dsimp only
  rw [hpub]

/-- The ring was full; the same event is offered again. -/
theorem SequencerInv.retry (h : SequencerInv capIn capOut s) {p : ProducerId} {i : Nat}
    {ev : SequencedEvent} (hpc : s.pc = .publishing p i ev)
    (hres : s.output.writer.result? = some false)
    (hs : s.onOutput capOut maxConsumers (.publish ev) = some s') :
    SequencerInv capIn capOut s' := by
  have hstamped := stamped_retry hpc hres hs
  obtain ⟨r, hr, rfl⟩ := onOutput_eq_some hs
  obtain ⟨_, hitem, _, _, _⟩ := publish_spec hr
  refine h.frame h.input (h.ring_step hr) ?_ hstamped rfl
    fun p' => ⟨[], (List.append_nil _).symm, (List.append_nil _).symm⟩
  unfold Sequencer.WriterBusy
  dsimp only
  rw [hpc]
  intro item hw
  exact Option.some.inj (hw.symm.trans hitem)

theorem SequencerInv.runStep (h : SequencerInv capIn capOut s) {now : Nanos}
    (hs : s.runStep capIn capOut maxConsumers now = some s') : SequencerInv capIn capOut s' := by
  unfold Sequencer.runStep at hs
  cases hpc : s.pc with
  | ready => rw [hpc] at hs; exact absurd hs (by simp)
  | returned => rw [hpc] at hs; exact absurd hs (by simp)
  | test =>
      rw [hpc] at hs
      cases hs
      have hempty : EmptyHanded s.pc := by rw [hpc]; trivial
      refine h.goto ?_ ((writerBusy_of_emptyHanded hempty).mp h.writer)
        (stamped_of_emptyHanded hempty) (justPopped_of_emptyHanded hempty)
      cases s.running <;> trivial
  | pop p i =>
      rw [hpc] at hs
      obtain ⟨t, ht, rfl⟩ := Option.map_eq_some_iff.mp hs
      exact h.startPop hpc ht
  | popping p i =>
      rw [hpc] at hs
      dsimp only at hs
      split at hs
      · exact h.popStep hpc ‹_› hs
      · rename_i hres
        cases hs
        have hbusy := h.writer
        unfold Sequencer.WriterBusy at hbusy
        rw [hpc] at hbusy
        refine h.goto (emptyHanded_afterProducer p) hbusy (stamped_popping hpc) fun p' => ?_
        by_cases hp : p' = p
        · rw [hp]
          refine justPopped_none hpc fun ev hev => ?_
          rw [hres] at hev
          cases hev
        · exact justPopped_other hpc hp
      · obtain ⟨t, ht, rfl⟩ := Option.map_eq_some_iff.mp hs
        exact h.startPublish hpc ‹_› ht
  | publishing p i ev =>
      rw [hpc] at hs
      dsimp only at hs
      split at hs
      · exact h.publishStep hpc hs
      · -- `while (!output_.try_publish(ev))`
        exact h.retry hpc ‹_› hs
      · rename_i hres
        cases hs
        refine h.goto ?_ ?_ (stamped_published hpc hres) fun p' => justPopped_publishing hpc
        · -- the next event of this queue, or the next queue
          split
          · trivial
          · exact emptyHanded_afterProducer p
        · cases hw : s.output.writer with
          | returned b => rfl
          | _ => rw [hw] at hres; cases hres

theorem sequencerInv_step {a : SequencerAction} (h : SequencerInv capIn capOut s)
    (hs : s.step capIn capOut maxConsumers a = some s') : SequencerInv capIn capOut s' := by
  cases a with
  | register =>
      dsimp only [Sequencer.step] at hs
      split at hs
      · exact h.observe hs fun r hr => ⟨(register_spec hr).1, (register_spec hr).2.1⟩
      · exact absurd hs (by simp)
  | start =>
      dsimp only [Sequencer.step] at hs
      split at hs
      · rename_i hpc
        cases hs
        have hempty : EmptyHanded s.pc := by rw [hpc]; trivial
        exact h.goto trivial ((writerBusy_of_emptyHanded hempty).mp h.writer)
          (stamped_of_emptyHanded hempty) (justPopped_of_emptyHanded hempty)
      · exact absurd hs (by simp)
  | stop =>
      cases hs
      exact h.frame h.input h.ring h.writer rfl rfl
        fun p => ⟨[], (List.append_nil _).symm, (List.append_nil _).symm⟩
  | push p item => exact h.produce (Or.inr ⟨item, rfl⟩) hs
  | produce p => exact h.produce (Or.inl rfl) hs
  | run now => exact h.runStep hs
  | consume id =>
      exact h.observe hs fun r hr => ⟨(consume_spec hr).1.published, (consume_spec hr).1.writer⟩
  | read id =>
      exact h.observe hs fun r hr => ⟨(read_spec hr).1.published, (read_spec hr).1.writer⟩

theorem sequencerInv_exec (buffers : ProducerId → Nat → SequencedEvent)
    (slots : Nat → SequencedEvent) (actions : List SequencerAction)
    (hrun : Machine.exec (Sequencer.step capIn capOut maxConsumers) (Sequencer.init buffers slots)
      actions = some s) : SequencerInv capIn capOut s :=
  Machine.exec_preserves (fun _ _ _ => sequencerInv_step) actions _ s
    (sequencerInv_init buffers slots) hrun

/-! ## The order -/

/-- What the sequencer promises, of one state of a run. -/
structure TotalOrder (s : Sequencer) : Prop where
  gapFree : ∀ k ev, s.output.published[k]? = some ev → ev.seqNum.toNat = k + 1
  /-- The events of each producer are the first it pushed, in its order. -/
  perProducer : ∀ p, ∃ j ≤ (s.inputs p).pushed.length,
    (s.output.published.filter (fun ev => ev.producer = p)).map payload
      = ((s.inputs p).pushed.take j).map payload
  perConsumer : ∀ id < s.output.consumerCount, ∀ n ev,
    (s.output.consumed id)[n]? = some ev → ev.seqNum.toNat = n + 1

theorem SequencerInv.gapFree (h : SequencerInv capIn capOut s)
    (hlen : s.output.published.length < 2 ^ 64) {k : Nat} {ev : SequencedEvent}
    (hk : s.output.published[k]? = some ev) : ev.seqNum.toNat = k + 1 := by
  have hlt : k < s.output.published.length := (List.getElem?_eq_some_iff.mp hk).1
  have hstamped : s.stamped[k]? = some ev := by
    unfold Sequencer.stamped
    rw [List.getElem?_append_left hlt, hk]
  rw [h.numbered.getElem? hstamped, Engine.toNat_ofNat_seq (by omega)]

/-- What is published is what was popped first, and that is what was pushed first. -/
theorem SequencerInv.perProducer (h : SequencerInv capIn capOut s) (p : ProducerId) :
    (s.output.published.filter (fun ev => ev.producer = p)).map payload
      <+: (s.inputs p).pushed.map payload := by
  have hpublished : (s.output.published.filter (fun ev => ev.producer = p)).map payload
      <+: (s.stamped.filter (fun ev => ev.producer = p)).map payload :=
    ((List.prefix_append _ _).filter _).map _
  have hstamped : (s.stamped.filter (fun ev => ev.producer = p)).map payload
      <+: (s.inputs p).popped.map payload := by
    rw [h.drained p]
    exact List.prefix_append _ _
  exact hpublished.trans (hstamped.trans ((h.input p).order.map _))

theorem exists_take_of_map_prefix {α β : Type} {f : α → β} {l : List β} {m : List α}
    (h : l <+: m.map f) : ∃ j ≤ m.length, l = (m.take j).map f := by
  refine ⟨l.length, ?_, ?_⟩
  · simpa using h.length_le
  · rw [List.map_take]
    exact List.prefix_iff_eq_take.mp h

/-- **The sequencer's order is total, gap-free and keeps every producer's order**, in every
interleaving of the producers, the thread and the consumers. -/
theorem sequencer_totalOrder (capIn capOut : RingCapacity) (maxConsumers : Nat)
    (buffers : ProducerId → Nat → SequencedEvent) (slots : Nat → SequencedEvent)
    (actions : List SequencerAction) (s : Sequencer)
    (hrun : Machine.exec (Sequencer.step capIn capOut maxConsumers) (Sequencer.init buffers slots)
      actions = some s) (hlen : s.output.published.length < 2 ^ 64) : TotalOrder s := by
  have h := sequencerInv_exec buffers slots actions hrun
  refine ⟨fun k ev => h.gapFree hlen, fun p => exists_take_of_map_prefix (h.perProducer p), ?_⟩
  intro id hid n ev hn
  -- a consumer has read the first events of the stream
  rw [(h.ring hlen).consumed id, List.getElem?_take] at hn
  split at hn
  · exact h.gapFree hlen hn
  · exact absurd hn (by simp)

/-- Two producers push, the output ring has one slot, and the second event has to wait in
the thread's hands until the consumer has read the first. -/
theorem sequencer_totalOrder_one_slot :
    let capIn : RingCapacity := ⟨1, by decide⟩
    let capOut : RingCapacity := ⟨0, by decide⟩
    let actions : List SequencerAction :=
      [SequencerAction.register, .push .feedReplay { clientOrderId := 5 }, .produce .feedReplay,
       .produce .feedReplay, .produce .feedReplay, .start,
       .push .gateway { clientOrderId := 6 }, .produce .gateway, .produce .gateway,
       .produce .gateway]
      ++ List.replicate 9 (SequencerAction.run 100) ++ List.replicate 8 (SequencerAction.run 101)
      ++ List.replicate 10 (SequencerAction.run 102)
      ++ [SequencerAction.consume 0, .read 0, .read 0, .read 0]
      ++ List.replicate 12 (SequencerAction.run 103)
      ++ [SequencerAction.consume 0, .read 0, .read 0, .read 0]
    ∃ s, Machine.exec (Sequencer.step capIn capOut 8)
        (Sequencer.init (fun _ _ => {}) (fun _ => {})) actions = some s
      ∧ s.output.published.map (fun ev => (ev.producer, ev.clientOrderId))
          = [(.gateway, 6), (.feedReplay, 5)]
      ∧ (s.output.consumed 0).length = 2 ∧ TotalOrder s := by
  intro capIn capOut actions
  have heval : ((Machine.exec (Sequencer.step capIn capOut 8)
      (Sequencer.init (fun _ _ => {}) (fun _ => {})) actions).map fun s =>
        (s.output.published.map (fun ev => (ev.producer, ev.clientOrderId)),
          (s.output.consumed 0).length)) = some ([(.gateway, 6), (.feedReplay, 5)], 2) := by
    decide +kernel
  obtain ⟨s, hs, heval⟩ := Option.map_eq_some_iff.mp heval
  rw [Prod.mk.injEq] at heval
  refine ⟨s, hs, heval.1, heval.2,
    sequencer_totalOrder capIn capOut 8 (fun _ _ => {}) (fun _ => {}) actions s hs ?_⟩
  have hlen := congrArg List.length heval.1
  rw [List.length_map] at hlen
  rw [hlen]
  decide

end HftLob.Pipeline

import HftLob.Pipeline.Turns

/-!
# The sequencer is held up, but not for good

The sequencer tries an event that the ring has no room for again and again. It stays there
as long as some consumer is a whole ring behind, and it publishes nothing meanwhile, so each
consumer comes to the end of what there is. From then on one more attempt is enough: one that
is under way may still fail on cursors it has read before, the next one cannot.

So every pass over the input queues ends, however full the ring is when it begins.
-/

namespace HftLob.Ring

variable {T : Type} {cap : RingCapacity} {maxConsumers : Nat} {r r' : BroadcastRing T}

/-! ## `try_publish` with room -/

/-- How many steps a call that will not be refused is away from its end. -/
def Writer.toGo (consumers : Nat) : Writer T → Nat
  | .idle | .returned _ => 0
  | .storeCursor _ _ => 1
  | .storeSlot _ _ => 2
  | .scanned _ _ _ => 3
  | .scan _ _ n i _ => 4 + (n - i)
  | .scanCount _ _ => 5 + consumers
  | .gate _ _ => 6 + consumers

/-- The same with the attempts before it: one that found nothing, or one that began before
there was room. -/
def BroadcastRing.attemptRank (r : BroadcastRing T) : Nat :=
  match r.writer with
  | .returned false => 7 + r.consumerCount
  | w => (if r.slack then 0 else 8 + r.consumerCount) + w.toGo r.consumerCount

theorem publish_enabled (hfree : r.writer.item? = none) (item : T) :
    ∃ r', r.step cap maxConsumers (.publish item) = some r' := by
  have hact : r.act cap maxConsumers (.publish item)
      = some { r with writer := .gate item r.writeCursor } := by
    dsimp only [BroadcastRing.act, BroadcastRing.startPublish]
    cases hwr : r.writer with
    | idle | returned _ => rfl
    | _ => rw [hwr] at hfree; exact nomatch hfree
  exact ⟨_, Option.map_eq_some_iff.mpr ⟨_, hact, rfl⟩⟩

theorem attemptRank_of_ne (h : r.writer ≠ .returned false) :
    r.attemptRank = (if r.slack then 0 else 8 + r.consumerCount)
      + r.writer.toGo r.consumerCount := by
  unfold BroadcastRing.attemptRank
  cases hwr : r.writer with
  | returned published =>
      cases published with
      | true => rfl
      | false => exact absurd hwr h
  | _ => rfl

theorem step_of_writeStep {t : BroadcastRing T} (ht : r.writeStep cap = some t) :
    r.step cap maxConsumers .write = some { t with slack := r.slack && t.hasSlack cap } :=
  Option.map_eq_some_iff.mpr ⟨t, ht, rfl⟩

/-- A step of an attempt that goes on. -/
theorem attemptRank_goes_on {t : BroadcastRing T} (hroom : t.hasSlack cap = true)
    (hcount : t.consumerCount = r.consumerCount) (hr : r.writer ≠ .returned false)
    (ht : t.writer ≠ .returned false)
    (hlt : t.writer.toGo r.consumerCount < r.writer.toGo r.consumerCount) :
    BroadcastRing.attemptRank { t with slack := r.slack && t.hasSlack cap } < r.attemptRank := by
  rw [attemptRank_of_ne hr,
    attemptRank_of_ne (r := { t with slack := r.slack && t.hasSlack cap }) ht]
  dsimp only
  rw [hroom, Bool.and_true, hcount]
  omega

theorem write_goes_on {t : BroadcastRing T} (ht : r.writeStep cap = some t)
    (hroom : t.hasSlack cap = true) (hcount : t.consumerCount = r.consumerCount)
    (hr : r.writer ≠ .returned false) (hgoes : t.writer ≠ .returned false)
    (hlt : t.writer.toGo r.consumerCount < r.writer.toGo r.consumerCount) :
    ∃ r', r.step cap maxConsumers .write = some r'
      ∧ (r'.writer = .returned true ∨ r'.attemptRank < r.attemptRank) :=
  ⟨_, step_of_writeStep ht, Or.inr (attemptRank_goes_on hroom hcount hr hgoes hlt)⟩

/-- A call that is refused began when there was no room. -/
theorem RingInv.slack_of_refused (h : RingInv cap r) {item : T} {write freshMin : UInt64}
    (hwr : r.writer = .scanned item write freshMin)
    (hfull : write - freshMin ≥ UInt64.ofNat cap.size) : r.slack = false := by
  have hok := h.writer
  unfold WriterOk at hok
  rw [hwr] at hok
  obtain ⟨hwrite, _, hfresh, _, hslack⟩ := hok
  have hlen : write.toNat = r.published.length := by rw [hwrite, h.cursor]
  have hge := (gate_iff (by rw [hlen]; exact hfresh)).mp hfull
  by_contra hs
  have hlt := hslack (by simpa using hs)
  omega

/-- **An attempt that began with room is not refused**, and one that is refused leaves the way
free for the next. -/
theorem RingInv.write_closer (h : RingInv cap r) (hroom : r.hasSlack cap = true)
    (hitem : r.writer.item?.isSome) :
    ∃ r', r.step cap maxConsumers .write = some r'
      ∧ (r'.writer = .returned true ∨ r'.attemptRank < r.attemptRank) := by
  cases hwr : r.writer with
  | idle | returned _ => rw [hwr] at hitem; exact nomatch hitem
  | gate item write =>
      have hne : r.writer ≠ .returned false := by rw [hwr]; nofun
      -- a full ring by the cached minimum: look at the cursors, otherwise store at once
      by_cases hold : write - r.cachedMin ≥ UInt64.ofNat cap.size
      · have ht : r.writeStep cap = some { r with writer := .scanCount item write } := by
          unfold BroadcastRing.writeStep
          rw [hwr]
          exact if_pos hold
        refine write_goes_on ht hroom rfl hne nofun ?_
        rw [hwr]
        dsimp only [Writer.toGo]
        omega
      · have ht : r.writeStep cap = some { r with writer := .storeSlot item write } := by
          unfold BroadcastRing.writeStep
          rw [hwr]
          exact if_neg hold
        refine write_goes_on ht hroom rfl hne nofun ?_
        rw [hwr]
        dsimp only [Writer.toGo]
        omega
  | scanCount item write =>
      have hne : r.writer ≠ .returned false := by rw [hwr]; nofun
      have ht : r.writeStep cap
          = some { r with writer := .scan item write r.consumerCount 0 uint64Max } := by
        unfold BroadcastRing.writeStep
        rw [hwr]
      refine write_goes_on ht hroom rfl hne nofun ?_
      rw [hwr]
      dsimp only [Writer.toGo]
      omega
  | scan item write n i low =>
      have hne : r.writer ≠ .returned false := by rw [hwr]; nofun
      by_cases hi : i < n
      · have ht : r.writeStep cap = some { r with
            writer := .scan item write n (i + 1)
              (if r.cursors i < low then r.cursors i else low) } := by
          unfold BroadcastRing.writeStep
          rw [hwr]
          exact if_pos hi
        refine write_goes_on ht hroom rfl hne nofun ?_
        rw [hwr]
        dsimp only [Writer.toGo]
        omega
      · have ht : r.writeStep cap = some { r with
            writer := .scanned item write (if n = 0 then r.writeCursor else low) } := by
          unfold BroadcastRing.writeStep
          rw [hwr]
          exact if_neg hi
        refine write_goes_on ht hroom rfl hne nofun ?_
        rw [hwr]
        dsimp only [Writer.toGo]
        omega
  | scanned item write freshMin =>
      have hne : r.writer ≠ .returned false := by rw [hwr]; nofun
      by_cases hfull : write - freshMin ≥ UInt64.ofNat cap.size
      · -- refused, on cursors read before there was room: the next attempt is the last
        have ht : r.writeStep cap = some { r with
            cachedMin := freshMin, writer := .returned false
            refusals := r.refusals ++ [r.slack] } := by
          unfold BroadcastRing.writeStep
          rw [hwr]
          exact if_pos hfull
        refine ⟨_, step_of_writeStep ht, Or.inr ?_⟩
        rw [attemptRank_of_ne hne, h.slack_of_refused hwr hfull, hwr]
        show 7 + r.consumerCount < 8 + r.consumerCount + 3
        omega
      · have ht : r.writeStep cap = some { r with
            cachedMin := freshMin, writer := .storeSlot item write } := by
          unfold BroadcastRing.writeStep
          rw [hwr]
          exact if_neg hfull
        refine write_goes_on ht hroom rfl hne nofun ?_
        rw [hwr]
        dsimp only [Writer.toGo]
        omega
  | storeSlot item write =>
      have hne : r.writer ≠ .returned false := by rw [hwr]; nofun
      have ht : r.writeStep cap = some { r with
          slots := Function.update r.slots (slotOf cap write) item
          writer := .storeCursor item write } := by
        unfold BroadcastRing.writeStep
        rw [hwr]
      refine write_goes_on ht hroom rfl hne nofun ?_
      rw [hwr]
      dsimp only [Writer.toGo]
      omega
  | storeCursor item write =>
      have ht : r.writeStep cap = some { r with
          writeCursor := write + 1, writer := .returned true
          published := r.published ++ [item] } := by
        unfold BroadcastRing.writeStep
        rw [hwr]
      exact ⟨_, step_of_writeStep ht, Or.inl rfl⟩

/-- The next attempt begins with room. -/
theorem publish_closer (hwr : r.writer = .returned false) (hroom : r.hasSlack cap = true)
    (item : T) :
    ∃ r', r.step cap maxConsumers (.publish item) = some r'
      ∧ r'.writer = .gate item r.writeCursor ∧ r'.attemptRank < r.attemptRank := by
  have hact : r.act cap maxConsumers (.publish item)
      = some { r with writer := .gate item r.writeCursor } := by
    dsimp only [BroadcastRing.act, BroadcastRing.startPublish]
    rw [hwr]
  refine ⟨_, Option.map_eq_some_iff.mpr ⟨_, hact, rfl⟩, rfl, ?_⟩
  have hslack : BroadcastRing.hasSlack cap
      { r with writer := .gate item r.writeCursor } = true := hroom
  unfold BroadcastRing.attemptRank
  rw [hwr]
  dsimp only [BroadcastRing.slackBefore, Writer.toGo]
  rw [hslack]
  show 0 + (6 + r.consumerCount) < 7 + r.consumerCount
  omega

/-- Everybody has read everything: there is room. -/
theorem hasSlack_of_caught_up
    (h : ∀ id < r.consumerCount, r.published.length ≤ (r.consumed id).length) :
    r.hasSlack cap = true := by
  refine List.all_eq_true.mpr fun id hid => decide_eq_true ?_
  have hle := h id (List.mem_range.mp hid)
  have hpos := cap.size_pos
  omega

/-- A reader's step is nothing to the writer but for the room it may make. -/
theorem reader_frame {a : RingAction T} {id : Nat} (ha : a = .consume id ∨ a = .read id)
    (hr : r.step cap maxConsumers a = some r') :
    r'.writer = r.writer ∧ r'.published = r.published ∧ r'.consumerCount = r.consumerCount
      ∧ r'.slack = (r.slack && r'.hasSlack cap) := by
  -- a reader does not register
  have hcount : r'.consumerCount = r.consumerCount := by
    rcases step_consumerCount hr with hsame | ⟨hreg, _⟩
    · exact hsame
    · rcases ha with rfl | rfl <;> exact nomatch hreg
  have hslack : r'.slack = (r.slack && r'.hasSlack cap) := by
    obtain ⟨t, _, rfl⟩ := step_eq_some hr
    rcases ha with rfl | rfl <;> rfl
  rcases ha with rfl | rfl
  · exact ⟨(consume_spec hr).1.writer, (consume_spec hr).1.published, hcount, hslack⟩
  · exact ⟨(read_spec hr).1.writer, (read_spec hr).1.published, hcount, hslack⟩

end HftLob.Ring

namespace HftLob.Pipeline

open HftLob.Lib HftLob.Ring HftLob.Book HftLob.Engine

/-! ## The sequencer between its turns -/

/-- What others leave of the sequencer's own state. -/
structure SequencerSame (capOut : RingCapacity) (maxConsumers : Nat) (q q' : Sequencer) :
    Prop where
  pc : q'.pc = q.pc
  consumers : ∀ p, (q'.inputs p).consumer = (q.inputs p).consumer
  running : q.running = false → q'.running = false
  output : q'.output = q.output ∨ ∃ id a, (a = .consume id ∨ a = .read id)
    ∧ q.output.step capOut maxConsumers a = some q'.output

section Same

variable {capIn capOut : RingCapacity} {maxConsumers : Nat} {q q' : Sequencer}

theorem SequencerSame.refl (q : Sequencer) : SequencerSame capOut maxConsumers q q :=
  ⟨rfl, fun _ => rfl, id, Or.inl rfl⟩

theorem Sequencer.step_same {a : SequencerAction}
    (hq : q.step capIn capOut maxConsumers a = some q')
    (hrun : ∀ now, a ≠ .run now) (hready : q.pc ≠ .ready) :
    SequencerSame capOut maxConsumers q q' := by
  -- a producer works at the other end of its queue
  have honInput : ∀ {p : ProducerId} {b : SpscAction SequencedEvent},
      (b = .produce ∨ ∃ item, b = .push item) → q.onInput capIn p b = some q' →
        SequencerSame capOut maxConsumers q q' := by
    intro p b hb ht
    obtain ⟨input, hinput, rfl⟩ := onInput_eq_some ht
    refine ⟨rfl, fun p' => ?_, id, Or.inl rfl⟩
    dsimp only
    by_cases hp : p' = p
    · rw [hp, Function.update_self, (producer_spec hb hinput).2.1]
    · rw [Function.update_of_ne hp]
  cases a with
  | register | start =>
      dsimp only [Sequencer.step] at hq
      rw [if_neg hready] at hq
      exact absurd hq (by simp)
  | stop => cases hq; exact ⟨rfl, fun _ => rfl, fun _ => rfl, Or.inl rfl⟩
  | push p item => exact honInput (Or.inr ⟨item, rfl⟩) hq
  | produce p => exact honInput (Or.inl rfl) hq
  | run now => exact absurd rfl (hrun now)
  | consume id' =>
      obtain ⟨r, hr, rfl⟩ := onOutput_eq_some hq
      exact ⟨rfl, fun _ => rfl, id, Or.inr ⟨id', _, Or.inl rfl, hr⟩⟩
  | read id' =>
      obtain ⟨r, hr, rfl⟩ := onOutput_eq_some hq
      exact ⟨rfl, fun _ => rfl, id, Or.inr ⟨id', _, Or.inr rfl, hr⟩⟩

theorem SequencerSame.writer (h : SequencerSame capOut maxConsumers q q') :
    q'.output.writer = q.output.writer ∧ q'.output.published = q.output.published := by
  rcases h.output with he | ⟨id, a, ha, hr⟩
  · rw [he]; exact ⟨rfl, rfl⟩
  · exact ⟨(reader_frame ha hr).1, (reader_frame ha hr).2.1⟩

/-- With room for all, others do not change what an attempt will come to. -/
theorem SequencerSame.attemptRank (h : SequencerSame capOut maxConsumers q q')
    (hroom : q'.output.hasSlack capOut = true) :
    q'.output.attemptRank = q.output.attemptRank := by
  rcases h.output with he | ⟨id, a, ha, hr⟩
  · rw [he]
  · obtain ⟨hwriter, _, hcount, hslack⟩ := reader_frame ha hr
    rw [hroom, Bool.and_true] at hslack
    unfold BroadcastRing.attemptRank
    rw [hwriter, hcount, hslack]

end Same

theorem ThreadMove.sequencerSame {cfg : Config} {s s' : Store cfg} {worker : Option Worker}
    (h : ThreadMove s s' worker) (hne : worker ≠ some .sequencer)
    (hready : s.process.sequencer.pc ≠ .ready) :
    SequencerSame cfg.capOut cfg.maxConsumers s.process.sequencer s'.process.sequencer := by
  cases h with
  | main started _ hstep =>
      rcases Process.mainStep_sequencer hstep with he | ⟨a, hgoverns, ha⟩
      · rw [he]; exact .refl _
      · exact Sequencer.step_same ha hgoverns.ne.1 hready
  | sequencer a _ hworker hstep _ _ =>
      rcases hworker with ⟨_, hseq⟩ | ⟨haccepts, _⟩
      · exact absurd hseq hne
      · -- a poll that pushes
        exact Sequencer.step_same hstep haccepts.ne hready
  | follower x _ out hstep _ _ =>
      rcases ConsumerThread.step_sequencer hstep with he | ⟨a, ha, hread⟩
      · rw [he]; exact .refl _
      · refine Sequencer.step_same ha (fun now he => ?_) hready
        rcases hread with rfl | rfl <;> exact nomatch he
  | still hprocess => rw [hprocess]; exact .refl _

/-! ## A pass over the queues -/

/-- How many queues come after this one. -/
def ProducerId.after : ProducerId → Nat
  | .gateway => 2
  | .feedReplay => 1
  | .admin => 0

/-- How much of its pass the thread has before it, in events it may still pop. -/
def SequencerPc.left : SequencerPc → Nat
  | .ready | .test | .returned => 0
  | .pop p i | .popping p i | .publishing p i _ =>
      ProducerId.after p * (kMaxBatch + 1) + (kMaxBatch - i) + 1

theorem left_afterProducer (p : ProducerId) :
    (Sequencer.afterProducer p).left ≤ ProducerId.after p * (kMaxBatch + 1) := by
  cases p <;> decide

namespace Sequencer

variable {capIn capOut : RingCapacity} {maxConsumers : Nat} {q q' : Sequencer} {now : Nanos}
  {p : ProducerId} {i : Nat} {ev : SequencedEvent}

/-- How many steps a `pop` is away from its result. -/
def popRank (q : Sequencer) : Nat :=
  match q.pc with
  | .pop _ _ => 5
  | .popping p _ => (q.inputs p).consumer.toGo
  | .ready | .test | .publishing _ _ _ | .returned => 0

/-- The thread is in its loop over a queue, without an event in hand. -/
def Popping (q : Sequencer) : Prop := ∃ p i, q.pc = .pop p i ∨ q.pc = .popping p i

def Publishing (q : Sequencer) : Prop := ∃ p i ev, q.pc = .publishing p i ev

/-- A call of `pop` begins. -/
theorem Poised.pop_begins (h : q.Poised) (hpc : q.pc = .pop p i) :
    ∃ input, (q.inputs p).step capIn .pop = some input
      ∧ input.consumer = .loaded (q.inputs p).tail
      ∧ q.runStep capIn capOut maxConsumers now = some { q with
          inputs := Function.update q.inputs p input, pc := .popping p i } := by
  obtain ⟨input, hinput, hloaded⟩ : ∃ input, (q.inputs p).step capIn .pop = some input
    ∧ input.consumer = .loaded (q.inputs p).tail :=
      pop_enabled (h.atRest p (by rw [hpc]; nofun))
  refine ⟨input, hinput, hloaded, ?_⟩
  unfold Sequencer.runStep
  rw [hpc]
  dsimp only [Sequencer.onInput]
  rw [hinput]
  rfl

/-- And goes on. -/
theorem runStep_pop {input : SpscRingBuffer SequencedEvent} (hpc : q.pc = .popping p i)
    (hres : (q.inputs p).consumer.result? = none)
    (hinput : (q.inputs p).step capIn .consume = some input) :
    q.runStep capIn capOut maxConsumers now
      = some { q with inputs := Function.update q.inputs p input } := by
  have hcall : q.runStep capIn capOut maxConsumers now = q.onInput capIn p .consume := by
    unfold Sequencer.runStep
    rw [hpc]
    dsimp only
    rw [hres]
  rw [hcall, Sequencer.onInput, hinput]
  rfl

/-- **A turn of the sequencer that looks for an event** gets closer to one, or ends its batch. -/
theorem Poised.pop_closer (h : q.Poised) (hwriter : q.WriterBusy) (hpc : q.Popping) :
    ∃ q', q.runStep capIn capOut maxConsumers now = some q'
      ∧ (q'.pc.left < q.pc.left
        ∨ q'.pc.left = q.pc.left
          ∧ (q'.Publishing ∨ q'.Popping ∧ q'.popRank < q.popRank)) := by
  obtain ⟨p, i, hpc | hpc⟩ := hpc
  · obtain ⟨input, _, hloaded, hq⟩ := h.pop_begins hpc
    refine ⟨_, hq, Or.inr ⟨by rw [hpc]; rfl, Or.inr ⟨⟨p, i, Or.inr rfl⟩, ?_⟩⟩⟩
    unfold popRank
    rw [hpc]
    dsimp only
    rw [Function.update_self, hloaded]
    show 4 < 5
    omega
  · have hidle := h.popping p i hpc
    cases hres : (q.inputs p).consumer.result? with
    | none =>
        obtain ⟨input, hinput, hlt⟩ : ∃ input, (q.inputs p).step capIn .consume = some input
          ∧ input.consumer.toGo < (q.inputs p).consumer.toGo := take_enabled hres hidle
        refine ⟨_, runStep_pop hpc hres hinput,
          Or.inr ⟨rfl, Or.inr ⟨⟨p, i, Or.inr hpc⟩, ?_⟩⟩⟩
        unfold popRank
        dsimp only
        rw [hpc]
        dsimp only
        rw [Function.update_self]
        exact hlt
    | some found =>
        cases found with
        | none =>
            -- the queue is empty, and its batch over
            have hq : q.runStep capIn capOut maxConsumers now
                = some { q with pc := afterProducer p } := by
              unfold Sequencer.runStep
              rw [hpc]
              dsimp only
              rw [hres]
            refine ⟨_, hq, Or.inl ?_⟩
            have hle := left_afterProducer p
            rw [hpc]
            show (afterProducer p).left
              < ProducerId.after p * (kMaxBatch + 1) + (kMaxBatch - i) + 1
            omega
        | some ev =>
            -- an event: `try_publish` can begin, for no call is under way
            have hfree : q.output.writer.item? = none := by
              unfold WriterBusy at hwriter
              rw [hpc] at hwriter
              exact hwriter
            obtain ⟨r, hr⟩ : ∃ r, q.output.step capOut maxConsumers
              (.publish (q.stamp p now ev)) = some r := publish_enabled hfree _
            have hq : q.runStep capIn capOut maxConsumers now = some { q with
                output := r, nextSeq := q.nextSeq + 1
                pc := .publishing p i (q.stamp p now ev) } := by
              unfold Sequencer.runStep
              rw [hpc]
              dsimp only
              rw [hres]
              dsimp only [Sequencer.onOutput]
              rw [hr]
              rfl
            exact ⟨_, hq, Or.inr ⟨by rw [hpc]; rfl, Or.inl ⟨p, i, _, rfl⟩⟩⟩

/-- While the event in hand is not published, the thread does nothing else. -/
theorem runStep_publishing (hq : q.runStep capIn capOut maxConsumers now = some q')
    (hpc : q.pc = .publishing p i ev) (htry : q.output.writer.result? ≠ some true) :
    q'.pc = .publishing p i ev
      ∧ (q'.output.writer.result? = some true
        ∨ q'.output.writer.result? ≠ some true
          ∧ q'.output.published = q.output.published) := by
  unfold Sequencer.runStep at hq
  rw [hpc] at hq
  dsimp only at hq
  split at hq
  · obtain ⟨r, hr, rfl⟩ := onOutput_eq_some hq
    obtain ⟨_, _, item, _, ⟨hpub, hitem | hfalse⟩ | ⟨_, htrue⟩⟩ := write_spec hr
    · exact ⟨hpc, Or.inr ⟨Writer.result?_ne_of_item? hitem true, hpub⟩⟩
    · exact ⟨hpc, Or.inr ⟨by dsimp only; rw [hfalse]; nofun, hpub⟩⟩
    · exact ⟨hpc, Or.inl (by dsimp only; rw [htrue]; rfl)⟩
  · obtain ⟨r, hr, rfl⟩ := onOutput_eq_some hq
    obtain ⟨_, hitem, hpub, _⟩ := publish_spec hr
    exact ⟨hpc, Or.inr ⟨Writer.result?_ne_of_item? hitem true, hpub⟩⟩
  · rename_i hres
    exact absurd hres htry

/-- **A turn of the sequencer with room in the ring** gets closer to the end of the attempt
that succeeds. -/
theorem Poised.publish_closer (h : q.Poised) (hring : RingInv capOut q.output)
    (hroom : q.output.hasSlack capOut = true) (hpc : q.pc = .publishing p i ev)
    (htry : q.output.writer.result? ≠ some true) :
    ∃ q', q.runStep capIn capOut maxConsumers now = some q'
      ∧ (q'.output.writer.result? = some true
        ∨ q'.output.attemptRank < q.output.attemptRank) := by
  have hidle := h.publishing p i ev hpc
  cases hres : q.output.writer.result? with
  | none =>
      have hitem : q.output.writer.item?.isSome := by
        cases hwr : q.output.writer with
        | idle => exact absurd hwr hidle
        | returned b => rw [hwr] at hres; exact nomatch hres
        | _ => rfl
      obtain ⟨r, hr, hcloser⟩ : ∃ r, q.output.step capOut maxConsumers .write = some r
        ∧ (r.writer = .returned true ∨ r.attemptRank < q.output.attemptRank) :=
          hring.write_closer hroom hitem
      have hq : q.runStep capIn capOut maxConsumers now = some { q with output := r } := by
        have hcall : q.runStep capIn capOut maxConsumers now
            = q.onOutput capOut maxConsumers .write := by
          unfold Sequencer.runStep
          rw [hpc]
          dsimp only
          rw [hres]
        rw [hcall, ConsumerThread.onOutput_of_step hr]
      refine ⟨_, hq, hcloser.imp_left fun htrue => ?_⟩
      dsimp only
      rw [htrue]
      rfl
  | some published =>
      cases published with
      | true => exact absurd hres htry
      | false =>
          -- refused before; the loop around `try_publish` calls again
          have hwr : q.output.writer = .returned false := by
            cases hwr : q.output.writer with
            | returned b => rw [hwr] at hres; cases hres; rfl
            | _ => rw [hwr] at hres; exact nomatch hres
          obtain ⟨r, hr, _, hcloser⟩ : ∃ r, q.output.step capOut maxConsumers (.publish ev) = some r
            ∧ r.writer = .gate ev q.output.writeCursor
            ∧ r.attemptRank < q.output.attemptRank := Ring.publish_closer hwr hroom ev
          have hq : q.runStep capIn capOut maxConsumers now = some { q with output := r } := by
            have hcall : q.runStep capIn capOut maxConsumers now
                = q.onOutput capOut maxConsumers (.publish ev) := by
              unfold Sequencer.runStep
              rw [hpc]
              dsimp only
              rw [hres]
            rw [hcall, ConsumerThread.onOutput_of_step hr]
          exact ⟨_, hq, Or.inr hcloser⟩

/-- The event is published: on to the next. -/
theorem published_closer (hpc : q.pc = .publishing p i ev)
    (hres : q.output.writer.result? = some true) :
    ∃ q', q.runStep capIn capOut maxConsumers now = some q' ∧ q'.pc.left < q.pc.left := by
  have hq : q.runStep capIn capOut maxConsumers now
      = some { q with pc := if i + 1 < kMaxBatch then .pop p (i + 1) else afterProducer p } := by
    unfold Sequencer.runStep
    rw [hpc]
    dsimp only
    rw [hres]
  refine ⟨_, hq, ?_⟩
  have hle := left_afterProducer p
  rw [hpc]
  dsimp only
  -- one event less in this batch, or the next queue
  split
  · dsimp only [SequencerPc.left]
    omega
  · show (afterProducer p).left < ProducerId.after p * (kMaxBatch + 1) + (kMaxBatch - i) + 1
    omega

end Sequencer

/-! ## Every pass ends -/

namespace Store

variable {cfg : Config} {n : Nat} {s : Store cfg} {a : StoreAction} {file : Database}
  {p : ProducerId} {i m : Nat} {ev : SequencedEvent}

theorem turn_run (ha : a.worker = some .sequencer) :
    ∃ now, s.process.sequencer.runStep cfg.capIn cfg.capOut cfg.maxConsumers now
        = some (s.turn n a).process.sequencer
      ∨ s.process.sequencer.runStep cfg.capIn cfg.capOut cfg.maxConsumers now = none
        ∧ s.turn n a = s := by
  cases a with
  | sequencer now =>
      refine ⟨now, ?_⟩
      have hturn : s.turn n (.sequencer now) = (s.onProcess (.sequencer now)).getD s := rfl
      rw [hturn]
      dsimp only [Store.onProcess, Process.step, Process.onSequencer, Sequencer.step]
      cases s.process.sequencer.runStep cfg.capIn cfg.capOut cfg.maxConsumers now with
      | none => exact Or.inr ⟨rfl, rfl⟩
      | some q => exact Or.inl rfl
  | _ => exact nomatch ha

/-- A turn with which the thread can do something. -/
theorem turn_runs {P : Sequencer → Prop} (ha : a.worker = some .sequencer)
    (h : ∀ now, ∃ q, s.process.sequencer.runStep cfg.capIn cfg.capOut cfg.maxConsumers now = some q
      ∧ P q) : P (s.turn n a).process.sequencer := by
  obtain ⟨now, hrun | ⟨hnone, _⟩⟩ := turn_run (n := n) (s := s) ha
  · obtain ⟨q, hq, hP⟩ := h now
    rw [hrun] at hq
    cases hq
    exact hP
  · obtain ⟨q, hq, _⟩ := h now
    rw [hnone] at hq
    exact nomatch hq

theorem Live.sequencer_started (h : Live file s) : s.process.sequencer.pc ≠ .ready :=
  h.poised.staged.sequencer (Nat.lt_of_lt_of_le (by decide) h.started)

theorem Live.sequencerSame (h : Live file s) (ha : a.worker ≠ some .sequencer) :
    SequencerSame cfg.capOut cfg.maxConsumers s.process.sequencer
      (s.turn n a).process.sequencer :=
  (turn_move n s a).sequencerSame ha h.sequencer_started

/-- The event in hand is not published yet, with `m` events before it. -/
def Trying (p : ProducerId) (i : Nat) (ev : SequencedEvent) (m : Nat) (s : Store cfg) : Prop :=
  s.process.sequencer.pc = .publishing p i ev
    ∧ s.process.sequencer.output.writer.result? ≠ some true
    ∧ s.process.sequencer.output.published.length = m

/-- The event in hand is published. -/
def Landed (p : ProducerId) (i : Nat) (ev : SequencedEvent) (s : Store cfg) : Prop :=
  s.process.sequencer.pc = .publishing p i ev
    ∧ s.process.sequencer.output.writer.result? = some true

def CaughtUp (m : Nat) (x : Follower) (s : Store cfg) : Prop :=
  m ≤ (s.process.sequencer.output.consumed x.id).length

theorem CaughtUp.turn {x : Follower} (h : CaughtUp m x s) (n : Nat) (a : StoreAction) :
    CaughtUp m x (s.turn n a) :=
  Nat.le_trans h ((turn_move n s a).consumed x.id)

theorem Trying.turn (h : Trying p i ev m s) (hlive : s.Live file) (n : Nat) (a : StoreAction) :
    Trying p i ev m (s.turn n a) ∨ Landed p i ev (s.turn n a) := by
  obtain ⟨hpc, htry, hm⟩ := h
  by_cases ha : a.worker = some .sequencer
  · -- its own turn is a step of the attempt; the others leave it as it is
    obtain ⟨now, hrun | ⟨_, hsame⟩⟩ := turn_run (n := n) (s := s) ha
    · obtain ⟨hpc', hlanded | ⟨htry', hpub⟩⟩ := Sequencer.runStep_publishing hrun hpc htry
      · exact Or.inr ⟨hpc', hlanded⟩
      · exact Or.inl ⟨hpc', htry', by rw [hpub]; exact hm⟩
    · rw [hsame]
      exact Or.inl ⟨hpc, htry, hm⟩
  · have hsame := hlive.sequencerSame (n := n) ha
    refine Or.inl ⟨by rw [hsame.pc]; exact hpc, ?_, ?_⟩
    · rw [hsame.writer.1]; exact htry
    · rw [hsame.writer.2]; exact hm

/-- Three consumers are registered, and no more. -/
theorem Live.hasSlack (h : Live file s)
    (hm : s.process.sequencer.output.published.length = m) (hall : ∀ x, CaughtUp m x s) :
    s.process.sequencer.output.hasSlack cfg.capOut = true := by
  refine hasSlack_of_caught_up fun id hid => ?_
  rw [h.poised.staged.registered] at hid
  obtain ⟨x, rfl⟩ : ∃ x : Follower, x.id = id := by
    have hid : id < 3 := by omega
    rcases Nat.lt_or_ge id 1 with h0 | h1
    · exact ⟨.matcher, show 0 = id by omega⟩
    rcases Nat.lt_or_ge id 2 with h1' | h2
    · exact ⟨.wal, show 1 = id by omega⟩
    · exact ⟨.db, show 2 = id by omega⟩
  rw [hm]
  exact hall x

end Store

section LeadsTo

variable {cfg : Config} {n : Nat} {file : Database} {fair : Worker → Prop}
  {during : Store cfg → Prop} {p : ProducerId} {i m : Nat} {ev : SequencedEvent}

/-- A `pop` comes to its result, and with it the batch to its end or an event into hand. -/
theorem pops_end (hfair : fair .sequencer) (w : Nat) :
    (schedule n file fair during).LeadsTo
      (fun s => s.process.sequencer.Popping ∧ s.process.sequencer.pc.left = w)
      (fun s => (s.process.sequencer.Publishing ∧ s.process.sequencer.pc.left = w)
        ∨ s.process.sequencer.pc.left < w) := by
  refine Scheduled.leadsTo_of_rank Worker.sequencer hfair
    (fun s => s.process.sequencer.popRank) ?_ ?_
  · rintro s a ⟨hlive, _⟩ _ ⟨hpop, hw⟩ ha
    have hsame := hlive.sequencerSame (n := n) ha
    refine Or.inr ⟨⟨?_, ?_⟩, ?_⟩
    · show (s.turn n a).process.sequencer.Popping
      unfold Sequencer.Popping
      rw [hsame.pc]
      exact hpop
    · show (s.turn n a).process.sequencer.pc.left = w
      rw [hsame.pc]
      exact hw
    · show (s.turn n a).process.sequencer.popRank = s.process.sequencer.popRank
      unfold Sequencer.popRank
      rw [hsame.pc]
      split <;> first | rfl | rw [hsame.consumers]
  · rintro s a ⟨hlive, _⟩ _ ⟨hpop, hw⟩ ha
    have hnext := Store.turn_runs (n := n) ha fun now =>
      hlive.poised.sequencer.pop_closer hlive.inv.process.sequencer.writer hpop
    rcases hnext with hless | ⟨hleft, hpub | ⟨hpop', hcloser⟩⟩
    · exact Or.inl (Or.inr (hw ▸ hless))
    · exact Or.inl (Or.inl ⟨hpub, hleft.trans hw⟩)
    · exact Or.inr ⟨⟨hpop', hleft.trans hw⟩, hcloser⟩

/-- When everybody has read everything, the event in hand gets published. -/
theorem lands (hfair : fair .sequencer) :
    (schedule n file fair during).LeadsTo
      (fun s => s.Trying p i ev m ∧ ∀ x, s.CaughtUp m x) (fun s => s.Landed p i ev) := by
  refine Scheduled.leadsTo_of_rank Worker.sequencer hfair
    (fun s => s.process.sequencer.output.attemptRank) ?_ ?_
  · -- nothing is published meanwhile, so there stays room
    rintro s a ⟨hlive, _⟩ ⟨hlive', _⟩ ⟨htry, hall⟩ ha
    have hall' : ∀ x, (s.turn n a).CaughtUp m x := fun x => (hall x).turn n a
    rcases htry.turn hlive n a with htry' | hlanded
    · exact Or.inr ⟨⟨htry', hall'⟩,
        (hlive.sequencerSame ha).attemptRank (Store.Live.hasSlack hlive' htry'.2.2 hall')⟩
    · exact Or.inl hlanded
  · rintro s a ⟨hlive, _⟩ _ ⟨htry, hall⟩ ha
    have hall' : ∀ x, (s.turn n a).CaughtUp m x := fun x => (hall x).turn n a
    have hnext := Store.turn_runs (n := n) ha fun now =>
      hlive.poised.sequencer.publish_closer (hlive.inv.process.sequencer.ring hlive.short)
        (hlive.hasSlack htry.2.2 hall) htry.1 htry.2.1
    rcases htry.turn hlive n a with htry' | hlanded
    · exact Or.inr ⟨⟨htry', hall'⟩, hnext.resolve_left htry'.2.1⟩
    · exact Or.inl hlanded

/-- Meanwhile each consumer comes to the end of what there is. -/
theorem waits_for (x : Follower) (hfair : fair (.follower x)) {C : Store cfg → Prop}
    (hC : ∀ s a, C s → C (s.turn n a)) :
    (schedule n file fair during).LeadsTo (fun s => s.Trying p i ev m ∧ C s)
      (fun s => (s.Trying p i ev m ∧ C s ∧ s.CaughtUp m x) ∨ s.Landed p i ev) := by
  have hcatch : (schedule n file fair during).LeadsTo
      (fun s => m ≤ s.process.sequencer.output.published.length)
      (fun s => m ≤ (s.process.sequencer.output.consumed x.id).length) := catches_up x hfair m
  have huntil := hcatch.until (R := fun s => s.Trying p i ev m ∧ C s)
    (B := fun s => s.Landed p i ev) fun s a hs _ hR =>
      (hR.1.turn hs.1 n a).imp_left fun htry => ⟨htry, hC s a hR.2⟩
  refine huntil.mono (fun s _ h => ⟨Nat.le_of_eq h.1.2.2.symm, h⟩) fun s _ h => ?_
  exact h.imp_left fun h => ⟨h.2.1, h.2.2, h.1⟩

/-- **The sequencer is not held up for good.** -/
theorem trying_lands (hfair : fair .sequencer) (hall : ∀ x, fair (.follower x)) :
    (schedule n file fair during).LeadsTo (fun s => s.Trying p i ev m)
      (fun s => s.Landed p i ev) := by
  -- the three catch up one after the other, and none falls behind again
  have hmatcher : (schedule n file fair during).LeadsTo
      (fun s => s.Trying p i ev m ∧ True)
      (fun s => (s.Trying p i ev m ∧ True ∧ s.CaughtUp m .matcher) ∨ s.Landed p i ev) :=
    waits_for .matcher (hall _) fun _ _ h => h
  have hwal : (schedule n file fair during).LeadsTo
      (fun s => s.Trying p i ev m ∧ s.CaughtUp m .matcher)
      (fun s => (s.Trying p i ev m ∧ s.CaughtUp m .matcher ∧ s.CaughtUp m .wal)
        ∨ s.Landed p i ev) :=
    waits_for .wal (hall _) fun _ a h => h.turn n a
  have hdb : (schedule n file fair during).LeadsTo
      (fun s => s.Trying p i ev m ∧ (s.CaughtUp m .matcher ∧ s.CaughtUp m .wal))
      (fun s => (s.Trying p i ev m ∧ (s.CaughtUp m .matcher ∧ s.CaughtUp m .wal)
        ∧ s.CaughtUp m .db) ∨ s.Landed p i ev) :=
    waits_for .db (hall _) fun _ a h => ⟨h.1.turn n a, h.2.turn n a⟩
  have hlands : (schedule n file fair during).LeadsTo
      (fun s => s.Trying p i ev m ∧ (s.CaughtUp m .matcher ∧ s.CaughtUp m .wal)
        ∧ s.CaughtUp m .db) (fun s => s.Landed p i ev) :=
    (lands hfair).mono (fun s _ h => ⟨h.1, fun x => by
      cases x
      · exact h.2.1.1
      · exact h.2.1.2
      · exact h.2.2⟩) fun _ _ => id
  refine (hmatcher.mono (fun s _ h => ⟨h, trivial⟩) fun _ _ => id).or_else ?_
  refine (hwal.mono (fun s _ h => ⟨h.1, h.2.2⟩) fun _ _ => id).or_else ?_
  exact hdb.or_else hlands

theorem publishing_ends (hfair : fair .sequencer) (hall : ∀ x, fair (.follower x)) (w : Nat) :
    (schedule n file fair during).LeadsTo
      (fun s => s.process.sequencer.Publishing ∧ s.process.sequencer.pc.left = w)
      (fun s => s.process.sequencer.pc.left < w) := by
  -- for each event in hand, and each length of the stream, on its own
  refine Scheduled.leadsTo_of_value (fun s => s.process.sequencer.pc) fun pc => ?_
  refine Scheduled.leadsTo_of_value
    (fun s => s.process.sequencer.output.published.length) fun m => ?_
  by_cases hpc : ∃ p i ev, pc = .publishing p i ev
  · obtain ⟨p, i, ev, rfl⟩ := hpc
    have hgoes : (schedule n file fair during).LeadsTo (fun s => s.Landed p i ev)
        (fun s => s.process.sequencer.pc.left < SequencerPc.left (.publishing p i ev)) := by
      refine Scheduled.leadsTo_of_turn Worker.sequencer hfair ?_ ?_
      · rintro s a ⟨hlive, _⟩ _ ⟨hpc, hres⟩ ha
        have hsame := hlive.sequencerSame (n := n) ha
        exact Or.inr ⟨hsame.pc.trans hpc, by rw [← hres, ← hsame.writer.1]; rfl⟩
      · rintro s a _ _ ⟨hpc, hres⟩ ha
        have hnext := Store.turn_runs (n := n) ha fun now =>
          Sequencer.published_closer hpc hres
        rw [hpc] at hnext
        exact hnext
    by_cases hw : w = SequencerPc.left (.publishing p i ev)
    · subst hw
      refine Scheduled.LeadsTo.cases hgoes ((trying_lands (m := m) hfair hall).trans hgoes) ?_
      rintro s _ ⟨⟨_, hpc⟩, hm⟩
      by_cases hres : s.process.sequencer.output.writer.result? = some true
      · exact Or.inl ⟨hpc, hres⟩
      · exact Or.inr ⟨hpc, hres, hm⟩
    · refine Scheduled.leadsTo_of_imp fun s _ h => ?_
      obtain ⟨⟨⟨_, hleft⟩, hpc⟩, _⟩ := h
      exact absurd (hleft.symm.trans (congrArg SequencerPc.left hpc)) hw
  · refine Scheduled.leadsTo_of_imp fun s _ h => ?_
    obtain ⟨⟨⟨⟨p, i, ev, hpub⟩, _⟩, he⟩, _⟩ := h
    exact absurd ⟨p, i, ev, he.symm.trans hpub⟩ hpc

/-- **Every pass ends**: the thread comes back to the condition of its loop. -/
theorem pass_ends (hfair : fair .sequencer) (hall : ∀ x, fair (.follower x)) :
    (schedule n file fair during).LeadsTo (fun _ => True)
      (fun s => s.process.sequencer.pc = .test ∨ s.process.sequencer.pc = .returned) := by
  -- what is left of the pass goes down, whether the thread pops or publishes
  refine Scheduled.leadsTo_of_measure (fun s => s.process.sequencer.pc.left) fun w => ?_
  have hpub : (schedule n file fair during).LeadsTo
      (fun s => s.process.sequencer.Publishing ∧ s.process.sequencer.pc.left = w)
      (fun s => s.process.sequencer.pc.left < w) := publishing_ends hfair hall w
  have hpop : (schedule n file fair during).LeadsTo
      (fun s => s.process.sequencer.Popping ∧ s.process.sequencer.pc.left = w)
      (fun s => s.process.sequencer.pc.left < w) := (pops_end hfair w).or_else hpub
  have hloop : (schedule n file fair during).LeadsTo
      (fun s => (s.process.sequencer.Popping ∨ s.process.sequencer.Publishing)
        ∧ s.process.sequencer.pc.left = w)
      (fun s => s.process.sequencer.pc.left < w) :=
    Scheduled.LeadsTo.cases hpop hpub fun s _ h =>
      h.1.imp (fun hp => ⟨hp, h.2⟩) fun hp => ⟨hp, h.2⟩
  refine Scheduled.LeadsTo.cases
    (Scheduled.leadsTo_of_imp (P := fun s => s.process.sequencer.pc = .test
      ∨ s.process.sequencer.pc = .returned) fun s _ h => Or.inl h)
    (hloop.mono (fun _ _ => id) fun s _ h => Or.inr ⟨trivial, h⟩) ?_
  rintro s ⟨hlive, _⟩ ⟨_, hw⟩
  cases hpc : s.process.sequencer.pc with
  | ready => exact absurd hpc hlive.sequencer_started
  | test => exact Or.inl (Or.inl rfl)
  | returned => exact Or.inl (Or.inr rfl)
  | pop p i => exact Or.inr ⟨Or.inl ⟨p, i, Or.inl hpc⟩, by rw [← hpc]; exact hw⟩
  | popping p i => exact Or.inr ⟨Or.inl ⟨p, i, Or.inr hpc⟩, by rw [← hpc]; exact hw⟩
  | publishing p i ev => exact Or.inr ⟨Or.inr ⟨p, i, ev, hpc⟩, by rw [← hpc]; exact hw⟩

end LeadsTo

end HftLob.Pipeline

import HftLob.Pipeline.Staged

/-!
# Every turn of a consumer gets it further

A consumer that is behind the stream is some turns away from its next event: it may first
have to end a batch that found nothing, and to begin another. A consumer that has been told
to stop and has caught up is some turns away from returning. Two ranks count these turns.

Between two steps at the ring the matcher has acks to push and the database has a loop over
`fills_` to finish, and each of these is bounded too. For the matcher that is due to the
limit on the spins of `push_ack`: nobody needs to make room in the clients' queue.
-/

namespace HftLob.Ring

variable {T : Type} {cap : RingCapacity} {maxConsumers : Nat} {r : BroadcastRing T} {id : Nat}

/-! ## `try_consume` -/

theorem consume_enabled (hid : id < r.consumerCount) (hrest : (r.readers id).AtRest) :
    ∃ r', r.step cap maxConsumers (.consume id) = some r'
      ∧ r'.readers id = .loaded (r.cursors id) := by
  have hact : r.act cap maxConsumers (.consume id)
      = some { r with readers := Function.update r.readers id (.loaded (r.cursors id)) } := by
    dsimp only [BroadcastRing.act, BroadcastRing.startConsume]
    rw [if_pos hid]
    cases hrd : r.readers id with
    | idle | returned out => rfl
    | _ => rw [hrd] at hrest; exact hrest.elim
  refine ⟨_, Option.map_eq_some_iff.mpr ⟨_, hact, rfl⟩, ?_⟩
  exact Function.update_self ..

/-- How many steps a call that will find an item is away from storing the cursor. -/
def Reader.toGo : Reader T → Nat
  | .storeCursor _ _ => 1
  | .copy _ => 2
  | .loaded _ => 3
  | .idle | .returned _ => 7

/-- A reader that is behind comes closer to its next item. -/
theorem RingInv.read_behind (h : RingInv cap r) (hid : id < r.consumerCount)
    (hres : (r.readers id).result? = none) (hidle : r.readers id ≠ .idle)
    (hlag : (r.consumed id).length < r.published.length) :
    ∃ r', r.step cap maxConsumers (.read id) = some r'
      ∧ ((r.consumed id).length < (r'.consumed id).length
        ∨ r'.consumed id = r.consumed id
          ∧ (r'.readers id).toGo < (r.readers id).toGo) := by
  have hok := h.reader id
  have hcursor := h.consumed_length hid
  unfold ReaderOk at hok
  have hstep : ∀ {r' : BroadcastRing T}, r.readStep cap id = some r' →
      r.step cap maxConsumers (.read id)
        = some { r' with slack := r.slack && r'.hasSlack cap } :=
    fun hact => Option.map_eq_some_iff.mpr ⟨_, hact, rfl⟩
  cases hrd : r.readers id with
  | idle => exact absurd hrd hidle
  | returned out => rw [hrd] at hres; exact nomatch hres
  | loaded read =>
      rw [hrd] at hok
      have hlt : ¬read ≥ r.writeCursor := by
        intro hge
        have hle := UInt64.le_iff_toNat_le.mp hge
        rw [h.cursor, hok.2] at hle
        omega
      have hact : r.readStep cap id
          = some { r with readers := Function.update r.readers id (.copy read) } := by
        unfold BroadcastRing.readStep
        rw [hrd]
        exact if_neg hlt
      refine ⟨_, hstep hact, Or.inr ⟨rfl, ?_⟩⟩
      dsimp only
      rw [Function.update_self]
      exact Nat.lt_succ_self 2
  | copy read =>
      refine ⟨_, hstep (by unfold BroadcastRing.readStep; rw [hrd]), Or.inr ?_⟩
      dsimp only
      rw [Function.update_self]
      exact ⟨rfl, Nat.lt_succ_self 1⟩
  | storeCursor read out =>
      refine ⟨_, hstep (by unfold BroadcastRing.readStep; rw [hrd]), Or.inl ?_⟩
      dsimp only
      rw [Function.update_self, List.length_append]
      exact Nat.lt_succ_self _

/-- A reader that has caught up is about to find nothing. -/
theorem RingInv.read_caught_up (h : RingInv cap r) (hid : id < r.consumerCount)
    (hres : (r.readers id).result? = none) (hidle : r.readers id ≠ .idle)
    (hcaught : (r.consumed id).length = r.published.length) :
    (∃ read, r.readers id = .loaded read)
      ∧ ∃ r', r.step cap maxConsumers (.read id) = some r' ∧ r'.readers id = .returned none := by
  have hok := h.reader id
  have hcursor := h.consumed_length hid
  unfold ReaderOk at hok
  cases hrd : r.readers id with
  | idle => exact absurd hrd hidle
  | returned out => rw [hrd] at hres; exact nomatch hres
  | loaded read =>
      rw [hrd] at hok
      have hge : read ≥ r.writeCursor := by
        refine UInt64.le_iff_toNat_le.mpr ?_
        rw [h.cursor, hok.2]
        omega
      have hact : r.readStep cap id
          = some { r with readers := Function.update r.readers id (.returned none) } := by
        unfold BroadcastRing.readStep
        rw [hrd]
        exact if_pos hge
      exact ⟨⟨read, rfl⟩, _, Option.map_eq_some_iff.mpr ⟨_, hact, rfl⟩, Function.update_self ..⟩
  | copy read =>
      rw [hrd] at hok
      have hlt := hok.2.2
      rw [hok.2.1] at hlt
      omega
  | storeCursor read out =>
      rw [hrd] at hok
      have hlt := (List.getElem?_eq_some_iff.mp hok.2.2).1
      rw [hok.2.1] at hlt
      omega

end HftLob.Ring

namespace HftLob.Pipeline

open HftLob.Lib HftLob.Ring HftLob.Book HftLob.Engine

/-! ## A thread at the ring -/

/-- How many steps a thread that is behind is away from its next event, at most. -/
def ConsumerPc.catchRank (rd : Reader SequencedEvent) : ConsumerPc → Nat
  | .consuming _ => rd.toGo
  | .call _ => 4
  | .test => 5
  | .batchEnd => 6
  | .ready | .drained | .returned => 0

/-- How many steps a thread that has caught up and is to stop is away from returning. -/
def ConsumerPc.windRank (rd : Reader SequencedEvent) : ConsumerPc → Nat
  | .ready | .returned => 0
  | .drained => 1
  | .consuming .drain =>
      match rd with
      | .returned (some _) => 5
      | .loaded _ => 3
      | .returned none | .idle | .copy _ | .storeCursor _ _ => 2
  | .call .drain => 4
  | .test => 5
  | .batchEnd => 6
  | .consuming (.batch _) =>
      match rd with
      | .returned (some _) => 10
      | .loaded _ => 8
      | .returned none | .idle | .copy _ | .storeCursor _ _ => 7
  | .call (.batch _) => 9

namespace ConsumerThread

variable {capIn capOut : RingCapacity} {maxConsumers id : Nat} {c : ConsumerThread}
  {q : Sequencer} {handled : List SequencedEvent}

/-- The thread is not kept from going on. -/
structure Able (capIn capOut : RingCapacity) (id : Nat) (c : ConsumerThread) (q : Sequencer)
    (handled : List SequencedEvent) : Prop where
  inv : SequencerInv capIn capOut q
  thread : ThreadInv id c q handled
  poised : Poised id c q
  ready : c.pc ≠ .ready
  short : q.output.published.length < 2 ^ 64

theorem onOutput_of_step {a : RingAction SequencedEvent} {r : BroadcastRing SequencedEvent}
    (h : q.output.step capOut maxConsumers a = some r) :
    q.onOutput capOut maxConsumers a = some { q with output := r } := by
  unfold Sequencer.onOutput
  rw [h]
  rfl

/-- A drain that has found nothing has found everything before. -/
theorem Able.not_exhausted (h : Able capIn capOut id c q handled)
    (hlag : (q.output.consumed id).length < q.output.published.length) : ¬Exhausted id c q := by
  intro hex
  rw [h.thread.exhausted h.short hex] at hlag
  exact Nat.lt_irrefl _ hlag

/-- **A turn of a thread that is behind** brings it closer to its next event, or is the one
that consumes it. -/
theorem Able.catch (h : Able capIn capOut id c q handled)
    (hlag : (q.output.consumed id).length < q.output.published.length) :
    ∃ c' q' out, c.step capIn capOut maxConsumers id q = some (c', q', out)
      ∧ ((q.output.consumed id).length < (q'.output.consumed id).length
        ∨ q'.output.consumed id = q.output.consumed id
          ∧ c'.pc.catchRank (q'.output.readers id) < c.pc.catchRank (q.output.readers id)) := by
  have hlive := h.not_exhausted hlag
  have hid := h.poised.registered h.ready
  unfold ConsumerThread.step
  cases hpc : c.pc with
  | ready => exact absurd hpc h.ready
  | returned | drained =>
      refine absurd ?_ hlive
      unfold Exhausted
      rw [hpc]
      trivial
  | test =>
      refine ⟨_, _, _, rfl, Or.inr ⟨rfl, ?_⟩⟩
      dsimp only
      split <;> (show 4 < 5; omega)
  | call l =>
      obtain ⟨r', hr', hrd⟩ := consume_enabled hid (h.poised.atRest (by rw [hpc]; nofun))
      dsimp only [Sequencer.step]
      rw [onOutput_of_step hr']
      refine ⟨_, _, _, rfl, Or.inr ⟨(consume_spec hr').2.1, ?_⟩⟩
      dsimp only
      rw [hrd]
      show 3 < 4
      omega
  | consuming l =>
      have hidle := h.poised.consuming l hpc
      dsimp only
      cases hres : (q.output.readers id).result? with
      | none =>
          obtain ⟨r', hr', hnext⟩ := (h.inv.ring h.short).read_behind hid hres hidle hlag
          dsimp only [Sequencer.step]
          rw [onOutput_of_step hr']
          refine ⟨_, _, _, rfl, hnext.imp_right fun hcloser => ⟨hcloser.1, ?_⟩⟩
          rw [hpc]
          exact hcloser.2
      | some found =>
          have hto : ConsumerPc.catchRank (q.output.readers id) (.consuming l) = 7 := by
            cases hrd : q.output.readers id with
            | returned out => rfl
            | _ => rw [hrd] at hres; exact nomatch hres
          rw [hto]
          cases found with
          | none =>
              refine ⟨_, _, _, rfl, Or.inr ⟨rfl, ?_⟩⟩
              cases l with
              | batch i => show 6 < 7; omega
              | drain =>
                  refine absurd ?_ hlive
                  unfold Exhausted
                  rw [hpc]
                  exact hres
          | some ev =>
              refine ⟨_, _, _, rfl, Or.inr ⟨rfl, ?_⟩⟩
              cases l with
              | batch i =>
                  rcases ConsumerLoop.next_batch i with hn | ⟨j, hn⟩ <;> (dsimp only; rw [hn])
                  · show 6 < 7; omega
                  · show 4 < 7; omega
              | drain => show 4 < 7; omega
  | batchEnd => exact ⟨_, _, _, rfl, Or.inr ⟨rfl, show 5 < 6 by omega⟩⟩

/-- **A turn of a thread that is to stop** and has nothing left to read brings it closer to
its end. -/
theorem Able.wind (h : Able capIn capOut id c q handled)
    (hcaught : (q.output.consumed id).length = q.output.published.length)
    (hstop : c.running = false) (hback : c.pc ≠ .returned) :
    ∃ c' q' out, c.step capIn capOut maxConsumers id q = some (c', q', out)
      ∧ c'.pc.windRank (q'.output.readers id) < c.pc.windRank (q.output.readers id) := by
  have hid := h.poised.registered h.ready
  unfold ConsumerThread.step
  cases hpc : c.pc with
  | ready => exact absurd hpc h.ready
  | returned => exact absurd hpc hback
  | drained => exact ⟨_, _, _, rfl, show 0 < 1 by omega⟩
  | batchEnd => exact ⟨_, _, _, rfl, show 5 < 6 by omega⟩
  | test =>
      refine ⟨_, _, _, rfl, ?_⟩
      rw [hstop]
      show 4 < 5
      omega
  | call l =>
      obtain ⟨r', hr', hrd⟩ := consume_enabled hid (h.poised.atRest (by rw [hpc]; nofun))
      dsimp only [Sequencer.step]
      rw [onOutput_of_step hr']
      refine ⟨_, _, _, rfl, ?_⟩
      dsimp only
      rw [hrd]
      cases l with
      | batch i => show 8 < 9; omega
      | drain => show 3 < 4; omega
  | consuming l =>
      have hidle := h.poised.consuming l hpc
      dsimp only
      cases hres : (q.output.readers id).result? with
      | none =>
          obtain ⟨⟨read, hloaded⟩, r', hr', hrd⟩ :=
            (h.inv.ring h.short).read_caught_up hid hres hidle hcaught
          dsimp only [Sequencer.step]
          rw [onOutput_of_step hr']
          refine ⟨_, _, _, rfl, ?_⟩
          dsimp only
          rw [hpc, hrd, hloaded]
          cases l with
          | batch i => show 7 < 8; omega
          | drain => show 2 < 3; omega
      | some found =>
          have hrd : q.output.readers id = .returned found := by
            cases hrd : q.output.readers id with
            | returned out => rw [hrd] at hres; cases hres; rfl
            | _ => rw [hrd] at hres; exact nomatch hres
          rw [hrd]
          cases found with
          | none =>
              refine ⟨_, _, _, rfl, ?_⟩
              cases l with
              | batch i => show 6 < 7; omega
              | drain => show 1 < 2; omega
          | some ev =>
              refine ⟨_, _, _, rfl, ?_⟩
              cases l with
              | batch i =>
                  rcases ConsumerLoop.next_batch i with hn | ⟨j, hn⟩ <;> (dsimp only; rw [hn])
                  · show 6 < 10; omega
                  · show 9 < 10; omega
              | drain => show 4 < 5; omega

end ConsumerThread

end HftLob.Pipeline

namespace HftLob.Ring

/-! ## `push` and `pop` -/

variable {T : Type} {cap : RingCapacity} {q : SpscRingBuffer T}

def Producer.toGo : Producer T → Nat
  | .loaded _ _ => 3
  | .storeSlot _ _ => 2
  | .storeHead _ _ => 1
  | .idle | .returned _ => 0

def Consumer.toGo : Consumer T → Nat
  | .loaded _ => 4
  | .copy _ => 3
  | .storeTail _ _ => 2
  | .idle | .returned _ => 1

theorem push_enabled (hrest : q.producer.AtRest) (item : T) :
    ∃ q', q.startPush item = some q' ∧ q'.producer.toGo = 3 := by
  unfold SpscRingBuffer.startPush
  cases hpr : q.producer with
  | idle | returned _ => exact ⟨_, rfl, rfl⟩
  | _ => rw [hpr] at hrest; exact hrest.elim

theorem produce_enabled (hbusy : ¬q.producer.AtRest) :
    ∃ q', q.produce cap = some q' ∧ q'.producer.toGo < q.producer.toGo := by
  unfold SpscRingBuffer.produce
  cases hpr : q.producer with
  | idle | returned _ => rw [hpr] at hbusy; exact absurd trivial hbusy
  | loaded item head =>
      dsimp only
      split
      · exact ⟨_, rfl, show 0 < 3 by omega⟩
      · exact ⟨_, rfl, show 2 < 3 by omega⟩
  | storeSlot item head => exact ⟨_, rfl, show 1 < 2 by omega⟩
  | storeHead item head => exact ⟨_, rfl, show 0 < 1 by omega⟩

theorem pop_enabled (hrest : q.consumer.AtRest) :
    ∃ q', q.step cap .pop = some q' ∧ q'.consumer = .loaded q.tail := by
  dsimp only [SpscRingBuffer.step, SpscRingBuffer.startPop]
  cases hco : q.consumer with
  | idle | returned _ => exact ⟨_, rfl, rfl⟩
  | _ => rw [hco] at hrest; exact hrest.elim

theorem take_enabled (hres : q.consumer.result? = none) (hidle : q.consumer ≠ .idle) :
    ∃ q', q.step cap .consume = some q' ∧ q'.consumer.toGo < q.consumer.toGo := by
  dsimp only [SpscRingBuffer.step, SpscRingBuffer.consume]
  cases hco : q.consumer with
  | idle => exact absurd hco hidle
  | returned out => rw [hco] at hres; exact nomatch hres
  | loaded tail =>
      dsimp only
      split
      · exact ⟨_, rfl, show 1 < 4 by omega⟩
      · exact ⟨_, rfl, show 3 < 4 by omega⟩
  | copy tail => exact ⟨_, rfl, show 2 < 3 by omega⟩
  | storeTail tail out => exact ⟨_, rfl, show 1 < 2 by omega⟩

end HftLob.Ring

namespace HftLob.Engine

open HftLob.Lib HftLob.Ring HftLob.Book

/-! ## The matcher in `push_ack` -/

namespace Sinks

variable {cap : PoolCapacity} {k : Sinks cap}

/-- `apply` is not over: there are acks to push. -/
def Busy (k : Sinks cap) : Prop := ¬(k.phase = .idle ∧ k.rest = [])

def phaseRank (k : Sinks cap) : Nat :=
  match k.phase with
  | .idle => 0
  | .client _ spins => (kMaxSpins + 2 - spins) * 4 + k.acks.producer.toGo + 5
  | .persistence _ => k.fills.producer.toGo + 1

/-- More than any ack takes, with every attempt that `kMaxSpins` allows. -/
def stepsPerAck : Nat := (kMaxSpins + 2) * 4 + 9

/-- How many steps `apply` is away from its end, at most. -/
def pushRank (k : Sinks cap) : Nat := k.rest.length * stepsPerAck + k.phaseRank

theorem pushRank_lt {k k' : Sinks cap} (hrest : k'.rest = k.rest)
    (hphase : k'.phaseRank < k.phaseRank) : k'.pushRank < k.pushRank := by
  unfold pushRank
  rw [hrest]
  omega

/-- At the queue to the clients: an attempt is under way, or its result is known. -/
theorem Poised.client_closer (h : k.Poised) {ack : OutboundAck} {spins : Nat}
    (hphase : k.phase = .client ack spins) :
    ∃ k', k.pushAck = some k' ∧ k'.pushRank < k.pushRank := by
  have hrank : k.phaseRank = (kMaxSpins + 2 - spins) * 4 + k.acks.producer.toGo + 5 := by
    unfold phaseRank
    rw [hphase]
  have hstep : ¬k.acks.producer.AtRest → ∃ k', ((k.acks.produce ackQueue).map fun acks =>
      { k with acks := acks, phase := .client ack spins }) = some k'
        ∧ k'.pushRank < k.pushRank := by
    intro hrest
    obtain ⟨acks, hacks, hto⟩ : ∃ acks, k.acks.produce ackQueue = some acks
      ∧ acks.producer.toGo < k.acks.producer.toGo := produce_enabled hrest
    rw [hacks]
    refine ⟨_, rfl, pushRank_lt rfl ?_⟩
    rw [hrank]
    dsimp only [phaseRank]
    omega
  unfold Sinks.pushAck
  rw [hphase]
  dsimp only
  cases hpr : k.acks.producer with
  | idle => exact absurd hpr (h.client ack spins hphase)
  | loaded item head => exact hstep (by rw [hpr]; exact id)
  | storeSlot item head => exact hstep (by rw [hpr]; exact id)
  | storeHead item head => exact hstep (by rw [hpr]; exact id)
  | returned pushed =>
      rw [hpr] at hrank
      cases pushed with
      | true =>
          obtain ⟨fills, hfills, hto⟩ := push_enabled (h.fills (by rw [hphase]; nofun)) ack
          dsimp only
          rw [hfills]
          refine ⟨_, rfl, pushRank_lt rfl ?_⟩
          rw [hrank]
          dsimp only [phaseRank]
          omega
      | false =>
          dsimp only
          split
          · refine ⟨_, rfl, pushRank_lt rfl ?_⟩
            rw [hrank]
            dsimp only [phaseRank]
            omega
          · -- one attempt less is left, and the next one takes three steps
            rename_i hspins
            obtain ⟨acks, hacks, hto⟩ : ∃ acks, k.acks.startPush ack = some acks
              ∧ acks.producer.toGo = 3 := push_enabled (by rw [hpr]; trivial) ack
            rw [hacks]
            refine ⟨_, rfl, pushRank_lt rfl ?_⟩
            have hzero : (Producer.returned false : Producer OutboundAck).toGo = 0 := rfl
            rw [hrank]
            dsimp only [phaseRank]
            omega

/-- At the queue to the database there is one attempt. -/
theorem Poised.persistence_closer (h : k.Poised) {ack : OutboundAck}
    (hphase : k.phase = .persistence ack) :
    ∃ k', k.pushAck = some k' ∧ k'.pushRank < k.pushRank := by
  have hrank : k.phaseRank = k.fills.producer.toGo + 1 := by
    unfold phaseRank
    rw [hphase]
  have hstep : ¬k.fills.producer.AtRest → ∃ k', ((k.fills.produce ackQueue).map fun fills =>
      { k with fills := fills, phase := .persistence ack }) = some k'
        ∧ k'.pushRank < k.pushRank := by
    intro hrest
    obtain ⟨fills, hfills, hto⟩ : ∃ fills, k.fills.produce ackQueue = some fills
      ∧ fills.producer.toGo < k.fills.producer.toGo := produce_enabled hrest
    rw [hfills]
    refine ⟨_, rfl, pushRank_lt rfl ?_⟩
    rw [hrank]
    dsimp only [phaseRank]
    omega
  unfold Sinks.pushAck
  rw [hphase]
  dsimp only
  cases hpr : k.fills.producer with
  | idle => exact absurd hpr (h.persistence ack hphase)
  | loaded item head => exact hstep (by rw [hpr]; exact id)
  | storeSlot item head => exact hstep (by rw [hpr]; exact id)
  | storeHead item head => exact hstep (by rw [hpr]; exact id)
  | returned pushed =>
      cases pushed <;>
        exact ⟨_, rfl, pushRank_lt rfl (by rw [hrank]; exact Nat.succ_pos _)⟩

/-- **A turn of the matcher in `push_ack`** brings it closer to the end of `apply`, whether or
not anybody takes the acks. -/
theorem Poised.push_closer (h : k.Poised) (hbusy : k.Busy) :
    ∃ k', k.pushAck = some k' ∧ k'.pushRank < k.pushRank := by
  cases hphase : k.phase with
  | idle =>
      unfold Sinks.pushAck
      rw [hphase]
      dsimp only
      cases hrest : k.rest with
      | nil => exact absurd ⟨hphase, hrest⟩ hbusy
      | cons ack rest =>
          obtain ⟨acks, hacks, hto⟩ := push_enabled (h.acks (by rw [hphase]; nofun)) ack
          dsimp only
          rw [hacks]
          refine ⟨_, rfl, ?_⟩
          unfold pushRank phaseRank
          dsimp only
          rw [hphase, hrest, hto, List.length_cons, Nat.succ_mul]
          unfold stepsPerAck
          omega
  | client ack spins => exact h.client_closer hphase
  | persistence ack => exact h.persistence_closer hphase

end Sinks

end HftLob.Engine

namespace HftLob.Pipeline

open HftLob.Lib HftLob.Ring HftLob.Book HftLob.Engine

/-! ## The database in its loop over `fills_` -/

/-- How many steps the loop of a batch is away from its end, at most. -/
def FillsPc.batchRank (consumer : Consumer OutboundAck) : FillsPc → Nat
  | .call i => (kMaxBatch - i) * 6 + 5
  | .popping i => (kMaxBatch - i) * 6 + consumer.toGo
  | .done => 0

/-- The same for the drain, which goes on as long as the queue has something. -/
def FillsPc.drainRank (stored : Nat) (consumer : Consumer OutboundAck) : FillsPc → Nat
  | .call _ => stored * 6 + 5
  | .popping _ =>
      match consumer with
      | .returned (some _) => stored * 6 + 6
      | .loaded _ | .copy _ | .storeTail _ _ | .idle | .returned none =>
          stored * 6 + consumer.toGo
  | .done => 0

namespace Store

variable {cfg : Config} {n : Nat} {s : Store cfg} {due : Bool} {tsNs : UInt64}

theorem onSinks_of_fills {call : Bool} {fillsPc : FillsPc} {fills : SpscRingBuffer OutboundAck}
    (h : s.sinks.fills.step ackQueue (if call then .pop else .consume) = some fills) :
    s.onSinks (.drainFills call) fillsPc
      = some { s with sinks := { s.sinks with fills := fills }, fillsPc := fillsPc } := by
  dsimp only [Store.onSinks, Sinks.step]
  rw [h]
  rfl

/-- **A turn of the database in the loop of a batch** brings it closer to the loop's end. -/
theorem Poised.batch_closer (h : s.Poised) (hat : s.AtFills)
    (hpc : s.process.dbThread.pc = .batchEnd) :
    ∃ s', s.fillsStep n due tsNs = some s'
      ∧ s'.fillsPc.batchRank s'.sinks.fills.consumer
        < s.fillsPc.batchRank s.sinks.fills.consumer := by
  unfold Store.fillsStep
  cases hloop : s.fillsPc with
  | done => exact absurd hloop hat.2
  | call i =>
      obtain ⟨fills, hfills, hloaded⟩ : ∃ fills, s.sinks.fills.step ackQueue .pop = some fills
        ∧ fills.consumer = .loaded s.sinks.fills.tail :=
          pop_enabled (h.atRest (by rw [hloop]; nofun))
      dsimp only
      rw [onSinks_of_fills hfills]
      refine ⟨_, rfl, ?_⟩
      dsimp only [FillsPc.batchRank]
      rw [hloaded]
      dsimp only [Consumer.toGo]
      omega
  | popping i =>
      have hidle := h.popping i hloop
      dsimp only
      cases hres : s.sinks.fills.consumer.result? with
      | none =>
          obtain ⟨fills, hfills, hto⟩ : ∃ fills, s.sinks.fills.step ackQueue .consume = some fills
            ∧ fills.consumer.toGo < s.sinks.fills.consumer.toGo := take_enabled hres hidle
          dsimp only
          rw [onSinks_of_fills hfills]
          refine ⟨_, rfl, ?_⟩
          dsimp only [FillsPc.batchRank]
          omega
      | some found =>
          have hto : s.sinks.fills.consumer.toGo = 1 := by
            cases hco : s.sinks.fills.consumer with
            | returned out => rfl
            | _ => rw [hco] at hres; exact nomatch hres
          cases found with
          | none =>
              refine ⟨_, rfl, ?_⟩
              dsimp only [FillsPc.batchRank]
              omega
          | some ack =>
              refine ⟨_, rfl, ?_⟩
              dsimp only [Store.nextFill]
              rw [hpc]
              split
              · rename_i hmore
                have hmore := hmore.resolve_left nofun
                dsimp only [FillsPc.batchRank]
                omega
              · dsimp only [FillsPc.batchRank]
                omega

/-- A step of a `pop` in the drain; the one that takes an item leaves one less behind. -/
theorem take_drain {q : SpscRingBuffer OutboundAck} (h : SpscInv ackQueue q)
    (hres : q.consumer.result? = none) (hidle : q.consumer ≠ .idle) (i : Nat) :
    ∃ q', q.step ackQueue .consume = some q'
      ∧ (FillsPc.popping i).drainRank q'.stored q'.consumer
        < (FillsPc.popping i).drainRank q.stored q.consumer := by
  have hok := h.consumer
  unfold ConsumerOk at hok
  dsimp only [SpscRingBuffer.step, SpscRingBuffer.consume]
  cases hco : q.consumer with
  | idle => exact absurd hco hidle
  | returned out => rw [hco] at hres; exact nomatch hres
  | loaded tail =>
      dsimp only
      split
      · refine ⟨_, rfl, ?_⟩
        dsimp only [FillsPc.drainRank, SpscRingBuffer.stored, Consumer.toGo]
        omega
      · refine ⟨_, rfl, ?_⟩
        dsimp only [FillsPc.drainRank, SpscRingBuffer.stored, Consumer.toGo]
        omega
  | copy tail =>
      refine ⟨_, rfl, ?_⟩
      dsimp only [FillsPc.drainRank, SpscRingBuffer.stored, Consumer.toGo]
      omega
  | storeTail tail out =>
      rw [hco] at hok
      have hlt := (List.getElem?_eq_some_iff.mp hok.2).1
      refine ⟨_, rfl, ?_⟩
      dsimp only [FillsPc.drainRank, SpscRingBuffer.stored, Consumer.toGo]
      rw [List.length_append, List.length_singleton]
      omega

/-- **A turn of the database in the last drain** brings it closer to the drain's end. -/
theorem Poised.drain_closer (h : s.Poised) (hfills : SpscInv ackQueue s.sinks.fills)
    (hat : s.AtFills) (hpc : s.process.dbThread.pc = .drained) :
    ∃ s', s.fillsStep n due tsNs = some s'
      ∧ s'.fillsPc.drainRank s'.sinks.fills.stored s'.sinks.fills.consumer
        < s.fillsPc.drainRank s.sinks.fills.stored s.sinks.fills.consumer := by
  unfold Store.fillsStep
  cases hloop : s.fillsPc with
  | done => exact absurd hloop hat.2
  | call i =>
      obtain ⟨fills, hpop, hloaded⟩ : ∃ fills, s.sinks.fills.step ackQueue .pop = some fills
        ∧ fills.consumer = .loaded s.sinks.fills.tail :=
          pop_enabled (h.atRest (by rw [hloop]; nofun))
      obtain ⟨hpopped, hpushed, _, _⟩ := pop_spec hpop
      dsimp only
      rw [onSinks_of_fills hpop]
      refine ⟨_, rfl, ?_⟩
      dsimp only [FillsPc.drainRank, SpscRingBuffer.stored]
      rw [hloaded, hpopped, hpushed]
      dsimp only [Consumer.toGo]
      omega
  | popping i =>
      dsimp only
      cases hres : s.sinks.fills.consumer.result? with
      | none =>
          obtain ⟨fills, htake, hlt⟩ := take_drain hfills hres (h.popping i hloop) i
          dsimp only
          rw [onSinks_of_fills htake]
          exact ⟨_, rfl, hlt⟩
      | some found =>
          have hco : s.sinks.fills.consumer = .returned found := by
            cases hco : s.sinks.fills.consumer with
            | returned out => rw [hco] at hres; cases hres; rfl
            | _ => rw [hco] at hres; exact nomatch hres
          rw [hco]
          cases found with
          | none =>
              refine ⟨_, rfl, ?_⟩
              dsimp only [FillsPc.drainRank, Consumer.toGo]
              omega
          | some ack =>
              refine ⟨_, rfl, ?_⟩
              dsimp only [Store.nextFill]
              rw [if_pos (Or.inl hpc), hco]
              dsimp only [FillsPc.drainRank]
              omega

end Store

end HftLob.Pipeline

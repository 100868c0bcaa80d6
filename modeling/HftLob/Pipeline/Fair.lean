import HftLob.Lib.RoundRobin
import HftLob.Pipeline.TotalOrder

/-!
# No producer can monopolize the sequencer

`run` goes over the input queues in a fixed order and takes at most `kMaxBatch` events
from one before it turns to the next. So an event that is in its queue waits for the
events before it in that queue and for a bounded number of the others', however fast the
other producers push and however the threads are interleaved.

The thread is an instance of the library's round robin. Two points of `run` need care. A
turn is over when the load of `head_` finds the queue empty, which is before the thread
acts on it: a push that comes between the two has missed its turn. And an event takes its
place in the stream when it is stamped, which is before the ring has it.
-/

namespace HftLob.Pipeline

open HftLob.Lib HftLob.Ring HftLob.Lib.RoundRobin

variable {capIn capOut : RingCapacity} {maxConsumers : Nat} {s s' : Sequencer}

/-- The place of a producer's queue in `inputs_`. -/
def position : ProducerId → Nat
  | .gateway => 0
  | .feedReplay => 1
  | .admin => 2

/-- `ProducerId::Count`. -/
def producerCount : Nat := 3

def producerAt : Nat → ProducerId
  | 0 => .gateway
  | 1 => .feedReplay
  | _ => .admin

@[simp]
theorem producerAt_position (p : ProducerId) : producerAt (position p) = p := by
  cases p <;> rfl

theorem position_lt (p : ProducerId) : position p < producerCount := by
  cases p <;> decide

theorem position_inj {p p' : ProducerId} : position p = position p' ↔ p = p' :=
  ⟨fun h => by rw [← producerAt_position p, h, producerAt_position], fun h => by rw [h]⟩

namespace Sequencer

/-- Whose turn it is once the thread has acted on what it knows. -/
def turn (s : Sequencer) : Turn :=
  match s.pc with
  | .ready | .test | .returned => ⟨0, 0⟩
  | .pop p i => ⟨position p, i⟩
  | .popping p i =>
      match (s.inputs p).consumer.result? with
      | some none => Turn.pass producerCount ⟨position p, i⟩
      | _ => ⟨position p, i⟩
  | .publishing p i _ => Turn.serve producerCount kMaxBatch ⟨position p, i⟩

def served (s : Sequencer) : List Nat := s.stamped.map fun ev => position ev.producer

def asked (k : Nat) (s : Sequencer) : Nat := (s.inputs (producerAt k)).pushed.length

/-- The counter of the inner loop is within the batch. -/
def InBatch (s : Sequencer) : Prop :=
  match s.pc with
  | .pop _ i | .popping _ i | .publishing _ i _ => i < kMaxBatch
  | .ready | .test | .returned => True

end Sequencer

theorem count_position (events : List SequencedEvent) (p : ProducerId) :
    (events.map fun ev => position ev.producer).count (position p)
      = (events.filter fun ev => ev.producer = p).length := by
  rw [List.count_eq_countP, List.countP_map, List.countP_eq_length_filter]
  congr 1
  refine List.filter_congr fun ev _ => ?_
  simp only [Function.comp_apply, beq_eq_decide, position_inj]

/-! ## The turn -/

theorem turn_afterProducer {p : ProducerId} {i : Nat} (hpc : s.pc = Sequencer.afterProducer p) :
    s.turn = Turn.pass producerCount ⟨position p, i⟩ := by
  unfold Sequencer.turn
  rw [hpc]
  cases p <;> rfl

theorem turn_popping_empty {p : ProducerId} {i : Nat} (hpc : s.pc = .popping p i)
    (hres : (s.inputs p).consumer.result? = some none) :
    s.turn = Turn.pass producerCount ⟨position p, i⟩ := by
  unfold Sequencer.turn
  rw [hpc]
  dsimp only
  rw [hres]

theorem turn_popping {p : ProducerId} {i : Nat} (hpc : s.pc = .popping p i)
    (hres : (s.inputs p).consumer.result? ≠ some none) : s.turn = ⟨position p, i⟩ := by
  unfold Sequencer.turn
  rw [hpc]
  dsimp only
  split
  · exact absurd ‹_› hres
  · rfl

theorem turn_publishing {p : ProducerId} {i : Nat} {ev : SequencedEvent}
    (hpc : s.pc = .publishing p i ev) :
    s.turn = Turn.serve producerCount kMaxBatch ⟨position p, i⟩ := by
  unfold Sequencer.turn
  rw [hpc]

/-- The turn is a matter of the thread and of its calls of `pop`. -/
theorem turn_congr (hpc : s'.pc = s.pc)
    (hcon : ∀ p, (s'.inputs p).consumer = (s.inputs p).consumer) : s'.turn = s.turn := by
  unfold Sequencer.turn
  rw [hpc]
  cases s.pc with
  | popping p i => dsimp only; rw [hcon]
  | _ => rfl

theorem Sequencer.InBatch.turn_ok (h : s.InBatch) : s.turn.Ok producerCount kMaxBatch := by
  have hok : ∀ {p : ProducerId} {i : Nat}, i < kMaxBatch →
      Turn.Ok producerCount kMaxBatch ⟨position p, i⟩ := fun hi => ⟨position_lt _, hi⟩
  have hzero : Turn.Ok producerCount kMaxBatch ⟨0, 0⟩ := ⟨by decide, by decide⟩
  unfold Sequencer.InBatch at h
  unfold Sequencer.turn
  cases hpc : s.pc with
  | ready => exact hzero
  | test => exact hzero
  | returned => exact hzero
  | pop p i => rw [hpc] at h; exact hok h
  | popping p i =>
      rw [hpc] at h
      dsimp only
      split
      · exact (hok h).pass
      · exact hok h
  | publishing p i ev => rw [hpc] at h; exact (hok h).serve

/-! ## One step -/

abbrev SequencerMove (s s' : Sequencer) : Prop :=
  Move producerCount kMaxBatch Sequencer.turn Sequencer.served Sequencer.asked s s'

theorem served_congr (h : s'.stamped = s.stamped) : s'.served = s.served := by
  unfold Sequencer.served
  rw [h]

/-- The producers only add to their queues. -/
theorem move_produce {p : ProducerId} {a : SpscAction SequencedEvent}
    (ha : a = .produce ∨ ∃ item, a = .push item) (hs : s.onInput capIn p a = some s') :
    SequencerMove s s' := by
  obtain ⟨q, hq, rfl⟩ := onInput_eq_some hs
  obtain ⟨_, hconsumer, _⟩ := producer_spec ha hq
  refine .stay (served_congr rfl) (turn_congr rfl fun p' => ?_)
  dsimp only
  by_cases hp : p' = p
  · rw [hp, Function.update_self, hconsumer]
  · rw [Function.update_of_ne hp]

theorem move_observe {a : RingAction SequencedEvent}
    (hs : s.onOutput capOut maxConsumers a = some s')
    (hsame : ∀ r, s.output.step capOut maxConsumers a = some r →
      r.published = s.output.published ∧ r.writer = s.output.writer) : SequencerMove s s' := by
  obtain ⟨r, hr, rfl⟩ := onOutput_eq_some hs
  obtain ⟨hpub, hwr⟩ := hsame r hr
  refine .stay (served_congr ?_) (turn_congr rfl fun _ => rfl)
  unfold Sequencer.stamped Sequencer.inHand
  dsimp only
  rw [hpub, hwr]

theorem move_startPop {p : ProducerId} {i : Nat} (hpc : s.pc = .pop p i)
    (hs : s.onInput capIn p .pop = some s') :
    SequencerMove s { s' with pc := .popping p i } := by
  obtain ⟨q, hq, rfl⟩ := onInput_eq_some hs
  obtain ⟨_, _, _, hres⟩ := pop_spec hq
  have hempty : EmptyHanded s.pc := by rw [hpc]; trivial
  refine .stay (served_congr ?_) ?_
  · rw [stamped_popping rfl, stamped_of_emptyHanded hempty]
  · have hbefore : s.turn = ⟨position p, i⟩ := by
      unfold Sequencer.turn
      rw [hpc]
    rw [hbefore]
    refine turn_popping rfl ?_
    dsimp only
    rw [Function.update_self, hres]
    nofun

/-- A queue that is found empty has no event left that is not stamped. -/
theorem SequencerInv.asked_le_of_empty (h : SequencerInv capIn capOut s) {p : ProducerId} {i : Nat}
    (hpc : s.pc = .popping p i) {q : SpscRingBuffer SequencedEvent}
    (hq : (s.inputs p).step capIn .consume = some q) (hres : q.consumer.result? = some none) :
    s.asked (position p) ≤ s.served.count (position p) := by
  have hnone : q.consumer = .returned none := by
    cases hco : q.consumer with
    | returned out => rw [hco] at hres; rw [Option.some.inj hres]
    | _ => rw [hco] at hres; cases hres
  have hstored : (s.inputs p).pushed.length - (s.inputs p).popped.length = 0 :=
    (h.input p).empty hq hnone
  have hdrained := congrArg List.length (h.drained p)
  rw [justPopped_none hpc fun ev hev => by rw [consume_result hq] at hev; cases hev] at hdrained
  simp only [List.length_map, List.length_append, List.map_nil, List.length_nil,
    Nat.add_zero] at hdrained
  unfold Sequencer.served Sequencer.asked
  rw [count_position, ← hdrained]
  rw [producerAt_position]
  omega

theorem SequencerInv.move_popStep (h : SequencerInv capIn capOut s) {p : ProducerId} {i : Nat}
    (hpc : s.pc = .popping p i) (hs : s.onInput capIn p .consume = some s') :
    SequencerMove s s' := by
  obtain ⟨q, hq, rfl⟩ := onInput_eq_some hs
  have hself : Function.update s.inputs p q p = q := Function.update_self ..
  have hbefore : s.turn = ⟨position p, i⟩ :=
    turn_popping hpc (by rw [consume_result hq]; nofun)
  by_cases hres : q.consumer.result? = some none
  · refine .pass (served_congr rfl) ?_ ?_
    · rw [hbefore]
      refine turn_popping_empty hpc ?_
      dsimp only
      rw [hself, hres]
    · rw [hbefore]
      exact h.asked_le_of_empty hpc hq hres
  · refine .stay (served_congr rfl) ?_
    rw [hbefore]
    refine turn_popping hpc ?_
    dsimp only
    rw [hself]
    exact hres

theorem move_startPublish {p : ProducerId} {i : Nat} {ev : SequencedEvent} {now : Nanos}
    (hpc : s.pc = .popping p i) (hres : (s.inputs p).consumer.result? = some (some ev))
    (hs : s.onOutput capOut maxConsumers (.publish (s.stamp p now ev)) = some s') :
    SequencerMove s
      { s' with nextSeq := s.nextSeq + 1, pc := .publishing p i (s.stamp p now ev) } := by
  have hbefore : s.turn = ⟨position p, i⟩ := turn_popping hpc (by rw [hres]; nofun)
  refine .serve ?_ ?_
  · unfold Sequencer.served
    rw [stamped_startPublish hpc hs, List.map_append, hbefore]
    rfl
  · rw [hbefore]
    exact turn_publishing rfl

theorem SequencerInv.move_runStep (h : SequencerInv capIn capOut s) {now : Nanos}
    (hs : s.runStep capIn capOut maxConsumers now = some s') : SequencerMove s s' := by
  unfold Sequencer.runStep at hs
  cases hpc : s.pc with
  | ready => rw [hpc] at hs; exact absurd hs (by simp)
  | returned => rw [hpc] at hs; exact absurd hs (by simp)
  | test =>
      rw [hpc] at hs
      cases hs
      have hempty : EmptyHanded s.pc := by rw [hpc]; trivial
      refine .stay (served_congr ?_) ?_
      · rw [stamped_of_emptyHanded hempty, stamped_of_emptyHanded]
        cases s.running <;> trivial
      · unfold Sequencer.turn
        rw [hpc]
        cases s.running <;> rfl
  | pop p i =>
      rw [hpc] at hs
      obtain ⟨t, ht, rfl⟩ := Option.map_eq_some_iff.mp hs
      exact move_startPop hpc ht
  | popping p i =>
      rw [hpc] at hs
      dsimp only at hs
      split at hs
      · exact h.move_popStep hpc hs
      · rename_i hres
        cases hs
        refine .stay (served_congr ?_) ?_
        · rw [stamped_popping hpc, stamped_of_emptyHanded (emptyHanded_afterProducer p)]
        · rw [turn_popping_empty hpc hres]
          exact turn_afterProducer rfl
      · obtain ⟨t, ht, rfl⟩ := Option.map_eq_some_iff.mp hs
        exact move_startPublish hpc ‹_› ht
  | publishing p i ev =>
      rw [hpc] at hs
      dsimp only at hs
      split at hs
      · obtain ⟨r, -, he⟩ := onOutput_eq_some hs
        refine .stay (served_congr (h.stamped_write hpc hs)) ?_
        rw [he]
        exact turn_congr rfl fun _ => rfl
      · rename_i hres
        obtain ⟨r, -, he⟩ := onOutput_eq_some hs
        refine .stay (served_congr (stamped_retry hpc hres hs)) ?_
        rw [he]
        exact turn_congr rfl fun _ => rfl
      · rename_i hres
        cases hs
        refine .stay (served_congr ?_) ?_
        · rw [stamped_published hpc hres, stamped_of_emptyHanded]
          split
          · trivial
          · exact emptyHanded_afterProducer p
        · -- the turn was settled when the event was stamped
          rw [turn_publishing hpc]
          unfold Turn.serve
          by_cases hi : i + 1 < kMaxBatch
          · rw [if_pos hi, if_pos hi]
            rfl
          · rw [if_neg hi, if_neg hi]
            exact turn_afterProducer rfl

theorem SequencerInv.move (h : SequencerInv capIn capOut s) {a : SequencerAction}
    (hs : s.step capIn capOut maxConsumers a = some s') : SequencerMove s s' := by
  cases a with
  | register =>
      dsimp only [Sequencer.step] at hs
      split at hs
      · exact move_observe hs fun r hr => ⟨(register_spec hr).1, (register_spec hr).2.1⟩
      · exact absurd hs (by simp)
  | start =>
      dsimp only [Sequencer.step] at hs
      split at hs
      · rename_i hpc
        cases hs
        refine .stay (served_congr ?_) ?_
        · have hempty : EmptyHanded s.pc := by rw [hpc]; trivial
          rw [stamped_of_emptyHanded hempty]
          exact stamped_of_emptyHanded (show EmptyHanded .test from trivial)
        · unfold Sequencer.turn
          rw [hpc]
      · exact absurd hs (by simp)
  | stop =>
      cases hs
      exact .stay (served_congr rfl) (turn_congr rfl fun _ => rfl)
  | push p item => exact move_produce (Or.inr ⟨item, rfl⟩) hs
  | produce p => exact move_produce (Or.inl rfl) hs
  | run now => exact h.move_runStep hs
  | consume id =>
      exact move_observe hs fun r hr => ⟨(consume_spec hr).1.published, (consume_spec hr).1.writer⟩
  | read id =>
      exact move_observe hs fun r hr => ⟨(read_spec hr).1.published, (read_spec hr).1.writer⟩

/-! ## What a step leaves alone -/

theorem spsc_pushed_grows {a : SpscAction SequencedEvent} {q q' : SpscRingBuffer SequencedEvent}
    (hq : q.step capIn a = some q') : q.pushed <+: q'.pushed := by
  cases a with
  | push item => exact (producer_spec (Or.inr ⟨item, rfl⟩) hq).2.2
  | produce => exact (producer_spec (Or.inl rfl) hq).2.2
  | pop => rw [(pop_spec hq).2.1]
  | consume => rw [(consumer_spec hq).1]

/-- The thread and the clients leave each other's part of the state alone. -/
theorem onInput_frame {p : ProducerId} {a : SpscAction SequencedEvent}
    (hs : s.onInput capIn p a = some s') :
    s'.pc = s.pc ∧ ∀ p', (s.inputs p').pushed <+: (s'.inputs p').pushed := by
  obtain ⟨q, hq, rfl⟩ := onInput_eq_some hs
  refine ⟨rfl, fun p' => ?_⟩
  dsimp only
  by_cases hp : p' = p
  · rw [hp, Function.update_self]
    exact spsc_pushed_grows hq
  · rw [Function.update_of_ne hp]

theorem onOutput_frame {a : RingAction SequencedEvent}
    (hs : s.onOutput capOut maxConsumers a = some s') : s'.pc = s.pc ∧ s'.inputs = s.inputs := by
  obtain ⟨r, _, rfl⟩ := onOutput_eq_some hs
  exact ⟨rfl, rfl⟩

theorem Sequencer.InBatch.congr (h : s.InBatch) (hpc : s'.pc = s.pc) : s'.InBatch := by
  unfold Sequencer.InBatch at h ⊢
  rw [hpc]
  exact h

theorem inBatch_afterProducer {p : ProducerId} (hpc : s.pc = Sequencer.afterProducer p) :
    s.InBatch := by
  unfold Sequencer.InBatch
  rw [hpc]
  cases p with
  | gateway => exact Nat.zero_lt_succ _
  | feedReplay => exact Nat.zero_lt_succ _
  | admin => trivial

/-- What a step keeps beside the stream. -/
structure Keeps (s s' : Sequencer) : Prop where
  inBatch : s.InBatch → s'.InBatch
  pushed : ∀ p, (s.inputs p).pushed <+: (s'.inputs p).pushed

theorem keeps_onInput {p : ProducerId} {a : SpscAction SequencedEvent}
    (hs : s.onInput capIn p a = some s') : Keeps s s' :=
  ⟨fun h => h.congr (onInput_frame hs).1, (onInput_frame hs).2⟩

theorem keeps_onOutput {a : RingAction SequencedEvent}
    (hs : s.onOutput capOut maxConsumers a = some s') : Keeps s s' :=
  ⟨fun h => h.congr (onOutput_frame hs).1, fun _ => by rw [(onOutput_frame hs).2]⟩

theorem keeps_runStep {now : Nanos} (hs : s.runStep capIn capOut maxConsumers now = some s') :
    Keeps s s' := by
  unfold Sequencer.runStep at hs
  cases hpc : s.pc with
  | ready => rw [hpc] at hs; exact absurd hs (by simp)
  | returned => rw [hpc] at hs; exact absurd hs (by simp)
  | test =>
      rw [hpc] at hs
      cases hs
      refine ⟨fun _ => ?_, fun _ => List.prefix_rfl⟩
      unfold Sequencer.InBatch
      cases s.running with
      | false => trivial
      | true => exact Nat.zero_lt_succ _
  | pop p i =>
      rw [hpc] at hs
      obtain ⟨t, ht, rfl⟩ := Option.map_eq_some_iff.mp hs
      refine ⟨fun h => ?_, (onInput_frame ht).2⟩
      unfold Sequencer.InBatch at h ⊢
      rw [hpc] at h
      exact h
  | popping p i =>
      rw [hpc] at hs
      dsimp only at hs
      split at hs
      · exact keeps_onInput hs
      · cases hs
        exact ⟨fun _ => inBatch_afterProducer rfl, fun _ => List.prefix_rfl⟩
      · obtain ⟨t, ht, rfl⟩ := Option.map_eq_some_iff.mp hs
        refine ⟨fun h => ?_, (keeps_onOutput ht).pushed⟩
        unfold Sequencer.InBatch at h ⊢
        rw [hpc] at h
        exact h
  | publishing p i ev =>
      rw [hpc] at hs
      dsimp only at hs
      split at hs
      · exact keeps_onOutput hs
      · exact keeps_onOutput hs
      · cases hs
        refine ⟨fun _ => ?_, fun _ => List.prefix_rfl⟩
        by_cases hi : i + 1 < kMaxBatch
        · unfold Sequencer.InBatch
          rw [if_pos hi]
          exact hi
        · rw [if_neg hi]
          exact inBatch_afterProducer rfl

theorem keeps_step {a : SequencerAction} (hs : s.step capIn capOut maxConsumers a = some s') :
    Keeps s s' := by
  cases a with
  | register =>
      dsimp only [Sequencer.step] at hs
      split at hs
      · exact keeps_onOutput hs
      · exact absurd hs (by simp)
  | start =>
      dsimp only [Sequencer.step] at hs
      split at hs
      · cases hs
        exact ⟨fun _ => trivial, fun _ => List.prefix_rfl⟩
      · exact absurd hs (by simp)
  | stop =>
      cases hs
      exact ⟨fun h => h.congr rfl, fun _ => List.prefix_rfl⟩
  | push p item => exact keeps_onInput hs
  | produce p => exact keeps_onInput hs
  | run now => exact keeps_runStep hs
  | consume id => exact keeps_onOutput hs
  | read id => exact keeps_onOutput hs

/-! ## Whole runs -/

/-- The sequencer is a round robin over its input queues. -/
theorem sequencer_serves (capIn capOut : RingCapacity) (maxConsumers : Nat) :
    Serves producerCount kMaxBatch (Sequencer.step capIn capOut maxConsumers)
      (fun s => SequencerInv capIn capOut s ∧ s.InBatch) Sequencer.turn Sequencer.served
      Sequencer.asked where
  keeps := fun h hs => ⟨sequencerInv_step h.1 hs, (keeps_step hs).inBatch h.2⟩
  turn_ok := fun h => h.2.turn_ok
  asked_le := fun _ hs k => ((keeps_step hs).pushed (producerAt k)).length_le
  moves := fun h hs => h.1.move hs

theorem sequencer_inBatch {buffers : ProducerId → Nat → SequencedEvent}
    {slots : Nat → SequencedEvent} {actions : List SequencerAction}
    (hrun : Machine.exec (Sequencer.step capIn capOut maxConsumers) (Sequencer.init buffers slots)
      actions = some s) : s.InBatch := by
  have hinit : (Sequencer.init buffers slots).InBatch := trivial
  exact Machine.exec_preserves (fun _ _ _ h hs => (keeps_step hs).inBatch h) actions _ s hinit hrun

theorem exec_pushed_grows {actions : List SequencerAction}
    (hrun : Machine.exec (Sequencer.step capIn capOut maxConsumers) s actions = some s')
    (p : ProducerId) : (s.inputs p).pushed <+: (s'.inputs p).pushed :=
  Machine.exec_preserves (I := fun t => (s.inputs p).pushed <+: (t.inputs p).pushed)
    (fun _ _ _ h hs => h.trans ((keeps_step hs).pushed p)) actions s s' List.prefix_rfl hrun

/-- The events of `p` in the stream so far. -/
def Sequencer.streamOf (s : Sequencer) (p : ProducerId) : List SequencedEvent :=
  s.stamped.filter fun ev => ev.producer = p

/-- How long the stream is, at most, once it has the event with `k` events of its own
producer still before it. -/
def Sequencer.due (s : Sequencer) (k : Nat) : Nat :=
  s.stamped.length + k + 1 + 2 * kMaxBatch * (k / kMaxBatch + 1)

/-- The events of `p` among the first `N` published are the first it pushed. -/
theorem SequencerInv.getElem?_take (h : SequencerInv capIn capOut s) {p : ProducerId} {N m : Nat}
    (hm : m < ((s.output.published.take N).filter fun ev => ev.producer = p).length) :
    ∃ ev, ((s.output.published.take N).filter fun ev => ev.producer = p)[m]? = some ev
      ∧ (s.inputs p).pushed[m]?.map payload = some (payload ev) := by
  refine ⟨_, List.getElem?_eq_getElem hm, ?_⟩
  have hprefix : ((s.output.published.take N).filter fun ev => ev.producer = p).map payload
      <+: (s.inputs p).pushed.map payload :=
    (((List.take_prefix N _).filter _).map _).trans (h.perProducer p)
  have hlt : m < (((s.output.published.take N).filter
      fun ev => ev.producer = p).map payload).length := by
    rw [List.length_map]
    exact hm
  rw [← List.getElem?_map, List.prefix_iff_getElem?.mp hprefix m hlt, List.getElem_map]

/-- **No producer can monopolize the sequencer**: the event number `m` that `p` has pushed,
with `k` events of `p` still before it, is among the first `due k` of the stream, in every
interleaving from then on. What the other producers push before or after it does not
matter. -/
theorem pushed_event_published_within (capIn capOut : RingCapacity) (maxConsumers : Nat)
    (buffers : ProducerId → Nat → SequencedEvent) (slots : Nat → SequencedEvent)
    (before after : List SequencerAction) (s t : Sequencer)
    (hs : Machine.exec (Sequencer.step capIn capOut maxConsumers) (Sequencer.init buffers slots)
      before = some s)
    (ht : Machine.exec (Sequencer.step capIn capOut maxConsumers) s after = some t)
    (p : ProducerId) (m : Nat) (hm : m < (s.inputs p).pushed.length)
    (hwaits : (s.streamOf p).length ≤ m)
    (hlong : s.due (m - (s.streamOf p).length) ≤ t.output.published.length) :
    ∃ ev, ((t.output.published.take (s.due (m - (s.streamOf p).length))).filter
        fun ev => ev.producer = p)[m]? = some ev
      ∧ (s.inputs p).pushed[m]?.map payload = some (payload ev) := by
  have hinv := sequencerInv_exec buffers slots before hs
  have hinv' := Machine.exec_preserves (fun _ _ _ => sequencerInv_step) after s t hinv ht
  have hcount : s.served.count (position p) = (s.streamOf p).length := count_position s.stamped p
  generalize hN : s.due (m - (s.streamOf p).length) = N at hlong ⊢
  -- the library's bound, on the stream of stamped events
  have hserved : m < (t.served.take N).count (position p) := by
    refine (sequencer_serves capIn capOut maxConsumers).bounded (position_lt p) (by decide)
      ⟨hinv, sequencer_inBatch hs⟩ ?_ ht ?_ ?_ ?_
    · unfold Sequencer.asked
      rw [producerAt_position]
      exact hm
    · rw [hcount]
      exact hwaits
    · rw [hcount, ← hN, Sequencer.served, List.length_map]
      rfl
    · rw [Sequencer.served, List.length_map, Sequencer.stamped, List.length_append]
      omega
  -- its first `N` events are published
  have htake : t.stamped.take N = t.output.published.take N := by
    rw [Sequencer.stamped, List.take_append_of_le_length hlong]
  have hlt : m < ((t.output.published.take N).filter fun ev => ev.producer = p).length := by
    rw [← htake]
    rw [Sequencer.served, ← List.map_take, count_position] at hserved
    exact hserved
  obtain ⟨ev, hev, hpayload⟩ := hinv'.getElem?_take hlt
  refine ⟨ev, hev, ?_⟩
  rw [← hpayload, List.prefix_iff_getElem?.mp (exec_pushed_grows ht p) m hm,
    List.getElem?_eq_getElem hm]

/-- The gateway's queue holds 64 events and the replay's one when the thread starts: the
one comes after the gateway's first batch, within the 65 events of the bound. -/
theorem pushed_event_published_within_busy_gateway :
    let cap : RingCapacity := ⟨7, by decide⟩
    let push (p : ProducerId) : List SequencerAction :=
      [.push p { clientOrderId := 6 }, .produce p, .produce p, .produce p]
    let before := (List.replicate 64 (push .gateway)).flatten ++ push .feedReplay ++ [.start]
    let after := List.replicate 850 (SequencerAction.run 100)
    ∃ s t, Machine.exec (Sequencer.step cap cap 8) (Sequencer.init (fun _ _ => {}) (fun _ => {}))
        before = some s
      ∧ Machine.exec (Sequencer.step cap cap 8) s after = some t
      ∧ (s.inputs .gateway).pushed.length = 64 ∧ s.due 0 = 65
      ∧ t.output.published[32]?.map (fun ev => ev.producer) = some .feedReplay
      ∧ ∃ ev, ((t.output.published.take 65).filter fun ev => ev.producer = .feedReplay)[0]?
          = some ev
        ∧ (s.inputs .feedReplay).pushed[0]?.map payload = some (payload ev) := by
  intro cap push before after
  have heval : ((Machine.exec (Sequencer.step cap cap 8)
      (Sequencer.init (fun _ _ => {}) (fun _ => {})) before).bind fun s =>
        (Machine.exec (Sequencer.step cap cap 8) s after).map fun t =>
          ((s.inputs .gateway).pushed.length, (s.inputs .feedReplay).pushed.length,
            s.stamped.length, t.output.published.length,
            t.output.published[32]?.map fun ev => ev.producer))
      = some (64, 1, 0, 65, some .feedReplay) := by
    decide +kernel
  obtain ⟨s, hs, heval⟩ := Option.bind_eq_some_iff.mp heval
  obtain ⟨t, ht, heval⟩ := Option.map_eq_some_iff.mp heval
  simp only [Prod.mk.injEq] at heval
  obtain ⟨hgateway, hreplay, hstamped, hpublished, hat⟩ := heval
  have hnone : (s.streamOf .feedReplay).length = 0 := by
    have hle : (s.streamOf .feedReplay).length ≤ s.stamped.length := List.length_filter_le _ _
    omega
  have hdue : s.due 0 = 65 := by
    unfold Sequencer.due
    rw [hstamped]
    rfl
  have h := pushed_event_published_within cap cap 8 (fun _ _ => {}) (fun _ => {}) before after s t
    hs ht .feedReplay 0 (by omega) (Nat.le_of_eq hnone) (by rw [Nat.zero_sub]; omega)
  rw [Nat.zero_sub, hdue] at h
  exact ⟨s, t, hs, ht, hgateway, hdue, hat, h⟩

end HftLob.Pipeline

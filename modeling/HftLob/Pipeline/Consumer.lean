import HftLob.Pipeline.TotalOrder

/-!
# The threads of the consumers

The matcher, the write-ahead log and the database run the same loop: batches of at most
32 events while `running_` is set, then a drain until the ring has nothing more. They
differ in what they do with an event, after a batch, and after the drain, which is what
a step reports as its outcome.

`ThreadInv` is the contract of the drain. It may stop at the first `try_consume` that
finds nothing only because the sequencer has returned by then, as the comment on `stop`
demands.
-/

namespace HftLob.Pipeline

open HftLob.Lib HftLob.Ring

/-- Which of its two loops a consumer is in. -/
inductive ConsumerLoop where
  | batch (i : Nat)
  | drain
  deriving DecidableEq

/-- Where a consumer's thread is in `run`. -/
inductive ConsumerPc where
  /-- Not started. -/
  | ready
  /-- At the condition of the outer loop. -/
  | test
  /-- About to call `try_consume`. -/
  | call (l : ConsumerLoop)
  | consuming (l : ConsumerLoop)
  | batchEnd
  | drained
  /-- `run` has returned. -/
  | returned
  deriving DecidableEq

structure ConsumerThread where
  running : Bool
  pc : ConsumerPc

inductive Outcome where
  | quiet
  | event (ev : SequencedEvent)
  | batchEnd
  | drained

namespace ConsumerLoop

/-- Where the thread goes when it has dealt with an event. -/
def next : ConsumerLoop → ConsumerPc
  | .batch i => if i + 1 < kMaxBatch then .call (.batch (i + 1)) else .batchEnd
  | .drain => .call .drain

theorem next_batch (i : Nat) :
    next (.batch i) = .batchEnd ∨ ∃ j, next (.batch i) = .call (.batch j) := by
  by_cases h : i + 1 < kMaxBatch
  · exact Or.inr ⟨i + 1, if_pos h⟩
  · exact Or.inl (if_neg h)

/-- Where the thread goes when `try_consume` finds nothing. -/
def done : ConsumerLoop → ConsumerPc
  | .batch _ => .batchEnd
  | .drain => .drained

end ConsumerLoop

namespace ConsumerThread

def init : ConsumerThread := ⟨false, .ready⟩

def start (c : ConsumerThread) : Option ConsumerThread :=
  if c.pc = .ready then some ⟨true, .test⟩ else none

/-- The store to `running_` in `stop`. -/
def stop (c : ConsumerThread) : ConsumerThread := { c with running := false }

/-- The next step of the thread of the consumer `id`. -/
def step (capIn capOut : RingCapacity) (maxConsumers id : Nat) (c : ConsumerThread)
    (s : Sequencer) : Option (ConsumerThread × Sequencer × Outcome) :=
  match c.pc with
  | .ready | .returned => none
  | .test =>
      some ({ c with pc := if c.running then .call (.batch 0) else .call .drain }, s, .quiet)
  | .call l =>
      (s.step capIn capOut maxConsumers (.consume id)).map fun s' =>
        ({ c with pc := .consuming l }, s', .quiet)
  | .consuming l =>
      match (s.output.readers id).result? with
      | none =>
          (s.step capIn capOut maxConsumers (.read id)).map fun s' => (c, s', .quiet)
      -- `try_consume` returned false
      | some none => some ({ c with pc := l.done }, s, .quiet)
      | some (some ev) => some ({ c with pc := l.next }, s, .event ev)
  | .batchEnd => some ({ c with pc := .test }, s, .batchEnd)
  | .drained => some ({ c with pc := .returned }, s, .drained)

/-- The event that is consumed and not yet dealt with. -/
def pending (id : Nat) (c : ConsumerThread) (s : Sequencer) : List SequencedEvent :=
  match c.pc with
  | .consuming _ =>
      match (s.output.readers id).result? with
      | some (some ev) => [ev]
      | _ => []
  | _ => []

end ConsumerThread

/-- The thread has seen that it is to stop. -/
def Draining : ConsumerPc → Prop
  | .call .drain | .consuming .drain | .drained | .returned => True
  | .ready | .test | .call (.batch _) | .consuming (.batch _) | .batchEnd => False

/-- The drain has found nothing more. -/
def Exhausted (id : Nat) (c : ConsumerThread) (s : Sequencer) : Prop :=
  match c.pc with
  | .consuming .drain => (s.output.readers id).result? = some none
  | .drained | .returned => True
  | _ => False

theorem Exhausted.draining {id : Nat} {c : ConsumerThread} {s : Sequencer}
    (h : Exhausted id c s) : Draining c.pc := by
  unfold Exhausted at h
  cases hpc : c.pc with
  | drained => trivial
  | returned => trivial
  | consuming l =>
      cases l with
      | drain => trivial
      | batch i => rw [hpc] at h; exact h.elim
  | _ => rw [hpc] at h; exact h.elim

/-- The consumer `id` has dealt with the events `handled`. -/
structure ThreadInv (id : Nat) (c : ConsumerThread) (s : Sequencer)
    (handled : List SequencedEvent) : Prop where
  flow : s.output.consumed id = handled ++ c.pending id s
  stopped : c.running = false → c.pc = .ready ∨ s.pc = .returned
  draining : Draining c.pc → s.pc = .returned
  exhausted : s.output.published.length < 2 ^ 64 → Exhausted id c s →
    s.output.consumed id = s.output.published

theorem threadInv_init (id : Nat) (buffers : ProducerId → Nat → SequencedEvent)
    (slots : Nat → SequencedEvent) :
    ThreadInv id ConsumerThread.init (Sequencer.init buffers slots) [] where
  flow := rfl
  stopped := fun _ => Or.inl rfl
  draining := fun hd => hd.elim
  exhausted := fun _ hex => hex.elim

section Frame

variable {capIn capOut : RingCapacity} {maxConsumers id : Nat} {c : ConsumerThread}
  {s s' : Sequencer} {handled : List SequencedEvent}

/-- When `run` has returned, nothing is published any more. -/
theorem step_returned {a : SequencerAction}
    (hs : s.step capIn capOut maxConsumers a = some s') (hpc : s.pc = .returned) :
    s'.pc = .returned ∧ s'.output.published = s.output.published := by
  cases a with
  | register =>
      dsimp only [Sequencer.step] at hs
      rw [hpc] at hs
      exact absurd hs (by simp)
  | start =>
      dsimp only [Sequencer.step] at hs
      rw [hpc] at hs
      exact absurd hs (by simp)
  -- the gateway may still push: its queue is not the ring
  | stop => cases hs; exact ⟨hpc, rfl⟩
  | push p item => obtain ⟨q, _, rfl⟩ := onInput_eq_some hs; exact ⟨hpc, rfl⟩
  | produce p => obtain ⟨q, _, rfl⟩ := onInput_eq_some hs; exact ⟨hpc, rfl⟩
  | run now =>
      dsimp only [Sequencer.step, Sequencer.runStep] at hs
      rw [hpc] at hs
      exact absurd hs (by simp)
  | consume id =>
      obtain ⟨r, hr, rfl⟩ := onOutput_eq_some hs
      exact ⟨hpc, (consume_spec hr).1.published⟩
  | read id =>
      obtain ⟨r, hr, rfl⟩ := onOutput_eq_some hs
      exact ⟨hpc, (read_spec hr).1.published⟩

/-- The sequencer's thread writes to the ring only. -/
theorem runStep_observed {now : Nanos}
    (hs : s.runStep capIn capOut maxConsumers now = some s') :
    s'.output.consumed = s.output.consumed ∧ s'.output.readers = s.output.readers := by
  unfold Sequencer.runStep at hs
  cases hpc : s.pc with
  | ready => rw [hpc] at hs; exact absurd hs (by simp)
  | returned => rw [hpc] at hs; exact absurd hs (by simp)
  | test => rw [hpc] at hs; cases hs; exact ⟨rfl, rfl⟩
  | pop p i =>
      rw [hpc] at hs
      obtain ⟨t, ht, rfl⟩ := Option.map_eq_some_iff.mp hs
      obtain ⟨q, _, rfl⟩ := onInput_eq_some ht
      exact ⟨rfl, rfl⟩
  | popping p i =>
      rw [hpc] at hs
      dsimp only at hs
      split at hs
      · obtain ⟨q, _, rfl⟩ := onInput_eq_some hs
        exact ⟨rfl, rfl⟩
      · cases hs
        exact ⟨rfl, rfl⟩
      · obtain ⟨t, ht, rfl⟩ := Option.map_eq_some_iff.mp hs
        obtain ⟨r, hr, rfl⟩ := onOutput_eq_some ht
        exact ⟨(publish_spec hr).2.2.2.1, (publish_spec hr).2.2.2.2⟩
  | publishing p i ev =>
      rw [hpc] at hs
      dsimp only at hs
      split at hs
      · obtain ⟨r, hr, rfl⟩ := onOutput_eq_some hs
        exact ⟨(write_spec hr).1, (write_spec hr).2.1⟩
      · obtain ⟨r, hr, rfl⟩ := onOutput_eq_some hs
        exact ⟨(publish_spec hr).2.2.2.1, (publish_spec hr).2.2.2.2⟩
      · cases hs
        exact ⟨rfl, rfl⟩

/-- A step that is not the consumer's leaves its calls alone. -/
theorem step_other {a : SequencerAction} (hs : s.step capIn capOut maxConsumers a = some s')
    (hconsume : a ≠ .consume id) (hread : a ≠ .read id) :
    s'.output.consumed id = s.output.consumed id
      ∧ s'.output.readers id = s.output.readers id := by
  cases a with
  | register =>
      dsimp only [Sequencer.step] at hs
      split at hs
      · obtain ⟨r, hr, rfl⟩ := onOutput_eq_some hs
        exact ⟨congrFun (register_spec hr).2.2.1 id, congrFun (register_spec hr).2.2.2 id⟩
      · exact absurd hs (by simp)
  | start =>
      dsimp only [Sequencer.step] at hs
      split at hs
      · cases hs
        exact ⟨rfl, rfl⟩
      · exact absurd hs (by simp)
  | stop => cases hs; exact ⟨rfl, rfl⟩
  | push p item => obtain ⟨q, _, rfl⟩ := onInput_eq_some hs; exact ⟨rfl, rfl⟩
  | produce p => obtain ⟨q, _, rfl⟩ := onInput_eq_some hs; exact ⟨rfl, rfl⟩
  | run now => exact ⟨congrFun (runStep_observed hs).1 id, congrFun (runStep_observed hs).2 id⟩
  | consume id' =>
      obtain ⟨r, hr, rfl⟩ := onOutput_eq_some hs
      have hne : id ≠ id' := fun he => hconsume (by rw [he])
      exact ⟨(consume_spec hr).1.consumed id hne, (consume_spec hr).1.readers id hne⟩
  | read id' =>
      obtain ⟨r, hr, rfl⟩ := onOutput_eq_some hs
      have hne : id ≠ id' := fun he => hread (by rw [he])
      exact ⟨(read_spec hr).1.consumed id hne, (read_spec hr).1.readers id hne⟩

/-- What the sequencer does in a step of someone other than the consumer `id`. -/
def Quiet (capIn capOut : RingCapacity) (maxConsumers id : Nat) (s s' : Sequencer) : Prop :=
  s' = s ∨ ∃ a, s.step capIn capOut maxConsumers a = some s' ∧ a ≠ .consume id ∧ a ≠ .read id

/-- Others' steps do not break a consumer's contract: they publish nothing once it drains. -/
theorem ThreadInv.frame (h : ThreadInv id c s handled)
    (hq : Quiet capIn capOut maxConsumers id s s') : ThreadInv id c s' handled := by
  rcases hq with rfl | ⟨a, hs, hconsume, hread⟩
  · exact h
  obtain ⟨hconsumed, hreader⟩ := step_other hs hconsume hread
  have hpending : c.pending id s' = c.pending id s := by
    unfold ConsumerThread.pending
    rw [hreader]
  have hstays : s.pc = .returned → s'.pc = .returned := fun hpc => (step_returned hs hpc).1
  refine ⟨by rw [hconsumed, hpending]; exact h.flow, ?_, fun hd => hstays (h.draining hd), ?_⟩
  · intro hstop
    exact (h.stopped hstop).imp_right hstays
  · intro hlen hex
    have hex : Exhausted id c s := by
      unfold Exhausted at hex ⊢
      rwa [hreader] at hex
    -- a thread drains only after `run` has returned, so the stream it emptied is final
    obtain ⟨_, hpub⟩ := step_returned hs (h.draining hex.draining)
    rw [hpub] at hlen ⊢
    rw [hconsumed]
    exact h.exhausted hlen hex

end Frame

/-! ## The thread's own steps -/

def Outcome.events : Outcome → List SequencedEvent
  | .event ev => [ev]
  | .quiet | .batchEnd | .drained => []

section Own

variable {capIn capOut : RingCapacity} {maxConsumers id : Nat} {c c' : ConsumerThread}
  {s s' : Sequencer} {handled : List SequencedEvent}

theorem pending_of_result_none {l : ConsumerLoop} (hpc : c.pc = .consuming l)
    (hres : ∀ ev, (s.output.readers id).result? ≠ some (some ev)) : c.pending id s = [] := by
  unfold ConsumerThread.pending
  rw [hpc]
  dsimp only
  split
  · rename_i ev hev
    exact absurd hev (hres ev)
  · rfl

theorem pending_of_not_consuming (hpc : ∀ l, c.pc ≠ .consuming l) : c.pending id s = [] := by
  unfold ConsumerThread.pending
  split
  · rename_i l hl
    exact absurd hl (hpc l)
  · rfl

/-- The ring did not move, and nothing the thread holds is lost. -/
theorem ThreadInv.goto (h : ThreadInv id c s handled) {pc : ConsumerPc}
    {more : List SequencedEvent} (hready : c.pc ≠ .ready) (hnot : ∀ l, pc ≠ .consuming l)
    (hpending : c.pending id s = more) (hdrain : Draining pc → s.pc = .returned)
    (hexhausted : Exhausted id { c with pc := pc } s → Exhausted id c s) :
    ThreadInv id { c with pc := pc } s (handled ++ more) where
  flow := by rw [h.flow, hpending, pending_of_not_consuming hnot, List.append_nil]
  stopped := fun hstop => Or.inr ((h.stopped hstop).resolve_left hready)
  draining := hdrain
  exhausted := fun hlen hex => h.exhausted hlen (hexhausted hex)

theorem ThreadInv.startConsume (h : ThreadInv id c s handled) {l : ConsumerLoop}
    (hpc : c.pc = .call l) (hs : s.onOutput capOut maxConsumers (.consume id) = some s') :
    ThreadInv id { c with pc := .consuming l } s' handled := by
  obtain ⟨r, hr, rfl⟩ := onOutput_eq_some hs
  obtain ⟨_, hconsumed, hres⟩ := consume_spec hr
  have hbefore : c.pending id s = [] :=
    pending_of_not_consuming (by rw [hpc]; intro l' he; cases he)
  refine ⟨?_, ?_, ?_, ?_⟩
  · have hafter : ConsumerThread.pending id { c with pc := .consuming l }
        { s with output := r } = [] :=
      pending_of_result_none rfl fun ev hev => by
        dsimp only at hev
        rw [hres] at hev
        cases hev
    rw [hafter]
    dsimp only
    rw [hconsumed, h.flow, hbefore]
  · intro hstop
    exact Or.inr ((h.stopped hstop).resolve_left (by rw [hpc]; intro he; cases he))
  · intro hd
    refine h.draining ?_
    rw [hpc]
    cases l with
    | batch i => exact hd
    | drain => trivial
  · intro _ hex
    unfold Exhausted at hex
    cases l with
    | batch i => exact hex.elim
    | drain =>
        dsimp only at hex
        rw [hres] at hex
        cases hex

theorem ThreadInv.consumeStep (h : ThreadInv id c s handled) (hinv : SequencerInv capIn capOut s)
    {l : ConsumerLoop} (hpc : c.pc = .consuming l)
    (hs : s.onOutput capOut maxConsumers (.read id) = some s') : ThreadInv id c s' handled := by
  obtain ⟨r, hr, rfl⟩ := onOutput_eq_some hs
  obtain ⟨hframe, hres, hspec⟩ := read_spec hr
  have hbefore : c.pending id s = [] := pending_of_result_none hpc fun ev hev => by
    rw [hres] at hev
    cases hev
  have hflow := h.flow
  rw [hbefore, List.append_nil] at hflow
  refine ⟨?_, h.stopped, h.draining, ?_⟩
  · dsimp only
    rcases hspec with ⟨hconsumed, hgo⟩ | ⟨out, hconsumed, hout⟩
    · have hafter : c.pending id { s with output := r } = [] := by
        refine pending_of_result_none hpc fun ev hev => ?_
        dsimp only at hev
        rcases hgo with hgo | ⟨read, _, _, hnone⟩
        · rw [hgo] at hev
          cases hev
        · rw [hnone] at hev
          cases hev
      rw [hafter, List.append_nil, hconsumed, hflow]
    · have hafter : c.pending id { s with output := r } = [out] := by
        unfold ConsumerThread.pending
        dsimp only
        rw [hpc, hout]
        rfl
      rw [hafter, hconsumed, hflow]
  · intro hlen hex
    unfold Exhausted at hex
    rw [hpc] at hex
    dsimp only at hlen ⊢
    cases l with
    | batch i => exact hex.elim
    | drain =>
        dsimp only at hex
        rcases hspec with ⟨hconsumed, hgo | ⟨read, hloaded, hge, hnone⟩⟩ | ⟨out, _, hout⟩
        · rw [hgo] at hex
          cases hex
        · -- the call that found nothing compared with the cursor of the whole stream
          rw [hframe.published] at hlen
          rw [hconsumed, hframe.published]
          exact (hinv.ring hlen).caught_up hloaded hge
        · rw [hout] at hex
          cases hex

/-- `try_consume` has found nothing. -/
theorem ThreadInv.consumedNone (h : ThreadInv id c s handled) {l : ConsumerLoop}
    (hpc : c.pc = .consuming l) (hres : (s.output.readers id).result? = some none) :
    ThreadInv id { c with pc := l.done } s (handled ++ []) := by
  have hready : c.pc ≠ .ready := by rw [hpc]; intro he; cases he
  have hpending : c.pending id s = [] := pending_of_result_none hpc fun ev hev => by
    rw [hres] at hev
    cases hev
  refine h.goto hready ?_ hpending ?_ ?_
  · cases l <;> (intro l' he; cases he)
  · cases l with
    | batch i => intro hd; exact hd.elim
    | drain => intro _; exact h.draining (by rw [hpc]; trivial)
  · cases l with
    | batch i => intro hex; exact hex.elim
    | drain =>
        intro _
        unfold Exhausted
        rw [hpc]
        exact hres

/-- `try_consume` has returned an event, which is dealt with. -/
theorem ThreadInv.consumedSome (h : ThreadInv id c s handled) {l : ConsumerLoop}
    (hpc : c.pc = .consuming l) {ev : SequencedEvent}
    (hres : (s.output.readers id).result? = some (some ev)) :
    ThreadInv id { c with pc := l.next } s (handled ++ [ev]) := by
  have hready : c.pc ≠ .ready := by rw [hpc]; intro he; cases he
  have hpending : c.pending id s = [ev] := by
    unfold ConsumerThread.pending
    rw [hpc]
    dsimp only
    rw [hres]
  -- both loops go back to the call; the batch also counts to `kMaxBatch`
  cases l with
  | batch i =>
      rcases ConsumerLoop.next_batch i with hnext | ⟨j, hnext⟩
      all_goals
        rw [hnext]
        exact h.goto hready (by intro l he; cases he) hpending (fun hd => hd.elim)
          (fun hex => hex.elim)
  | drain =>
      exact h.goto hready (by intro l he; cases he) hpending
        (fun _ => h.draining (by rw [hpc]; trivial)) (fun hex => hex.elim)

/-- **One step of a consumer's thread** deals with the event it reports, and with no other. -/
theorem ThreadInv.step (h : ThreadInv id c s handled) (hinv : SequencerInv capIn capOut s)
    {out : Outcome} (hs : c.step capIn capOut maxConsumers id s = some (c', s', out)) :
    ThreadInv id c' s' (handled ++ out.events) := by
  unfold ConsumerThread.step at hs
  cases hpc : c.pc with
  | ready => rw [hpc] at hs; exact absurd hs (by simp)
  | returned => rw [hpc] at hs; exact absurd hs (by simp)
  | test =>
      rw [hpc] at hs
      cases hs
      have hready : c.pc ≠ .ready := by rw [hpc]; intro he; cases he
      refine h.goto hready (by intro l; split <;> (intro he; cases he))
        (pending_of_not_consuming (by rw [hpc]; intro l he; cases he)) ?_ ?_
      · -- `main` clears `running_` only after it has joined the sequencer
        cases hrun : c.running with
        | true => intro hd; exact hd.elim
        | false => exact fun _ => (h.stopped hrun).resolve_left hready
      · cases c.running <;> (intro hex; exact hex.elim)
  | call l =>
      rw [hpc] at hs
      obtain ⟨t, ht, he⟩ := Option.map_eq_some_iff.mp hs
      cases he
      rw [Outcome.events, List.append_nil]
      exact h.startConsume hpc ht
  | consuming l =>
      rw [hpc] at hs
      dsimp only at hs
      split at hs
      · -- inside `try_consume`
        obtain ⟨t, ht, he⟩ := Option.map_eq_some_iff.mp hs
        cases he
        rw [Outcome.events, List.append_nil]
        exact h.consumeStep hinv hpc ht
      · rename_i hres
        cases hs
        exact h.consumedNone hpc hres
      · rename_i ev hres
        cases hs
        exact h.consumedSome hpc hres
  | batchEnd =>
      rw [hpc] at hs
      cases hs
      exact h.goto (by rw [hpc]; intro he; cases he) (by intro l he; cases he)
        (pending_of_not_consuming (by rw [hpc]; intro l he; cases he)) (fun hd => hd.elim)
        (fun hex => hex.elim)
  | drained =>
      rw [hpc] at hs
      cases hs
      refine h.goto (by rw [hpc]; intro he; cases he) (by intro l he; cases he)
        (pending_of_not_consuming (by rw [hpc]; intro l he; cases he))
        (fun _ => h.draining (by rw [hpc]; trivial)) (fun _ => ?_)
      unfold Exhausted
      rw [hpc]
      trivial

/-- The sequencer's part of a consumer's step. -/
theorem ConsumerThread.step_sequencer {out : Outcome}
    (hs : c.step capIn capOut maxConsumers id s = some (c', s', out)) :
    s' = s ∨ ∃ a, s.step capIn capOut maxConsumers a = some s'
      ∧ (a = .consume id ∨ a = .read id) := by
  unfold ConsumerThread.step at hs
  split at hs
  · exact absurd hs (by simp)
  · exact absurd hs (by simp)
  · cases hs; exact Or.inl rfl
  · obtain ⟨t, ht, he⟩ := Option.map_eq_some_iff.mp hs
    cases he
    exact Or.inr ⟨_, ht, Or.inl rfl⟩
  · split at hs
    · obtain ⟨t, ht, he⟩ := Option.map_eq_some_iff.mp hs
      cases he
      exact Or.inr ⟨_, ht, Or.inr rfl⟩
    · cases hs; exact Or.inl rfl
    · cases hs; exact Or.inl rfl
  · cases hs; exact Or.inl rfl
  · cases hs; exact Or.inl rfl

end Own

/-! ## What the main thread and the other consumers see of it -/

section Seen

variable {capIn capOut : RingCapacity} {maxConsumers id id' : Nat} {c c' : ConsumerThread}
  {q q' : Sequencer} {handled : List SequencedEvent} {out : Outcome}

theorem ConsumerThread.step_quiet (hs : c.step capIn capOut maxConsumers id' q = some (c', q', out))
    (hne : id ≠ id') : Quiet capIn capOut maxConsumers id q q' := by
  rcases ConsumerThread.step_sequencer hs with rfl | ⟨a, ha, rfl | rfl⟩
  · exact Or.inl rfl
  · exact Or.inr ⟨_, ha, (by intro he; cases he; exact hne rfl), (by intro he; cases he)⟩
  · exact Or.inr ⟨_, ha, (by intro he; cases he), (by intro he; cases he; exact hne rfl)⟩

theorem ConsumerThread.step_inv (h : SequencerInv capIn capOut q)
    (hs : c.step capIn capOut maxConsumers id q = some (c', q', out)) :
    SequencerInv capIn capOut q' := by
  rcases ConsumerThread.step_sequencer hs with rfl | ⟨a, ha, _⟩
  · exact h
  · exact sequencerInv_step h ha

theorem ConsumerThread.step_pc (hs : c.step capIn capOut maxConsumers id q = some (c', q', out))
    (hpc : q.pc = .returned) : q'.pc = .returned := by
  rcases ConsumerThread.step_sequencer hs with rfl | ⟨a, ha, _⟩
  · exact hpc
  · exact (step_returned ha hpc).1

theorem ConsumerThread.not_returned
    (hs : c.step capIn capOut maxConsumers id q = some (c', q', out)) : c.pc ≠ .returned := by
  intro hpc
  unfold ConsumerThread.step at hs
  rw [hpc] at hs
  exact absurd hs (by simp)

theorem ThreadInv.start (h : ThreadInv id c q handled) (hc : c.start = some c') :
    ThreadInv id c' q handled := by
  unfold ConsumerThread.start at hc
  split at hc
  case isFalse => exact absurd hc (by simp)
  rename_i hpc
  cases hc
  refine ⟨?_, (fun hstop => by cases hstop), fun hd => hd.elim, fun _ hex => hex.elim⟩
  rw [h.flow, pending_of_not_consuming (by rw [hpc]; intro l he; cases he)]
  rfl

/-- A thread returns after its drain. -/
theorem ConsumerThread.step_returns
    (hs : c.step capIn capOut maxConsumers id q = some (c', q', out)) :
    c'.pc = .returned ↔ out = .drained := by
  unfold ConsumerThread.step at hs
  cases hpc : c.pc with
  | ready => rw [hpc] at hs; exact absurd hs (by simp)
  | returned => rw [hpc] at hs; exact absurd hs (by simp)
  | test => rw [hpc] at hs; cases hs; cases c.running <;> simp
  | call l =>
      rw [hpc] at hs
      obtain ⟨t, _, he⟩ := Option.map_eq_some_iff.mp hs
      cases he
      simp
  | consuming l =>
      rw [hpc] at hs
      dsimp only at hs
      split at hs
      · obtain ⟨t, _, he⟩ := Option.map_eq_some_iff.mp hs
        cases he
        simp [hpc]
      · cases hs
        cases l <;> simp [ConsumerLoop.done]
      · cases hs
        cases l with
        | batch i => rcases ConsumerLoop.next_batch i with hnext | ⟨j, hnext⟩ <;> simp [hnext]
        | drain => simp [ConsumerLoop.next]
  | batchEnd => rw [hpc] at hs; cases hs; simp
  | drained => rw [hpc] at hs; cases hs; simp

/-- A consumer is told to stop when the sequencer has returned. -/
theorem ThreadInv.stop (h : ThreadInv id c q handled) (hq : q.pc = .returned) :
    ThreadInv id c.stop q handled :=
  ⟨h.flow, fun _ => Or.inr hq, h.draining, h.exhausted⟩

/-- A consumer whose thread has returned has dealt with the whole stream. -/
theorem ThreadInv.complete (h : ThreadInv id c q handled) (hpc : c.pc = .returned)
    (hlen : q.output.published.length < 2 ^ 64) : handled = q.output.published := by
  have hexhausted : Exhausted id c q := by
    unfold Exhausted
    rw [hpc]
    trivial
  rw [← h.exhausted hlen hexhausted, h.flow,
    pending_of_not_consuming (by rw [hpc]; intro l he; cases he), List.append_nil]

end Seen

end HftLob.Pipeline

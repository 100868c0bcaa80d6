import HftLob.Desk.Untimed
import HftLob.Ring.Calls

/-!
# The offline harness

The two threads of `hft_lob`. The feed thread stamps each event with the time, pushes it
until the queue takes it, and sets `feed_done` at the end. The engine thread pops and
processes; when a pop fails it looks at `feed_done` and then at `ring.empty()`, and ends
if both hold. A step is one load or store of something the threads share.

That order of looking is what makes the end safe: after `feed_done` the queue only
shrinks, so a queue found empty then is empty for good.
-/

namespace HftLob.Desk

open HftLob.Book HftLob.Lib HftLob.Ring

/-- Where the feed thread is. -/
inductive FeedPhase where
  /-- At the head of the loop over the events. -/
  | next
  /-- In `while (!ring.push(order))`; the call itself is in the state of the queue. -/
  | pushing (order : Order)
  | done

/-- Where the engine thread is. -/
inductive EnginePhase where
  /-- At the head of its loop. -/
  | next
  /-- In `ring.pop(order)`. -/
  | popping
  /-- `feed_done` was set, `ring.empty()` is called. -/
  | sawDone
  | headLoaded (head : Nat)
  | tailLoaded (tail : Nat)
  | exited
  deriving DecidableEq

structure Harness (pool : PoolCapacity) where
  ring : SpscRingBuffer Order
  /-- The events the feed thread has not got to yet. -/
  remaining : List Order
  feed : FeedPhase
  feedDone : Bool
  engine : EnginePhase
  desk : TickEngine pool

/-- Who moves. The feed thread may read the clock; in `ring.empty()` either load may be
the first. -/
inductive HarnessAction where
  | feed (now : Nanos)
  | engine (tailFirst : Bool)

namespace Harness

variable {pool : PoolCapacity}

def init (pool : PoolCapacity) (buffer : Nat → Order) (events : List Order) : Harness pool where
  ring := SpscRingBuffer.init buffer
  remaining := events
  feed := .next
  feedDone := false
  engine := .next
  desk := TickEngine.init pool

def onRing (h : Harness pool) (cap : RingCapacity) (a : SpscAction Order) :
    Option (Harness pool) :=
  (h.ring.step cap a).map fun ring => { h with ring := ring }

def feedStep (cap : RingCapacity) (h : Harness pool) (now : Nanos) : Option (Harness pool) :=
  match h.feed with
  | .next =>
      match h.remaining with
      | [] => some { h with feedDone := true, feed := .done }
      | event :: rest =>
          { h with remaining := rest, feed := .pushing { event with tsNs := now } }.onRing cap
            (.push { event with tsNs := now })
  | .pushing order =>
      match h.ring.producer with
      | .returned true => some { h with feed := .next }
      | .returned false => h.onRing cap (.push order) -- backpressure: once more
      | _ => h.onRing cap .produce
  | .done => none

def engineStep (cap : RingCapacity) (h : Harness pool) (tailFirst : Bool) :
    Option (Harness pool) :=
  match h.engine with
  | .next => { h with engine := .popping }.onRing cap .pop
  | .popping =>
      match h.ring.consumer with
      | .returned (some order) =>
          some { h with desk := h.desk.process order order.tsNs, engine := .next }
      | .returned none => some { h with engine := if h.feedDone then .sawDone else .next }
      | _ => h.onRing cap .consume
  | .sawDone =>
      some { h with
        engine := if tailFirst then .tailLoaded h.ring.tail else .headLoaded h.ring.head }
  | .headLoaded head => some { h with engine := if head = h.ring.tail then .exited else .next }
  | .tailLoaded tail => some { h with engine := if h.ring.head = tail then .exited else .next }
  | .exited => none

def step (cap : RingCapacity) (h : Harness pool) : HarnessAction → Option (Harness pool)
  | .feed now => h.feedStep cap now
  | .engine tailFirst => h.engineStep cap tailFirst

/-- The event that the feed thread has taken and not pushed yet. -/
def inFlight (h : Harness pool) : List Order :=
  match h.feed with
  | .pushing order =>
      match h.ring.producer with
      | .returned true => []
      | _ => [order]
  | .next | .done => []

/-- The order that the engine thread has popped and not processed yet. -/
def pending (h : Harness pool) : List Order :=
  match h.engine with
  | .popping => (h.ring.consumer.result?.join).toList
  | _ => []

end Harness

/-! ## The invariant -/

variable {pool : PoolCapacity} {cap : RingCapacity} {events : List Order} {h h' : Harness pool}

/-- What the engine thread remembers of what it saw on its way out. -/
def EngineOk (h : Harness pool) : Prop :=
  match h.engine with
  | .next | .popping => True
  | .sawDone => h.feed = .done
  | .headLoaded head => h.feed = .done ∧ head = h.ring.head
  | .tailLoaded tail => h.feed = .done ∧ tail = h.ring.tail
  | .exited => h.feed = .done ∧ h.ring.popped = h.ring.pushed

/-- The desk has processed what was popped, up to the order in hand. -/
def DeskOk (h : Harness pool) : Prop :=
  ∃ handled, h.ring.popped = handled ++ h.pending
    ∧ h.desk = (TickEngine.init pool).processAll (handled.map fun o => (o, o.tsNs))

structure HarnessInv (cap : RingCapacity) (events : List Order) (h : Harness pool) : Prop where
  ring : SpscInv cap h.ring
  /-- Every event is in the queue's history, in hand or still to come. -/
  sent : (h.ring.pushed ++ h.inFlight ++ h.remaining).map untimedOrder = events.map untimedOrder
  carried : ∀ order, h.feed = .pushing order →
    ∀ item, h.ring.producer.item? = some item → item = order
  finished : h.feed = .done → h.remaining = []
  flag : h.feedDone = true → h.feed = .done
  engine : EngineOk h
  desk : DeskOk h

theorem harnessInv_init (buffer : Nat → Order) (events : List Order) :
    HarnessInv cap events (Harness.init pool buffer events) where
  ring := spscInv_init buffer
  sent := rfl
  carried := nofun
  finished := nofun
  flag := nofun
  engine := trivial
  desk := ⟨[], rfl, rfl⟩

theorem onRing_eq_some {a : SpscAction Order} (hr : h.onRing cap a = some h') :
    ∃ ring, h.ring.step cap a = some ring ∧ h' = { h with ring := ring } := by
  obtain ⟨ring, hring, rfl⟩ := Option.map_eq_some_iff.mp hr
  exact ⟨ring, hring, rfl⟩

/-! ## The feed thread -/

/-- While the feed thread is at work, the engine thread is in its loop. -/
theorem EngineOk.in_loop (hok : EngineOk h) (hfeed : h.feed ≠ .done) :
    h.engine = .next ∨ h.engine = .popping := by
  unfold EngineOk at hok
  cases he : h.engine with
  | next => exact Or.inl rfl
  | popping => exact Or.inr rfl
  | sawDone => rw [he] at hok; exact absurd hok hfeed
  | headLoaded head => rw [he] at hok; exact absurd hok.1 hfeed
  | tailLoaded tail => rw [he] at hok; exact absurd hok.1 hfeed
  | exited => rw [he] at hok; exact absurd hok.1 hfeed

theorem EngineOk.of_in_loop (h : h'.engine = .next ∨ h'.engine = .popping) : EngineOk h' := by
  unfold EngineOk
  rcases h with h | h <;> rw [h] <;> trivial

/-- The desk is not concerned by what the feed thread does. -/
theorem DeskOk.congr (hok : DeskOk h) (hdesk : h'.desk = h.desk) (hengine : h'.engine = h.engine)
    (hpopped : h'.ring.popped = h.ring.popped) (hconsumer : h'.ring.consumer = h.ring.consumer) :
    DeskOk h' := by
  obtain ⟨handled, hhandled, heq⟩ := hok
  refine ⟨handled, ?_, hdesk.trans heq⟩
  rw [hpopped, hhandled, Harness.pending, Harness.pending, hengine, hconsumer]

theorem inFlight_of_item {order item : Order} (hfeed : h.feed = .pushing order)
    (hitem : h.ring.producer.item? = some item) : h.inFlight = [order] := by
  unfold Harness.inFlight
  rw [hfeed]
  dsimp only
  split
  · rename_i hpr
    rw [hpr] at hitem
    exact absurd hitem nofun
  · rfl

/-- A call of `push` for the order in hand, the first or a repeated one. -/
theorem HarnessInv.push {order : Order} (hinv : HarnessInv cap events h)
    {ring : SpscRingBuffer Order} (hring : h.ring.step cap (.push order) = some ring)
    (hfeed : h.feed ≠ .done) (hrest : h'.ring = ring ∧ h'.feed = .pushing order
      ∧ h'.feedDone = h.feedDone ∧ h'.engine = h.engine ∧ h'.desk = h.desk)
    (hsent : (h.ring.pushed ++ [order] ++ h'.remaining).map untimedOrder
      = events.map untimedOrder) : HarnessInv cap events h' := by
  obtain ⟨hring', hpushing, hflag, hengine, hdesk⟩ := hrest
  obtain ⟨hitem, hpushed⟩ := push_spec hring
  obtain ⟨hpopped, hconsumer, _⟩ := producer_spec (Or.inr ⟨order, rfl⟩) hring
  subst hring'
  refine ⟨spscInv_step hinv.ring hring, ?_, ?_, ?_, ?_, ?_, ?_⟩
  · rw [inFlight_of_item hpushing hitem, hpushed]
    exact hsent
  · intro order' horder' item hitem'
    rw [hitem] at hitem'
    rw [hpushing] at horder'
    cases hitem'
    cases horder'
    rfl
  · intro hdone
    rw [hpushing] at hdone
    exact absurd hdone nofun
  · intro hd
    rw [hflag] at hd
    exact absurd (hinv.flag hd) hfeed
  · exact .of_in_loop (hengine ▸ hinv.engine.in_loop hfeed)
  · exact hinv.desk.congr hdesk hengine hpopped hconsumer

theorem HarnessInv.produce {order : Order} (hinv : HarnessInv cap events h)
    (hfeed : h.feed = .pushing order) (hstep : h.onRing cap .produce = some h') :
    HarnessInv cap events h' := by
  obtain ⟨ring, hring, rfl⟩ := onRing_eq_some hstep
  obtain ⟨item, hitem, hcase⟩ := produce_spec hring
  obtain ⟨hpopped, hconsumer, _⟩ := producer_spec (Or.inl rfl) hring
  have hnotdone : h.feed ≠ .done := by rw [hfeed]; nofun
  have hitem_eq := hinv.carried order hfeed item hitem
  subst hitem_eq
  have hsent := hinv.sent
  rw [inFlight_of_item hfeed hitem] at hsent
  refine ⟨spscInv_step hinv.ring hring, ?_, ?_, hinv.finished, hinv.flag, ?_, ?_⟩
  · rcases hcase with ⟨hpushed, hgoes⟩ | ⟨hpushed, hdone⟩
    · have hflight : Harness.inFlight { h with ring := ring } = [item] := by
        rcases hgoes with hitem' | hfalse
        · exact inFlight_of_item (h := { h with ring := ring }) hfeed hitem'
        · simp [Harness.inFlight, hfeed, hfalse]
      rw [hflight, hpushed]
      exact hsent
    · -- the order has moved from the hand into the queue
      have hflight : Harness.inFlight { h with ring := ring } = [] := by
        simp [Harness.inFlight, hfeed, hdone]
      rw [hflight, hpushed, List.append_nil]
      exact hsent
  · intro order' horder' item' hitem'
    rw [hfeed] at horder'
    cases horder'
    rcases hcase with ⟨_, hgoes⟩ | ⟨_, hdone⟩
    · rcases hgoes with hgoes | hfalse
      · rw [hgoes] at hitem'
        exact (Option.some.inj hitem').symm
      · rw [hfalse] at hitem'
        exact absurd hitem' nofun
    · rw [hdone] at hitem'
      exact absurd hitem' nofun
  · exact .of_in_loop (hinv.engine.in_loop hnotdone)
  · exact hinv.desk.congr rfl rfl hpopped hconsumer

theorem harnessInv_feedStep {now : Nanos} (hinv : HarnessInv cap events h)
    (hstep : h.feedStep cap now = some h') : HarnessInv cap events h' := by
  unfold Harness.feedStep at hstep
  cases hfeed : h.feed with
  | done => rw [hfeed] at hstep; exact absurd hstep nofun
  | next =>
      have hnotdone : h.feed ≠ .done := by rw [hfeed]; nofun
      have hsent := hinv.sent
      have hflight : h.inFlight = [] := by simp [Harness.inFlight, hfeed]
      rw [hflight, List.append_nil] at hsent
      rw [hfeed] at hstep
      dsimp only at hstep
      cases hrem : h.remaining with
      | nil =>
          rw [hrem] at hstep hsent
          cases hstep
          refine ⟨hinv.ring, ?_, nofun, fun _ => rfl, fun _ => rfl, ?_,
            hinv.desk.congr rfl rfl rfl rfl⟩
          · show (h.ring.pushed ++ [] ++ []).map untimedOrder = _
            rw [List.append_nil]
            exact hsent
          · exact .of_in_loop (hinv.engine.in_loop hnotdone)
      | cons event rest =>
          rw [hrem] at hstep hsent
          obtain ⟨ring, hring, rfl⟩ := onRing_eq_some hstep
          refine hinv.push hring hnotdone ⟨rfl, rfl, rfl, rfl, rfl⟩ ?_
          -- the stamp is all that changes
          rw [← hsent]
          simp [untimedOrder]
  | pushing order =>
      have hnotdone : h.feed ≠ .done := by rw [hfeed]; nofun
      rw [hfeed] at hstep
      dsimp only at hstep
      split at hstep
      · rename_i hpr
        cases hstep
        have hsent := hinv.sent
        have hflight : h.inFlight = [] := by simp [Harness.inFlight, hfeed, hpr]
        rw [hflight] at hsent
        exact ⟨hinv.ring, hsent, nofun, nofun,
          fun hd => absurd (hinv.flag hd) hnotdone, .of_in_loop (hinv.engine.in_loop hnotdone),
          hinv.desk.congr rfl rfl rfl rfl⟩
      · rename_i hpr
        obtain ⟨ring, hring, rfl⟩ := onRing_eq_some hstep
        have hsent := hinv.sent
        have hflight : h.inFlight = [order] := by simp [Harness.inFlight, hfeed, hpr]
        rw [hflight] at hsent
        exact hinv.push hring hnotdone ⟨rfl, hfeed, rfl, rfl, rfl⟩ hsent
      · exact hinv.produce hfeed hstep

/-! ## The engine thread -/

/-- The feed thread is not concerned by what the engine thread does. -/
theorem HarnessInv.of_engine (hinv : HarnessInv cap events h) (hring : SpscInv cap h'.ring)
    (hpushed : h'.ring.pushed = h.ring.pushed) (hproducer : h'.ring.producer = h.ring.producer)
    (hfeed : h'.feed = h.feed ∧ h'.remaining = h.remaining ∧ h'.feedDone = h.feedDone)
    (hengine : EngineOk h') (hdesk : DeskOk h') : HarnessInv cap events h' := by
  obtain ⟨hfeed, hrem, hflag⟩ := hfeed
  have hflight : h'.inFlight = h.inFlight := by
    unfold Harness.inFlight
    rw [hfeed, hproducer]
  refine ⟨hring, ?_, ?_, ?_, ?_, hengine, hdesk⟩
  · rw [hpushed, hflight, hrem]
    exact hinv.sent
  · rw [hfeed, hproducer]
    exact hinv.carried
  · rw [hfeed, hrem]
    exact hinv.finished
  · rw [hflag, hfeed]
    exact hinv.flag

/-- Outside `ring.pop` the engine thread has no order in hand. -/
theorem DeskOk.of_pending (hok : DeskOk h) (hpending : h.pending = [])
    (hpending' : h'.pending = []) (hpopped : h'.ring.popped = h.ring.popped)
    (hdesk : h'.desk = h.desk) : DeskOk h' := by
  obtain ⟨handled, hhandled, heq⟩ := hok
  exact ⟨handled, by rw [hpopped, hhandled, hpending, hpending'], hdesk.trans heq⟩

theorem HarnessInv.popStep (hinv : HarnessInv cap events h) (hengine : h.engine = .popping)
    (hstep : h.onRing cap .consume = some h') : HarnessInv cap events h' := by
  obtain ⟨ring, hring, rfl⟩ := onRing_eq_some hstep
  obtain ⟨hpushed, hproducer, hcase⟩ := consumer_spec hring
  refine hinv.of_engine (spscInv_step hinv.ring hring) hpushed hproducer ⟨rfl, rfl, rfl⟩
    (.of_in_loop (Or.inr hengine)) ?_
  obtain ⟨handled, hhandled, heq⟩ := hinv.desk
  have hbefore : h.pending = [] := by
    unfold Harness.pending
    rw [hengine]
    dsimp only
    rw [consume_result hring]
    rfl
  have hafter : Harness.pending { h with ring := ring } = (ring.consumer.result?.join).toList := by
    simp [Harness.pending, hengine]
  rw [hbefore, List.append_nil] at hhandled
  refine ⟨handled, ?_, heq⟩
  rw [hafter]
  rcases hcase with ⟨hpopped, hnone⟩ | ⟨out, hpopped, hout⟩
  · rcases hnone with hnone | hnone
    · simp [hnone, hpopped, hhandled]
    · simp [hnone, hpopped, hhandled]
  · simp [hout, hpopped, hhandled]

/-- With no order in hand, the engine thread goes on to a phase that is not `ring.pop`. -/
theorem HarnessInv.goto (hinv : HarnessInv cap events h) (hpending : h.pending = [])
    {phase : EnginePhase} (hphase : phase ≠ .popping) (hok : EngineOk { h with engine := phase }) :
    HarnessInv cap events { h with engine := phase } := by
  refine hinv.of_engine hinv.ring rfl rfl ⟨rfl, rfl, rfl⟩ hok
    (hinv.desk.of_pending hpending ?_ rfl rfl)
  cases phase with
  | popping => exact absurd rfl hphase
  | next | sawDone | headLoaded | tailLoaded | exited => rfl

/-- The order in hand is processed. -/
theorem HarnessInv.processed {order : Order} (hinv : HarnessInv cap events h)
    (hpending : h.pending = [order]) :
    HarnessInv cap events { h with desk := h.desk.process order order.tsNs, engine := .next } := by
  refine hinv.of_engine hinv.ring rfl rfl ⟨rfl, rfl, rfl⟩ (.of_in_loop (Or.inl rfl)) ?_
  obtain ⟨handled, hhandled, heq⟩ := hinv.desk
  refine ⟨handled ++ [order], ?_, ?_⟩
  · show h.ring.popped = handled ++ [order] ++ []
    rw [hhandled, hpending, List.append_nil]
  · dsimp only
    rw [heq, TickEngine.processAll, TickEngine.processAll, List.map_append, List.foldl_append]
    rfl

/-- The last test of the loop: after `feed_done`, the thread leaves if the queue is empty. -/
theorem HarnessInv.leave (hinv : HarnessInv cap events h) (hpending : h.pending = [])
    (hdone : h.feed = .done) {empty : Prop} [Decidable empty]
    (hempty : empty → h.ring.tail = h.ring.head) :
    HarnessInv cap events { h with engine := if empty then .exited else .next } := by
  by_cases hleaves : empty
  · rw [if_pos hleaves]
    exact hinv.goto hpending nofun ⟨hdone, hinv.ring.empty_iff.mp (hempty hleaves)⟩
  · rw [if_neg hleaves]
    exact hinv.goto hpending nofun trivial

theorem harnessInv_engineStep {tailFirst : Bool} (hinv : HarnessInv cap events h)
    (hstep : h.engineStep cap tailFirst = some h') : HarnessInv cap events h' := by
  have hok := hinv.engine
  unfold EngineOk at hok
  unfold Harness.engineStep at hstep
  cases hengine : h.engine with
  | exited => rw [hengine] at hstep; exact absurd hstep nofun
  | next =>
      rw [hengine] at hstep
      obtain ⟨ring, hring, rfl⟩ := onRing_eq_some hstep
      obtain ⟨hpopped, hpushed, hproducer, hresult⟩ := pop_spec hring
      refine hinv.of_engine (spscInv_step hinv.ring hring) hpushed hproducer ⟨rfl, rfl, rfl⟩
        (.of_in_loop (Or.inr rfl)) (hinv.desk.of_pending ?_ ?_ hpopped rfl)
      · simp [Harness.pending, hengine]
      · simp [Harness.pending, hresult]
  | popping =>
      rw [hengine] at hstep
      dsimp only at hstep
      split at hstep
      · rename_i order hco
        cases hstep
        exact hinv.processed (by simp [Harness.pending, hengine, hco, Consumer.result?])
      · rename_i hco
        cases hstep
        have hpending : h.pending = [] := by
          simp [Harness.pending, hengine, hco, Consumer.result?]
        by_cases hdone : h.feedDone = true
        · rw [if_pos hdone]
          exact hinv.goto hpending nofun (hinv.flag hdone)
        · rw [if_neg hdone]
          exact hinv.goto hpending nofun trivial
      · exact hinv.popStep hengine hstep
  | sawDone =>
      rw [hengine] at hstep hok
      cases hstep
      have hpending : h.pending = [] := by simp [Harness.pending, hengine]
      cases tailFirst with
      | true => exact hinv.goto hpending nofun ⟨hok, rfl⟩
      | false => exact hinv.goto hpending nofun ⟨hok, rfl⟩
  | headLoaded head =>
      rw [hengine] at hstep hok
      cases hstep
      exact hinv.leave (by simp [Harness.pending, hengine]) hok.1
        fun hempty => hempty.symm.trans hok.2
  | tailLoaded tail =>
      rw [hengine] at hstep hok
      cases hstep
      exact hinv.leave (by simp [Harness.pending, hengine]) hok.1
        fun hempty => hok.2.symm.trans hempty.symm

theorem harnessInv_step {a : HarnessAction} (hinv : HarnessInv cap events h)
    (hstep : h.step cap a = some h') : HarnessInv cap events h' := by
  cases a with
  | feed now => exact harnessInv_feedStep hinv hstep
  | engine tailFirst => exact harnessInv_engineStep hinv hstep

theorem harnessInv_exec {buffer : Nat → Order} {actions : List HarnessAction}
    (hrun : Machine.exec (Harness.step cap) (Harness.init pool buffer events) actions = some h) :
    HarnessInv cap events h :=
  Machine.exec_preserves (fun _ _ _ hinv hstep => harnessInv_step hinv hstep) actions _ h
    (harnessInv_init buffer events) hrun

/-! ## The end -/

/-- When the engine thread has ended, nothing is on its way any more. -/
theorem HarnessInv.exited (hinv : HarnessInv cap events h) (hexit : h.engine = .exited) :
    h.ring.popped.map untimedOrder = events.map untimedOrder
      ∧ h.desk = (TickEngine.init pool).processAll (h.ring.popped.map fun o => (o, o.tsNs)) := by
  have hok := hinv.engine
  unfold EngineOk at hok
  rw [hexit] at hok
  have hflight : h.inFlight = [] := by simp [Harness.inFlight, hok.1]
  have hsent := hinv.sent
  rw [hflight, hinv.finished hok.1, List.append_nil, List.append_nil] at hsent
  obtain ⟨handled, hhandled, hdesk⟩ := hinv.desk
  have hpending : h.pending = [] := by simp [Harness.pending, hexit]
  rw [hpending, List.append_nil] at hhandled
  exact ⟨by rw [hok.2]; exact hsent, by rw [hhandled]; exact hdesk⟩

/--
**The harness processes the whole feed.**

Whenever the engine thread has ended, what it popped are the events of the feed, each once
and in order, with the times the feed thread put on them, and the desk has processed them.
-/
theorem harness_processes_feed (pool : PoolCapacity) (cap : RingCapacity) (buffer : Nat → Order)
    (events : List Order) (actions : List HarnessAction) (h : Harness pool)
    (hrun : Machine.exec (Harness.step cap) (Harness.init pool buffer events) actions = some h)
    (hexit : h.engine = .exited) :
    h.ring.popped.map untimedOrder = events.map untimedOrder
      ∧ h.desk = (TickEngine.init pool).processAll (h.ring.popped.map fun o => (o, o.tsNs)) :=
  (harnessInv_exec hrun).exited hexit

/-- Two events through a queue with room for one: the second push is refused once. -/
theorem harness_processes_feed_of_two :
    let pool : PoolCapacity := ⟨4, by decide⟩
    let cap : RingCapacity := ⟨1, by decide⟩
    let events : List Order := [⟨1, .buy, 100, 5, 0⟩, ⟨2, .sell, 100, 3, 0⟩]
    let actions := List.replicate 8 (HarnessAction.feed 7) ++ List.replicate 5 (.engine false)
      ++ List.replicate 5 (.feed 9) ++ List.replicate 10 (.engine true)
    ∃ h, Machine.exec (Harness.step cap) (Harness.init pool (fun _ => default) events) actions
        = some h ∧ h.engine = .exited
      ∧ h.ring.popped.map untimedOrder = events.map untimedOrder
      ∧ h.desk = (TickEngine.init pool).processAll (h.ring.popped.map fun o => (o, o.tsNs)) := by
  intro pool cap events actions
  have hexits : (Machine.exec (Harness.step cap) (Harness.init pool (fun _ => default) events)
      actions).map Harness.engine = some .exited := by decide +kernel
  obtain ⟨h, hrun, hexit⟩ := Option.map_eq_some_iff.mp hexits
  exact ⟨h, hrun, hexit, harness_processes_feed pool cap _ events actions h hrun hexit⟩

end HftLob.Desk

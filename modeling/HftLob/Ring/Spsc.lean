import HftLob.Ring.Broadcast

/-!
# The single-producer single-consumer queue

`SpscRingBuffer<T, Capacity>`: two positions that wrap at the capacity, one slot always
free. As for the broadcast ring, a step is one load or store, a call starts with the
load of the thread's own position, and its result stays in the thread's state.

`SpscInv` counts what was pushed and popped, and reads both positions off the counts.
-/

namespace HftLob.Ring

open HftLob.Lib

/-- Where the producer is in `push`. -/
inductive Producer (T : Type) where
  | idle
  /-- `head_` is loaded. -/
  | loaded (item : T) (head : Nat)
  | storeSlot (item : T) (head : Nat)
  | storeHead (item : T) (head : Nat)
  | returned (pushed : Bool)
  deriving DecidableEq

/-- Where the consumer is in `pop`. -/
inductive Consumer (T : Type) where
  | idle
  /-- `tail_` is loaded. -/
  | loaded (tail : Nat)
  | copy (tail : Nat)
  | storeTail (tail : Nat) (out : T)
  | returned (out : Option T)

structure SpscRingBuffer (T : Type) where
  head : Nat
  tail : Nat
  buffer : Nat → T
  producer : Producer T
  consumer : Consumer T
  /-- The items pushed so far. -/
  pushed : List T
  /-- The items popped so far. -/
  popped : List T

inductive SpscAction (T : Type) where
  /-- The producer calls `push`. -/
  | push (item : T)
  /-- The producer's next step. -/
  | produce
  /-- The consumer calls `pop`. -/
  | pop
  /-- The consumer's next step. -/
  | consume

namespace SpscRingBuffer

variable {T : Type}

def init (buffer : Nat → T) : SpscRingBuffer T where
  head := 0
  tail := 0
  buffer := buffer
  producer := .idle
  consumer := .idle
  pushed := []
  popped := []

/-- `(i + 1) & mask_`. -/
def nextIndex (cap : RingCapacity) (i : Nat) : Nat := (i + 1) &&& (cap.size - 1)

def startPush (q : SpscRingBuffer T) (item : T) : Option (SpscRingBuffer T) :=
  match q.producer with
  | .idle | .returned _ => some { q with producer := .loaded item q.head }
  | .loaded _ _ | .storeSlot _ _ | .storeHead _ _ => none

def produce (cap : RingCapacity) (q : SpscRingBuffer T) : Option (SpscRingBuffer T) :=
  match q.producer with
  | .idle | .returned _ => none
  | .loaded item head =>
      if nextIndex cap head = q.tail then some { q with producer := .returned false } -- full
      else some { q with producer := .storeSlot item head }
  | .storeSlot item head =>
      some { q with buffer := Function.update q.buffer head item
                    producer := .storeHead item head }
  | .storeHead item head =>
      some { q with head := nextIndex cap head
                    producer := .returned true
                    pushed := q.pushed ++ [item] }

def startPop (q : SpscRingBuffer T) : Option (SpscRingBuffer T) :=
  match q.consumer with
  | .idle | .returned _ => some { q with consumer := .loaded q.tail }
  | .loaded _ | .copy _ | .storeTail _ _ => none

def consume (cap : RingCapacity) (q : SpscRingBuffer T) : Option (SpscRingBuffer T) :=
  match q.consumer with
  | .idle | .returned _ => none
  | .loaded tail =>
      if tail = q.head then some { q with consumer := .returned none } -- empty
      else some { q with consumer := .copy tail }
  | .copy tail => some { q with consumer := .storeTail tail (q.buffer tail) }
  | .storeTail tail out =>
      some { q with tail := nextIndex cap tail
                    consumer := .returned (some out)
                    popped := q.popped ++ [out] }

def step (cap : RingCapacity) (q : SpscRingBuffer T) : SpscAction T → Option (SpscRingBuffer T)
  | .push item => q.startPush item
  | .produce => q.produce cap
  | .pop => q.startPop
  | .consume => q.consume cap

end SpscRingBuffer

/-! ## The invariant -/

variable {T : Type} {cap : RingCapacity} {q q' : SpscRingBuffer T}

open SpscRingBuffer (nextIndex)

theorem nextIndex_mod (n : Nat) : nextIndex cap (n % cap.size) = (n + 1) % cap.size := by
  unfold nextIndex
  rw [RingCapacity.size, Nat.and_two_pow_sub_one_eq_mod, Nat.mod_add_mod]

def ProducerOk (cap : RingCapacity) (q : SpscRingBuffer T) : Prop :=
  match q.producer with
  | .idle | .returned _ => True
  | .loaded _ head => head = q.head
  | .storeSlot _ head => head = q.head ∧ q.pushed.length + 1 < q.popped.length + cap.size
  | .storeHead item head =>
      head = q.head ∧ q.pushed.length + 1 < q.popped.length + cap.size ∧ q.buffer head = item

def ConsumerOk (q : SpscRingBuffer T) : Prop :=
  match q.consumer with
  | .idle | .returned _ => True
  | .loaded tail => tail = q.tail
  | .copy tail => tail = q.tail ∧ q.popped.length < q.pushed.length
  | .storeTail tail out => tail = q.tail ∧ q.pushed[q.popped.length]? = some out

structure SpscInv (cap : RingCapacity) (q : SpscRingBuffer T) : Prop where
  head : q.head = q.pushed.length % cap.size
  tail : q.tail = q.popped.length % cap.size
  /-- What came out is what went in first. -/
  order : q.popped <+: q.pushed
  /-- One slot stays free. -/
  room : q.pushed.length < q.popped.length + cap.size
  window : Circular.Holds cap.size q.buffer q.pushed q.popped.length
  producer : ProducerOk cap q
  consumer : ConsumerOk q

theorem spscInv_init (buffer : Nat → T) : SpscInv cap (SpscRingBuffer.init buffer) where
  head := by simp [SpscRingBuffer.init]
  tail := by simp [SpscRingBuffer.init]
  order := List.prefix_rfl
  room := by simpa [SpscRingBuffer.init] using cap.size_pos
  window := Circular.holds_nil
  producer := trivial
  consumer := trivial

/-- The producer's knowledge survives pops. -/
theorem ProducerOk.mono (h : ProducerOk cap q) (hp : q'.producer = q.producer)
    (hhead : q'.head = q.head) (hbuf : q'.buffer = q.buffer) (hpushed : q'.pushed = q.pushed)
    (hpopped : q.popped.length ≤ q'.popped.length) : ProducerOk cap q' := by
  unfold ProducerOk at h ⊢
  rw [hp, hhead, hbuf, hpushed]
  cases hpr : q.producer with
  | idle => trivial
  | returned b => trivial
  | loaded item head => rw [hpr] at h; exact h
  | storeSlot item head => rw [hpr] at h; exact ⟨h.1, by omega⟩
  | storeHead item head => rw [hpr] at h; exact ⟨h.1, by omega, h.2.2⟩

/-- The consumer's knowledge survives pushes. -/
theorem ConsumerOk.mono (h : ConsumerOk q) (hc : q'.consumer = q.consumer)
    (htail : q'.tail = q.tail) (hpopped : q'.popped = q.popped)
    (hpushed : q.pushed <+: q'.pushed) : ConsumerOk q' := by
  unfold ConsumerOk at h ⊢
  rw [hc, htail, hpopped]
  cases hco : q.consumer with
  | idle => trivial
  | returned out => trivial
  | loaded tail => rw [hco] at h; exact h
  | copy tail => rw [hco] at h; exact ⟨h.1, Nat.lt_of_lt_of_le h.2 hpushed.length_le⟩
  | storeTail tail out =>
      rw [hco] at h
      obtain ⟨more, hmore⟩ := hpushed
      have hlt : q.popped.length < q.pushed.length := (List.getElem?_eq_some_iff.mp h.2).1
      refine ⟨h.1, ?_⟩
      rw [← hmore, List.getElem?_append_left hlt]
      exact h.2

/-- The test of `pop` is exact. -/
theorem SpscInv.empty_iff (h : SpscInv cap q) : q.tail = q.head ↔ q.popped = q.pushed := by
  constructor
  · intro heq
    have hmod : q.popped.length % cap.size = q.pushed.length % cap.size := by
      rw [← h.tail, ← h.head, heq]
    refine h.order.eq_of_length_le (Nat.le_of_not_lt fun hlt => ?_)
    exact Circular.mod_ne_of_lt hlt h.room hmod
  · intro heq
    rw [h.tail, h.head, heq]

/-- The test of `push` is exact: it finds the queue full when one slot is left. -/
theorem SpscInv.full_iff (h : SpscInv cap q) :
    nextIndex cap q.head = q.tail ↔ q.pushed.length + 1 = q.popped.length + cap.size := by
  rw [h.head, h.tail, nextIndex_mod]
  constructor
  · intro heq
    have hle := h.order.length_le
    refine Nat.le_antisymm h.room (Nat.le_of_not_lt fun hlt => ?_)
    exact Circular.mod_ne_of_lt (Nat.lt_succ_of_le hle) hlt heq.symm
  · intro hfull
    rw [hfull, Nat.add_mod_right]

theorem SpscInv.produce (h : SpscInv cap q) (hq : q.produce cap = some q') : SpscInv cap q' := by
  have hok := h.producer
  unfold ProducerOk at hok
  unfold SpscRingBuffer.produce at hq
  cases hpr : q.producer with
  | idle => rw [hpr] at hq; exact absurd hq (by simp)
  | returned b => rw [hpr] at hq; exact absurd hq (by simp)
  | loaded item head =>
      rw [hpr] at hq hok
      dsimp only at hq hok
      split at hq <;> cases hq
      · exact ⟨h.head, h.tail, h.order, h.room, h.window, trivial,
          h.consumer.mono rfl rfl rfl List.prefix_rfl⟩
      · rename_i hfree
        refine ⟨h.head, h.tail, h.order, h.room, h.window, ⟨hok, ?_⟩,
          h.consumer.mono rfl rfl rfl List.prefix_rfl⟩
        -- a queue with no slot to spare has its next head at the tail
        show q.pushed.length + 1 < q.popped.length + cap.size
        refine Nat.lt_of_le_of_ne h.room fun hfull => hfree ?_
        rw [hok]
        exact h.full_iff.mpr hfull
  | storeSlot item head =>
      rw [hpr] at hq hok
      cases hq
      refine ⟨h.head, h.tail, h.order, h.room, ?_, ⟨hok.1, hok.2, Function.update_self ..⟩,
        h.consumer.mono rfl rfl rfl List.prefix_rfl⟩
      dsimp only
      rw [hok.1, h.head]
      exact h.window.store h.room
  | storeHead item head =>
      rw [hpr] at hq hok
      cases hq
      obtain ⟨hhead, hroom, hitem⟩ := hok
      refine ⟨?_, h.tail, h.order.trans (List.prefix_append _ _), ?_, ?_, trivial,
        h.consumer.mono rfl rfl rfl (List.prefix_append _ _)⟩
      · dsimp only
        rw [hhead, h.head, nextIndex_mod, List.length_append, List.length_singleton]
      · dsimp only
        rw [List.length_append, List.length_singleton]
        exact hroom
      · refine h.window.append ?_
        rw [← h.head, ← hhead]
        exact hitem

theorem SpscInv.consume (h : SpscInv cap q) (hq : q.consume cap = some q') : SpscInv cap q' := by
  have hok := h.consumer
  unfold ConsumerOk at hok
  unfold SpscRingBuffer.consume at hq
  cases hco : q.consumer with
  | idle => rw [hco] at hq; exact absurd hq (by simp)
  | returned out => rw [hco] at hq; exact absurd hq (by simp)
  | loaded tail =>
      rw [hco] at hq hok
      dsimp only at hq hok
      split at hq <;> cases hq
      · exact ⟨h.head, h.tail, h.order, h.room, h.window,
          h.producer.mono rfl rfl rfl rfl (Nat.le_refl _), trivial⟩
      · rename_i hsome
        refine ⟨h.head, h.tail, h.order, h.room, h.window,
          h.producer.mono rfl rfl rfl rfl (Nat.le_refl _), ⟨hok, ?_⟩⟩
        refine Nat.lt_of_le_of_ne h.order.length_le fun hempty => hsome ?_
        rw [hok]
        exact h.empty_iff.mpr (h.order.eq_of_length hempty)
  | copy tail =>
      rw [hco] at hq hok
      cases hq
      refine ⟨h.head, h.tail, h.order, h.room, h.window,
        h.producer.mono rfl rfl rfl rfl (Nat.le_refl _), ⟨hok.1, ?_⟩⟩
      obtain ⟨htail, hlt⟩ := hok
      have hitem := List.getElem?_eq_getElem hlt
      have hslot := h.window _ _ (Nat.le_refl _) hitem
      rw [← h.tail, ← htail] at hslot
      rw [hslot]
      exact hitem
  | storeTail tail out =>
      rw [hco] at hq hok
      cases hq
      obtain ⟨htail, hout⟩ := hok
      have hlen : (q.popped ++ [out]).length = q.popped.length + 1 := by simp
      have hlt : q.popped.length < q.pushed.length := (List.getElem?_eq_some_iff.mp hout).1
      have hroom := h.room
      refine ⟨h.head, ?_, ?_, ?_, h.window.mono (by dsimp only; omega),
        h.producer.mono rfl rfl rfl rfl (by dsimp only; omega), trivial⟩
      · dsimp only
        rw [htail, h.tail, nextIndex_mod, hlen]
      · show q.popped ++ [out] <+: q.pushed
        obtain ⟨rest, hrest⟩ := h.order
        rw [← hrest, List.getElem?_append_right (Nat.le_refl _), Nat.sub_self] at hout
        cases rest with
        | nil => exact absurd hout (by simp)
        | cons a rest =>
            rw [List.getElem?_cons_zero, Option.some.injEq] at hout
            exact ⟨rest, by rw [← hrest, ← hout]; simp⟩
      · dsimp only
        omega

theorem spscInv_step {a : SpscAction T} (h : SpscInv cap q) (hq : q.step cap a = some q') :
    SpscInv cap q' := by
  cases a with
  | push item =>
      dsimp only [SpscRingBuffer.step, SpscRingBuffer.startPush] at hq
      split at hq <;> cases hq
      all_goals exact ⟨h.head, h.tail, h.order, h.room, h.window, rfl,
        h.consumer.mono rfl rfl rfl List.prefix_rfl⟩
  | produce => exact h.produce hq
  | pop =>
      dsimp only [SpscRingBuffer.step, SpscRingBuffer.startPop] at hq
      split at hq <;> cases hq
      all_goals exact ⟨h.head, h.tail, h.order, h.room, h.window,
        h.producer.mono rfl rfl rfl rfl (Nat.le_refl _), rfl⟩
  | consume => exact h.consume hq

/-! ## A bounded queue -/

namespace SpscRingBuffer

/-- How many items are in the queue. -/
def stored (q : SpscRingBuffer T) : Nat := q.pushed.length - q.popped.length

/-- An item that was pushed and not popped yet is in this slot. -/
def Occupied (cap : RingCapacity) (q : SpscRingBuffer T) (slot : Nat) : Prop :=
  ∃ i, q.popped.length ≤ i ∧ i < q.pushed.length ∧ slot = i % cap.size

end SpscRingBuffer

/-- A first-in first-out queue for `Capacity - 1` items: what is true of its items, and of
each step either thread can take next. -/
structure BoundedFifo (cap : RingCapacity) (q : SpscRingBuffer T) : Prop where
  order : q.popped <+: q.pushed
  bound : q.stored ≤ cap.size - 1
  /-- The item is in the slot of its number until it is popped. -/
  contents : ∀ i item, q.popped.length ≤ i → q.pushed[i]? = some item →
    q.buffer (i % cap.size) = item
  /-- The step that returns false from `push` is the one that reads `tail_`. -/
  refused : ∀ q', q.produce cap = some q' → q'.producer = .returned false →
    q.stored = cap.size - 1
  /-- The step that returns false from `pop` is the one that reads `head_`. -/
  empty : ∀ q', q.consume cap = some q' → q'.consumer = .returned none → q.stored = 0
  unoccupied : ∀ item slot, q.producer = .storeSlot item slot → ¬ q.Occupied cap slot

theorem SpscInv.stored_le (h : SpscInv cap q) : q.stored ≤ cap.size - 1 := by
  have hroom := h.room
  unfold SpscRingBuffer.stored
  omega

/-- The queue is found full when it holds all but one of its slots. -/
theorem SpscInv.full_iff_stored (h : SpscInv cap q) :
    nextIndex cap q.head = q.tail ↔ q.stored = cap.size - 1 := by
  have hroom := h.room
  have hle := h.order.length_le
  rw [h.full_iff, SpscRingBuffer.stored]
  omega

theorem SpscInv.refused (h : SpscInv cap q) (hq : q.produce cap = some q')
    (hfalse : q'.producer = .returned false) : q.stored = cap.size - 1 := by
  have hok := h.producer
  unfold ProducerOk at hok
  unfold SpscRingBuffer.produce at hq
  cases hpr : q.producer with
  | idle => rw [hpr] at hq; exact absurd hq (by simp)
  | returned b => rw [hpr] at hq; exact absurd hq (by simp)
  | loaded item head =>
      rw [hpr] at hq hok
      dsimp only at hq hok
      split at hq <;> cases hq
      · rename_i hnext
        rw [hok] at hnext
        exact h.full_iff_stored.mp hnext
      · exact absurd hfalse (by simp)
  | storeSlot item head => rw [hpr] at hq; cases hq; exact absurd hfalse (by simp)
  | storeHead item head => rw [hpr] at hq; cases hq; exact absurd hfalse (by simp)

theorem SpscInv.empty (h : SpscInv cap q) (hq : q.consume cap = some q')
    (hnone : q'.consumer = .returned none) : q.stored = 0 := by
  have hok := h.consumer
  unfold ConsumerOk at hok
  unfold SpscRingBuffer.consume at hq
  cases hco : q.consumer with
  | idle => rw [hco] at hq; exact absurd hq (by simp)
  | returned out => rw [hco] at hq; exact absurd hq (by simp)
  | loaded tail =>
      rw [hco] at hq hok
      dsimp only at hq hok
      split at hq <;> cases hq
      · rename_i heq
        rw [hok] at heq
        rw [SpscRingBuffer.stored, h.empty_iff.mp heq, Nat.sub_self]
      · exact absurd hnone (by simp)
  | copy tail => rw [hco] at hq; cases hq; exact absurd hnone (by simp)
  | storeTail tail out => rw [hco] at hq; cases hq; exact absurd hnone (by simp)

/-- The slot about to be written is that of the next item, which no stored item shares. -/
theorem SpscInv.unoccupied (h : SpscInv cap q) {item : T} {slot : Nat}
    (hpr : q.producer = .storeSlot item slot) : ¬ q.Occupied cap slot := by
  have hok := h.producer
  unfold ProducerOk at hok
  rw [hpr] at hok
  rintro ⟨i, hlo, hhi, hslot⟩
  rw [hok.1, h.head] at hslot
  exact Circular.mod_ne_of_lt hhi (by omega) hslot.symm

/-- **The queue is a bounded first-in first-out queue**, in every state of every interleaving
of the two threads. -/
theorem spsc_bounded_fifo (cap : RingCapacity) (buffer : Nat → T) (actions : List (SpscAction T))
    (q : SpscRingBuffer T)
    (hrun : Machine.exec (SpscRingBuffer.step cap) (SpscRingBuffer.init buffer) actions = some q) :
    BoundedFifo cap q := by
  have h : SpscInv cap q := Machine.exec_preserves (fun _ _ _ h hq => spscInv_step h hq) actions
    _ q (spscInv_init buffer) hrun
  exact ⟨h.order, h.stored_le, h.window, fun _ => h.refused, fun _ => h.empty,
    fun _ _ => h.unoccupied⟩

/-- One item fits into a queue of capacity two. A second push is refused, and the same push
succeeds once the first item was popped. -/
theorem spsc_bounded_fifo_of_two :
    let cap : RingCapacity := ⟨1, by decide⟩
    let refused : List (SpscAction Nat) :=
      [SpscAction.push 7, .produce, .produce, .produce, .push 8, .produce]
    let actions := refused
      ++ [SpscAction.pop, .consume, .consume, .consume, .push 8, .produce, .produce, .produce]
    ∃ q q', Machine.exec (SpscRingBuffer.step cap) (SpscRingBuffer.init fun _ => 0) refused = some q
      ∧ q.pushed = [7] ∧ q.popped = [] ∧ q.producer = .returned false ∧ BoundedFifo cap q
      ∧ Machine.exec (SpscRingBuffer.step cap) (SpscRingBuffer.init fun _ => 0) actions = some q'
      ∧ q'.pushed = [7, 8] ∧ q'.popped = [7] ∧ q'.producer = .returned true
      ∧ BoundedFifo cap q' := by
  intro cap refused actions
  have heval : (Machine.exec (SpscRingBuffer.step cap) (SpscRingBuffer.init fun _ => 0) refused).map
      (fun q => (q.pushed, q.popped, q.producer)) = some ([7], [], .returned false) := by decide
  have heval' : (Machine.exec (SpscRingBuffer.step cap)
      (SpscRingBuffer.init fun _ => 0) actions).map
      (fun q => (q.pushed, q.popped, q.producer)) = some ([7, 8], [7], .returned true) := by decide
  obtain ⟨q, hq, heval⟩ := Option.map_eq_some_iff.mp heval
  obtain ⟨q', hq', heval'⟩ := Option.map_eq_some_iff.mp heval'
  simp only [Prod.mk.injEq] at heval heval'
  exact ⟨q, q', hq, heval.1, heval.2.1, heval.2.2, spsc_bounded_fifo cap _ refused q hq, hq',
    heval'.1, heval'.2.1, heval'.2.2, spsc_bounded_fifo cap _ actions q' hq'⟩

end HftLob.Ring

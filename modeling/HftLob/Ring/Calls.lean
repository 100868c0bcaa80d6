import HftLob.Ring.Delivery
import HftLob.Ring.Spsc

/-!
# The queues as their callers see them

A thread that calls one of the two queues looks at nothing but the result of its call.
The lemmas here say what one step of a call does to that result and to the items that
have gone through the queue, and that it leaves the other threads' calls alone.
-/

namespace HftLob.Ring

variable {T : Type}

/-- The item of the `try_publish` under way. -/
def Writer.item? : Writer T → Option T
  | .idle | .returned _ => none
  | .gate item _ | .scanCount item _ | .scan item _ _ _ _ | .scanned item _ _
  | .storeSlot item _ | .storeCursor item _ => some item

def Writer.result? : Writer T → Option Bool
  | .returned published => some published
  | .idle | .gate _ _ | .scanCount _ _ | .scan _ _ _ _ _ | .scanned _ _ _ | .storeSlot _ _
  | .storeCursor _ _ => none

def Reader.result? : Reader T → Option (Option T)
  | .returned out => some out
  | .idle | .loaded _ | .copy _ | .storeCursor _ _ => none

def Consumer.result? : Consumer T → Option (Option T)
  | .returned out => some out
  | .idle | .loaded _ | .copy _ | .storeTail _ _ => none

/-- The item of the `push` under way. -/
def Producer.item? : Producer T → Option T
  | .idle | .returned _ => none
  | .loaded item _ | .storeSlot item _ | .storeHead item _ => some item

theorem Writer.result?_of_item? {w : Writer T} {item : T} (h : w.item? = some item) :
    w.result? = none := by
  cases w with
  | idle => exact absurd h (by simp [Writer.item?])
  | returned b => exact absurd h (by simp [Writer.item?])
  | _ => rfl

theorem Writer.result?_ne_of_item? {w : Writer T} {item : T} (h : w.item? = some item)
    (published : Bool) : w.result? ≠ some published := by
  rw [Writer.result?_of_item? h]
  nofun

/-! ## The broadcast ring -/

section Broadcast

variable {cap : RingCapacity} {maxConsumers : Nat} {r r' : BroadcastRing T}

theorem register_spec (hr : r.step cap maxConsumers .register = some r') :
    r'.published = r.published ∧ r'.writer = r.writer ∧ r'.consumed = r.consumed
      ∧ r'.readers = r.readers := by
  obtain ⟨t, ht, rfl⟩ := step_eq_some hr
  dsimp only [BroadcastRing.act, BroadcastRing.register] at ht
  split at ht
  · cases ht
    exact ⟨rfl, rfl, rfl, rfl⟩
  · exact absurd ht (by simp)

theorem publish_spec {item : T} (hr : r.step cap maxConsumers (.publish item) = some r') :
    r.writer.item? = none ∧ r'.writer.item? = some item ∧ r'.published = r.published
      ∧ r'.consumed = r.consumed ∧ r'.readers = r.readers := by
  obtain ⟨t, ht, rfl⟩ := step_eq_some hr
  dsimp only [BroadcastRing.act, BroadcastRing.startPublish] at ht
  cases hwr : r.writer with
  | idle => rw [hwr] at ht; cases ht; exact ⟨rfl, rfl, rfl, rfl, rfl⟩
  | returned b => rw [hwr] at ht; cases ht; exact ⟨rfl, rfl, rfl, rfl, rfl⟩
  | _ => rw [hwr] at ht; exact absurd ht (by simp)

/-- A step of `try_publish` either goes on or returns, and returns `true` exactly when it
publishes the item. -/
theorem write_spec (hr : r.step cap maxConsumers .write = some r') :
    r'.consumed = r.consumed ∧ r'.readers = r.readers ∧ ∃ item, r.writer.item? = some item
      ∧ (r'.published = r.published
          ∧ (r'.writer.item? = some item ∨ r'.writer = .returned false)
        ∨ r'.published = r.published ++ [item] ∧ r'.writer = .returned true) := by
  obtain ⟨t, ht, rfl⟩ := step_eq_some hr
  dsimp only [BroadcastRing.act, BroadcastRing.writeStep] at ht
  cases hwr : r.writer with
  | idle => rw [hwr] at ht; exact absurd ht (by simp)
  | returned b => rw [hwr] at ht; exact absurd ht (by simp)
  | gate item write =>
      rw [hwr] at ht
      dsimp only at ht
      split at ht <;> cases ht
      all_goals exact ⟨rfl, rfl, item, rfl, Or.inl ⟨rfl, Or.inl rfl⟩⟩
  | scanCount item write =>
      rw [hwr] at ht
      cases ht
      exact ⟨rfl, rfl, item, rfl, Or.inl ⟨rfl, Or.inl rfl⟩⟩
  | scan item write n i low =>
      rw [hwr] at ht
      dsimp only at ht
      split at ht <;> cases ht
      all_goals exact ⟨rfl, rfl, item, rfl, Or.inl ⟨rfl, Or.inl rfl⟩⟩
  | scanned item write freshMin =>
      rw [hwr] at ht
      dsimp only at ht
      split at ht <;> cases ht
      · exact ⟨rfl, rfl, item, rfl, Or.inl ⟨rfl, Or.inr rfl⟩⟩
      · exact ⟨rfl, rfl, item, rfl, Or.inl ⟨rfl, Or.inl rfl⟩⟩
  | storeSlot item write =>
      rw [hwr] at ht
      cases ht
      exact ⟨rfl, rfl, item, rfl, Or.inl ⟨rfl, Or.inl rfl⟩⟩
  | storeCursor item write =>
      rw [hwr] at ht
      cases ht
      exact ⟨rfl, rfl, item, rfl, Or.inr ⟨rfl, rfl⟩⟩

/-- A step of the reader `id` leaves everything else alone. -/
structure ReaderStep (id : Nat) (r r' : BroadcastRing T) : Prop where
  published : r'.published = r.published
  writer : r'.writer = r.writer
  consumed : ∀ id', id' ≠ id → r'.consumed id' = r.consumed id'
  readers : ∀ id', id' ≠ id → r'.readers id' = r.readers id'

theorem consume_spec {id : Nat} (hr : r.step cap maxConsumers (.consume id) = some r') :
    ReaderStep id r r' ∧ r'.consumed id = r.consumed id ∧ (r'.readers id).result? = none := by
  obtain ⟨t, ht, rfl⟩ := step_eq_some hr
  dsimp only [BroadcastRing.act, BroadcastRing.startConsume] at ht
  split at ht
  case isFalse => exact absurd ht (by simp)
  have ht' : t = { r with readers := Function.update r.readers id (.loaded (r.cursors id)) } := by
    split at ht
    all_goals first | (cases ht; rfl) | exact absurd ht (by simp)
  subst ht'
  refine ⟨⟨rfl, rfl, fun _ _ => rfl, fun id' hne => Function.update_of_ne hne ..⟩, rfl, ?_⟩
  dsimp only
  rw [Function.update_self]
  rfl

/-- A step of `try_consume` either goes on, or returns an item it then has consumed, or
returns without one. -/
theorem read_spec {id : Nat} (hr : r.step cap maxConsumers (.read id) = some r') :
    ReaderStep id r r' ∧ (r.readers id).result? = none
      ∧ (r'.consumed id = r.consumed id
          ∧ ((r'.readers id).result? = none
            ∨ ∃ read, r.readers id = .loaded read ∧ r.writeCursor ≤ read
              ∧ r'.readers id = .returned none)
        ∨ ∃ out, r'.consumed id = r.consumed id ++ [out]
            ∧ r'.readers id = .returned (some out)) := by
  obtain ⟨t, ht, rfl⟩ := step_eq_some hr
  dsimp only [BroadcastRing.act, BroadcastRing.readStep] at ht
  cases hrd : r.readers id with
  | idle => rw [hrd] at ht; exact absurd ht (by simp)
  | returned out => rw [hrd] at ht; exact absurd ht (by simp)
  | loaded read =>
      rw [hrd] at ht
      dsimp only at ht
      split at ht <;> cases ht
      · rename_i hge
        exact ⟨⟨rfl, rfl, fun _ _ => rfl, fun id' hne => Function.update_of_ne hne ..⟩, rfl,
          Or.inl ⟨rfl, Or.inr ⟨read, rfl, hge, Function.update_self ..⟩⟩⟩
      · refine ⟨⟨rfl, rfl, fun _ _ => rfl, fun id' hne => Function.update_of_ne hne ..⟩, rfl,
          Or.inl ⟨rfl, Or.inl ?_⟩⟩
        dsimp only
        rw [Function.update_self]
        rfl
  | copy read =>
      rw [hrd] at ht
      cases ht
      refine ⟨⟨rfl, rfl, fun _ _ => rfl, fun id' hne => Function.update_of_ne hne ..⟩, rfl,
        Or.inl ⟨rfl, Or.inl ?_⟩⟩
      dsimp only
      rw [Function.update_self]
      rfl
  | storeCursor read out =>
      rw [hrd] at ht
      cases ht
      exact ⟨⟨rfl, rfl, fun id' hne => Function.update_of_ne hne ..,
        fun id' hne => Function.update_of_ne hne ..⟩, rfl,
        Or.inr ⟨out, Function.update_self .., Function.update_self ..⟩⟩

/-- A `try_consume` that finds nothing finds its consumer caught up. -/
theorem RingInv.caught_up (h : RingInv cap r) {id : Nat} {read : UInt64}
    (hrd : r.readers id = .loaded read) (hge : r.writeCursor ≤ read) :
    r.consumed id = r.published := by
  have hok := h.reader id
  unfold ReaderOk at hok
  rw [hrd] at hok
  have hle := UInt64.le_iff_toNat_le.mp hge
  rw [h.cursor, hok.2] at hle
  rw [h.consumed id, List.take_of_length_le hle]

end Broadcast

/-! ## The single-producer single-consumer queue -/

section Spsc

variable {cap : RingCapacity} {q q' : SpscRingBuffer T}

/-- The producer's steps leave the consumer's call alone. -/
theorem producer_spec {a : SpscAction T} (ha : a = .produce ∨ ∃ item, a = .push item)
    (hq : q.step cap a = some q') :
    q'.popped = q.popped ∧ q'.consumer = q.consumer ∧ q.pushed <+: q'.pushed := by
  rcases ha with rfl | ⟨item, rfl⟩
  · dsimp only [SpscRingBuffer.step, SpscRingBuffer.produce] at hq
    split at hq
    case h_3 =>
      split at hq <;> cases hq
      all_goals exact ⟨rfl, rfl, List.prefix_rfl⟩
    case h_4 => cases hq; exact ⟨rfl, rfl, List.prefix_rfl⟩
    case h_5 => cases hq; exact ⟨rfl, rfl, List.prefix_append _ _⟩
    all_goals exact absurd hq (by simp)
  · dsimp only [SpscRingBuffer.step, SpscRingBuffer.startPush] at hq
    split at hq
    all_goals first | (cases hq; exact ⟨rfl, rfl, List.prefix_rfl⟩) | exact absurd hq (by simp)

/-- A call of `push` starts. -/
theorem push_spec {item : T} (hq : q.step cap (.push item) = some q') :
    q'.producer.item? = some item ∧ q'.pushed = q.pushed := by
  dsimp only [SpscRingBuffer.step, SpscRingBuffer.startPush] at hq
  split at hq
  all_goals first | (cases hq; exact ⟨rfl, rfl⟩) | exact absurd hq (by simp)

/-- A step of `push` either goes on or returns, and returns `true` exactly when it has
pushed the item. -/
theorem produce_spec (hq : q.step cap .produce = some q') :
    ∃ item, q.producer.item? = some item
      ∧ (q'.pushed = q.pushed
          ∧ (q'.producer.item? = some item ∨ q'.producer = .returned false)
        ∨ q'.pushed = q.pushed ++ [item] ∧ q'.producer = .returned true) := by
  dsimp only [SpscRingBuffer.step, SpscRingBuffer.produce] at hq
  cases hpr : q.producer with
  | idle => rw [hpr] at hq; exact absurd hq (by simp)
  | returned b => rw [hpr] at hq; exact absurd hq (by simp)
  | loaded item head =>
      rw [hpr] at hq
      dsimp only at hq
      split at hq <;> cases hq
      · exact ⟨item, rfl, Or.inl ⟨rfl, Or.inr rfl⟩⟩
      · exact ⟨item, rfl, Or.inl ⟨rfl, Or.inl rfl⟩⟩
  | storeSlot item head =>
      rw [hpr] at hq
      cases hq
      exact ⟨item, rfl, Or.inl ⟨rfl, Or.inl rfl⟩⟩
  | storeHead item head =>
      rw [hpr] at hq
      cases hq
      exact ⟨item, rfl, Or.inr ⟨rfl, rfl⟩⟩

theorem pop_spec (hq : q.step cap .pop = some q') :
    q'.popped = q.popped ∧ q'.pushed = q.pushed ∧ q'.producer = q.producer
      ∧ q'.consumer.result? = none := by
  dsimp only [SpscRingBuffer.step, SpscRingBuffer.startPop] at hq
  split at hq
  all_goals first | (cases hq; exact ⟨rfl, rfl, rfl, rfl⟩) | exact absurd hq (by simp)

/-- A call of `pop` that takes a step has no result yet. -/
theorem consume_result (hq : q.step cap .consume = some q') : q.consumer.result? = none := by
  dsimp only [SpscRingBuffer.step, SpscRingBuffer.consume] at hq
  cases hco : q.consumer with
  | idle => rfl
  | returned out => rw [hco] at hq; exact absurd hq (by simp)
  | loaded tail => rfl
  | copy tail => rfl
  | storeTail tail out => rfl

/-- A step of `pop` either goes on, or returns an item it then has popped, or returns
without one. -/
theorem consumer_spec (hq : q.step cap .consume = some q') :
    q'.pushed = q.pushed ∧ q'.producer = q.producer
      ∧ (q'.popped = q.popped
          ∧ (q'.consumer.result? = none ∨ q'.consumer.result? = some none)
        ∨ ∃ out, q'.popped = q.popped ++ [out] ∧ q'.consumer.result? = some (some out)) := by
  dsimp only [SpscRingBuffer.step, SpscRingBuffer.consume] at hq
  cases hco : q.consumer with
  | idle => rw [hco] at hq; exact absurd hq (by simp)
  | returned out => rw [hco] at hq; exact absurd hq (by simp)
  | loaded tail =>
      rw [hco] at hq
      dsimp only at hq
      split at hq <;> cases hq
      · exact ⟨rfl, rfl, Or.inl ⟨rfl, Or.inr rfl⟩⟩
      · exact ⟨rfl, rfl, Or.inl ⟨rfl, Or.inl rfl⟩⟩
  | copy tail =>
      rw [hco] at hq
      cases hq
      exact ⟨rfl, rfl, Or.inl ⟨rfl, Or.inl rfl⟩⟩
  | storeTail tail out =>
      rw [hco] at hq
      cases hq
      exact ⟨rfl, rfl, Or.inr ⟨out, rfl, rfl⟩⟩

end Spsc

end HftLob.Ring

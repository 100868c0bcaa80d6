import HftLob.Engine.Sinks

/-!
# What reaches the persistence queue

The ledgers of `Sinks` count the acks. `Sifted` is about which they are: what is in `fills_`
is some of the acks that the matcher constructed, in the order in which it constructed them.
-/

namespace HftLob.Engine

open HftLob.Lib HftLob.Ring

variable {cap : Book.PoolCapacity} {s t : Sinks cap}

/-- The ack that `push_ack` has not offered to `fills_` yet. -/
def PushPhase.unoffered : PushPhase → List OutboundAck
  | .client ack _ => [ack]
  | .idle | .persistence _ => []

structure Sifted (s : Sinks cap) : Prop where
  offered : List.Sublist (s.offered ++ s.phase.unoffered) s.constructed
  /-- The push under way, if it gets through, is of the ack offered last. -/
  pushed : List.Sublist (s.fills.pushed ++ s.fills.producer.item?.toList) s.offered

theorem sifted_init (cap : Book.PoolCapacity) (acksBuffer fillsBuffer : Nat → OutboundAck) :
    Sifted (Sinks.init cap acksBuffer fillsBuffer) :=
  ⟨List.Sublist.refl _, List.Sublist.refl _⟩

/-- `push_ack` leaves `fills_` alone, or makes a step of the producer there. -/
theorem pushAck_fills (ht : s.pushAck = some t) :
    t.fills = s.fills ∨ ∃ a, (a = .produce ∨ ∃ item, a = .push item)
      ∧ s.fills.step ackQueue a = some t.fills := by
  unfold Sinks.pushAck at ht
  split at ht
  · split at ht
    · exact absurd ht (by simp)
    · obtain ⟨acks, _, rfl⟩ := Option.map_eq_some_iff.mp ht
      exact Or.inl rfl
  · split at ht
    · obtain ⟨fills, hf, rfl⟩ := Option.map_eq_some_iff.mp ht
      exact Or.inr ⟨_, Or.inr ⟨_, rfl⟩, hf⟩
    · split at ht
      · cases ht
        exact Or.inl rfl
      · obtain ⟨acks, _, rfl⟩ := Option.map_eq_some_iff.mp ht
        exact Or.inl rfl
    all_goals
      obtain ⟨acks, _, rfl⟩ := Option.map_eq_some_iff.mp ht
      exact Or.inl rfl
  · split at ht
    · cases ht
      exact Or.inl rfl
    · cases ht
      exact Or.inl rfl
    all_goals
      obtain ⟨fills, hf, rfl⟩ := Option.map_eq_some_iff.mp ht
      exact Or.inr ⟨_, Or.inl rfl, hf⟩

theorem sublist_produce {offered : List OutboundAck} {q q' : SpscRingBuffer OutboundAck}
    (h : List.Sublist (q.pushed ++ q.producer.item?.toList) offered)
    (hq : q.produce ackQueue = some q') :
    List.Sublist (q'.pushed ++ q'.producer.item?.toList) offered := by
  obtain ⟨item, hitem, hspec⟩ := produce_spec hq
  rw [hitem] at h
  rcases hspec with ⟨hpushed, hgo | hfull⟩ | ⟨hpushed, hdone⟩
  · rw [hpushed, hgo]
    exact h
  · -- no room: the ack is dropped
    rw [hpushed, hfull]
    exact (List.Sublist.append_left (List.nil_sublist _) _).trans h
  · rw [hpushed, hdone]
    exact (List.append_nil _).symm ▸ h

theorem Sifted.pushAck (h : Sifted s) (ht : s.pushAck = some t) : Sifted t := by
  obtain ⟨hoffered, hpushed⟩ := h
  unfold Sinks.pushAck at ht
  split at ht
  · rename_i hphase
    rw [hphase] at hoffered
    split at ht
    · exact absurd ht (by simp)
    · rename_i ack rest hrest
      obtain ⟨acks, _, rfl⟩ := Option.map_eq_some_iff.mp ht
      rw [PushPhase.unoffered, List.append_nil] at hoffered
      exact ⟨hoffered.append (List.Sublist.refl [ack]), hpushed⟩
  · rename_i ack spins hphase
    rw [hphase] at hoffered
    split at ht
    · -- the clients' queue took it: `fills_->push(ack)`
      obtain ⟨fills, hf, rfl⟩ := Option.map_eq_some_iff.mp ht
      have hstep : s.fills.step ackQueue (.push ack) = some fills := hf
      obtain ⟨hitem, hsame⟩ := push_spec hstep
      refine ⟨?_, ?_⟩
      · dsimp only
        rw [PushPhase.unoffered, List.append_nil]
        exact hoffered
      · dsimp only
        rw [hitem, hsame]
        exact ((List.sublist_append_left _ _).trans hpushed).append (List.Sublist.refl [ack])
    · split at ht
      · cases ht
        exact ⟨(List.Sublist.append_left (List.nil_sublist _) _).trans hoffered, hpushed⟩
      · obtain ⟨acks, _, rfl⟩ := Option.map_eq_some_iff.mp ht
        exact ⟨hoffered, hpushed⟩
    all_goals
      obtain ⟨acks, _, rfl⟩ := Option.map_eq_some_iff.mp ht
      rw [← hphase] at hoffered
      exact ⟨hoffered, hpushed⟩
  · rename_i ack hphase
    rw [hphase] at hoffered
    split at ht
    · cases ht
      exact ⟨hoffered, hpushed⟩
    · cases ht
      exact ⟨hoffered, hpushed⟩
    all_goals
      obtain ⟨fills, hf, rfl⟩ := Option.map_eq_some_iff.mp ht
      rw [← hphase] at hoffered
      exact ⟨hoffered, sublist_produce hpushed hf⟩

theorem Sifted.step (h : Sifted s) {a : SinkAction} (ht : s.step a = some t) : Sifted t := by
  cases a with
  | apply ev =>
      dsimp only [Sinks.step] at ht
      split at ht
      · rename_i hphase _
        cases ht
        exact ⟨hphase ▸ h.offered, h.pushed⟩
      · exact absurd ht (by simp)
  | push => exact h.pushAck ht
  | drainAcks call =>
      obtain ⟨acks, _, rfl⟩ := Option.map_eq_some_iff.mp ht
      exact ⟨h.offered, h.pushed⟩
  | drainFills call =>
      obtain ⟨fills, hf, rfl⟩ := Option.map_eq_some_iff.mp ht
      obtain ⟨hpushed, hproducer⟩ := drain_spec hf
      refine ⟨h.offered, ?_⟩
      dsimp only
      rw [hpushed, hproducer]
      exact h.pushed

/-- Outside of `push_ack` and its call at `fills_`, what was pushed there is some of the acks. -/
theorem Sifted.sublist (h : Sifted s) : List.Sublist s.fills.pushed s.constructed :=
  ((List.sublist_append_left _ _).trans h.pushed).trans
    ((List.sublist_append_left _ _).trans h.offered)

theorem spscInv_fills {a : SinkAction} (h : SpscInv ackQueue s.fills) (ht : s.step a = some t) :
    SpscInv ackQueue t.fills := by
  cases a with
  | apply ev =>
      dsimp only [Sinks.step] at ht
      split at ht
      · cases ht
        exact h
      · exact absurd ht (by simp)
  | push =>
      rcases pushAck_fills ht with hsame | ⟨a, _, hf⟩
      · rw [hsame]
        exact h
      · exact spscInv_step h hf
  | drainAcks call =>
      obtain ⟨acks, _, rfl⟩ := Option.map_eq_some_iff.mp ht
      exact h
  | drainFills call =>
      obtain ⟨fills, hf, rfl⟩ := Option.map_eq_some_iff.mp ht
      exact spscInv_step h hf

/-! ## Without drops -/

/-- What `fills_` has been offered and does not hold yet. -/
def Sinks.owing (s : Sinks cap) : List OutboundAck :=
  match s.phase with
  | .persistence ack =>
      match s.fills.producer with
      | .returned true => []
      | .idle | .returned false | .loaded _ _ | .storeSlot _ _ | .storeHead _ _ => [ack]
  | .idle | .client _ _ => []

/-- As long as `fills_` refuses nothing, it gets everything it is offered, in order. -/
structure InOrder (s : Sinks cap) : Prop where
  item : ∀ {ack item}, s.phase = .persistence ack → s.fills.producer.item? = some item → item = ack
  pushed : s.fillsLost = 0 → s.fills.pushed ++ s.owing = s.offered

theorem owing_of_item {ack item : OutboundAck} (hphase : s.phase = .persistence ack)
    (hitem : s.fills.producer.item? = some item) : s.owing = [ack] := by
  unfold Sinks.owing
  rw [hphase]
  cases hpr : s.fills.producer with
  | returned b => rw [hpr] at hitem; exact absurd hitem (by simp [Producer.item?])
  | _ => rfl

theorem owing_of_returned {ack : OutboundAck} {b : Bool} (hphase : s.phase = .persistence ack)
    (hreturned : s.fills.producer = .returned b) : s.owing = if b then [] else [ack] := by
  unfold Sinks.owing
  rw [hphase, hreturned]
  cases b <;> rfl

theorem owing_of_not_persistence (h : ∀ ack, s.phase ≠ .persistence ack) : s.owing = [] := by
  unfold Sinks.owing
  split
  · rename_i ack hphase
    exact absurd hphase (h ack)
  · rfl
  · rfl

/-- A step of the push at `fills_`. -/
theorem InOrder.produce (h : InOrder s) {ack : OutboundAck} (hphase : s.phase = .persistence ack)
    {fills : SpscRingBuffer OutboundAck} (hf : s.fills.produce ackQueue = some fills) :
    InOrder { s with fills := fills } := by
  obtain ⟨item, hitem, hspec⟩ := produce_spec hf
  obtain rfl : item = ack := h.item hphase hitem
  have hpushed := h.pushed
  rw [owing_of_item hphase hitem] at hpushed
  rcases hspec with ⟨hsame, hgo | hfull⟩ | ⟨hstored, hdone⟩
  · refine ⟨fun hphase' hitem' => ?_, fun hzero => ?_⟩
    · exact h.item hphase' (hitem.trans (hgo.symm.trans hitem'))
    · rw [owing_of_item (s := { s with fills := fills }) hphase hgo]
      dsimp only
      rw [hsame]
      exact hpushed hzero
  · refine ⟨fun _ hitem' => ?_, fun hzero => ?_⟩
    · dsimp only at hitem'
      rw [hfull] at hitem'
      cases hitem'
    · rw [owing_of_returned (s := { s with fills := fills }) hphase hfull]
      dsimp only
      rw [hsame]
      exact hpushed hzero
  · refine ⟨fun _ hitem' => ?_, fun hzero => ?_⟩
    · dsimp only at hitem'
      rw [hdone] at hitem'
      cases hitem'
    · rw [owing_of_returned (s := { s with fills := fills }) hphase hdone]
      dsimp only
      rw [hstored, if_pos rfl, List.append_nil]
      exact hpushed hzero

theorem InOrder.pushAck (h : InOrder s) (ht : s.pushAck = some t) : InOrder t := by
  have hpushed := h.pushed
  unfold Sinks.pushAck at ht
  split at ht
  · rename_i hphase
    rw [owing_of_not_persistence (by rw [hphase]; nofun)] at hpushed
    split at ht
    · exact absurd ht (by simp)
    · obtain ⟨acks, _, rfl⟩ := Option.map_eq_some_iff.mp ht
      exact ⟨nofun, hpushed⟩
  · rename_i ack spins hphase
    rw [owing_of_not_persistence (by rw [hphase]; nofun)] at hpushed
    split at ht
    · obtain ⟨fills, hf, rfl⟩ := Option.map_eq_some_iff.mp ht
      have hstep : s.fills.step ackQueue (.push ack) = some fills := hf
      obtain ⟨hitem, hsame⟩ := push_spec hstep
      refine ⟨fun hphase' hitem' => ?_, fun hzero => ?_⟩
      · cases hphase'
        exact Option.some.inj (hitem'.symm.trans hitem)
      · rw [owing_of_item rfl hitem]
        dsimp only
        rw [hsame, ← hpushed hzero, List.append_nil]
    · split at ht
      · cases ht
        exact ⟨nofun, hpushed⟩
      · obtain ⟨acks, _, rfl⟩ := Option.map_eq_some_iff.mp ht
        exact ⟨nofun, hpushed⟩
    all_goals
      obtain ⟨acks, _, rfl⟩ := Option.map_eq_some_iff.mp ht
      exact ⟨fun hphase' _ => (nomatch hphase.symm.trans hphase'), h.pushed⟩
  · rename_i ack hphase
    split at ht
    · rename_i hreturned
      cases ht
      rw [owing_of_returned hphase hreturned] at hpushed
      exact ⟨nofun, hpushed⟩
    · cases ht
      exact ⟨nofun, nofun⟩
    all_goals
      obtain ⟨fills, hf, rfl⟩ := Option.map_eq_some_iff.mp ht
      exact h.produce hphase hf

theorem InOrder.step (h : InOrder s) {a : SinkAction} (ht : s.step a = some t) : InOrder t := by
  cases a with
  | apply ev =>
      dsimp only [Sinks.step] at ht
      split at ht
      · rename_i hphase _
        cases ht
        have hpushed := h.pushed
        rw [owing_of_not_persistence (by rw [hphase]; nofun)] at hpushed
        exact ⟨nofun, hpushed⟩
      · exact absurd ht (by simp)
  | push => exact h.pushAck ht
  | drainAcks call =>
      obtain ⟨acks, _, rfl⟩ := Option.map_eq_some_iff.mp ht
      exact ⟨h.item, h.pushed⟩
  | drainFills call =>
      obtain ⟨fills, hf, rfl⟩ := Option.map_eq_some_iff.mp ht
      obtain ⟨hpushed, hproducer⟩ := drain_spec hf
      refine ⟨fun hphase hitem => h.item hphase (hproducer ▸ hitem), fun hzero => ?_⟩
      have howing : Sinks.owing { s with fills := fills } = s.owing := by
        unfold Sinks.owing
        dsimp only
        rw [hproducer]
      rw [howing]
      dsimp only
      rw [hpushed]
      exact h.pushed hzero

/-- Without drops `fills_` has been given the first of the acks, up to some point. -/
theorem InOrder.constructed (h : InOrder s) (hinv : SinkInv s)
    (hlen : s.constructed.length < 2 ^ 64) (hacks : s.acksDropped = 0)
    (hfills : s.fillsDropped = 0) : s.fills.pushed <+: s.constructed := by
  have hcounts := hinv.dropped hlen
  have hacks : s.acksLost = 0 := by rw [← hcounts.1, hacks, UInt64.toNat_zero]
  have hfills : s.fillsLost = 0 := by rw [← hcounts.2, hfills, UInt64.toNat_zero]
  have hoffered : s.offered <+: s.constructed := by
    unfold SinkInv at hinv
    split at hinv <;> exact ⟨_, hinv.offered hacks⟩
  exact List.IsPrefix.trans ⟨_, h.pushed hfills⟩ hoffered

end HftLob.Engine

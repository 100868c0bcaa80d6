import HftLob.Engine.Inv
import HftLob.Lib.Machine
import HftLob.Ring.Calls

/-!
# Where the acks go

`push_ack` serves two queues. It tries the clients' queue until there is room, or until it
has spun too often; the persistence queue it tries once. The two kinds of overflow are
counted apart, in `acks_dropped_` and `fills_dropped_`.

The queues are the ones of `Ring.Spsc`, with the matcher as their producer and consumers
that take a step whenever they like, or never.

An ack that the clients' queue has no room for leaves `push_ack` early, before the
persistence queue is tried, and is in no count of that side: the one ledger balances in
every run, the other exactly if nothing was dropped from the first.
-/

namespace HftLob.Engine

open HftLob.Book HftLob.Lib HftLob.Ring MatchingEngineConsumer

variable {cap : PoolCapacity}

/-- `AckQueue` is `SpscRingBuffer<OutboundAck, 1u << 16>`. -/
def ackQueue : RingCapacity := ⟨16, by decide⟩

def kMaxSpins : Nat := 10000000

/-- Where the matcher is in `push_ack`. -/
inductive PushPhase where
  | idle
  /-- In `acks_.push(ack)`, at this count of the loop. -/
  | client (ack : OutboundAck) (spins : Nat)
  /-- In `fills_->push(ack)`. -/
  | persistence (ack : OutboundAck)

/-- The matcher with its two queues. -/
structure Sinks (cap : PoolCapacity) where
  engine : MatchingEngineConsumer cap
  acks : SpscRingBuffer OutboundAck
  fills : SpscRingBuffer OutboundAck
  phase : PushPhase
  /-- The acks of the event that are still to be pushed. -/
  rest : List OutboundAck
  acksDropped : UInt64
  fillsDropped : UInt64
  /-- How often each of the two was counted up. -/
  acksLost : Nat
  fillsLost : Nat
  /-- The acks that `push_ack` was called for. -/
  constructed : List OutboundAck
  /-- The acks that `fills_->push` was called for. -/
  offered : List OutboundAck

inductive SinkAction where
  /-- The matcher takes the next event. -/
  | apply (ev : SequencedEvent)
  /-- The matcher's next step in `push_ack`. -/
  | push
  /-- The gateway calls `pop`, or takes its next step in it. -/
  | drainAcks (call : Bool)
  /-- The same for `DbConsumer`. -/
  | drainFills (call : Bool)

namespace Sinks

def init (cap : PoolCapacity) (acksBuffer fillsBuffer : Nat → OutboundAck) : Sinks cap where
  engine := MatchingEngineConsumer.init cap
  acks := SpscRingBuffer.init acksBuffer
  fills := SpscRingBuffer.init fillsBuffer
  phase := .idle
  rest := []
  acksDropped := 0
  fillsDropped := 0
  acksLost := 0
  fillsLost := 0
  constructed := []
  offered := []

/-- A load or store of `push_ack`, with the branch that follows it. -/
def pushAck (s : Sinks cap) : Option (Sinks cap) :=
  match s.phase with
  | .idle =>
      match s.rest with
      | [] => none
      | ack :: rest => (s.acks.startPush ack).map fun acks =>
          { s with acks := acks, phase := .client ack 0, rest := rest,
                   constructed := s.constructed ++ [ack] }
  | .client ack spins =>
      match s.acks.producer with
      | .returned true => (s.fills.startPush ack).map fun fills =>
          { s with fills := fills, phase := .persistence ack, offered := s.offered ++ [ack] }
      | .returned false =>
          if kMaxSpins < spins then
            some { s with phase := .idle, acksDropped := s.acksDropped + 1,
                          acksLost := s.acksLost + 1 }
          else (s.acks.startPush ack).map fun acks =>
            { s with acks := acks, phase := .client ack (spins + 1) }
      | .idle | .loaded _ _ | .storeSlot _ _ | .storeHead _ _ =>
          (s.acks.produce ackQueue).map fun acks => { s with acks := acks }
  | .persistence _ =>
      match s.fills.producer with
      | .returned true => some { s with phase := .idle }
      | .returned false =>
          some { s with phase := .idle, fillsDropped := s.fillsDropped + 1,
                        fillsLost := s.fillsLost + 1 }
      | .idle | .loaded _ _ | .storeSlot _ _ | .storeHead _ _ =>
          (s.fills.produce ackQueue).map fun fills => { s with fills := fills }

def step (s : Sinks cap) : SinkAction → Option (Sinks cap)
  | .apply ev =>
      match s.phase, s.rest with
      | .idle, [] => some { s with engine := (s.engine.apply ev).1, phase := .idle,
                                    rest := (s.engine.apply ev).2 }
      | _, _ => none
  | .push => s.pushAck
  | .drainAcks call =>
      (s.acks.step ackQueue (if call then .pop else .consume)).map
        fun acks => { s with acks := acks }
  | .drainFills call =>
      (s.fills.step ackQueue (if call then .pop else .consume)).map
        fun fills => { s with fills := fills }

end Sinks

/-- The events of a run. -/
def applied (actions : List SinkAction) : List SequencedEvent :=
  actions.filterMap fun
    | .apply ev => some ev
    | _ => none

/-- Every ack is in both ledgers. -/
structure Accounted (s : Sinks cap) : Prop where
  client : s.constructed.length = s.acks.pushed.length + s.acksDropped.toNat
  persistence : s.constructed.length = s.fills.pushed.length + s.fillsDropped.toNat
  offered : s.offered = s.constructed

/-- When the last attempt to push an ack to the clients' queue reads `tail_`, there is room. -/
def FindsRoom (s : Sinks cap) (a : SinkAction) : Prop :=
  a = .push → ∀ ack spins, s.phase = .client ack spins → kMaxSpins < spins →
    ∀ item head, s.acks.producer = .loaded item head → s.acks.stored < ackQueue.size - 1

/-! ## What a step does to a queue -/

section Owed

variable {T : Type} {q q' : SpscRingBuffer T}

/-- One while a call of `push` has not pushed its item. -/
def owed (q : SpscRingBuffer T) : Nat :=
  match q.producer with
  | .returned true => 0
  | .idle | .returned false | .loaded _ _ | .storeSlot _ _ | .storeHead _ _ => 1

theorem owed_of_item {item : T} (h : q.producer.item? = some item) : owed q = 1 := by
  unfold owed
  cases hpr : q.producer with
  | idle => rfl
  | returned b => rw [hpr] at h; exact absurd h (by simp [Producer.item?])
  | loaded item head => rfl
  | storeSlot item head => rfl
  | storeHead item head => rfl

theorem startPush_owed {item : T} (h : q.startPush item = some q') :
    q'.pushed = q.pushed ∧ owed q' = 1 := by
  have hstep : q.step ackQueue (.push item) = some q' := h
  obtain ⟨hitem, hpushed⟩ := push_spec hstep
  exact ⟨hpushed, owed_of_item hitem⟩

theorem startPush_producer {item : T} (h : q.startPush item = some q') :
    q'.producer = .loaded item q.head := by
  unfold SpscRingBuffer.startPush at h
  split at h
  all_goals first | (cases h; rfl) | exact absurd h nofun

/-- A step of `push` pushes the item it owes, or still owes it. -/
theorem produce_owed {ring : RingCapacity} (h : q.produce ring = some q') :
    owed q = 1 ∧ q'.pushed.length + owed q' = q.pushed.length + 1 := by
  obtain ⟨item, hitem, hnext⟩ := produce_spec h
  refine ⟨owed_of_item hitem, ?_⟩
  rcases hnext with ⟨hpushed, hgoes | hfalse⟩ | ⟨hpushed, htrue⟩
  · rw [hpushed, owed_of_item hgoes]
  · rw [hpushed, owed, hfalse]
  · rw [hpushed, owed, htrue, List.length_append]
    rfl

/-- The consumer's steps leave the producer's side alone. -/
theorem drain_spec {ring : RingCapacity} {call : Bool}
    (h : q.step ring (if call then .pop else .consume) = some q') :
    q'.pushed = q.pushed ∧ q'.producer = q.producer := by
  cases call with
  | true =>
      obtain ⟨_, hpushed, hproducer, _⟩ := pop_spec h
      exact ⟨hpushed, hproducer⟩
  | false =>
      obtain ⟨hpushed, hproducer, _⟩ := consumer_spec h
      exact ⟨hpushed, hproducer⟩

end Owed

/-! ## The ledgers -/

namespace Sinks

/-- The last attempt has failed. -/
def Doomed (s : Sinks cap) : Prop :=
  ∃ ack spins, s.phase = .client ack spins ∧ kMaxSpins < spins ∧ s.acks.producer = .returned false

/-- Nothing is lost to the persistence queue, nor about to be. -/
def Clean (s : Sinks cap) : Prop := s.acksLost = 0 ∧ ¬ s.Doomed

end Sinks

open Sinks

/-- Both ledgers, with how much is on its way to each queue and what is not offered yet. -/
structure Ledgers (s : Sinks cap) (toClient toPersistence : Nat) (unoffered : List OutboundAck) :
    Prop where
  acks : SpscInv ackQueue s.acks
  client : s.constructed.length = s.acks.pushed.length + s.acksLost + toClient
  persistence : s.offered.length = s.fills.pushed.length + s.fillsLost + toPersistence
  /-- What was dropped is what was never offered. -/
  dropped : s.constructed.length = s.offered.length + unoffered.length + s.acksLost
  offered : s.acksLost = 0 → s.offered ++ unoffered = s.constructed
  counted : s.acksDropped = UInt64.ofNat s.acksLost ∧ s.fillsDropped = UInt64.ofNat s.fillsLost

def SinkInv (s : Sinks cap) : Prop :=
  match s.phase with
  | .idle => Ledgers s 0 0 []
  | .client ack _ => Ledgers s (owed s.acks) 0 [ack]
  | .persistence _ => Ledgers s 0 (owed s.fills) []

theorem sinkInv_init (cap : PoolCapacity) (acksBuffer fillsBuffer : Nat → OutboundAck) :
    SinkInv (Sinks.init cap acksBuffer fillsBuffer) :=
  ⟨spscInv_init acksBuffer, rfl, rfl, rfl, fun _ => rfl, rfl, rfl⟩

section Step

variable {s t : Sinks cap} {a : SinkAction} {ack : OutboundAck} {spins : Nat}

theorem not_doomed_of_producer (h : s.acks.producer ≠ .returned false) : ¬ s.Doomed :=
  fun ⟨_, _, _, _, hfalse⟩ => h hfalse

theorem not_doomed_of_phase (h : ∀ ack spins, s.phase = .client ack spins → spins ≤ kMaxSpins) :
    ¬ s.Doomed :=
  fun ⟨ack, spins, hphase, hlast, _⟩ => Nat.not_lt.mpr (h ack spins hphase) hlast

theorem findsRoom_of_producer (h : ∀ item head, s.acks.producer ≠ .loaded item head) :
    FindsRoom s a :=
  fun _ _ _ _ _ item head hloaded => absurd hloaded (h item head)

/-- The counters have not wrapped as long as fewer than `2 ^ 64` acks were pushed. -/
theorem SinkInv.dropped (h : SinkInv s) (hlen : s.constructed.length < 2 ^ 64) :
    s.acksDropped.toNat = s.acksLost ∧ s.fillsDropped.toNat = s.fillsLost := by
  have hcounts : s.acksLost ≤ s.constructed.length ∧ s.fillsLost ≤ s.constructed.length
      ∧ s.acksDropped = UInt64.ofNat s.acksLost ∧ s.fillsDropped = UInt64.ofNat s.fillsLost := by
    unfold SinkInv at h
    split at h
    all_goals
      have hpersistence := h.persistence
      have hdropped := h.dropped
      exact ⟨by omega, by omega, h.counted⟩
  obtain ⟨hacks, hfills, hacks', hfills'⟩ := hcounts
  rw [hacks', hfills', UInt64.toNat_ofNat', UInt64.toNat_ofNat', Nat.mod_eq_of_lt (by omega),
    Nat.mod_eq_of_lt (by omega)]
  exact ⟨rfl, rfl⟩

/-- Outside of `push_ack`, the persistence ledger lacks what the clients' queue dropped. -/
theorem SinkInv.accounted_iff (h : SinkInv s) (hidle : s.phase = .idle)
    (hlen : s.constructed.length < 2 ^ 64) : Accounted s ↔ s.Clean := by
  obtain ⟨hacks, hfills⟩ := h.dropped hlen
  rw [SinkInv, hidle] at h
  obtain ⟨_, hclient, hpersistence, hdropped, hoffered, _⟩ := h
  rw [List.length_nil] at hdropped
  rw [List.append_nil] at hoffered
  have hcalm : ¬ s.Doomed := by
    rintro ⟨ack, spins, hphase, _⟩
    exact absurd (hidle.symm.trans hphase) nofun
  constructor
  · intro hacc
    have hledger := hacc.persistence
    exact ⟨by omega, hcalm⟩
  · intro hclean
    have hzero := hclean.1
    exact ⟨by omega, by omega, hoffered hzero⟩

/-- A step that drops nothing and dooms nothing. -/
theorem clean_iff (hroom : FindsRoom s a) (hsame : t.acksLost = s.acksLost)
    (hs : ¬ s.Doomed) (ht : ¬ t.Doomed) : t.Clean ↔ s.Clean ∧ FindsRoom s a := by
  unfold Clean
  rw [hsame]
  exact ⟨fun h => ⟨⟨h.1, hs⟩, hroom⟩, fun h => ⟨h.1.1, ht⟩⟩

/-- Outside of the clients' part of `push_ack` nothing is about to be dropped. -/
theorem clean_iff_of_phase (hphase : ∀ ack spins, s.phase ≠ .client ack spins)
    (hsame : t.acksLost = s.acksLost) (ht : ¬ t.Doomed) :
    t.Clean ↔ s.Clean ∧ FindsRoom s a :=
  clean_iff (fun _ ack spins hclient => absurd hclient (hphase ack spins)) hsame
    (not_doomed_of_phase fun ack spins hclient => absurd hclient (hphase ack spins)) ht

theorem pushAck_idle (h : Ledgers s 0 0 []) (hphase : s.phase = .idle) (ht : s.pushAck = some t) :
    SinkInv t ∧ (t.Clean ↔ s.Clean ∧ FindsRoom s .push) := by
  rw [pushAck, hphase] at ht
  cases hrest : s.rest with
  | nil => rw [hrest] at ht; exact absurd ht nofun
  | cons ack rest =>
      rw [hrest] at ht
      obtain ⟨acks, hstart, rfl⟩ := Option.map_eq_some_iff.mp ht
      obtain ⟨hpushed, howed⟩ := startPush_owed hstart
      obtain ⟨hacks, hclient, hpersistence, hdropped, hoffered, hcounted⟩ := h
      refine ⟨⟨spscInv_step (a := .push ack) hacks hstart, ?_, hpersistence, ?_, ?_, hcounted⟩,
        ?_⟩
      · simp only [howed, hpushed, List.length_append, List.length_singleton]
        omega
      · simp only [List.length_append, List.length_singleton, List.length_nil] at hdropped ⊢
        omega
      · intro hzero
        dsimp only
        rw [← hoffered hzero, List.append_nil]
      · refine clean_iff_of_phase (by rw [hphase]; nofun) rfl (not_doomed_of_phase ?_)
        rintro ack spins ⟨⟩
        exact Nat.zero_le _

/-- Reading `tail_` of a full queue dooms the ack at the last attempt, and only then. -/
theorem clean_read_full {item : OutboundAck} {head : Nat} (hphase : s.phase = .client ack spins)
    (hpr : s.acks.producer = .loaded item head) (hfull : s.acks.stored = ackQueue.size - 1) :
    Clean { s with acks := { s.acks with producer := .returned false }, phase := .client ack spins }
      ↔ s.Clean ∧ FindsRoom s .push := by
  constructor
  · rintro ⟨hzero, hcalm⟩
    refine ⟨⟨hzero, not_doomed_of_producer (by rw [hpr]; nofun)⟩, ?_⟩
    intro _ ack' spins' hclient hlast
    exact absurd ⟨ack', spins', hphase.symm.trans hclient, hlast, rfl⟩ hcalm
  · rintro ⟨⟨hzero, _⟩, hfinds⟩
    refine ⟨hzero, ?_⟩
    rintro ⟨ack', spins', hclient, hlast, _⟩
    have hlt := hfinds rfl ack' spins' (hphase.trans hclient) hlast item head hpr
    omega

/-- A step inside a call of `acks_.push`: the only one that can doom the ack is the one that
reads `tail_`. -/
theorem pushAck_produce (h : Ledgers s (owed s.acks) 0 [ack]) (hphase : s.phase = .client ack spins)
    {acks : SpscRingBuffer OutboundAck} (hq : s.acks.produce ackQueue = some acks) :
    SinkInv { s with acks := acks, phase := .client ack spins }
      ∧ (Clean { s with acks := acks, phase := .client ack spins }
        ↔ s.Clean ∧ FindsRoom s .push) := by
  obtain ⟨hacks, hclient, hpersistence, hdropped, hoffered, hcounted⟩ := h
  obtain ⟨howed, hpushed⟩ := produce_owed hq
  constructor
  · refine ⟨spscInv_step (a := .produce) hacks hq, ?_, hpersistence, hdropped, hoffered, hcounted⟩
    dsimp only
    omega
  · have hok := hacks.producer
    unfold ProducerOk at hok
    unfold SpscRingBuffer.produce at hq
    cases hpr : s.acks.producer with
    | idle => rw [hpr] at hq; exact absurd hq nofun
    | returned b => rw [hpr] at hq; exact absurd hq nofun
    | storeSlot item head =>
        rw [hpr] at hq
        cases hq
        exact clean_iff (findsRoom_of_producer (by rw [hpr]; nofun)) rfl
          (not_doomed_of_producer (by rw [hpr]; nofun)) (not_doomed_of_producer nofun)
    | storeHead item head =>
        rw [hpr] at hq
        cases hq
        exact clean_iff (findsRoom_of_producer (by rw [hpr]; nofun)) rfl
          (not_doomed_of_producer (by rw [hpr]; nofun)) (not_doomed_of_producer nofun)
    | loaded item head =>
        rw [hpr] at hq hok
        dsimp only at hq hok
        subst hok
        split at hq
        · rename_i hfull
          cases hq
          exact clean_read_full hphase hpr (hacks.full_iff_stored.mp hfull)
        · rename_i hfree
          cases hq
          have hroom : s.acks.stored < ackQueue.size - 1 :=
            Nat.lt_of_le_of_ne hacks.stored_le fun hfull => hfree (hacks.full_iff_stored.mpr hfull)
          exact clean_iff (fun _ _ _ _ _ _ _ _ => hroom) rfl
            (not_doomed_of_producer (by rw [hpr]; nofun)) (not_doomed_of_producer nofun)

theorem pushAck_client (h : Ledgers s (owed s.acks) 0 [ack]) (hphase : s.phase = .client ack spins)
    (ht : s.pushAck = some t) : SinkInv t ∧ (t.Clean ↔ s.Clean ∧ FindsRoom s .push) := by
  rw [pushAck, hphase] at ht
  dsimp only at ht
  have hgoes (hmap : (s.acks.produce ackQueue).map
      (fun acks => { s with acks := acks, phase := .client ack spins }) = some t) :
      SinkInv t ∧ (t.Clean ↔ s.Clean ∧ FindsRoom s .push) := by
    obtain ⟨acks, hq, rfl⟩ := Option.map_eq_some_iff.mp hmap
    exact pushAck_produce h hphase hq
  cases hpr : s.acks.producer with
  | idle => rw [hpr] at ht; exact hgoes ht
  | loaded item head => rw [hpr] at ht; exact hgoes ht
  | storeSlot item head => rw [hpr] at ht; exact hgoes ht
  | storeHead item head => rw [hpr] at ht; exact hgoes ht
  | returned pushed =>
      obtain ⟨hacks, hclient, hpersistence, hdropped, hoffered, hcounted⟩ := h
      rw [owed, hpr] at hclient
      rw [hpr] at ht
      cases pushed with
      | true =>
          obtain ⟨fills, hstart, rfl⟩ := Option.map_eq_some_iff.mp ht
          obtain ⟨hpushed, howed⟩ := startPush_owed hstart
          refine ⟨⟨hacks, hclient, ?_, ?_, ?_, hcounted⟩, ?_⟩
          · simp only [howed, hpushed, List.length_append, List.length_singleton]
            omega
          · simp only [List.length_append, List.length_nil]
            exact hdropped
          · intro hzero
            rw [List.append_nil]
            exact hoffered hzero
          · exact clean_iff (findsRoom_of_producer (by rw [hpr]; nofun)) rfl
              (not_doomed_of_producer (by rw [hpr]; nofun))
              (not_doomed_of_producer (by dsimp only; rw [hpr]; nofun))
      | false =>
          dsimp only at ht
          split at ht
          · -- the ack is dropped, and the persistence queue never sees it
            rename_i hlast
            cases ht
            refine ⟨⟨hacks, hclient, hpersistence, ?_, nofun, ?_, hcounted.2⟩, ?_⟩
            · simp only [List.length_singleton, List.length_nil] at hdropped ⊢
              omega
            · dsimp only
              rw [hcounted.1, UInt64.ofNat_add]
              rfl
            · exact ⟨fun hc => absurd hc.1 (Nat.succ_ne_zero _),
                fun hc => absurd ⟨ack, spins, hphase, hlast, hpr⟩ hc.1.2⟩
          · rename_i hmore
            obtain ⟨acks, hstart, rfl⟩ := Option.map_eq_some_iff.mp ht
            obtain ⟨hpushed, howed⟩ := startPush_owed hstart
            refine ⟨⟨spscInv_step (a := .push ack) hacks hstart, ?_, hpersistence, hdropped,
              hoffered, hcounted⟩, ?_⟩
            · simp only [howed, hpushed]
              exact hclient
            · refine clean_iff (findsRoom_of_producer (by rw [hpr]; nofun)) rfl
                (not_doomed_of_phase ?_) (not_doomed_of_producer ?_)
              · intro ack' spins' hclient'
                cases hphase.symm.trans hclient'
                exact Nat.not_lt.mp hmore
              · dsimp only
                rw [startPush_producer hstart]
                nofun

theorem pushAck_persistence (h : Ledgers s 0 (owed s.fills) [])
    (hphase : s.phase = .persistence ack) (ht : s.pushAck = some t) :
    SinkInv t ∧ (t.Clean ↔ s.Clean ∧ FindsRoom s .push) := by
  have hno : ∀ ack spins, s.phase ≠ .client ack spins := by rw [hphase]; nofun
  obtain ⟨hacks, hclient, hpersistence, hdropped, hoffered, hcounted⟩ := h
  rw [pushAck, hphase] at ht
  dsimp only at ht
  have hgoes (hmap : (s.fills.produce ackQueue).map
      (fun fills => { s with fills := fills, phase := .persistence ack }) = some t) :
      SinkInv t ∧ (t.Clean ↔ s.Clean ∧ FindsRoom s .push) := by
    obtain ⟨fills, hq, rfl⟩ := Option.map_eq_some_iff.mp hmap
    obtain ⟨howed, hpushed⟩ := produce_owed hq
    refine ⟨⟨hacks, hclient, ?_, hdropped, hoffered, hcounted⟩,
      clean_iff_of_phase hno rfl (not_doomed_of_phase nofun)⟩
    dsimp only
    omega
  cases hpr : s.fills.producer with
  | idle => rw [hpr] at ht; exact hgoes ht
  | loaded item head => rw [hpr] at ht; exact hgoes ht
  | storeSlot item head => rw [hpr] at ht; exact hgoes ht
  | storeHead item head => rw [hpr] at ht; exact hgoes ht
  | returned pushed =>
      rw [owed, hpr] at hpersistence
      rw [hpr] at ht
      cases pushed with
      | true =>
          cases ht
          exact ⟨⟨hacks, hclient, hpersistence, hdropped, hoffered, hcounted⟩,
            clean_iff_of_phase hno rfl (not_doomed_of_phase nofun)⟩
      | false =>
          cases ht
          refine ⟨⟨hacks, hclient, hpersistence, hdropped, hoffered, hcounted.1, ?_⟩,
            clean_iff_of_phase hno rfl (not_doomed_of_phase nofun)⟩
          dsimp only
          rw [hcounted.2, UInt64.ofNat_add]
          rfl

/-- What the consumers do changes neither ledger. -/
theorem SinkInv.drained (h : SinkInv s) {acks fills : SpscRingBuffer OutboundAck}
    (hspsc : SpscInv ackQueue s.acks → SpscInv ackQueue acks)
    (hacks : acks.pushed = s.acks.pushed ∧ acks.producer = s.acks.producer)
    (hfills : fills.pushed = s.fills.pushed ∧ fills.producer = s.fills.producer)
    (ha : a ≠ .push) :
    SinkInv { s with acks := acks, fills := fills }
      ∧ (Clean { s with acks := acks, fills := fills } ↔ s.Clean ∧ FindsRoom s a) := by
  have howed : owed acks = owed s.acks ∧ owed fills = owed s.fills := by
    simp only [owed, hacks.2, hfills.2, and_self]
  have hkeep : ∀ toClient toPersistence unoffered, Ledgers s toClient toPersistence unoffered →
      Ledgers { s with acks := acks, fills := fills } toClient toPersistence unoffered := by
    intro toClient toPersistence unoffered h
    obtain ⟨hinv, hclient, hpersistence, hdropped, hoffered, hcounted⟩ := h
    rw [← hacks.1] at hclient
    rw [← hfills.1] at hpersistence
    exact ⟨hspsc hinv, hclient, hpersistence, hdropped, hoffered, hcounted⟩
  constructor
  · unfold SinkInv at h ⊢
    dsimp only
    rw [howed.1, howed.2]
    split at h
    · exact hkeep _ _ _ h
    · exact hkeep _ _ _ h
    · exact hkeep _ _ _ h
  · unfold Clean Doomed
    dsimp only
    rw [hacks.2]
    exact ⟨fun hclean => ⟨hclean, fun hpush => absurd hpush ha⟩, And.left⟩

/-- **One step** keeps both ledgers, and loses nothing exactly if it finds room. -/
theorem SinkInv.step (h : SinkInv s) (ht : s.step a = some t) :
    SinkInv t ∧ (t.Clean ↔ s.Clean ∧ FindsRoom s a) := by
  cases a with
  | apply ev =>
      dsimp only [Sinks.step] at ht
      split at ht
      · rename_i hphase hrest
        cases ht
        rw [SinkInv, hphase] at h
        exact ⟨⟨h.acks, h.client, h.persistence, h.dropped, h.offered, h.counted⟩,
          clean_iff_of_phase (by rw [hphase]; nofun) rfl (not_doomed_of_phase nofun)⟩
      · exact absurd ht nofun
  | push =>
      unfold SinkInv at h
      cases hphase : s.phase with
      | idle => rw [hphase] at h; exact pushAck_idle h hphase ht
      | client ack spins => rw [hphase] at h; exact pushAck_client h hphase ht
      | persistence ack => rw [hphase] at h; exact pushAck_persistence h hphase ht
  | drainAcks call =>
      obtain ⟨acks, hdrain, rfl⟩ := Option.map_eq_some_iff.mp ht
      exact h.drained (fun hinv => spscInv_step hinv hdrain) (drain_spec hdrain) ⟨rfl, rfl⟩ nofun
  | drainFills call =>
      obtain ⟨fills, hdrain, rfl⟩ := Option.map_eq_some_iff.mp ht
      exact h.drained id ⟨rfl, rfl⟩ (drain_spec hdrain) nofun

end Step

/-! ## A queue that nobody drains -/

/-- A `CancelOrder` for an order that does not exist. -/
def strayCancel (seqNum : UInt64) : SequencedEvent :=
  { seqNum := seqNum, ingressTsNs := 0, sequenceTsNs := 0, type := .cancelOrder,
    producer := .gateway, sessionId := 5, clientOrderId := 1, side := 0, price := 0, quantity := 0 }

/-- The event, and then so many steps of `push_ack`. -/
def strayRun (seqNum : UInt64) (pushes : Nat) : List SinkAction :=
  .apply (strayCancel seqNum) :: List.replicate pushes .push

theorem apply_strayCancel (cap : PoolCapacity) (seqNum : UInt64) :
    (MatchingEngineConsumer.init cap).apply (strayCancel seqNum)
      = (MatchingEngineConsumer.init cap, [cancelAck (strayCancel seqNum) 0 .rejected]) :=
  applyCancelOrder_unknown (e := MatchingEngineConsumer.init cap) (Finmap.lookup_empty _)

/-- Both queues hold the first `n` acks, and nothing was dropped. -/
structure Stuffed (n : Nat) (s : Sinks cap) : Prop where
  engine : s.engine = MatchingEngineConsumer.init cap
  phase : s.phase = .idle
  rest : s.rest = []
  acks : SpscInv ackQueue s.acks
  fills : SpscInv ackQueue s.fills
  ready : s.acks.producer.item? = none ∧ s.fills.producer.item? = none
  popped : s.acks.popped = [] ∧ s.fills.popped = []
  pushed : s.acks.pushed.length = n ∧ s.fills.pushed.length = n
  constructed : s.constructed.length = n
  dropped : s.acksDropped = 0 ∧ s.fillsDropped = 0
  lost : s.acksLost = 0

theorem startPush_ready {T : Type} {q : SpscRingBuffer T} (h : q.producer.item? = none) (item : T) :
    q.startPush item = some { q with producer := .loaded item q.head } := by
  unfold SpscRingBuffer.startPush
  cases hpr : q.producer with
  | idle => rfl
  | returned b => rfl
  | loaded item head => rw [hpr] at h; exact absurd h nofun
  | storeSlot item head => rw [hpr] at h; exact absurd h nofun
  | storeHead item head => rw [hpr] at h; exact absurd h nofun

theorem produce_full {T : Type} {q : SpscRingBuffer T} {item : T}
    (hfull : SpscRingBuffer.nextIndex ackQueue q.head = q.tail) :
    SpscRingBuffer.produce ackQueue { q with producer := .loaded item q.head }
      = some { q with producer := .returned false } := by
  dsimp only [SpscRingBuffer.produce]
  rw [if_pos hfull]

theorem produce_free {T : Type} {q : SpscRingBuffer T} {item : T}
    (hfree : SpscRingBuffer.nextIndex ackQueue q.head ≠ q.tail) :
    SpscRingBuffer.produce ackQueue { q with producer := .loaded item q.head }
      = some { q with producer := .storeSlot item q.head } := by
  dsimp only [SpscRingBuffer.produce]
  rw [if_neg hfree]

/-- The queue after a call of `push` that nothing interferes with. -/
def pushedTo {T : Type} (q : SpscRingBuffer T) (item : T) : SpscRingBuffer T :=
  { q with head := SpscRingBuffer.nextIndex ackQueue q.head
           buffer := Function.update q.buffer q.head item
           producer := .returned true
           pushed := q.pushed ++ [item] }

theorem spscInv_pushedTo {T : Type} {q : SpscRingBuffer T} (h : SpscInv ackQueue q) (item : T)
    (hready : q.producer.item? = none)
    (hfree : SpscRingBuffer.nextIndex ackQueue q.head ≠ q.tail) :
    SpscInv ackQueue (pushedTo q item) := by
  have hloaded := spscInv_step (a := .push item) h (startPush_ready hready item)
  have hchecked := spscInv_step (a := .produce) hloaded (produce_free hfree)
  have hwritten := spscInv_step (a := .produce) hchecked rfl
  exact spscInv_step (a := .produce) hwritten rfl

section Undrained

variable {s : Sinks cap} {ack : OutboundAck}

theorem step_start {rest : List OutboundAck} (hphase : s.phase = .idle)
    (hrest : s.rest = ack :: rest) (hready : s.acks.producer.item? = none) :
    s.step .push = some { s with
      acks := { s.acks with producer := .loaded ack s.acks.head }, phase := .client ack 0,
      rest := rest, constructed := s.constructed ++ [ack] } := by
  rw [Sinks.step, pushAck, hphase]
  dsimp only
  rw [hrest]
  dsimp only
  rw [startPush_ready hready]
  rfl

/-- The first attempt at a full queue. -/
theorem exec_first {rest : List OutboundAck} (hphase : s.phase = .idle)
    (hrest : s.rest = ack :: rest) (hready : s.acks.producer.item? = none)
    (hfull : SpscRingBuffer.nextIndex ackQueue s.acks.head = s.acks.tail) :
    Machine.exec Sinks.step s [.push, .push] = some { s with
      acks := { s.acks with producer := .returned false }, phase := .client ack 0, rest := rest,
      constructed := s.constructed ++ [ack] } := by
  refine Machine.exec_cons.mpr ⟨_, step_start hphase hrest hready,
    Machine.exec_cons.mpr ⟨_, ?_, rfl⟩⟩
  dsimp only [Sinks.step, pushAck]
  rw [produce_full hfull]
  rfl

/-- An attempt at a full queue leaves the queue as it was. -/
theorem exec_attempt {spins : Nat} (hphase : s.phase = .client ack spins)
    (hmore : spins ≤ kMaxSpins) (hpr : s.acks.producer = .returned false)
    (hfull : SpscRingBuffer.nextIndex ackQueue s.acks.head = s.acks.tail) :
    Machine.exec Sinks.step s [.push, .push]
      = some { s with phase := .client ack (spins + 1) } := by
  have hready : s.acks.producer.item? = none := by rw [hpr]; rfl
  have hsame : { s.acks with producer := .returned false } = s.acks := by rw [← hpr]
  have hretry : s.step .push = some { s with
      acks := { s.acks with producer := .loaded ack s.acks.head },
      phase := .client ack (spins + 1) } := by
    rw [Sinks.step, pushAck, hphase]
    dsimp only
    rw [hpr]
    dsimp only
    rw [if_neg (Nat.not_lt.mpr hmore), startPush_ready hready]
    rfl
  refine Machine.exec_cons.mpr ⟨_, hretry, Machine.exec_cons.mpr ⟨_, ?_, rfl⟩⟩
  dsimp only [Sinks.step, pushAck]
  rw [produce_full hfull, hsame]
  rfl

/-- **The ack is dropped** after as many failures as `push_ack` allows. -/
theorem exec_spin (left : Nat) :
    ∀ {s : Sinks cap} {spins : Nat}, s.phase = .client ack spins → spins + left = kMaxSpins + 1 →
      s.acks.producer = .returned false →
      SpscRingBuffer.nextIndex ackQueue s.acks.head = s.acks.tail →
      Machine.exec Sinks.step s (List.replicate (2 * left + 1) .push)
        = some { s with phase := .idle, acksDropped := s.acksDropped + 1,
                        acksLost := s.acksLost + 1 } := by
  induction left with
  | zero =>
      intro s spins hphase hleft hpr _
      refine Machine.exec_cons.mpr ⟨_, ?_, rfl⟩
      rw [Sinks.step, pushAck, hphase]
      dsimp only
      rw [hpr]
      dsimp only
      rw [if_pos (by omega)]
  | succ left ih =>
      intro s spins hphase hleft hpr hfull
      have hsplit : List.replicate (2 * (left + 1) + 1) SinkAction.push
          = [.push, .push] ++ List.replicate (2 * left + 1) .push := rfl
      rw [hsplit]
      refine Machine.exec_append (exec_attempt hphase (by omega) hpr hfull) ?_
      exact ih rfl (by omega) hpr hfull

/-- With room in the clients' queue, `push_ack` comes to the other one. -/
theorem exec_client {rest : List OutboundAck} (hphase : s.phase = .idle)
    (hrest : s.rest = ack :: rest) (hready : s.acks.producer.item? = none)
    (hfree : SpscRingBuffer.nextIndex ackQueue s.acks.head ≠ s.acks.tail) :
    Machine.exec Sinks.step s (List.replicate 4 .push) = some { s with
      acks := pushedTo s.acks ack, phase := .client ack 0, rest := rest,
      constructed := s.constructed ++ [ack] } := by
  have hcheck : Sinks.step { s with
      acks := { s.acks with producer := .loaded ack s.acks.head }, phase := .client ack 0,
      rest := rest, constructed := s.constructed ++ [ack] } .push = some { s with
      acks := { s.acks with producer := .storeSlot ack s.acks.head }, phase := .client ack 0,
      rest := rest, constructed := s.constructed ++ [ack] } := by
    dsimp only [Sinks.step, pushAck]
    rw [produce_free hfree]
    rfl
  exact Machine.exec_cons.mpr ⟨_, step_start hphase hrest hready,
    Machine.exec_cons.mpr ⟨_, hcheck, rfl⟩⟩

/-- And with room there too, it pushes the ack and is done. -/
theorem exec_persistence (hphase : s.phase = .client ack 0)
    (hpushed : s.acks.producer = .returned true) (hready : s.fills.producer.item? = none)
    (hfree : SpscRingBuffer.nextIndex ackQueue s.fills.head ≠ s.fills.tail) :
    Machine.exec Sinks.step s (List.replicate 5 .push) = some { s with
      fills := pushedTo s.fills ack, phase := .idle, offered := s.offered ++ [ack] } := by
  have hstart : s.step .push = some { s with
      fills := { s.fills with producer := .loaded ack s.fills.head }, phase := .persistence ack,
      offered := s.offered ++ [ack] } := by
    rw [Sinks.step, pushAck, hphase]
    dsimp only
    rw [hpushed]
    dsimp only
    rw [startPush_ready hready]
    rfl
  have hcheck : Sinks.step { s with
      fills := { s.fills with producer := .loaded ack s.fills.head }, phase := .persistence ack,
      offered := s.offered ++ [ack] } .push = some { s with
      fills := { s.fills with producer := .storeSlot ack s.fills.head }, phase := .persistence ack,
      offered := s.offered ++ [ack] } := by
    dsimp only [Sinks.step, pushAck]
    rw [produce_free hfree]
    rfl
  exact Machine.exec_cons.mpr ⟨_, hstart, Machine.exec_cons.mpr ⟨_, hcheck, rfl⟩⟩

end Undrained

theorem stuffed_init (cap : PoolCapacity) (acksBuffer fillsBuffer : Nat → OutboundAck) :
    Stuffed 0 (Sinks.init cap acksBuffer fillsBuffer) :=
  ⟨rfl, rfl, rfl, spscInv_init acksBuffer, spscInv_init fillsBuffer, ⟨rfl, rfl⟩, ⟨rfl, rfl⟩,
    ⟨rfl, rfl⟩, rfl, ⟨rfl, rfl⟩, rfl⟩

section Stuffed

variable {n : Nat} {s : Sinks cap}

theorem Stuffed.full_iff (h : Stuffed n s) :
    (SpscRingBuffer.nextIndex ackQueue s.acks.head = s.acks.tail ↔ n + 1 = ackQueue.size)
      ∧ (SpscRingBuffer.nextIndex ackQueue s.fills.head = s.fills.tail
        ↔ n + 1 = ackQueue.size) := by
  rw [h.acks.full_iff, h.fills.full_iff, h.popped.1, h.popped.2, h.pushed.1, h.pushed.2,
    List.length_nil, Nat.zero_add]
  exact ⟨Iff.rfl, Iff.rfl⟩

theorem Stuffed.apply (h : Stuffed n s) (seqNum : UInt64) :
    s.step (.apply (strayCancel seqNum))
      = some { s with rest := [cancelAck (strayCancel seqNum) 0 .rejected] } := by
  rw [Sinks.step, h.phase, h.rest, h.engine]
  dsimp only
  rw [apply_strayCancel]

/-- A stray cancel takes one more place in each queue. -/
theorem Stuffed.next (h : Stuffed n s) (hroom : n + 1 < ackQueue.size) (seqNum : UInt64) :
    ∃ t, Machine.exec Sinks.step s (strayRun seqNum 9) = some t ∧ Stuffed (n + 1) t := by
  have hacks : SpscRingBuffer.nextIndex ackQueue s.acks.head ≠ s.acks.tail :=
    fun hfull => Nat.ne_of_lt hroom (h.full_iff.1.mp hfull)
  have hfills : SpscRingBuffer.nextIndex ackQueue s.fills.head ≠ s.fills.tail :=
    fun hfull => Nat.ne_of_lt hroom (h.full_iff.2.mp hfull)
  have hfirst := exec_client (s := { s with rest := [cancelAck (strayCancel seqNum) 0 .rejected] })
    h.phase rfl h.ready.1 hacks
  refine ⟨_, Machine.exec_cons.mpr ⟨_, h.apply seqNum,
    Machine.exec_append hfirst (exec_persistence rfl rfl h.ready.2 hfills)⟩, ?_⟩
  exact {
    engine := h.engine
    phase := rfl
    rest := rfl
    acks := spscInv_pushedTo h.acks _ h.ready.1 hacks
    fills := spscInv_pushedTo h.fills _ h.ready.2 hfills
    ready := ⟨rfl, rfl⟩
    popped := h.popped
    pushed := by
      simp only [pushedTo, List.length_append, List.length_singleton, h.pushed.1, h.pushed.2,
        and_self]
    constructed := by
      simp only [List.length_append, List.length_singleton, h.constructed]
    dropped := h.dropped
    lost := h.lost }

theorem Stuffed.run (h : Stuffed 0 s) (hroom : n < ackQueue.size) :
    ∃ t, Machine.exec Sinks.step s
        ((List.range n).flatMap fun i => strayRun (UInt64.ofNat (i + 1)) 9)
        = some t ∧ Stuffed n t := by
  induction n with
  | zero => exact ⟨s, rfl, h⟩
  | succ n ih =>
      obtain ⟨t, ht, hstuffed⟩ := ih (Nat.lt_of_succ_lt hroom)
      obtain ⟨u, hu, hnext⟩ := hstuffed.next hroom (UInt64.ofNat (n + 1))
      refine ⟨u, ?_, hnext⟩
      rw [List.range_succ, List.flatMap_append, List.flatMap_singleton]
      exact Machine.exec_append ht hu

/-- One more is dropped from the clients' queue, and the other does not see it. -/
theorem Stuffed.overflow (h : Stuffed n s) (hfull : n + 1 = ackQueue.size) (seqNum : UInt64) :
    ∃ t, Machine.exec Sinks.step s (strayRun seqNum (2 * kMaxSpins + 5)) = some t
      ∧ t.phase = .idle ∧ t.rest = [] ∧ t.constructed.length = n + 1
      ∧ t.acks.pushed.length = n ∧ t.acksDropped = 1
      ∧ t.fills.pushed.length = n ∧ t.fillsDropped = 0 := by
  have hnext := h.full_iff.1.mpr hfull
  have hattempt := exec_first (s := { s with rest := [cancelAck (strayCancel seqNum) 0 .rejected] })
    h.phase rfl h.ready.1 hnext
  have hspin := exec_spin (kMaxSpins + 1) (s := { s with
    acks := { s.acks with producer := .returned false },
    phase := .client (cancelAck (strayCancel seqNum) 0 .rejected) 0, rest := [],
    constructed := s.constructed ++ [cancelAck (strayCancel seqNum) 0 .rejected] })
    rfl (Nat.zero_add _) rfl hnext
  have hcount : strayRun seqNum (2 * kMaxSpins + 5) = .apply (strayCancel seqNum)
      :: ([.push, .push] ++ List.replicate (2 * (kMaxSpins + 1) + 1) .push) := by
    have hsum : 2 * kMaxSpins + 5 = 2 * (kMaxSpins + 1) + 1 + 1 + 1 := by omega
    rw [strayRun, hsum, List.replicate_succ, List.replicate_succ]
    rfl
  rw [hcount]
  refine ⟨_, Machine.exec_cons.mpr ⟨_, h.apply seqNum, Machine.exec_append hattempt hspin⟩,
    rfl, rfl, ?_, h.pushed.1, ?_, h.pushed.2, h.dropped.2⟩
  · simp only [List.length_append, List.length_singleton, h.constructed]
  · simp only [h.dropped.1, UInt64.zero_add]

end Stuffed

/-! ## Whole runs -/

theorem pushAck_constructed {s t : Sinks cap} (ht : s.pushAck = some t) :
    t.engine = s.engine ∧ t.constructed ++ t.rest = s.constructed ++ s.rest := by
  unfold pushAck at ht
  split at ht
  · split at ht
    · exact absurd ht nofun
    · rename_i hrest
      obtain ⟨acks, _, rfl⟩ := Option.map_eq_some_iff.mp ht
      refine ⟨rfl, ?_⟩
      dsimp only
      rw [hrest, List.append_assoc, List.singleton_append]
  · split at ht
    case h_2 =>
      split at ht
      · cases ht
        exact ⟨rfl, rfl⟩
      · obtain ⟨acks, _, rfl⟩ := Option.map_eq_some_iff.mp ht
        exact ⟨rfl, rfl⟩
    all_goals
      obtain ⟨queue, _, rfl⟩ := Option.map_eq_some_iff.mp ht
      exact ⟨rfl, rfl⟩
  · split at ht
    case h_1 => cases ht; exact ⟨rfl, rfl⟩
    case h_2 => cases ht; exact ⟨rfl, rfl⟩
    all_goals
      obtain ⟨fills, _, rfl⟩ := Option.map_eq_some_iff.mp ht
      exact ⟨rfl, rfl⟩

/-- `push_ack` is called for the acks of the engine, in the order in which it makes them. -/
theorem exec_constructed {actions : List SinkAction} {s u : Sinks cap}
    (hrun : Machine.exec Sinks.step s actions = some u) :
    u.constructed ++ u.rest
      = s.constructed ++ s.rest ++ (s.engine.replay (applied actions)).2 := by
  induction actions generalizing s with
  | nil =>
      cases hrun
      exact (List.append_nil _).symm
  | cons a actions ih =>
      obtain ⟨t, ht, hrun⟩ := Machine.exec_cons.mp hrun
      rw [ih hrun]
      cases a with
      | apply ev =>
          dsimp only [Sinks.step] at ht
          split at ht
          · rename_i hphase hrest
            cases ht
            have hcons : applied (.apply ev :: actions) = ev :: applied actions := rfl
            rw [hcons, replay, replay, Mealy.run_cons, hrest, List.append_nil, List.append_assoc]
          · exact absurd ht (by simp)
      | push =>
          obtain ⟨hengine, hconstructed⟩ := pushAck_constructed ht
          rw [hengine, hconstructed]
          rfl
      | drainAcks call =>
          obtain ⟨acks, _, rfl⟩ := Option.map_eq_some_iff.mp ht
          rfl
      | drainFills call =>
          obtain ⟨fills, _, rfl⟩ := Option.map_eq_some_iff.mp ht
          rfl

theorem sinkInv_exec {acksBuffer fillsBuffer : Nat → OutboundAck} {actions : List SinkAction}
    {s : Sinks cap}
    (hrun : Machine.exec Sinks.step (Sinks.init cap acksBuffer fillsBuffer) actions = some s) :
    SinkInv s :=
  Machine.exec_preserves (fun _ _ _ h ht => (h.step ht).1) actions _ s
    (sinkInv_init cap acksBuffer fillsBuffer) hrun

/--
**Both ledgers balance exactly if the clients' queue always has room in the end.** In every
run, with the consumers of the two queues free to take their steps or not, at every point
outside of `push_ack` up to `2 ^ 64` acks. The clients' ledger balances in any case.
-/
theorem acks_accounted_iff (cap : PoolCapacity) (acksBuffer fillsBuffer : Nat → OutboundAck)
    (actions : List SinkAction) (s : Sinks cap)
    (hrun : Machine.exec Sinks.step (Sinks.init cap acksBuffer fillsBuffer) actions = some s)
    (hidle : s.phase = .idle) (hlen : s.constructed.length < 2 ^ 64) :
    s.constructed ++ s.rest = ((MatchingEngineConsumer.init cap).replay (applied actions)).2
      ∧ s.constructed.length = s.acks.pushed.length + s.acksDropped.toNat
      ∧ (Accounted s
        ↔ Machine.Along Sinks.step FindsRoom (Sinks.init cap acksBuffer fillsBuffer) actions) := by
  have hinv := sinkInv_exec hrun
  have hclean := Machine.exec_iff_along (fun _ _ _ h ht => SinkInv.step h ht) actions _ s
    (sinkInv_init cap acksBuffer fillsBuffer) hrun
  refine ⟨exec_constructed hrun, ?_, ?_⟩
  · have hcount := (hinv.dropped hlen).1
    rw [SinkInv, hidle] at hinv
    rw [hcount]
    exact hinv.client
  · rw [hinv.accounted_iff hidle hlen, hclean]
    exact and_iff_right ⟨rfl, not_doomed_of_producer nofun⟩

/-- One ack, and nobody drains either queue. -/
theorem acks_accounted_iff_of_one :
    let pool : PoolCapacity := ⟨4, by decide⟩
    let ack := cancelAck (strayCancel 1) 0 .rejected
    ∃ s, Machine.exec Sinks.step (Sinks.init pool (fun _ => ack) (fun _ => ack)) (strayRun 1 9)
        = some s ∧ s.phase = .idle ∧ Accounted s
      ∧ Machine.Along Sinks.step FindsRoom (Sinks.init pool (fun _ => ack) (fun _ => ack))
          (strayRun 1 9) := by
  intro pool ack
  obtain ⟨s, hrun, hstuffed⟩ := (stuffed_init pool (fun _ => ack) (fun _ => ack)).next
    (show 0 + 1 < ackQueue.size by decide) 1
  have hidle := hstuffed.phase
  have hcalm : ¬ s.Doomed := not_doomed_of_phase (by rw [hidle]; nofun)
  have hlen : s.constructed.length < 2 ^ 64 := by
    rw [hstuffed.constructed]
    decide
  have hacc : Accounted s :=
    ((sinkInv_exec hrun).accounted_iff hidle hlen).mpr ⟨hstuffed.lost, hcalm⟩
  obtain ⟨_, _, hiff⟩ := acks_accounted_iff pool (fun _ => ack) (fun _ => ack) (strayRun 1 9) s
    hrun hidle hlen
  exact ⟨s, hrun, hidle, hacc, hiff.mp hacc⟩

/-- 65536 cancels of an order that does not exist, and nobody takes an ack from either queue:
the last ack is dropped from the first, and never offered to the second. -/
theorem undrained_acks_unaccounted :
    let pool : PoolCapacity := ⟨4, by decide⟩
    let ack := cancelAck (strayCancel 0) 0 .rejected
    ∃ s, Machine.exec Sinks.step (Sinks.init pool (fun _ => ack) (fun _ => ack))
        (((List.range 65535).flatMap fun i => strayRun (UInt64.ofNat (i + 1)) 9)
          ++ strayRun 65536 (2 * kMaxSpins + 5)) = some s
      ∧ s.phase = .idle ∧ s.rest = [] ∧ s.constructed.length = 65536
      ∧ s.acks.pushed.length = 65535 ∧ s.acksDropped = 1
      ∧ s.fills.pushed.length = 65535 ∧ s.fillsDropped = 0 := by
  intro pool ack
  have hsize : ackQueue.size = 65536 := rfl
  obtain ⟨t, ht, hstuffed⟩ := (stuffed_init pool (fun _ => ack) (fun _ => ack)).run
    (n := 65535) (by rw [hsize]; decide)
  obtain ⟨s, hs, hrest⟩ := hstuffed.overflow hsize.symm 65536
  exact ⟨s, Machine.exec_append ht hs, hrest⟩

end HftLob.Engine

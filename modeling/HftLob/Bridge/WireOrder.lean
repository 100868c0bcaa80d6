import HftLob.Bridge.Codec
import HftLob.Lib.Machine

/-!
# Requests on the wire

Any number of HTTP handler threads are in `_send_frame` at once. Each adds one to `self.seq`,
packs a header with what `self.seq` is by then, and sends the frame. Only the last of these is
under a lock, so the number a frame carries and its place on the wire are decided at different
times.

`self.seq += 1` is a load and a store, between which other threads can run. The session is
logged on, so `connected` is set; `sendall` does not fail.
-/

namespace HftLob.Bridge

open HftLob.Wire HftLob.Gateway HftLob.Lib HftLob.Lib.Struct

/-- Where a thread is in `_send_frame`. -/
inductive SendPhase where
  | idle
  | called (msg : ClientMsg)
  /-- `self.seq` was read as this. -/
  | loaded (msg : ClientMsg) (seq : Nat)
  /-- `self.seq` was set to this. -/
  | stored (msg : ClientMsg) (seq : Nat)
  | packed (frame : Frame)
  deriving DecidableEq

structure Link (τ : Type) where
  seq : Nat
  thread : τ → SendPhase
  /-- What `sendall` has put on the socket. -/
  wire : List Frame

inductive SendStep (τ : Type) where
  | call (t : τ) (msg : ClientMsg)
  | load (t : τ)
  | store (t : τ)
  | pack (t : τ)
  | send (t : τ)

/-- The frame with this number in its header, unless the number does not fit. -/
def withHeader (msg : ClientMsg) (seq : Nat) : Option Frame :=
  if seq < 2 ^ 32 then some (msg.frame (UInt32.ofNat seq)) else none

/-- That is what the bridge packs. -/
theorem packFrame_eq_withHeader (msg : ClientMsg) (seq : Nat) :
    packFrame msg.type msg.body seq = (withHeader msg seq).map Frame.bytes := by
  unfold withHeader
  by_cases h : seq < 2 ^ 32
  · have hseq : ((msg.frame (UInt32.ofNat seq)).seqNum.toNat : Int) = seq := by
      rw [Int.natCast_inj]
      exact UInt32.toNat_ofNat_of_lt' h
    have htype : (msg.frame (UInt32.ofNat seq)).msgType = msg.type.byte := rfl
    have hpacked := packFrame_eq _ htype
    rw [hseq] at hpacked
    rw [if_pos h]
    exact hpacked
  · have hbig : packInt 4 (seq : Int) = none := if_neg fun hfits => h hfits.2
    rw [if_neg h]
    simp [packFrame, headerFmt, pack, Code.pack, hbig]

namespace Link

variable {τ : Type} [DecidableEq τ]

/-- `_connect_and_pump` has sent the logon. -/
def init (clientId : UInt64) : Link τ :=
  ⟨1, fun _ => .idle, [ClientMsg.frame 1 (.logon ⟨clientId, 5000, 0⟩)]⟩

def goto (s : Link τ) (t : τ) (phase : SendPhase) : Link τ :=
  { s with thread := Function.update s.thread t phase }

def step (s : Link τ) : SendStep τ → Option (Link τ)
  | .call t msg =>
      match s.thread t with
      | .idle => some (s.goto t (.called msg))
      | _ => none
  | .load t =>
      match s.thread t with
      | .called msg => some (s.goto t (.loaded msg s.seq))
      | _ => none
  | .store t =>
      match s.thread t with
      | .loaded msg seq => some { s.goto t (.stored msg (seq + 1)) with seq := seq + 1 }
      | _ => none
  | .pack t =>
      match s.thread t with
      | .stored msg _ =>
          match withHeader msg s.seq with
          | some frame => some (s.goto t (.packed frame))
          | none => some (s.goto t .idle) -- `struct.error` ends the request
      | _ => none
  | .send t =>
      match s.thread t with
      | .packed frame => some { s.goto t .idle with wire := s.wire ++ [frame] }
      | _ => none

end Link

/-! ## When the numbers are in order -/

/-- The number a thread has and has not sent yet. -/
def SendPhase.number : SendPhase → Option Nat
  | stored _ seq => some seq
  | packed frame => some frame.seqNum.toNat
  | idle | called _ | loaded _ _ => none

variable {τ : Type}

/-- A thread adds to the counter, packs and sends when it is its turn: nobody has stored to
the counter since it read it, nobody since it stored to it, and nobody has a smaller number
left to send. -/
def InTurn (s : Link τ) : SendStep τ → Prop
  | .store t => ∀ msg seq, s.thread t = .loaded msg seq → s.seq = seq
  | .pack t => ∀ msg seq, s.thread t = .stored msg seq → s.seq = seq
  | .send t => ∀ t' n n', (s.thread t).number = some n → (s.thread t').number = some n' → n ≤ n'
  | .call _ _ | .load _ => True

/-- The numbers on the wire are those up to its length, and every number given out after
them is with one thread. -/
structure TurnInv (s : Link τ) : Prop where
  wire : s.wire.map (fun f => f.seqNum.toNat) = List.range' 1 s.wire.length
  sent : s.wire.length ≤ s.seq
  number : ∀ t n, (s.thread t).number = some n → s.wire.length < n ∧ n ≤ s.seq
  distinct : ∀ t t' n, (s.thread t).number = some n → (s.thread t').number = some n → t = t'
  /-- No number is lost but those too big for a header. -/
  held : ∀ n, s.wire.length < n → n ≤ s.seq → n < 2 ^ 32 → ∃ t, (s.thread t).number = some n

theorem turnInv_init (clientId : UInt64) : TurnInv (Link.init clientId : Link τ) where
  wire := rfl
  sent := Nat.le_refl 1
  number := fun t n h => absurd h (by simp [Link.init, SendPhase.number])
  distinct := fun t t' n h => absurd h (by simp [Link.init, SendPhase.number])
  held := by
    intro n hlt hle _
    simp only [Link.init, List.length_singleton] at hlt hle
    omega

variable [DecidableEq τ] {s s' : Link τ} {t : τ}

theorem number_goto (s : Link τ) (t t' : τ) (phase : SendPhase) :
    ((s.goto t phase).thread t').number
      = if t' = t then phase.number else (s.thread t').number := by
  unfold Link.goto
  by_cases h : t' = t
  · subst h
    simp
  · simp [h]

/-- A step that gives out no number and sends nothing. -/
theorem TurnInv.goto (h : TurnInv s) {phase : SendPhase}
    (hnumber : phase.number = (s.thread t).number) : TurnInv (s.goto t phase) := by
  have hsame : ∀ t', ((s.goto t phase).thread t').number = (s.thread t').number := by
    intro t'
    rw [number_goto]
    split
    · rename_i he
      rw [he, hnumber]
    · rfl
  refine ⟨h.wire, h.sent, ?_, ?_, ?_⟩
  · intro t' n hn
    rw [hsame] at hn
    exact h.number t' n hn
  · intro t₁ t₂ n h₁ h₂
    rw [hsame] at h₁ h₂
    exact h.distinct t₁ t₂ n h₁ h₂
  · intro n hlt hle hfits
    obtain ⟨t', ht'⟩ := h.held n hlt hle hfits
    exact ⟨t', by rw [hsame]; exact ht'⟩

/-- The next number is given out. -/
theorem TurnInv.store (h : TurnInv s) {msg : ClientMsg} (hnone : (s.thread t).number = none) :
    TurnInv { s.goto t (.stored msg (s.seq + 1)) with seq := s.seq + 1 } := by
  have hnumber : ∀ t', ((s.goto t (.stored msg (s.seq + 1))).thread t').number
      = if t' = t then some (s.seq + 1) else (s.thread t').number :=
    fun t' => number_goto s t t' _
  refine ⟨h.wire, Nat.le_succ_of_le h.sent, ?_, ?_, ?_⟩
  · intro t' n hn
    dsimp only at hn ⊢
    rw [hnumber] at hn
    split at hn
    · cases hn
      exact ⟨Nat.lt_succ_of_le h.sent, Nat.le_refl _⟩
    · obtain ⟨hlt, hle⟩ := h.number t' n hn
      exact ⟨hlt, Nat.le_succ_of_le hle⟩
  · intro t₁ t₂ n h₁ h₂
    dsimp only at h₁ h₂
    rw [hnumber] at h₁ h₂
    by_cases he₁ : t₁ = t
    · by_cases he₂ : t₂ = t
      · rw [he₁, he₂]
      · rw [if_pos he₁] at h₁
        rw [if_neg he₂] at h₂
        cases h₁
        have := (h.number t₂ _ h₂).2
        omega
    · rw [if_neg he₁] at h₁
      by_cases he₂ : t₂ = t
      · rw [if_pos he₂] at h₂
        cases h₂
        have := (h.number t₁ _ h₁).2
        omega
      · rw [if_neg he₂] at h₂
        exact h.distinct t₁ t₂ n h₁ h₂
  · intro n hlt hle hfits
    dsimp only at hlt hle ⊢
    by_cases hnew : n = s.seq + 1
    · exact ⟨t, by rw [hnumber, if_pos rfl, hnew]⟩
    · obtain ⟨t', ht'⟩ := h.held n hlt (by omega) hfits
      have hne : t' ≠ t := by
        rintro rfl
        rw [hnone] at ht'
        exact absurd ht' (by simp)
      exact ⟨t', by rw [hnumber, if_neg hne]; exact ht'⟩

/-- A number too big for a header is given up. -/
theorem TurnInv.giveUp (h : TurnInv s) (hnumber : (s.thread t).number = some s.seq)
    (hbig : ¬ s.seq < 2 ^ 32) : TurnInv (s.goto t .idle) := by
  have hothers : ∀ t' n, ((s.goto t .idle).thread t').number = some n →
      (s.thread t').number = some n := by
    intro t' n hn
    rw [number_goto] at hn
    split at hn
    · exact absurd hn (by simp [SendPhase.number])
    · exact hn
  refine ⟨h.wire, h.sent, fun t' n hn => h.number t' n (hothers t' n hn), ?_, ?_⟩
  · exact fun t₁ t₂ n h₁ h₂ => h.distinct t₁ t₂ n (hothers t₁ n h₁) (hothers t₂ n h₂)
  · intro n hlt hle hfits
    obtain ⟨t', ht'⟩ := h.held n hlt hle hfits
    have hne : t' ≠ t := by
      rintro rfl
      rw [hnumber] at ht'
      cases ht'
      exact hbig hfits
    exact ⟨t', by rw [number_goto, if_neg hne]; exact ht'⟩

/-- The smallest number not on the wire is sent. -/
theorem TurnInv.send (h : TurnInv s) {frame : Frame} (hthread : s.thread t = .packed frame)
    (hturn : InTurn s (.send t)) :
    TurnInv { s.goto t .idle with wire := s.wire ++ [frame] } := by
  have hnumber : (s.thread t).number = some frame.seqNum.toNat := by
    rw [hthread]
    rfl
  obtain ⟨hlt, hle⟩ := h.number t _ hnumber
  -- somebody has the number after those on the wire, and nobody has a smaller one than this
  have hnext : frame.seqNum.toNat = s.wire.length + 1 := by
    have hfits : s.wire.length + 1 < 2 ^ 32 := by
      have := frame.seqNum.toNat_lt
      omega
    obtain ⟨t', ht'⟩ := h.held (s.wire.length + 1) (Nat.lt_succ_self _) (by omega) hfits
    have := hturn t' _ _ hnumber ht'
    omega
  have hothers : ∀ t' n, ((s.goto t .idle).thread t').number = some n →
      t' ≠ t ∧ (s.thread t').number = some n := by
    intro t' n hn
    rw [number_goto] at hn
    split at hn
    · exact absurd hn (by simp [SendPhase.number])
    · rename_i hne
      exact ⟨hne, hn⟩
  refine ⟨?_, ?_, ?_, ?_, ?_⟩
  · simp only [List.map_append, List.map_cons, List.map_nil, List.length_append,
      List.length_singleton, h.wire, hnext, List.range'_concat, Nat.one_mul, Nat.add_comm]
  · simp only [List.length_append, List.length_singleton]
    exact hnext ▸ hle
  · intro t' n hn
    obtain ⟨hne, hn⟩ := hothers t' n hn
    obtain ⟨hlt', hle'⟩ := h.number t' n hn
    simp only [List.length_append, List.length_singleton]
    have hdiff : n ≠ s.wire.length + 1 := by
      rintro rfl
      exact hne (h.distinct t' t _ hn (hnext ▸ hnumber))
    exact ⟨by omega, hle'⟩
  · intro t₁ t₂ n h₁ h₂
    exact h.distinct t₁ t₂ n (hothers t₁ n h₁).2 (hothers t₂ n h₂).2
  · intro n hlt' hle' hfits
    simp only [List.length_append, List.length_singleton] at hlt'
    obtain ⟨t', ht'⟩ := h.held n (by omega) hle' hfits
    have hne : t' ≠ t := by
      rintro rfl
      rw [hnumber] at ht'
      cases ht'
      omega
    exact ⟨t', by rw [number_goto, if_neg hne]; exact ht'⟩

theorem turnInv_step {a : SendStep τ} (h : TurnInv s) (hturn : InTurn s a)
    (hs : s.step a = some s') : TurnInv s' := by
  cases a with
  | call t msg =>
      dsimp only [Link.step] at hs
      split at hs
      · rename_i hthread
        cases hs
        exact h.goto (by rw [hthread]; rfl)
      · exact absurd hs (by simp)
  | load t =>
      dsimp only [Link.step] at hs
      split at hs
      · rename_i hthread
        cases hs
        exact h.goto (by rw [hthread]; rfl)
      · exact absurd hs (by simp)
  | store t =>
      dsimp only [Link.step] at hs
      split at hs
      · rename_i msg seq hthread
        cases hs
        have hseq : s.seq = seq := hturn msg seq hthread
        subst hseq
        exact h.store (by rw [hthread]; rfl)
      · exact absurd hs (by simp)
  | pack t =>
      dsimp only [Link.step] at hs
      split at hs
      · rename_i msg seq hthread
        have hseq : s.seq = seq := hturn msg seq hthread
        have hnumber : (s.thread t).number = some s.seq := by
          rw [hthread, hseq]
          rfl
        unfold withHeader at hs
        by_cases hfits : s.seq < 2 ^ 32
        · rw [if_pos hfits] at hs
          cases hs
          refine h.goto ?_
          rw [hnumber]
          exact congrArg some (UInt32.toNat_ofNat_of_lt' hfits)
        · rw [if_neg hfits] at hs
          cases hs
          exact h.giveUp hnumber hfits
      · exact absurd hs (by simp)
  | send t =>
      dsimp only [Link.step] at hs
      split at hs
      · rename_i frame hthread
        cases hs
        exact h.send hthread hturn
      · exact absurd hs (by simp)

/-! ## What the gateway sees -/

/-- Every frame carries the number the session expects, and no gap is reported, whenever
they come in. -/
def InSequence : SessionState → List Frame → Prop
  | _, [] => True
  | session, f :: fs => f.seqNum = session.expectedPeerSeq ∧ ∀ now,
      (session.trackInboundSeq f.seqNum now).2 = none
        ∧ InSequence (session.trackInboundSeq f.seqNum now).1 fs

theorem inSequence_of_range : ∀ (frames : List Frame) (k : Nat) (session : SessionState),
    frames.map (fun f => f.seqNum.toNat) = List.range' k frames.length →
    session.expectedPeerSeq = UInt32.ofNat k → InSequence session frames := by
  intro frames
  induction frames with
  | nil => exact fun _ _ _ _ => trivial
  | cons f fs ih =>
      intro k session hnumbers hexpected
      rw [List.map_cons, List.length_cons, List.range'_succ, List.cons.injEq] at hnumbers
      have hf : f.seqNum = session.expectedPeerSeq := by
        rw [hexpected, ← hnumbers.1, UInt32.ofNat_toNat]
      refine ⟨hf, fun now => ?_⟩
      have htrack : session.trackInboundSeq f.seqNum now
          = ({ session with lastPeerActivity := now
                            expectedPeerSeq := session.expectedPeerSeq + 1 }, none) := if_pos hf
      rw [htrack]
      refine ⟨rfl, ih (k + 1) _ hnumbers.2 ?_⟩
      show session.expectedPeerSeq + 1 = _
      rw [hexpected, UInt32.ofNat_add]
      rfl

/-- **Requests made in turn are in sequence**: the frames on the wire carry the numbers
1, 2, 3 and so on, the first being the logon's, and the session that accepts the logon finds
every other frame in sequence. -/
theorem wire_in_sequence (clientId : UInt64) (steps : List (SendStep τ)) (s : Link τ)
    (hrun : Machine.exec Link.step (Link.init clientId) steps = some s)
    (hturn : Machine.Along Link.step InTurn (Link.init clientId) steps) :
    s.wire.map (fun f => f.seqNum.toNat) = List.range' 1 s.wire.length
      ∧ ∀ (session : SessionState) (now : Int), session.status = .awaitingLogon →
        InSequence (session.handleLogon clientId 5000 1 now).1 s.wire.tail := by
  have h : TurnInv s := Machine.exec_invariant (fun _ _ _ h hC ht => turnInv_step h hC ht) steps
    _ s (turnInv_init clientId) hturn hrun
  refine ⟨h.wire, fun session now hawaiting => inSequence_of_range _ 2 _ ?_ ?_⟩
  · have htail := congrArg List.tail h.wire
    rw [← List.map_tail, List.tail_range'] at htail
    rw [htail, List.length_tail]
  · rw [SessionState.handleLogon, if_neg (by simp [hawaiting])]
    rfl

/-- Two requests at once, that reach the lock in the order of their numbers. -/
theorem wire_in_sequence_two_threads :
    let steps : List (SendStep Bool) :=
      [.call true (.cancelOrder ⟨8⟩), .call false (.cancelOrder ⟨9⟩), .load false, .store false,
       .pack false, .load true, .store true, .send false, .pack true, .send true]
    ∃ s, Machine.exec Link.step (Link.init 424242) steps = some s
      ∧ Machine.Along Link.step InTurn (Link.init 424242) steps
      ∧ s.wire.map (fun f => f.seqNum.toNat) = [1, 2, 3]
      ∧ InSequence (SessionState.handleLogon {} 424242 5000 1 0).1 s.wire.tail := by
  intro steps
  have hturn : Machine.Along Link.step InTurn (Link.init 424242) steps := by
    refine ⟨trivial, trivial, trivial, ?_, ?_, trivial, ?_, ?_, ?_, ?_, trivial⟩
    · rintro _ _ ⟨⟩
      rfl
    · rintro _ _ ⟨⟩
      rfl
    · rintro _ _ ⟨⟩
      rfl
    · rintro (_ | _) _ _ ⟨⟩ ⟨⟩ <;> decide
    · rintro _ _ ⟨⟩
      rfl
    · rintro (_ | _) _ _ ⟨⟩ ⟨⟩
      decide
  obtain ⟨hwire, hsession⟩ := wire_in_sequence 424242 steps _ rfl hturn
  exact ⟨_, rfl, hturn, hwire, hsession {} 0 rfl⟩

/-- Two requests at once: the second takes the lock first. The gateway asks for number 2
again, and then gets it and takes it for a duplicate. -/
theorem overtaking_request_reported_as_gap :
    let steps : List (SendStep Bool) :=
      [.call false (.cancelOrder ⟨8⟩), .load false, .store false, .pack false,
       .call true (.cancelOrder ⟨9⟩), .load true, .store true, .pack true, .send true, .send false]
    let session := (SessionState.handleLogon {} 424242 5000 1 0).1
    ∃ s, Machine.exec Link.step (Link.init 424242) steps = some s
      ∧ s.wire.map (fun f => f.seqNum.toNat) = [1, 3, 2]
      ∧ (session.trackInboundSeq 3 0).2 = some (2, 2)
      ∧ (session.trackInboundSeq 3 0).1.expectedPeerSeq = 4
      ∧ ¬ InSequence session s.wire.tail := by
  refine ⟨_, rfl, rfl, by decide, by decide, fun h => ?_⟩
  exact absurd h.1 (by decide)

end HftLob.Bridge

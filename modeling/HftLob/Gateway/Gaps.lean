import HftLob.Lib.Gaps
import HftLob.Gateway.Session

/-!
# Which sequence numbers a session reports missing

Short of the largest 32-bit number, behind which the counter would start again,
`track_inbound_seq` is the receiver of numbered messages of the library.
-/

namespace HftLob.Gateway

open HftLob.Lib HftLob.Lib.Gaps

namespace SessionState

/-- `track_inbound_seq` on every number in turn, each with the time it came: the gaps
reported. -/
def trackAll (s : SessionState) (inbound : List (UInt32 × Int)) :
    SessionState × List (UInt32 × UInt32) :=
  Mealy.run (fun s m => ((s.trackInboundSeq m.1 m.2).1, (s.trackInboundSeq m.1 m.2).2.toList))
    s inbound

/-- A reported range as the numbers it bounds. -/
def gapBounds (gap : UInt32 × UInt32) : Nat × Nat := (gap.1.toNat, gap.2.toNat)

/-- Without the wrap, one number is handled as the receiver handles it. -/
theorem trackInboundSeq_receive (s : SessionState) {seqNum : UInt32} (now : Int)
    (hseq : seqNum.toNat < 2 ^ 32 - 1) :
    receive s.expectedPeerSeq.toNat seqNum.toNat
      = ((s.trackInboundSeq seqNum now).1.expectedPeerSeq.toNat,
         (s.trackInboundSeq seqNum now).2.toList.map gapBounds) := by
  have hsucc : (seqNum + 1).toNat = seqNum.toNat + 1 := by
    rw [UInt32.toNat_add, UInt32.toNat_one, Nat.mod_eq_of_lt (by omega)]
  unfold receive trackInboundSeq
  dsimp only
  by_cases heq : seqNum = s.expectedPeerSeq
  · rw [if_pos heq, if_pos (congrArg UInt32.toNat heq), ← heq, hsucc]
    rfl
  · have hne : seqNum.toNat ≠ s.expectedPeerSeq.toNat := fun h => heq (UInt32.toNat_inj.mp h)
    rw [if_neg heq, if_neg hne]
    by_cases hgt : seqNum > s.expectedPeerSeq
    · have hlt : s.expectedPeerSeq.toNat < seqNum.toNat := UInt32.lt_iff_toNat_lt.mp hgt
      have hone : (1 : UInt32) ≤ seqNum := by
        rw [UInt32.le_iff_toNat_le, UInt32.toNat_one]
        omega
      have hpred : (seqNum - 1).toNat = seqNum.toNat - 1 := by
        rw [UInt32.toNat_sub_of_le _ _ hone, UInt32.toNat_one]
      rw [if_pos hgt, if_pos hlt]
      dsimp only
      rw [hsucc, Option.toList_some, List.map_singleton, gapBounds, hpred]
    · have hle : ¬ s.expectedPeerSeq.toNat < seqNum.toNat :=
        fun h => hgt (UInt32.lt_iff_toNat_lt.mpr h)
      rw [if_neg hgt, if_neg hle]
      rfl

theorem trackAll_run (s : SessionState) {inbound : List (UInt32 × Int)}
    (hbound : ∀ m ∈ inbound, m.1.toNat < 2 ^ 32 - 1) :
    Mealy.run receive s.expectedPeerSeq.toNat (inbound.map (fun m => m.1.toNat))
      = ((s.trackAll inbound).1.expectedPeerSeq.toNat, (s.trackAll inbound).2.map gapBounds) :=
  Mealy.run_map (fun s : SessionState => s.expectedPeerSeq.toNat) (fun m => m.1.toNat) gapBounds
    (fun s m hm => trackInboundSeq_receive s m.2 (hbound m hm)) s

end SessionState

open SessionState

/--
**Gap detection is exact.**

After a logon that was accepted with the number `seq`, the number expected is one past
the largest seen, no reported gap is empty, and a number behind `seq` that has been
passed is in exactly one gap if a larger one came before it or it never came, and in
none otherwise.
-/
theorem gap_detection_exact (s₀ : SessionState) (clientId : UInt64) (ms seq : UInt32) (t₀ : Int)
    (inbound : List (UInt32 × Int)) (hlogon : (s₀.handleLogon clientId ms seq t₀).2 = true)
    (hseq : seq.toNat < 2 ^ 32 - 1) (hbound : ∀ m ∈ inbound, m.1.toNat < 2 ^ 32 - 1) :
    let s := (s₀.handleLogon clientId ms seq t₀).1
    let numbers := inbound.map (fun m => m.1.toNat)
    let gaps := (s.trackAll inbound).2.map gapBounds
    (s.trackAll inbound).1.expectedPeerSeq.toNat = 1 + numbers.foldl max seq.toNat
      ∧ (∀ gap ∈ gaps, gap.1 ≤ gap.2)
      ∧ ∀ n, seq.toNat < n → n ≤ numbers.foldl max seq.toNat →
          (Overtaken n numbers → gaps.countP (Covers n) = 1)
            ∧ (¬ Overtaken n numbers → gaps.countP (Covers n) = 0) := by
  intro s numbers gaps
  have hawait := (handleLogon_status s₀ clientId ms seq t₀).1.mp hlogon
  have hexpected : s.expectedPeerSeq.toNat = seq.toNat + 1 := by
    have hs : s.expectedPeerSeq = seq + 1 := by simp [s, handleLogon, hawait]
    rw [hs, UInt32.toNat_add, UInt32.toNat_one, Nat.mod_eq_of_lt (by omega)]
  have hrun := trackAll_run s hbound
  rw [hexpected] at hrun
  have hlast : (Mealy.run receive (seq.toNat + 1) numbers).1 = 1 + numbers.foldl max seq.toNat := by
    rw [run_expected, foldl_succ_max]
  have hgaps : gaps = (Mealy.run receive (seq.toNat + 1) numbers).2 := by rw [hrun]
  refine ⟨?_, ?_, ?_⟩
  · rw [← hlast, hrun]
  · intro gap hgap
    rw [hgaps] at hgap
    exact (run_gaps hgap).2
  · intro n hlo hhi
    rw [hgaps]
    exact run_covers hlo (by rw [hlast]; omega)

/-- A logon with 4; then 7 overtakes 5 and 6, and 5 arrives late. -/
theorem gap_detection_exact_late_arrival :
    let s₀ : SessionState := {}
    let inbound : List (UInt32 × Int) := [(7, 1), (5, 2), (8, 3), (8, 4)]
    let s := (s₀.handleLogon 1 1000 4 0).1
    let numbers := inbound.map (fun m => m.1.toNat)
    let gaps := (s.trackAll inbound).2.map gapBounds
    (s₀.handleLogon 1 1000 4 0).2 = true ∧ gaps = [(5, 6)]
      ∧ (s.trackAll inbound).1.expectedPeerSeq.toNat = 1 + numbers.foldl max 4
      ∧ (∀ gap ∈ gaps, gap.1 ≤ gap.2)
      ∧ ∀ n, 4 < n → n ≤ numbers.foldl max 4 →
          (Overtaken n numbers → gaps.countP (Covers n) = 1)
            ∧ (¬ Overtaken n numbers → gaps.countP (Covers n) = 0) :=
  ⟨rfl, rfl, gap_detection_exact {} 1 1000 4 0 _ rfl (by decide) (by decide)⟩

end HftLob.Gateway

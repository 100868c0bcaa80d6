import HftLob.Lib.Mealy

/-!
# Finding gaps in numbered messages

A receiver that numbers its messages keeps only the number it expects next. A larger
number opens a gap, which it reports, and moves the expectation past it; a smaller one
is a repetition. Gaps are reported as closed intervals.

Each number is reported at most once, and it is reported exactly when a larger one
came first.
-/

namespace HftLob.Lib.Gaps

open HftLob.Lib

/-- The number expected after `n`, and the gap in front of it if there is one. -/
def receive (expected n : Nat) : Nat × List (Nat × Nat) :=
  if n = expected then (expected + 1, [])
  else if expected < n then (n + 1, [(expected, n - 1)])
  else (expected, [])

def Covers (n : Nat) (gap : Nat × Nat) : Prop := gap.1 ≤ n ∧ n ≤ gap.2

instance (n : Nat) (gap : Nat × Nat) : Decidable (Covers n gap) :=
  inferInstanceAs (Decidable (_ ∧ _))

/-- A larger number came before the first `n`, or `n` never came. -/
def Overtaken (n : Nat) (ns : List Nat) : Prop :=
  (∃ i m, ns[i]? = some m ∧ n < m ∧ n ∉ ns.take i) ∨ n ∉ ns

variable {e m n : Nat} {ns : List Nat}

theorem receive_expected (e n : Nat) : (receive e n).1 = max e (n + 1) := by
  unfold receive
  split
  · rename_i h
    omega
  · split
    · dsimp only
      omega
    · dsimp only
      omega

theorem receive_gap {gap : Nat × Nat} (h : gap ∈ (receive e n).2) :
    e < n ∧ gap = (e, n - 1) := by
  unfold receive at h
  split at h
  · simp at h
  · split at h
    · rename_i hlt
      exact ⟨hlt, List.mem_singleton.mp h⟩
    · simp at h

/-- What is expected is past everything that came. -/
theorem run_expected (e : Nat) (ns : List Nat) :
    (Mealy.run receive e ns).1 = ns.foldl (fun e n => max e (n + 1)) e := by
  induction ns generalizing e with
  | nil => rfl
  | cons n ns ih => rw [Mealy.run_cons, ih, receive_expected, List.foldl_cons]

theorem foldl_succ_max (s : Nat) (ns : List Nat) :
    ns.foldl (fun e n => max e (n + 1)) (s + 1) = 1 + ns.foldl max s := by
  induction ns generalizing s with
  | nil => simp [Nat.add_comm]
  | cons n ns ih =>
      have hmax : max (s + 1) (n + 1) = max s n + 1 := by omega
      rw [List.foldl_cons, List.foldl_cons, hmax, ih]

/-- A reported gap is not empty, and nothing in it was expected earlier. -/
theorem run_gaps {gap : Nat × Nat} (h : gap ∈ (Mealy.run receive e ns).2) :
    e ≤ gap.1 ∧ gap.1 ≤ gap.2 := by
  induction ns generalizing e with
  | nil => simp at h
  | cons n ns ih =>
      rw [Mealy.run_cons] at h
      rcases List.mem_append.mp h with h | h
      · obtain ⟨hlt, rfl⟩ := receive_gap h
        dsimp only
        omega
      · have hstep := receive_expected e n
        have hlater := ih h
        omega

/-- No later gap has a number below the one expected. -/
theorem run_covers_none (hn : n < e) :
    (Mealy.run receive e ns).2.countP (Covers n) = 0 := by
  rw [List.countP_eq_zero]
  intro gap hgap hc
  have hge := (run_gaps hgap).1
  have hcov : Covers n gap := of_decide_eq_true hc
  have hlo := hcov.1
  omega

/-! ## Which numbers are overtaken -/

theorem not_overtaken_head : ¬ Overtaken n (n :: ns) := by
  rintro (⟨i, m, hm, hlt, hin⟩ | hin)
  · cases i with
    | zero =>
        rw [List.getElem?_cons_zero, Option.some.injEq] at hm
        omega
    | succ i => exact hin (by simp)
  · exact hin (by simp)

theorem overtaken_of_head_gt (h : n < m) : Overtaken n (m :: ns) :=
  Or.inl ⟨0, m, rfl, h, by simp⟩

/-- A smaller number in front does not matter. -/
theorem overtaken_cons_of_lt (h : m < n) : Overtaken n (m :: ns) ↔ Overtaken n ns := by
  have hne : n ≠ m := by omega
  constructor
  · rintro (⟨i, k, hk, hlt, hin⟩ | hin)
    · cases i with
      | zero =>
          rw [List.getElem?_cons_zero, Option.some.injEq] at hk
          omega
      | succ i =>
          rw [List.getElem?_cons_succ] at hk
          rw [List.take_succ_cons, List.mem_cons, not_or] at hin
          exact Or.inl ⟨i, k, hk, hlt, hin.2⟩
    · rw [List.mem_cons, not_or] at hin
      exact Or.inr hin.2
  · rintro (⟨i, k, hk, hlt, hin⟩ | hin)
    · refine Or.inl ⟨i + 1, k, hk, hlt, ?_⟩
      rw [List.take_succ_cons, List.mem_cons, not_or]
      exact ⟨hne, hin⟩
    · refine Or.inr ?_
      rw [List.mem_cons, not_or]
      exact ⟨hne, hin⟩

/--
**Gaps are exact.**

A number that was expected at the beginning or later and has been passed is in one
reported gap if it was overtaken, and in none otherwise.
-/
theorem run_covers (hlo : e ≤ n) (hhi : n < (Mealy.run receive e ns).1) :
    (Overtaken n ns → (Mealy.run receive e ns).2.countP (Covers n) = 1)
      ∧ (¬ Overtaken n ns → (Mealy.run receive e ns).2.countP (Covers n) = 0) := by
  induction ns generalizing e with
  | nil =>
      rw [Mealy.run_nil] at hhi
      dsimp only at hhi
      omega
  | cons m ns ih =>
      rw [Mealy.run_cons] at hhi ⊢
      dsimp only at hhi ⊢
      rw [List.countP_append]
      rcases Nat.lt_trichotomy m n with hlt | rfl | hgt
      · -- a number below `n`: nothing is decided yet, and its own gap ends before `n`
        have hnext : (receive e m).1 ≤ n := by
          rw [receive_expected]
          omega
        have hnone : (receive e m).2.countP (Covers n) = 0 := by
          rw [List.countP_eq_zero]
          intro gap hgap hc
          obtain ⟨hem, rfl⟩ := receive_gap hgap
          have hcov : Covers n (e, m - 1) := of_decide_eq_true hc
          have hle : n ≤ m - 1 := hcov.2
          omega
        rw [hnone, Nat.zero_add, overtaken_cons_of_lt hlt]
        exact ih hnext hhi
      · -- `n` itself comes first: the gap in front of it ends before it
        have hnone : (receive e m).2.countP (Covers m) = 0 := by
          rw [List.countP_eq_zero]
          intro gap hgap hc
          obtain ⟨hem, rfl⟩ := receive_gap hgap
          have hcov : Covers m (e, m - 1) := of_decide_eq_true hc
          have hle : m ≤ m - 1 := hcov.2
          omega
        have hlater : m < (receive e m).1 := by
          rw [receive_expected]
          omega
        refine ⟨fun ho => absurd ho not_overtaken_head, fun _ => ?_⟩
        rw [hnone, run_covers_none hlater]
      · -- a larger number: its gap has `n`, and later ones start behind it
        have hlater : n < (receive e m).1 := by
          rw [receive_expected]
          omega
        have hgap : receive e m = (m + 1, [(e, m - 1)]) := by
          unfold receive
          rw [if_neg (by omega), if_pos (by omega)]
        have hcov : Covers n (e, m - 1) := ⟨hlo, by dsimp only; omega⟩
        refine ⟨fun _ => ?_, fun ho => absurd (overtaken_of_head_gt hgt) ho⟩
        rw [run_covers_none hlater, hgap, List.countP_singleton, if_pos (decide_eq_true hcov)]

end HftLob.Lib.Gaps

import Mathlib.Algebra.BigOperators.Group.Finset.Basic
import Mathlib.Algebra.BigOperators.Ring.Finset
import Mathlib.Order.Interval.Finset.Nat

/-!
# Counting what is jumped over

A follower of numbered messages that expects `next n` after `n`, whatever it expected
before. A number above the expected one is a jump over those in between, and the follower
adds up its jumps.

Summed by number instead, the total says what it is worth. A number that never comes,
below one that does, is jumped over at least once; what the total has beyond that is the
surplus: jumps over numbers that do come, and further jumps over lost ones.
-/

namespace HftLob.Lib.Jumps

open Finset

/-- All the jumps of a run that expects `e` first. -/
def total (next : Nat → Nat) : Nat → List Nat → Nat
  | _, [] => 0
  | e, n :: ns => (n - e) + total next (next n) ns

/-- How often the run jumps over `c`. -/
def passes (next : Nat → Nat) (c : Nat) : Nat → List Nat → Nat
  | _, [] => 0
  | e, n :: ns => (if e ≤ c ∧ c < n then 1 else 0) + passes next c (next n) ns

def largest (ns : List Nat) : Nat := ns.foldr max 0

/-- The numbers from `first` on, below the largest that came, that did not come. -/
def lost (first : Nat) (ns : List Nat) : Finset Nat :=
  (range (largest ns)).filter (fun c => first ≤ c ∧ c ∉ ns)

/-- Jumps over numbers that came, and all jumps but one over each that is lost. -/
def surplus (next : Nat → Nat) (first : Nat) (ns : List Nat) : Nat :=
  ∑ c ∈ range (largest ns),
    (passes next c first ns - if first ≤ c ∧ c ∉ ns then 1 else 0)

variable {next : Nat → Nat} {c e n : Nat} {ns : List Nat}

theorem le_largest (h : n ∈ ns) : n ≤ largest ns := by
  induction ns with
  | nil => simp at h
  | cons m ns ih =>
      have hcons : largest (m :: ns) = max m (largest ns) := rfl
      rcases List.mem_cons.mp h with rfl | h
      · omega
      · have := ih h
        omega

theorem exists_gt_of_lt_largest (h : c < largest ns) : ∃ n ∈ ns, c < n := by
  induction ns with
  | nil => simp [largest] at h
  | cons m ns ih =>
      have hcons : largest (m :: ns) = max m (largest ns) := rfl
      rcases Nat.lt_or_ge c m with hlt | hge
      · exact ⟨m, List.mem_cons_self, hlt⟩
      · obtain ⟨n, hn, hcn⟩ := ih (by omega)
        exact ⟨n, List.mem_cons_of_mem m hn, hcn⟩

/-- A jump is as long as the numbers it jumps over are many. -/
theorem sum_jump {N : Nat} (h : n ≤ N) :
    ∑ c ∈ range N, (if e ≤ c ∧ c < n then 1 else 0) = n - e := by
  have hset : (range N).filter (fun c => e ≤ c ∧ c < n) = Ico e n := by
    ext c
    rw [mem_filter, mem_range, mem_Ico]
    constructor
    · exact And.right
    · intro hc
      exact ⟨by omega, hc⟩
  rw [← card_filter, hset, Nat.card_Ico]

theorem total_eq_sum_passes {N : Nat} (h : ∀ n ∈ ns, n ≤ N) :
    total next e ns = ∑ c ∈ range N, passes next c e ns := by
  induction ns generalizing e with
  | nil => simp [total, passes]
  | cons n ns ih =>
      have hrest : ∀ m ∈ ns, m ≤ N := fun m hm => h m (List.mem_cons_of_mem n hm)
      simp only [total, passes]
      rw [sum_add_distrib, sum_jump (h n List.mem_cons_self), ← ih hrest]

/-- **What is lost is jumped over**: the run gets past it without coming by. -/
theorem passes_pos (hnext : ∀ n c, n < c → next n ≤ c) (hle : e ≤ c) (hnot : c ∉ ns)
    (hgt : ∃ n ∈ ns, c < n) : 0 < passes next c e ns := by
  induction ns generalizing e with
  | nil => simp at hgt
  | cons m ns ih =>
      rw [List.mem_cons, not_or] at hnot
      rw [passes]
      by_cases hm : c < m
      · rw [if_pos ⟨hle, hm⟩]
        omega
      · -- still below `c`: the jump over it comes later
        have hgt' : ∃ n ∈ ns, c < n := by
          obtain ⟨n, hn, hcn⟩ := hgt
          rcases List.mem_cons.mp hn with rfl | hn
          · exact absurd hcn hm
          · exact ⟨n, hn, hcn⟩
        have hlater := ih (hnext m c (by omega)) hnot.2 hgt'
        omega

/-- **The total is what is lost and the surplus.** -/
theorem total_eq_lost_add_surplus (hnext : ∀ n c, n < c → next n ≤ c) (first : Nat)
    (ns : List Nat) : total next first ns = (lost first ns).card + surplus next first ns := by
  have hbound : ∀ n ∈ ns, n ≤ largest ns := fun n hn => le_largest hn
  rw [total_eq_sum_passes hbound, lost, card_filter, surplus, ← sum_add_distrib]
  refine sum_congr rfl fun c hc => ?_
  by_cases hlost : first ≤ c ∧ c ∉ ns
  · have hpos : 0 < passes next c first ns := passes_pos hnext hlost.1 hlost.2
      (exists_gt_of_lt_largest (mem_range.mp hc))
    rw [if_pos hlost]
    omega
  · rw [if_neg hlost]
    omega

theorem lost_card_le (first : Nat) (ns : List Nat) : (lost first ns).card ≤ largest ns := by
  have hle := card_filter_le (range (largest ns)) (fun c => first ≤ c ∧ c ∉ ns)
  rwa [card_range] at hle

/-! ## Runs in order -/

/-- What is behind the run is not jumped over any more. -/
theorem passes_of_behind (hnext : ∀ n ∈ ns, next n = n + 1) (he : c < e)
    (hle : ∀ n ∈ ns, c ≤ n) : passes next c e ns = 0 := by
  induction ns generalizing e with
  | nil => rfl
  | cons n ns ih =>
      have hn := hle n List.mem_cons_self
      have hnn := hnext n List.mem_cons_self
      have hrest : passes next c (next n) ns = 0 :=
        ih (fun m hm => hnext m (List.mem_cons_of_mem n hm)) (by omega)
          (fun m hm => hle m (List.mem_cons_of_mem n hm))
      rw [passes, hrest, if_neg (by omega)]

/-- In order nothing is jumped over twice, and what comes is not jumped over. -/
theorem passes_of_sorted (hnext : ∀ n ∈ ns, next n = n + 1) (hsorted : ns.Pairwise (· ≤ ·)) :
    passes next c e ns ≤ 1 ∧ (c ∈ ns → passes next c e ns = 0) := by
  induction ns generalizing e with
  | nil => simp [passes]
  | cons n ns ih =>
      obtain ⟨hle, hsorted⟩ := List.pairwise_cons.mp hsorted
      have hnn := hnext n List.mem_cons_self
      have hnext' : ∀ m ∈ ns, next m = m + 1 := fun m hm => hnext m (List.mem_cons_of_mem n hm)
      obtain ⟨hone, hcame⟩ := ih hnext' hsorted
      rw [passes]
      rcases Nat.lt_trichotomy c n with hlt | rfl | hgt
      · -- the run is past `c` from here on
        have hrest : passes next c (next n) ns = 0 := passes_of_behind hnext' (by omega)
          fun m hm => by
            have := hle m hm
            omega
        rw [hrest]
        constructor
        · split <;> omega
        · intro hc
          rcases List.mem_cons.mp hc with rfl | hc
          · omega
          · have := hle c hc
            omega
      · have hrest : passes next c (next c) ns = 0 := passes_of_behind hnext' (by omega) hle
        rw [hrest, if_neg (by omega)]
        exact ⟨by omega, fun _ => rfl⟩
      · rw [if_neg (by omega), Nat.zero_add]
        refine ⟨hone, fun hc => ?_⟩
        rcases List.mem_cons.mp hc with rfl | hc
        · omega
        · exact hcame hc

/-- No surplus: what comes is not jumped over, and what is lost is not jumped over twice. -/
theorem surplus_eq_zero_iff {first : Nat} : surplus next first ns = 0
    ↔ ∀ c < largest ns, passes next c first ns ≤ if first ≤ c ∧ c ∉ ns then 1 else 0 := by
  unfold surplus
  rw [sum_eq_zero_iff]
  refine forall_congr' fun c => ?_
  rw [mem_range, Nat.sub_eq_zero_iff_le]

/-- **In order there is no surplus.** -/
theorem surplus_of_sorted (first : Nat) (hnext : ∀ n ∈ ns, next n = n + 1)
    (hsorted : ns.Pairwise (· ≤ ·)) (hfirst : ∀ n ∈ ns, first ≤ n) :
    surplus next first ns = 0 := by
  refine surplus_eq_zero_iff.mpr fun c _ => ?_
  obtain ⟨hone, hcame⟩ := @passes_of_sorted next c first ns hnext hsorted
  by_cases hlost : first ≤ c ∧ c ∉ ns
  · rw [if_pos hlost]
    exact hone
  · rw [if_neg hlost]
    refine Nat.le_of_eq ?_
    by_cases hc : c ∈ ns
    · exact hcame hc
    · have hlt : c < first := Nat.lt_of_not_le fun hle => hlost ⟨hle, hc⟩
      refine passes_of_behind hnext hlt fun n hn => ?_
      have := hfirst n hn
      omega

end HftLob.Lib.Jumps

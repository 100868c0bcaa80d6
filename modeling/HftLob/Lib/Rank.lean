import Mathlib.Algebra.GroupWithZero.Nat
import Mathlib.Data.List.Sort

/-!
# Ranks by counting

The `t`-th smallest member of a list, found without sorting it: members are counted by
bucket, and the buckets are added up until `t` is reached. If the buckets are in the order
of their members, the bucket where that happens is the one of the `t`-th smallest.

Members are of any linear order, and buckets are numbers.
-/

namespace HftLob.Lib.Rank

section Order

variable {α : Type} [LinearOrder α] {l : List α} {t : Nat} {x : α}

/-- Counted from one. -/
def nthSmallest (l : List α) : Nat → Option α
  | 0 => none
  | t + 1 => (l.insertionSort (· ≤ ·))[t]?

/-! ## What a rank says about counts -/

theorem sorted_insertionSort (l : List α) : (l.insertionSort (· ≤ ·)).Pairwise (· ≤ ·) :=
  List.pairwise_insertionSort (· ≤ ·) l

theorem mem_of_nthSmallest (h : nthSmallest l t = some x) : x ∈ l := by
  cases t with
  | zero => simp [nthSmallest] at h
  | succ t => exact (List.mem_insertionSort (· ≤ ·)).mp (List.mem_of_getElem? h)

theorem exists_nthSmallest (hpos : 1 ≤ t) (hle : t ≤ l.length) : ∃ x, nthSmallest l t = some x := by
  cases t with
  | zero => omega
  | succ t =>
      have hlt : t < (l.insertionSort (· ≤ ·)).length := by
        rw [List.length_insertionSort]
        omega
      exact ⟨_, List.getElem?_eq_getElem hlt⟩

/-- A larger rank is no smaller member. -/
theorem nthSmallest_mono {t' : Nat} {x' : α} (h : nthSmallest l t = some x)
    (h' : nthSmallest l t' = some x') (hle : t ≤ t') : x ≤ x' := by
  cases t with
  | zero => simp [nthSmallest] at h
  | succ t =>
      cases t' with
      | zero => simp [nthSmallest] at h'
      | succ t' =>
          obtain ⟨hlt, rfl⟩ := List.getElem?_eq_some_iff.mp h
          obtain ⟨hlt', rfl⟩ := List.getElem?_eq_some_iff.mp h'
          rcases Nat.lt_or_ge t t' with htt | htt
          · exact List.pairwise_iff_getElem.mp (sorted_insertionSort l) t t' hlt hlt' htt
          · have heq : t = t' := by omega
            subst heq
            exact le_refl _

/-- The sorted list around its `t`-th member. -/
theorem nthSmallest_cut (h : nthSmallest l (t + 1) = some x) :
    ∃ front back, (front ++ x :: back).Perm l ∧ front.length = t
      ∧ (∀ y ∈ front, y ≤ x) ∧ ∀ y ∈ back, x ≤ y := by
  obtain ⟨hlt, hx⟩ := List.getElem?_eq_some_iff.mp h
  have hcut : (l.insertionSort (· ≤ ·)).take t ++ x :: (l.insertionSort (· ≤ ·)).drop (t + 1)
      = l.insertionSort (· ≤ ·) := by
    rw [← hx, ← List.drop_eq_getElem_cons hlt, List.take_append_drop]
  have hsorted := sorted_insertionSort l
  rw [← hcut, List.pairwise_append, List.pairwise_cons] at hsorted
  obtain ⟨_, ⟨hback, _⟩, hfront⟩ := hsorted
  refine ⟨_, _, ?_, ?_, fun y hy => hfront y hy x List.mem_cons_self, hback⟩
  · rw [hcut]
    exact List.perm_insertionSort (· ≤ ·) l
  · rw [List.length_take]
    omega

/-- **Fewer than `t` are below the `t`-th smallest.** -/
theorem countP_lt_nthSmallest (h : nthSmallest l t = some x) :
    l.countP (fun y => y < x) < t := by
  cases t with
  | zero => simp [nthSmallest] at h
  | succ t =>
      obtain ⟨front, back, hperm, hlen, _, hback⟩ := nthSmallest_cut h
      have hzero : (x :: back).countP (fun y => y < x) = 0 := by
        rw [List.countP_eq_zero]
        intro y hy hlt
        rcases List.mem_cons.mp hy with rfl | hy
        · exact lt_irrefl _ (of_decide_eq_true hlt)
        · exact absurd (of_decide_eq_true hlt) (not_lt.mpr (hback y hy))
      have hfront := List.countP_le_length (p := fun y => decide (y < x)) (l := front)
      rw [← hperm.countP_eq, List.countP_append, hzero]
      omega

/-- **At least `t` are not above it.** -/
theorem le_countP_nthSmallest (h : nthSmallest l t = some x) :
    t ≤ l.countP (fun y => y ≤ x) := by
  cases t with
  | zero => omega
  | succ t =>
      obtain ⟨front, back, hperm, hlen, hfront, _⟩ := nthSmallest_cut h
      have hall : front.countP (fun y => y ≤ x) = front.length := by
        rw [List.countP_eq_length]
        intro y hy
        exact decide_eq_true (hfront y hy)
      rw [← hperm.countP_eq, List.countP_append, hall, List.countP_cons_of_pos (by simp)]
      omega

end Order

/-! ## Adding up buckets -/

/-- The first position at which the running total reaches the target. -/
def reach (target : Nat) : List Nat → Nat → Nat → Option Nat
  | [], _, _ => none
  | c :: counts, running, i =>
      if running + c ≥ target then some i else reach target counts (running + c) (i + 1)

theorem reach_eq {target running i k : Nat} {counts : List Nat} (hk : k < counts.length)
    (hlt : running + (counts.take k).sum < target)
    (hge : target ≤ running + (counts.take (k + 1)).sum) :
    reach target counts running i = some (i + k) := by
  induction counts generalizing running i k with
  | nil => simp at hk
  | cons c counts ih =>
      rw [List.take_succ_cons, List.sum_cons] at hge
      rw [reach]
      cases k with
      | zero =>
          rw [List.take_zero, List.sum_nil] at hge
          rw [if_pos (by omega), Nat.add_zero]
      | succ k =>
          rw [List.take_succ_cons, List.sum_cons] at hlt
          rw [List.length_cons] at hk
          have hrest : reach target counts (running + c) (i + 1) = some (i + 1 + k) :=
            ih (by omega) (by omega) (by omega)
          rw [if_neg (by omega), hrest, Nat.add_right_comm, Nat.add_assoc]

section Tally

variable {α : Type} {bucket : α → Nat} {l : List α} {counts : List Nat}

/-- Each bucket has the number of its members. -/
def Tallies (bucket : α → Nat) (l : List α) (counts : List Nat) : Prop :=
  ∀ i < counts.length, counts[i]? = some (l.countP (fun v => bucket v = i))

theorem countP_lt_succ (bucket : α → Nat) (l : List α) (k : Nat) :
    l.countP (fun v => bucket v < k + 1)
      = l.countP (fun v => bucket v < k) + l.countP (fun v => bucket v = k) := by
  induction l with
  | nil => rfl
  | cons v l ih =>
      simp only [List.countP_cons, ih, decide_eq_true_eq]
      rcases Nat.lt_trichotomy (bucket v) k with hlt | heq | hgt
      · rw [if_pos (by omega), if_pos hlt, if_neg (by omega)]
        omega
      · rw [if_pos (by omega), if_neg (by omega), if_pos heq]
        omega
      · rw [if_neg (by omega), if_neg (by omega), if_neg (by omega)]
        omega

theorem Tallies.take_sum (h : Tallies bucket l counts) {k : Nat} (hk : k ≤ counts.length) :
    (counts.take k).sum = l.countP (fun v => bucket v < k) := by
  induction k with
  | zero => simp
  | succ k ih =>
      have hcount : counts[k]? = some (l.countP (fun v => bucket v = k)) := h k (by omega)
      rw [List.take_add_one, hcount, List.sum_append, ih (by omega), countP_lt_succ]
      simp

/-- **The scan stops at the bucket of the `t`-th smallest.** -/
theorem Tallies.reach_bucket [LinearOrder α] {t : Nat} {x : α} (h : Tallies bucket l counts)
    (hmono : ∀ a ∈ l, ∀ b ∈ l, a ≤ b → bucket a ≤ bucket b)
    (hbound : ∀ a ∈ l, bucket a < counts.length) (hx : nthSmallest l t = some x) :
    reach t counts 0 0 = some (bucket x) := by
  have hmem : x ∈ l := mem_of_nthSmallest hx
  have hlt := countP_lt_nthSmallest hx
  have hge := le_countP_nthSmallest hx
  have hk := hbound x hmem
  -- a member of an earlier bucket is smaller, one that is not larger is in no later bucket
  have hbelow : l.countP (fun v => bucket v < bucket x) ≤ l.countP (fun v => v < x) := by
    refine List.countP_mono_left fun v hv hlt => decide_eq_true (lt_of_not_ge fun hge => ?_)
    have := hmono x hmem v hv hge
    have := of_decide_eq_true hlt
    omega
  have hupto : l.countP (fun v => v ≤ x) ≤ l.countP (fun v => bucket v < bucket x + 1) := by
    refine List.countP_mono_left fun v hv hle => decide_eq_true ?_
    have := hmono v hv x hmem (of_decide_eq_true hle)
    omega
  have hreach : reach t counts 0 0 = some (0 + bucket x) := by
    refine reach_eq hk ?_ ?_
    · rw [h.take_sum (Nat.le_of_lt hk)]
      omega
    · rw [h.take_sum (show bucket x + 1 ≤ counts.length from hk)]
      omega
  rwa [Nat.zero_add] at hreach

end Tally

end HftLob.Lib.Rank

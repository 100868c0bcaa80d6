import Mathlib.Algebra.Group.Nat.Defs

/-!
# Log-linear buckets

Positive numbers sorted into octaves by their highest bit, and each octave into slots of
one width, `2 ^ b` of them where the octave has that many numbers. A number is known up to
its slot by the slot's lower edge, which is below it by less than one part in `2 ^ b`.

Buckets are numbered octave by octave, `2 ^ b` to each, so they are in the order of the
numbers in them; the small octaves leave some of theirs unused.
-/

namespace HftLob.Lib.LogLinear

/-- The width of the slots of an octave. -/
def width (b octave : Nat) : Nat := if b ≤ octave then 2 ^ (octave - b) else 1

/-- The slot of a number in its octave. -/
def slot (b v : Nat) : Nat := (v - 2 ^ v.log2) / width b v.log2

def bucket (b v : Nat) : Nat := v.log2 * 2 ^ b + slot b v

/-- The least number of the slot. -/
def edge (b v : Nat) : Nat := 2 ^ v.log2 + slot b v * width b v.log2

variable {b v w : Nat}

theorem width_pos (b octave : Nat) : 0 < width b octave := by
  unfold width
  split
  · exact Nat.two_pow_pos _
  · exact Nat.one_pos

theorem log2_mono (hv : v ≠ 0) (h : v ≤ w) : v.log2 ≤ w.log2 :=
  (Nat.le_log2 (by omega)).mpr (Nat.le_trans (Nat.log2_self_le hv) h)

theorem offset_lt (hv : v ≠ 0) : v - 2 ^ v.log2 < 2 ^ v.log2 := by
  have hlo := Nat.log2_self_le hv
  have hhi := @Nat.lt_log2_self v
  rw [Nat.pow_succ] at hhi
  omega

theorem slot_lt (b : Nat) (hv : v ≠ 0) : slot b v < 2 ^ b := by
  have hoffset := offset_lt hv
  unfold slot width
  split
  · rename_i hle
    refine Nat.div_lt_of_lt_mul ?_
    rwa [← Nat.pow_add, Nat.sub_add_cancel hle]
  · rename_i hlt
    have hpow : 2 ^ v.log2 ≤ 2 ^ b := Nat.pow_le_pow_right (by decide) (by omega)
    rw [Nat.div_one]
    omega

/-! ## The bucket -/

theorem bucket_div (b : Nat) (hv : v ≠ 0) : bucket b v / 2 ^ b = v.log2 := by
  rw [bucket, Nat.add_comm, Nat.add_mul_div_right _ _ (Nat.two_pow_pos b),
    Nat.div_eq_of_lt (slot_lt b hv), Nat.zero_add]

theorem bucket_mod (b : Nat) (hv : v ≠ 0) : bucket b v % 2 ^ b = slot b v := by
  rw [bucket, Nat.add_comm, Nat.add_mul_mod_self_right, Nat.mod_eq_of_lt (slot_lt b hv)]

theorem bucket_lt (b : Nat) (hv : v ≠ 0) {octaves : Nat} (h : v.log2 < octaves) :
    bucket b v < octaves * 2 ^ b := by
  have hslot := slot_lt b hv
  calc bucket b v < v.log2 * 2 ^ b + 2 ^ b := Nat.add_lt_add_left hslot _
    _ = (v.log2 + 1) * 2 ^ b := (Nat.succ_mul _ _).symm
    _ ≤ octaves * 2 ^ b := Nat.mul_le_mul_right _ h

/-- Within an octave slots are in the order of their numbers. -/
theorem slot_mono (h : v ≤ w) (hoctave : v.log2 = w.log2) : slot b v ≤ slot b w := by
  unfold slot
  rw [hoctave]
  exact Nat.div_le_div_right (Nat.sub_le_sub_right h _)

/-- **Buckets are in the order of the numbers in them.** -/
theorem bucket_mono (b : Nat) (hv : v ≠ 0) (h : v ≤ w) : bucket b v ≤ bucket b w := by
  rcases Nat.lt_or_eq_of_le (log2_mono hv h) with hlt | heq
  · have hbelow := bucket_lt b hv hlt
    unfold bucket at hbelow ⊢
    omega
  · have hslot := @slot_mono b v w h heq
    unfold bucket
    rw [heq]
    omega

/-! ## The lower edge -/

theorem edge_le (b : Nat) (hv : v ≠ 0) : edge b v ≤ v := by
  have hlo := Nat.log2_self_le hv
  have hslot : slot b v * width b v.log2 ≤ v - 2 ^ v.log2 := Nat.div_mul_le_self _ _
  unfold edge
  omega

theorem lt_edge_add_width (b v : Nat) : v < edge b v + width b v.log2 := by
  have hdiv : v - 2 ^ v.log2 < width b v.log2 * slot b v + width b v.log2 :=
    Nat.lt_mul_div_succ _ (width_pos b v.log2)
  rw [Nat.mul_comm] at hdiv
  unfold edge
  omega

/-- **The edge is below the number by less than one part in `2 ^ b`.** -/
theorem edge_close (b : Nat) (hv : v ≠ 0) : (v - edge b v) * 2 ^ b < v := by
  have hnear := lt_edge_add_width b v
  have hlo := Nat.log2_self_le hv
  unfold width at hnear
  split at hnear
  · rename_i hle
    have hlt : v - edge b v < 2 ^ (v.log2 - b) := by
      have := Nat.two_pow_pos (v.log2 - b)
      omega
    calc (v - edge b v) * 2 ^ b < 2 ^ (v.log2 - b) * 2 ^ b :=
          Nat.mul_lt_mul_of_pos_right hlt (Nat.two_pow_pos b)
      _ = 2 ^ v.log2 := by rw [← Nat.pow_add, Nat.sub_add_cancel hle]
      _ ≤ v := hlo
  · have hzero : v - edge b v = 0 := by omega
    rw [hzero, Nat.zero_mul]
    omega

/-- Where a slot has one number, the edge is that number. -/
theorem edge_exact (hv : v ≠ 0) (h : v < 2 ^ (b + 1)) : edge b v = v := by
  have hone : width b v.log2 = 1 := by
    have hoctave : v.log2 < b + 1 := (Nat.log2_lt hv).mpr h
    unfold width
    split
    · rw [show v.log2 - b = 0 by omega, Nat.pow_zero]
    · rfl
  have hle := edge_le b hv
  have hnear := lt_edge_add_width b v
  rw [hone] at hnear
  omega

theorem edge_mono (b : Nat) (hv : v ≠ 0) (h : v ≤ w) : edge b v ≤ edge b w := by
  rcases Nat.lt_or_eq_of_le (log2_mono hv h) with hlt | heq
  · -- the next octave starts above everything in this one
    have hpow : 2 ^ (v.log2 + 1) ≤ 2 ^ w.log2 := Nat.pow_le_pow_right (by decide) hlt
    have hhi := @Nat.lt_log2_self v
    have hle := edge_le b hv
    have hedge : 2 ^ w.log2 ≤ edge b w := Nat.le_add_right _ _
    omega
  · have hslot := Nat.mul_le_mul_right (width b w.log2) (@slot_mono b v w h heq)
    unfold edge
    rw [heq]
    omega

end HftLob.Lib.LogLinear

import Mathlib.Data.List.Forall2
import Mathlib.Algebra.Group.Nat.Defs

/-!
# Little-endian fields and files of fixed-size records

Numbers as a little-endian machine lays them out in memory, and files that are one
record of a fixed size after another. The record type and its decoder are arbitrary; a
record may have bytes its decoder does not look at, so the same value can have several
records.
-/

namespace HftLob.Lib.Bytes

/-- The low `n` bytes of `v`, the lowest first. -/
def leBytes : Nat → Nat → List UInt8
  | 0, _ => []
  | n + 1, v => UInt8.ofNat v :: leBytes n (v / 256)

def leValue : List UInt8 → Nat
  | [] => 0
  | b :: bs => b.toNat + 256 * leValue bs

@[simp] theorem length_leBytes (n v : Nat) : (leBytes n v).length = n := by
  induction n generalizing v with
  | zero => rfl
  | succ n ih => rw [leBytes, List.length_cons, ih]

theorem leValue_leBytes (n v : Nat) : leValue (leBytes n v) = v % 256 ^ n := by
  induction n generalizing v with
  | zero => simp [leBytes, leValue, Nat.mod_one]
  | succ n ih =>
      have hbyte : (UInt8.ofNat v).toNat = v % 256 := UInt8.toNat_ofNat'
      rw [leBytes, leValue, ih, hbyte, Nat.pow_succ, Nat.mul_comm _ 256, Nat.mod_mul]

/-- The number in the `n` bytes at an offset. -/
def field (off n : Nat) (bytes : List UInt8) : Nat := leValue ((bytes.drop off).take n)

theorem leValue_lt (bytes : List UInt8) : leValue bytes < 256 ^ bytes.length := by
  induction bytes with
  | nil => simp [leValue]
  | cons b bs ih =>
      have hb : b.toNat < 256 := b.toNat_lt
      rw [leValue, List.length_cons, Nat.pow_succ]
      omega

theorem leBytes_leValue (bytes : List UInt8) : leBytes bytes.length (leValue bytes) = bytes := by
  induction bytes with
  | nil => rfl
  | cons b bs ih =>
      have hb : b.toNat < 256 := b.toNat_lt
      have hlow : UInt8.ofNat (b.toNat + 256 * leValue bs) = b := by
        rw [← UInt8.toNat_inj, UInt8.toNat_ofNat']
        omega
      have hhigh : (b.toNat + 256 * leValue bs) / 256 = leValue bs := by omega
      rw [leValue, List.length_cons, leBytes, hlow, hhigh, ih]

theorem field_lt (off n : Nat) (bytes : List UInt8) : field off n bytes < 256 ^ n := by
  have hlen : ((bytes.drop off).take n).length ≤ n := by
    rw [List.length_take]
    omega
  calc field off n bytes < 256 ^ ((bytes.drop off).take n).length := leValue_lt _
    _ ≤ 256 ^ n := Nat.pow_le_pow_right (by omega) hlen

/-- A field that is there is laid out as it was. -/
theorem leBytes_field {off n : Nat} {bytes : List UInt8} (h : off + n ≤ bytes.length) :
    leBytes n (field off n bytes) = (bytes.drop off).take n := by
  have hlen : ((bytes.drop off).take n).length = n := by
    rw [List.length_take, List.length_drop]
    omega
  have := leBytes_leValue ((bytes.drop off).take n)
  rwa [hlen] at this

/-- A field that is there does not change when more bytes follow. -/
theorem field_append {off n : Nat} {bytes : List UInt8} (h : off + n ≤ bytes.length)
    (rest : List UInt8) : field off n (bytes ++ rest) = field off n bytes := by
  unfold field
  rw [List.drop_append_of_le_length (by omega),
    List.take_append_of_le_length (by rw [List.length_drop]; omega)]

theorem field_take {off n len : Nat} (h : off + n ≤ len) (bytes : List UInt8) :
    field off n (bytes.take len) = field off n bytes := by
  unfold field
  rw [List.drop_take, List.take_take, Nat.min_eq_left (by omega)]

/-! ## Machine words -/

theorem ofNat_leValue_64 (v : UInt64) : UInt64.ofNat (leValue (leBytes 8 v.toNat)) = v := by
  have hlt : v.toNat < 256 ^ 8 := by
    have := v.toNat_lt
    omega
  rw [leValue_leBytes, Nat.mod_eq_of_lt hlt, UInt64.ofNat_toNat]

theorem ofNat_leValue_32 (v : UInt32) : UInt32.ofNat (leValue (leBytes 4 v.toNat)) = v := by
  have hlt : v.toNat < 256 ^ 4 := by
    have := v.toNat_lt
    omega
  rw [leValue_leBytes, Nat.mod_eq_of_lt hlt, UInt32.ofNat_toNat]

theorem ofNat_leValue_16 (v : UInt16) : UInt16.ofNat (leValue (leBytes 2 v.toNat)) = v := by
  have hlt : v.toNat < 256 ^ 2 := by
    have := v.toNat_lt
    omega
  rw [leValue_leBytes, Nat.mod_eq_of_lt hlt, UInt16.ofNat_toNat]

theorem ofNat_leValue_8 (v : UInt8) : UInt8.ofNat (leValue [v]) = v := by
  simp [leValue]

section Records

variable {α : Type} {size : Nat}

/-- What reading `size` bytes at a time gives; a last incomplete read is dropped. -/
def records (size : Nat) (bytes : List UInt8) : List (List UInt8) :=
  (List.range (bytes.length / size)).map fun i => (bytes.drop (i * size)).take size

theorem records_append {r : List UInt8} (hr : r.length = size) (hsize : 0 < size)
    (bytes : List UInt8) : records size (r ++ bytes) = r :: records size bytes := by
  have hlen : (r ++ bytes).length / size = bytes.length / size + 1 := by
    rw [List.length_append, hr, Nat.add_div_left _ hsize]
  unfold records
  rw [hlen, List.range_succ_eq_map, List.map_cons, List.map_map]
  congr 1
  · rw [Nat.zero_mul, List.drop_zero, ← hr, List.take_left]
  · refine List.map_congr_left fun i _ => ?_
    have hoff : (i + 1) * size = r.length + i * size := by rw [hr, Nat.succ_mul, Nat.add_comm]
    show ((r ++ bytes).drop ((i + 1) * size)).take size = _
    rw [hoff, ← List.drop_drop, List.drop_left]

def decodeAll (size : Nat) (decode : List UInt8 → Option α) (bytes : List UInt8) :
    Option (List α) :=
  (records size bytes).mapM decode

/-- **Reading back gives what was written**, record by record. -/
theorem decodeAll_flatten {decode : List UInt8 → Option α} (hsize : 0 < size)
    {rs : List (List UInt8)} {as : List α}
    (h : List.Forall₂ (fun r a => r.length = size ∧ decode r = some a) rs as) :
    decodeAll size decode rs.flatten = some as := by
  unfold decodeAll
  induction h with
  | nil => simp [records]
  | cons hra _ ih =>
      rw [List.flatten_cons, records_append hra.1 hsize, List.mapM_cons, hra.2, ih]
      rfl

end Records

end HftLob.Lib.Bytes

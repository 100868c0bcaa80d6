import HftLob.Lib.Bytes
import Mathlib.Algebra.GroupWithZero.Nat

/-!
# Packed records by format string

Python's `struct` module for formats that start with `<`: little-endian, standard sizes,
nothing between the fields. A format is the list of its codes. `pack` fails as
`struct.error` does: on a value that does not fit, or when the values do not match the
codes; `unpack` wants exactly as many bytes as the format describes.
-/

namespace HftLob.Lib.Struct

open HftLob.Lib.Bytes

inductive Code where
  | B
  | H
  | I
  | Q
  /-- `8s` and the like: that many bytes as they are. -/
  | s (n : Nat)
  deriving DecidableEq, Repr

def Code.size : Code → Nat
  | .B => 1
  | .H => 2
  | .I => 4
  | .Q => 8
  | .s n => n

/-- What Python puts in and gets out: an integer of any size, or bytes. -/
inductive Value where
  | int (v : Int)
  | bytes (b : List UInt8)
  deriving DecidableEq, Repr

def packInt (size : Nat) (v : Int) : Option (List UInt8) :=
  if 0 ≤ v ∧ v.toNat < 256 ^ size then some (leBytes size v.toNat) else none

def Code.pack : Code → Value → Option (List UInt8)
  -- cut to length or filled up with zeros
  | .s n, .bytes b => some (b.take n ++ List.replicate (n - b.length) 0)
  | .s _, .int _ => none
  | .B, .int v => packInt 1 v
  | .H, .int v => packInt 2 v
  | .I, .int v => packInt 4 v
  | .Q, .int v => packInt 8 v
  | _, .bytes _ => none

def Code.unpack : Code → List UInt8 → Value
  | .s _, b => .bytes b
  | _, b => .int (leValue b)

def calcsize (fmt : List Code) : Nat := (fmt.map Code.size).sum

def pack : List Code → List Value → Option (List UInt8)
  | [], [] => some []
  | c :: cs, v :: vs => do
      let b ← c.pack v
      let bs ← pack cs vs
      return b ++ bs
  | _, _ => none

def unpackFields : List Code → List UInt8 → List Value
  | [], _ => []
  | c :: cs, b => c.unpack (b.take c.size) :: unpackFields cs (b.drop c.size)

def unpack (fmt : List Code) (b : List UInt8) : Option (List Value) :=
  if b.length = calcsize fmt then some (unpackFields fmt b) else none

/-- The value is one that the code can carry, unchanged. -/
def Code.Fits : Code → Value → Prop
  | .s n, .bytes b => b.length = n
  | .s _, .int _ => False
  | _, .bytes _ => False
  | c, .int v => 0 ≤ v ∧ v.toNat < 256 ^ c.size

theorem packInt_of_fits {size : Nat} {v : Int} (h : 0 ≤ v ∧ v.toNat < 256 ^ size) :
    packInt size v = some (leBytes size v.toNat) ∧ (leValue (leBytes size v.toNat) : Int) = v := by
  refine ⟨if_pos h, ?_⟩
  rw [leValue_leBytes, Nat.mod_eq_of_lt h.2, Int.toNat_of_nonneg h.1]

theorem packInt_natCast {size n : Nat} (h : n < 256 ^ size) :
    packInt size (n : Int) = some (leBytes size n) :=
  if_pos ⟨Int.natCast_nonneg n, h⟩

theorem Code.pack_of_fits {c : Code} {v : Value} (h : c.Fits v) :
    ∃ b, c.pack v = some b ∧ b.length = c.size ∧ c.unpack b = v := by
  cases v with
  | int v =>
      cases c with
      | s n => exact absurd h (by simp [Code.Fits])
      | B | H | I | Q =>
          obtain ⟨hpack, hvalue⟩ := packInt_of_fits h
          exact ⟨_, hpack, length_leBytes _ _, congrArg Value.int hvalue⟩
  | bytes b =>
      cases c with
      | s n =>
          have hlen : b.length = n := h
          refine ⟨b, ?_, hlen, rfl⟩
          simp [Code.pack, ← hlen]
      | B | H | I | Q => exact absurd h (by simp [Code.Fits])

/-- **What fits is packed, and unpacked again as it was.** -/
theorem pack_of_fits {fmt : List Code} {vs : List Value} (h : List.Forall₂ Code.Fits fmt vs) :
    ∃ b, pack fmt vs = some b ∧ b.length = calcsize fmt ∧ unpackFields fmt b = vs := by
  induction h with
  | nil => exact ⟨[], rfl, rfl, rfl⟩
  | @cons c v cs vs hc _ ih =>
      obtain ⟨b, hb, hlen, hval⟩ := Code.pack_of_fits hc
      obtain ⟨bs, hbs, hlens, hvals⟩ := ih
      refine ⟨b ++ bs, ?_, ?_, ?_⟩
      · rw [pack, hb, hbs]
        rfl
      · rw [List.length_append, hlen, hlens, calcsize, calcsize, List.map_cons, List.sum_cons]
      · rw [unpackFields, ← hlen, List.take_left, List.drop_left, hval, hvals]

theorem unpack_pack {fmt : List Code} {vs : List Value} (h : List.Forall₂ Code.Fits fmt vs)
    {b : List UInt8} (hb : pack fmt vs = some b) : unpack fmt b = some vs := by
  obtain ⟨b', hb', hlen, hvals⟩ := pack_of_fits h
  rw [hb] at hb'
  cases hb'
  rw [unpack, if_pos hlen, hvals]

end HftLob.Lib.Struct

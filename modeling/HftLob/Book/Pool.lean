import HftLob.Types
import Mathlib.Data.List.Perm.Basic
import Mathlib.Logic.Function.Basic

/-!
# The order pool

`ObjectPool<T, Capacity>`: a fixed array of slots and an intrusive free list
threaded through an index array. A pointer to a pooled object is its slot index.

The links are `int32_t` with `-1` for the end of the list. A live slot's link is
stale, so nothing can be read off the array alone: `FreeList` follows the links
from `freeHead`, and `Holds p live` says that what it visits and what is live
together are every slot exactly once. Both operations move one slot across.
-/

namespace HftLob.Book

/-- A slot index has to fit an `int32_t`, which bounds the size of a pool that works. -/
structure PoolCapacity where
  slots : Nat
  fits : slots ≤ 2 ^ 31

instance : CoeOut PoolCapacity Nat := ⟨PoolCapacity.slots⟩

/-- `static_cast<int32_t>`. -/
def int32 (n : Int) : Int := Int.bmod n (2 ^ 32)

theorem int32_of_lt {n : Nat} (h : n < 2 ^ 31) : int32 n = n := by
  unfold int32
  exact Int.bmod_eq_of_le (by omega) (by omega)

/-- The template takes any `size_t` for its `Capacity`. -/
structure ObjectPool (T : Type) (Capacity : Nat) where
  storage : Nat → T
  nextFree : Nat → Int
  freeHead : Int

namespace ObjectPool

variable {T : Type} {Capacity : Nat} {cap : PoolCapacity}

/-- The constructor: every slot is free, each linked to the next. -/
def init [Inhabited T] (Capacity : Nat) : ObjectPool T Capacity where
  storage := fun _ => default
  nextFree := fun i =>
    if i + 1 < Capacity then int32 (i + 1 : Nat)
    else if i + 1 = Capacity then -1
    else 0
  freeHead := if 0 < Capacity then 0 else -1

/-- `none` is the null pointer of an exhausted pool. -/
def acquire (p : ObjectPool T Capacity) (obj : T) : Option (Nat × ObjectPool T Capacity) :=
  if p.freeHead = -1 then none
  else
    let idx := p.freeHead.toNat
    some (idx, { p with
      freeHead := p.nextFree idx
      storage := Function.update p.storage idx obj })

/-- The destructor of an `Order` is trivial, so the slot keeps its bytes. -/
def release (p : ObjectPool T Capacity) (slot : Nat) : ObjectPool T Capacity :=
  let idx := int32 slot
  { p with
    nextFree := Function.update p.nextFree idx.toNat p.freeHead
    freeHead := idx }

/-- Assignment through a pointer. -/
def write (p : ObjectPool T Capacity) (slot : Nat) (obj : T) : ObjectPool T Capacity :=
  { p with storage := Function.update p.storage slot obj }

@[simp] theorem release_storage (p : ObjectPool T Capacity) (slot : Nat) :
    (p.release slot).storage = p.storage := rfl

@[simp] theorem write_storage_self (p : ObjectPool T Capacity) (slot : Nat) (obj : T) :
    (p.write slot obj).storage slot = obj := Function.update_self ..

theorem release_nextFree (p : ObjectPool T Capacity) {slot : Nat} (h : slot < 2 ^ 31) :
    (p.release slot).nextFree = Function.update p.nextFree slot p.freeHead := by
  simp only [release, int32_of_lt h, Int.toNat_natCast]

theorem release_freeHead (p : ObjectPool T Capacity) {slot : Nat} (h : slot < 2 ^ 31) :
    (p.release slot).freeHead = slot := by
  simp only [release, int32_of_lt h]

theorem write_storage_ne (p : ObjectPool T Capacity) {slot s : Nat} (obj : T) (h : s ≠ slot) :
    (p.write slot obj).storage s = p.storage s := Function.update_of_ne h ..

/-! ## The free list -/

/-- The slots visited from a link, up to the `-1` that ends the list. -/
inductive FreeList (next : Nat → Int) : Int → List Nat → Prop where
  | nil : FreeList next (-1) []
  | cons {i : Nat} {l : List Nat} : FreeList next (next i) l → FreeList next i (i :: l)

/-- A link that is not on the list can be rewritten without the list noticing. -/
theorem FreeList.update {next : Nat → Int} {h : Int} {l : List Nat} {i : Nat} {v : Int}
    (hl : FreeList next h l) (hi : i ∉ l) : FreeList (Function.update next i v) h l := by
  induction hl with
  | nil => exact .nil
  | @cons j l _ ih =>
      have hji : j ≠ i := fun he => hi (he ▸ List.mem_cons_self)
      refine .cons ?_
      rw [Function.update_of_ne hji]
      exact ih (fun hm => hi (List.mem_cons_of_mem _ hm))

/-- The free list of `p` and the slots in `live` are all the slots, each once. -/
def Holds (p : ObjectPool T Capacity) (live : List Nat) : Prop :=
  ∃ free, FreeList p.nextFree p.freeHead free ∧ (free ++ live).Perm (List.range Capacity)

theorem Holds.perm {p : ObjectPool T Capacity} {l₁ l₂ : List Nat} (h : p.Holds l₁)
    (hp : l₁.Perm l₂) : p.Holds l₂ := by
  obtain ⟨free, hf, hr⟩ := h
  exact ⟨free, hf, ((hp.append_left free).symm).trans hr⟩

theorem Holds.nodup {p : ObjectPool T Capacity} {live : List Nat} (h : p.Holds live) :
    live.Nodup := by
  obtain ⟨free, _, hr⟩ := h
  exact (List.nodup_append.mp (hr.nodup_iff.mpr List.nodup_range)).2.1

theorem Holds.lt {p : ObjectPool T Capacity} {live : List Nat} (h : p.Holds live) {s : Nat}
    (hs : s ∈ live) : s < Capacity := by
  obtain ⟨free, _, hr⟩ := h
  exact List.mem_range.mp (hr.mem_iff.mp (List.mem_append_right _ hs))

theorem Holds.length_le {p : ObjectPool T Capacity} {live : List Nat} (h : p.Holds live) :
    live.length ≤ Capacity := by
  obtain ⟨free, _, hr⟩ := h
  have := hr.length_eq
  rw [List.length_append, List.length_range] at this
  omega

/-- The constructor threads the list through every slot in order. -/
theorem freeList_init (n : Nat) (next : Nat → Int)
    (hlink : ∀ i, i + 1 < n → next i = (i + 1 : Nat)) (hlast : ∀ i, i + 1 = n → next i = -1) :
    ∀ k i, i + k + 1 = n → FreeList next i (List.range' i (k + 1)) := by
  -- on the number of slots still to thread, from the one at `i`
  intro k
  induction k with
  | zero =>
      intro i hi
      refine .cons ?_
      rw [hlast i (by omega)]
      exact .nil
  | succ k ih =>
      intro i hi
      rw [List.range'_succ]
      refine .cons ?_
      rw [hlink i (by omega)]
      exact ih (i + 1) (by omega)

theorem holds_init [Inhabited T] : (init cap : ObjectPool T cap).Holds [] := by
  obtain ⟨slots, hfits⟩ := cap
  cases slots with
  | zero => exact ⟨[], .nil, List.Perm.refl _⟩
  | succ n =>
      refine ⟨List.range' 0 (n + 1), ?_, by simp [List.range_eq_range']⟩
      have hhead : (init (n + 1) : ObjectPool T (n + 1)).freeHead = (0 : Nat) := by
        simp [init]
      rw [hhead]
      refine freeList_init (n + 1) _ (fun i hi => ?_) (fun i hi => ?_) n 0 (by omega)
      · show (if i + 1 < n + 1 then _ else _) = _
        rw [if_pos hi]
        exact int32_of_lt (by omega)
      · show (if i + 1 < n + 1 then _ else _) = _
        rw [if_neg (by omega), if_pos hi]

/-- **A released slot goes back on the list.** -/
theorem holds_release {p : ObjectPool T cap} {live : List Nat} {slot : Nat}
    (h : p.Holds (slot :: live)) : (p.release slot).Holds live := by
  have hslot : slot < 2 ^ 31 := Nat.lt_of_lt_of_le (h.lt List.mem_cons_self) cap.fits
  obtain ⟨free, hf, hr⟩ := h
  have hnd : (free ++ slot :: live).Nodup := hr.nodup_iff.mpr List.nodup_range
  -- a live slot is not on the list, so its stale link can be overwritten
  have hfree : slot ∉ free := fun hm =>
    (List.nodup_append.mp hnd).2.2 _ hm _ List.mem_cons_self rfl
  refine ⟨slot :: free, ?_, List.perm_middle.symm.trans hr⟩
  rw [release_nextFree p hslot, release_freeHead p hslot]
  refine .cons ?_
  rw [Function.update_self]
  exact hf.update hfree

/-- **`acquire` fails only when every slot is live.** -/
theorem acquire_none_iff {p : ObjectPool T Capacity} {live : List Nat} {obj : T}
    (h : p.Holds live) : p.acquire obj = none ↔ live.length = Capacity := by
  obtain ⟨free, hf, hr⟩ := h
  have hlen : free.length + live.length = Capacity := by
    have := hr.length_eq
    rwa [List.length_append, List.length_range] at this
  unfold acquire
  generalize p.freeHead = hd at hf
  cases hf with
  | nil => simpa using hlen
  | @cons i l hl =>
      have hne : (i : Int) ≠ -1 := by omega
      rw [if_neg hne]
      simp only [List.length_cons] at hlen
      constructor
      · intro hc; exact absurd hc (by simp)
      · intro hc; omega

/-- **`acquire` hands out a slot nobody holds.** -/
theorem acquire_some {p p' : ObjectPool T Capacity} {live : List Nat} {obj : T} {slot : Nat}
    (h : p.Holds live) (ha : p.acquire obj = some (slot, p')) :
    slot ∉ live ∧ p'.Holds (slot :: live) ∧ p'.storage = Function.update p.storage slot obj := by
  obtain ⟨free, hf, hr⟩ := h
  unfold acquire at ha
  generalize p.freeHead = hd at hf ha
  split at ha
  · exact absurd ha (by simp)
  · rename_i hne
    have hpair := Option.some.inj ha
    cases hf with
    | nil => exact absurd rfl hne
    | @cons i l hl =>
        rw [Int.toNat_natCast] at hpair
        obtain ⟨rfl, rfl⟩ := Prod.mk.inj hpair
        have hnd : (i :: l ++ live).Nodup := hr.nodup_iff.mpr List.nodup_range
        have hlive : i ∉ live := fun hm =>
          (List.nodup_append.mp hnd).2.2 _ List.mem_cons_self _ hm rfl
        exact ⟨hlive, ⟨l, hl, List.perm_middle.trans hr⟩, rfl⟩

end ObjectPool

end HftLob.Book

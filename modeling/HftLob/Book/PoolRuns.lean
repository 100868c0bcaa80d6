import HftLob.Lib.Machine
import HftLob.Book.Pool

/-!
# The pool over whole runs, at every capacity

`acquire` and `release` in any order, next to a record of the objects handed out and
not yet released. `Holds` is the invariant, and what one call does to it is in
`Book.Pool`; a pool that keeps it is sound.

The template takes any `size_t` as its `Capacity` and nothing bounds it, while the links
are `int32_t`. From `2 ^ 31 + 1` slots on the constructor's cast makes the link out of
slot `2 ^ 31 - 1` negative, so the free list never comes to its end.
-/

namespace HftLob.Book

open HftLob.Lib

inductive PoolCall (T : Type) where
  | acquire (obj : T)
  | release (slot : Nat)

/-- A pool, and the slots acquired from it and not yet released. -/
structure PoolUse (T : Type) (Capacity : Nat) where
  pool : ObjectPool T Capacity
  live : List Nat

namespace PoolUse

variable {T : Type} {Capacity : Nat} {cap : PoolCapacity} {destroy : T → T}

def init [Inhabited T] (Capacity : Nat) : PoolUse T Capacity where
  pool := ObjectPool.init Capacity
  live := []

/-- `release` of an object whose destructor leaves `destroy` of it in the slot. -/
def released (destroy : T → T) (p : ObjectPool T Capacity) (slot : Nat) : ObjectPool T Capacity :=
  (p.write slot (destroy (p.storage slot))).release slot

/-- One call. Only an object that is live can be released. -/
def call (destroy : T → T) (u : PoolUse T Capacity) : PoolCall T → Option (PoolUse T Capacity)
  | .acquire obj =>
      match u.pool.acquire obj with
      | none => some u -- the caller got a null pointer
      | some (slot, pool) => some ⟨pool, slot :: u.live⟩
  | .release slot =>
      if slot ∈ u.live then some ⟨released destroy u.pool slot, u.live.erase slot⟩ else none

/-- No slot is handed out twice, and none is lost. -/
structure Sound (destroy : T → T) (u : PoolUse T Capacity) : Prop where
  live_nodup : u.live.Nodup
  /-- The free list ends in `-1`, comes by no slot twice and visits what is not live. -/
  free : ∃ free, ObjectPool.FreeList u.pool.nextFree u.pool.freeHead free
    ∧ free.Nodup ∧ ∀ s, s ∈ free ↔ s < Capacity ∧ s ∉ u.live
  acquired : ∀ obj slot pool, u.pool.acquire obj = some (slot, pool) →
    slot < Capacity ∧ slot ∉ u.live
  exhausted : ∀ obj, u.pool.acquire obj = none ↔ u.live.length = Capacity
  kept : ∀ slot ∈ u.live, ∀ other ∈ u.live, other ≠ slot →
    (released destroy u.pool slot).storage other = u.pool.storage other

/-! ## Up to `2 ^ 31` slots -/

/-- **One call moves one slot across**, from the free list or back to it. -/
theorem holds_call {u u' : PoolUse T cap} {c : PoolCall T} (h : u.pool.Holds u.live)
    (hcall : u.call destroy c = some u') : u'.pool.Holds u'.live := by
  cases c with
  | acquire obj =>
      unfold call at hcall
      dsimp only at hcall
      split at hcall
      · cases hcall
        exact h
      · rename_i slot pool hacq
        cases hcall
        exact (ObjectPool.acquire_some h hacq).2.1
  | release slot =>
      unfold call at hcall
      dsimp only at hcall
      split at hcall
      · rename_i hlive
        cases hcall
        -- the destructor writes to the slot and leaves the links alone
        have hwritten : (u.pool.write slot (destroy (u.pool.storage slot))).Holds
            (slot :: u.live.erase slot) := h.perm (List.perm_cons_erase hlive)
        exact ObjectPool.holds_release hwritten
      · simp at hcall

theorem sound_of_holds {u : PoolUse T Capacity} (h : u.pool.Holds u.live) : u.Sound destroy := by
  have hlive := h.nodup
  refine ⟨hlive, ?_, ?_, fun obj => ObjectPool.acquire_none_iff h, ?_⟩
  · obtain ⟨free, hfree, hperm⟩ := h
    have hnodup : (free ++ u.live).Nodup := hperm.nodup_iff.mpr List.nodup_range
    obtain ⟨hnd, _, hdisj⟩ := List.nodup_append.mp hnodup
    refine ⟨free, hfree, hnd, fun s => ?_⟩
    have hmem : s ∈ free ++ u.live ↔ s < Capacity := hperm.mem_iff.trans List.mem_range
    rw [List.mem_append] at hmem
    constructor
    · intro hs
      exact ⟨hmem.mp (Or.inl hs), fun hl => hdisj s hs s hl rfl⟩
    · rintro ⟨hlt, hnot⟩
      rcases hmem.mpr hlt with hs | hs
      · exact hs
      · exact absurd hs hnot
  · intro obj slot pool hacq
    obtain ⟨hnot, hholds, _⟩ := ObjectPool.acquire_some h hacq
    exact ⟨hholds.lt List.mem_cons_self, hnot⟩
  · intro slot _ other _ hne
    exact u.pool.write_storage_ne _ hne

/-! ## Beyond -/

/-- The cast of the first index that does not fit. -/
theorem int32_two_pow : int32 ((2 ^ 31 : Nat) : Int) = -2 ^ 31 := by decide

/-- From no slot that fits an `int32_t` do the links of too large a pool come to an end. -/
theorem not_freeList_init [Inhabited T] (hbig : 2 ^ 31 < Capacity) {head : Int} {free : List Nat}
    (h : ObjectPool.FreeList (ObjectPool.init Capacity : ObjectPool T Capacity).nextFree head
      free) :
    ∀ i : Nat, head = i → ¬ i < 2 ^ 31 := by
  -- on the list: each slot that fits links to the next, up to the last one
  induction h with
  | nil =>
      intro i hi
      omega
  | @cons i free hrest ih =>
      intro j hj hlt
      have hij : i = j := by omega
      subst hij
      have hnext : (ObjectPool.init Capacity : ObjectPool T Capacity).nextFree i
          = int32 (i + 1 : Nat) := by
        show (if i + 1 < Capacity then _ else _) = _
        rw [if_pos (by omega)]
      rw [hnext] at hrest ih
      by_cases hlast : i + 1 = 2 ^ 31
      · rw [hlast, int32_two_pow] at hrest
        -- a negative link other than `-1` is no slot, and not the end
        generalize hneg : (-2 ^ 31 : Int) = link at hrest
        cases hrest with
        | nil => omega
        | cons _ => omega
      · have hfits : i + 1 < 2 ^ 31 := by omega
        exact ih (i + 1) (int32_of_lt hfits) hfits

theorem not_sound_init [Inhabited T] (hbig : 2 ^ 31 < Capacity) :
    ¬ (init Capacity : PoolUse T Capacity).Sound destroy := by
  intro hsound
  obtain ⟨free, hfree, _⟩ := hsound.free
  have hhead : (init Capacity : PoolUse T Capacity).pool.freeHead = ((0 : Nat) : Int) := by
    show (if 0 < Capacity then (0 : Int) else -1) = _
    rw [if_pos (by omega)]
    rfl
  exact not_freeList_init hbig hfree 0 hhead (by decide)

/--
**A pool works exactly up to `2 ^ 31` slots.**

Then, after every sequence of calls that releases live objects only, the free list is
the slots that are not live, `acquire` hands one of them out or finds none, and a release
leaves the other live objects as they were. A larger pool is broken once constructed.
-/
theorem pool_sound_iff_fits (T : Type) [Inhabited T] (destroy : T → T) (Capacity : Nat) :
    (∀ (calls : List (PoolCall T)) (u : PoolUse T Capacity),
        Machine.exec (call destroy) (init Capacity) calls = some u → u.Sound destroy)
      ↔ Capacity ≤ 2 ^ 31 := by
  constructor
  · intro hsound
    refine Nat.le_of_not_lt fun hbig => ?_
    exact not_sound_init hbig (hsound [] _ rfl)
  · intro hfits calls u hrun
    have hinit : (init (⟨Capacity, hfits⟩ : PoolCapacity) : PoolUse T _).pool.Holds [] :=
      ObjectPool.holds_init
    have hstep : ∀ s c s', s.pool.Holds s.live → call destroy s c = some s' →
        s'.pool.Holds s'.live :=
      fun s c s' h hcall => @holds_call T ⟨Capacity, hfits⟩ destroy s s' c h hcall
    exact sound_of_holds (Machine.exec_preserves hstep calls _ u hinit hrun)

/-- One slot more than an `int32_t` can number: the last link that is cast leaves the pool. -/
theorem pool_of_too_many_slots :
    let u : PoolUse Order (2 ^ 31 + 1) := init (2 ^ 31 + 1)
    Machine.exec (call id) (init (2 ^ 31 + 1)) [] = some u
      ∧ u.pool.nextFree (2 ^ 31 - 1) = -2 ^ 31 ∧ ¬ u.Sound id :=
  ⟨rfl, by decide, not_sound_init (by decide)⟩

end PoolUse

end HftLob.Book

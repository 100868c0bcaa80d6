import Mathlib.Data.List.Induction

/-!
# Batched writes

A writer that makes its records durable in batches: when enough of them are pending, when
enough time has passed and something is pending, or when it is told to. A crash loses what
is pending.

Time is a free choice at each call. The records are arbitrary, and a batch size of zero is
as good as one.
-/

namespace HftLob.Lib

/-- Whether `count` pending records are to be made durable now. -/
def Batch.Due (n : Nat) (force elapsed : Bool) (count : Nat) : Prop :=
  force = true ∨ 0 < count ∧ (n ≤ count ∨ elapsed = true)

instance (n : Nat) (force elapsed : Bool) (count : Nat) :
    Decidable (Batch.Due n force elapsed count) :=
  inferInstanceAs (Decidable (_ ∨ _))

/-- The same as two reasons to wait: nothing is pending, or neither threshold is reached. -/
theorem Batch.due_iff {n : Nat} {force elapsed : Bool} {count : Nat} :
    Due n force elapsed count
      ↔ ¬ (count = 0 ∧ force = false) ∧ ¬ (force = false ∧ count < n ∧ elapsed = false) := by
  unfold Due
  cases force with
  | true => simp
  | false =>
      cases elapsed with
      | true => simp [Nat.pos_iff_ne_zero]
      | false => simp [Nat.pos_iff_ne_zero]

/-- A function that returns early for either of the two reasons. -/
theorem Batch.ite_due {β : Type} {n : Nat} {force elapsed : Bool} {count : Nat} (wait go : β) :
    (if count = 0 ∧ force = false then wait
      else if force = false ∧ count < n ∧ elapsed = false then wait else go)
      = if Due n force elapsed count then go else wait := by
  by_cases hempty : count = 0 ∧ force = false
  · rw [if_pos hempty, if_neg fun hdue => (due_iff.mp hdue).1 hempty]
  · rw [if_neg hempty]
    by_cases hearly : force = false ∧ count < n ∧ elapsed = false
    · rw [if_pos hearly, if_neg fun hdue => (due_iff.mp hdue).2 hearly]
    · rw [if_neg hearly, if_pos (due_iff.mpr ⟨hempty, hearly⟩)]

structure Batch (α : Type) where
  durable : List α
  pending : List α

namespace Batch

variable {α : Type} {n : Nat}

inductive Call (α : Type) where
  | append (x : α) (elapsed : Bool)
  | flush (force elapsed : Bool)

def flush (n : Nat) (b : Batch α) (force elapsed : Bool) : Batch α :=
  if Due n force elapsed b.pending.length then ⟨b.durable ++ b.pending, []⟩ else b

def call (n : Nat) (b : Batch α) : Call α → Batch α
  | .append x elapsed => flush n ⟨b.durable, b.pending ++ [x]⟩ false elapsed
  | .flush force elapsed => flush n b force elapsed

def run (n : Nat) (calls : List (Call α)) : Batch α := calls.foldl (call n) ⟨[], []⟩

/-- The records of a list of calls. -/
def appended (calls : List (Call α)) : List α :=
  calls.filterMap fun
    | .append x _ => some x
    | .flush _ _ => none

theorem flush_written (b : Batch α) (force elapsed : Bool) :
    (flush n b force elapsed).durable ++ (flush n b force elapsed).pending
      = b.durable ++ b.pending := by
  unfold flush
  split
  · exact List.append_nil _
  · rfl

/-- What a call leaves pending is less than a batch. -/
theorem flush_pending (b : Batch α) (force elapsed : Bool) :
    (flush n b force elapsed).pending.length < max 1 n := by
  unfold flush
  by_cases hdue : Due n force elapsed b.pending.length
  · rw [if_pos hdue]
    exact Nat.lt_of_lt_of_le Nat.zero_lt_one (Nat.le_max_left 1 n)
  · rw [if_neg hdue]
    unfold Due at hdue
    omega

theorem flush_forced (b : Batch α) (elapsed : Bool) :
    flush n b true elapsed = ⟨b.durable ++ b.pending, []⟩ :=
  if_pos (Or.inl rfl)

/-- **Nothing is lost or reordered** between the two parts. -/
theorem run_written (calls : List (Call α)) :
    (run n calls).durable ++ (run n calls).pending = appended calls := by
  induction calls using List.reverseRecOn with
  | nil => rfl
  | append_singleton calls c ih =>
      rw [run, List.foldl_append, ← run, appended, List.filterMap_append, ← appended, ← ih]
      cases c with
      | append x elapsed =>
          refine (flush_written _ _ _).trans ?_
          exact (List.append_assoc _ _ _).symm
      | flush force elapsed =>
          refine (flush_written _ _ _).trans ?_
          exact (List.append_nil _).symm

theorem run_pending (calls : List (Call α)) : (run n calls).pending.length < max 1 n := by
  induction calls using List.reverseRecOn with
  | nil => exact Nat.lt_of_lt_of_le Nat.zero_lt_one (Nat.le_max_left 1 n)
  | append_singleton calls c _ =>
      rw [run, List.foldl_append]
      cases c with
      | append x elapsed => exact flush_pending _ _ _
      | flush force elapsed => exact flush_pending _ _ _

/-- **A crash loses the end, and less than a batch of it.** -/
theorem run_durable (calls : List (Call α)) :
    (run n calls).durable <+: appended calls
      ∧ (appended calls).length < (run n calls).durable.length + max 1 n := by
  have hpending := run_pending (n := n) calls
  rw [← run_written (n := n) calls, List.length_append]
  exact ⟨List.prefix_append _ _, by omega⟩

end Batch

end HftLob.Lib

import Mathlib.Logic.Function.Basic
import Mathlib.Data.List.Basic

/-!
# Circular buffers

The items of a growing log, kept in a fixed number of slots: item `n` goes to slot
`n % cap`, over whatever was there. `Holds` says from which item on the slots still
have the log. It does not matter who writes, who reads or how the positions are
stored; the two queues of a program are two uses of it.
-/

namespace HftLob.Lib.Circular

variable {T : Type} {cap lo : Nat} {slots : Nat → T} {log : List T} {item : T}

/-- Items less than `cap` apart have different slots. -/
theorem mod_ne_of_lt {m n cap : Nat} (hlt : m < n) (hn : n < m + cap) : m % cap ≠ n % cap := by
  intro he
  have hdvd : (n - m) % cap = 0 := Nat.sub_mod_eq_zero_of_mod_eq he.symm
  rw [Nat.mod_eq_of_lt (by omega)] at hdvd
  omega

/-- From item `lo` on, every item of the log is in its slot. -/
def Holds (cap : Nat) (slots : Nat → T) (log : List T) (lo : Nat) : Prop :=
  ∀ n v, lo ≤ n → log[n]? = some v → slots (n % cap) = v

theorem holds_nil : Holds cap slots [] lo := by
  intro n v _ hv
  simp at hv

theorem Holds.mono {lo' : Nat} (h : Holds cap slots log lo) (hlo : lo ≤ lo') :
    Holds cap slots log lo' :=
  fun n v hn hv => h n v (Nat.le_trans hlo hn) hv

/-- The next item is written over one that is further back than `lo`. -/
theorem Holds.store (h : Holds cap slots log lo) (hlo : log.length < lo + cap) :
    Holds cap (Function.update slots (log.length % cap) item) log lo := by
  intro n v hn hv
  have hlen : n < log.length := by
    by_contra hge
    rw [List.getElem?_eq_none (by omega)] at hv
    exact absurd hv (by simp)
  rw [Function.update_of_ne (mod_ne_of_lt hlen (by omega))]
  exact h n v hn hv

/-- The next item joins the log once its slot has it. -/
theorem Holds.append (h : Holds cap slots log lo) (hitem : slots (log.length % cap) = item) :
    Holds cap slots (log ++ [item]) lo := by
  intro n v hn hv
  rcases Nat.lt_trichotomy n log.length with hlt | heq | hgt
  · rw [List.getElem?_append_left hlt] at hv
    exact h n v hn hv
  · subst heq
    rw [List.getElem?_concat_length, Option.some.injEq] at hv
    rw [hitem, hv]
  · rw [List.getElem?_eq_none (by rw [List.length_append, List.length_singleton]; omega)] at hv
    exact absurd hv (by simp)

end HftLob.Lib.Circular

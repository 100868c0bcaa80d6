import Mathlib.Data.List.TakeWhile

/-!
# Reading up to a delimiter

`std::getline` on an input stream, over items of any type. A call takes what is in front of
the next delimiter, or all that is left if there is none, and then the stream has met its
end: later calls fail. A call fails too if it meets the end before anything was read.

What the calls of a stream give one after the other are the pieces between the delimiters
(`getline_pieces`); a loop that runs until a call fails does not see an empty piece at the
end (`readAll_eq`).
-/

namespace HftLob.Lib.Getline

variable {α : Type} [DecidableEq α]

/-- What is left to read, and whether the end has not been met. -/
structure Stream (α : Type) where
  rest : List α
  good : Bool

/-- The string read, `none` if the call fails, and the stream after it. -/
def getline (delim : α) (s : Stream α) : Option (List α) × Stream α :=
  if s.good then
    match s.rest.dropWhile (· ≠ delim) with
    | _ :: rest => (some (s.rest.takeWhile (· ≠ delim)), ⟨rest, true⟩)
    | [] => (if s.rest = [] then none else some s.rest, ⟨[], false⟩)
  else (none, s)

variable {delim : α} {a b : List α}

theorem all_ne_of_not_mem (h : delim ∉ a) : ∀ x ∈ a, decide (x ≠ delim) = true := by
  intro x hx
  exact decide_eq_true fun he => h (he ▸ hx)

theorem getline_cut (h : delim ∉ a) :
    getline delim ⟨a ++ delim :: b, true⟩ = (some a, ⟨b, true⟩) := by
  have hne := all_ne_of_not_mem h
  unfold getline
  rw [if_pos rfl]
  dsimp only
  rw [List.dropWhile_append_of_pos hne, List.takeWhile_append_of_pos hne,
    List.dropWhile_cons_of_neg (by simp), List.takeWhile_cons_of_neg (by simp), List.append_nil]

theorem getline_end (h : delim ∉ a) :
    getline delim ⟨a, true⟩ = (if a = [] then none else some a, ⟨[], false⟩) := by
  have hdrop : a.dropWhile (· ≠ delim) = [] :=
    List.dropWhile_eq_nil_iff.mpr (all_ne_of_not_mem h)
  unfold getline
  rw [if_pos rfl]
  dsimp only
  rw [hdrop]

/-! ## Call after call -/

/-- The pieces a stream still has to give. -/
def pieces (delim : α) (s : Stream α) : List (List α) :=
  if s.good then s.rest.splitOn delim else []

/-- **A call takes one piece**, the empty one if it fails. -/
theorem getline_pieces (delim : α) (s : Stream α) :
    (getline delim s).1.getD [] = (pieces delim s).headD []
      ∧ pieces delim (getline delim s).2 = (pieces delim s).tail := by
  obtain ⟨rest, good⟩ := s
  cases good with
  | false => exact ⟨rfl, rfl⟩
  | true =>
      by_cases hmem : delim ∈ rest
      · obtain ⟨a, b, rfl, ha⟩ := List.eq_append_cons_of_mem hmem
        have hsplit : pieces delim ⟨a ++ delim :: b, true⟩ = a :: b.splitOn delim :=
          List.splitOn_append_cons_self_of_not_mem ha b
        rw [getline_cut ha, hsplit]
        exact ⟨rfl, rfl⟩
      · have hsplit : pieces delim ⟨rest, true⟩ = [rest] := List.splitOn_eq_singleton hmem
        rw [getline_end hmem, hsplit]
        refine ⟨?_, rfl⟩
        by_cases hnil : rest = []
        · rw [if_pos hnil, hnil]
          rfl
        · rw [if_neg hnil]
          rfl

/-! ## Until a call fails -/

theorem getline_length {line : List α} {s : Stream α} {rest : List α}
    (h : getline delim ⟨rest, true⟩ = (some line, s)) (hgood : s.good = true) :
    s.rest.length < rest.length := by
  by_cases hmem : delim ∈ rest
  · obtain ⟨a, b, rfl, ha⟩ := List.eq_append_cons_of_mem hmem
    rw [getline_cut ha] at h
    obtain ⟨_, rfl⟩ := Prod.mk.inj h
    dsimp only
    rw [List.length_append, List.length_cons]
    omega
  · rw [getline_end hmem] at h
    obtain ⟨_, rfl⟩ := Prod.mk.inj h
    simp at hgood

/-- `while (std::getline(file, line))`: the lines it sees. -/
def readAll (delim : α) (rest : List α) : List (List α) :=
  match _h : getline delim ⟨rest, true⟩ with
  | (none, _) => []
  | (some line, s) =>
      if _hgood : s.good = true then line :: readAll delim s.rest else [line]
termination_by rest.length
decreasing_by exact getline_length _h _hgood

/-- An empty piece at the end is none. -/
def dropEmptyLast (l : List (List α)) : List (List α) :=
  if l.getLast? = some [] then l.dropLast else l

/-- **The loop sees the pieces**, but for an empty one at the end. -/
theorem readAll_eq (delim : α) (rest : List α) :
    readAll delim rest = dropEmptyLast (rest.splitOn delim) := by
  -- on what is left to read
  induction hn : rest.length using Nat.strongRecOn generalizing rest with
  | ind n ih =>
      rw [readAll]
      by_cases hmem : delim ∈ rest
      · obtain ⟨a, b, rfl, ha⟩ := List.eq_append_cons_of_mem hmem
        have hlen : b.length < n := by
          rw [List.length_append, List.length_cons] at hn
          omega
        have hb : b.splitOn delim ≠ [] := List.splitOn_ne_nil delim b
        have hlast : dropEmptyLast (a :: b.splitOn delim)
            = a :: dropEmptyLast (b.splitOn delim) := by
          unfold dropEmptyLast
          rw [List.getLast?_cons_of_ne_nil hb, List.dropLast_cons_of_ne_nil hb]
          split <;> rfl
        rw [List.splitOn_append_cons_self_of_not_mem ha b, hlast, ← ih b.length hlen b rfl]
        split
        · rename_i h
          rw [getline_cut ha] at h
          simp at h
        · rename_i line s h
          rw [getline_cut ha] at h
          obtain ⟨hline, rfl⟩ := Prod.mk.inj h
          rw [dif_pos rfl, Option.some.inj hline]
      · rw [List.splitOn_eq_singleton hmem]
        split
        · rename_i h
          rw [getline_end hmem] at h
          have hnil : rest = [] := by
            by_contra hne
            rw [if_neg hne] at h
            simp at h
          rw [hnil]
          rfl
        · rename_i line s h
          rw [getline_end hmem] at h
          obtain ⟨hline, rfl⟩ := Prod.mk.inj h
          have hnil : rest ≠ [] := by
            intro he
            rw [if_pos he] at hline
            simp at hline
          rw [if_neg hnil] at hline
          rw [dif_neg (by simp), Option.some.inj hline]
          unfold dropEmptyLast
          rw [if_neg (by simpa using Option.some.inj hline ▸ hnil)]

end HftLob.Lib.Getline

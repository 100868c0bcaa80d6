import Mathlib.Order.RelClasses
import Mathlib.Data.List.Basic

/-!
# Ordered maps

`std::map` with an arbitrary comparator: an association list kept strictly
sorted by key, so that `begin()` is the head and iteration is list order. The
sortedness is a field, and every operation re-establishes it.

Two lemmas say everything the operations do. `find?_some_split` cuts a map at a
key it holds and `find?_none_split` at a key it does not; both give the pieces on
each side of the cut and what `insert` and `erase` make of them.
-/

namespace HftLob.Lib

/-- An association list strictly sorted by `lt` on its keys. -/
structure SortedMap (κ α : Type) (lt : κ → κ → Prop) where
  entries : List (κ × α)
  sorted : (entries.map Prod.fst).Pairwise lt

namespace SortedMap

variable {κ α : Type} {lt : κ → κ → Prop}

/-- `std::map()`. -/
def empty : SortedMap κ α lt := ⟨[], .nil⟩

section Operations

variable [DecidableEq κ] [DecidableRel lt]

/-- Assign `v` at `k`, at the place the order gives it. -/
def insertList (lt : κ → κ → Prop) [DecidableRel lt] (k : κ) (v : α) :
    List (κ × α) → List (κ × α)
  | [] => [(k, v)]
  | (k', v') :: rest =>
      if k = k' then (k, v) :: rest
      else if lt k k' then (k, v) :: (k', v') :: rest
      else (k', v') :: insertList lt k v rest

theorem mem_insertList {k : κ} {v : α} {l : List (κ × α)} {x : κ × α}
    (h : x ∈ insertList lt k v l) : x = (k, v) ∨ x ∈ l := by
  induction l with
  | nil => simpa [insertList] using h
  | cons y l ih =>
      rw [insertList] at h
      split at h
      · rcases List.mem_cons.mp h with h | h
        · exact Or.inl h
        · exact Or.inr (List.mem_cons_of_mem _ h)
      · split at h
        · exact List.mem_cons.mp h
        · rcases List.mem_cons.mp h with h | h
          · exact Or.inr (h ▸ List.mem_cons_self)
          · exact (ih h).imp id (List.mem_cons_of_mem _)

theorem insertList_sorted [IsStrictTotalOrder κ lt] {k : κ} {v : α} {l : List (κ × α)}
    (h : (l.map Prod.fst).Pairwise lt) :
    ((insertList lt k v l).map Prod.fst).Pairwise lt := by
  induction l with
  | nil => simp [insertList]
  | cons y l ih =>
      obtain ⟨hy, hl⟩ := List.pairwise_cons.mp h
      rw [insertList]
      split
      · rename_i he
        exact List.pairwise_cons.mpr ⟨he ▸ hy, hl⟩
      · rename_i hne
        split
        · rename_i hlt
          refine List.pairwise_cons.mpr ⟨fun a ha => ?_, h⟩
          rcases List.mem_cons.mp ha with ha | ha
          · exact ha ▸ hlt
          · exact IsTrans.trans _ _ _ hlt (hy a ha)
        · rename_i hnlt
          refine List.pairwise_cons.mpr ⟨fun a ha => ?_, ih hl⟩
          obtain ⟨x, hx, rfl⟩ := List.mem_map.mp ha
          rcases mem_insertList hx with rfl | hx
          · exact ((trichotomous (r := lt) k y.1).resolve_left hnlt).resolve_left hne
          · exact hy _ (List.mem_map_of_mem hx)

/-- `m[k] = v`. -/
def insert [IsStrictTotalOrder κ lt] (m : SortedMap κ α lt) (k : κ) (v : α) :
    SortedMap κ α lt :=
  ⟨insertList lt k v m.entries, insertList_sorted m.sorted⟩

/-- `m.find(k)`. -/
def find? (m : SortedMap κ α lt) (k : κ) : Option α :=
  (m.entries.find? (fun e => e.1 = k)).map Prod.snd

/-- `m.erase(k)`. -/
def erase (m : SortedMap κ α lt) (k : κ) : SortedMap κ α lt :=
  ⟨m.entries.filter (fun e => e.1 ≠ k),
   m.sorted.sublist ((List.filter_sublist).map Prod.fst)⟩

end Operations

/-! ## Cutting a map at a key -/

section Cut

variable [DecidableEq κ] [DecidableRel lt] [IsStrictTotalOrder κ lt]

theorem insertList_cut_some {k : κ} {v w : α} {l₁ l₂ : List (κ × α)}
    (h₁ : ∀ x ∈ l₁, lt x.1 k) :
    insertList lt k w (l₁ ++ (k, v) :: l₂) = l₁ ++ (k, w) :: l₂ := by
  induction l₁ with
  | nil => simp [insertList]
  | cons x l₁ ih =>
      have hx : lt x.1 k := h₁ x List.mem_cons_self
      have hne : k ≠ x.1 := fun he => irrefl (r := lt) x.1 (he ▸ hx)
      have hnlt : ¬ lt k x.1 := fun hk => irrefl k (IsTrans.trans _ _ _ hk hx)
      rw [List.cons_append, insertList, if_neg hne, if_neg hnlt,
        ih (fun y hy => h₁ y (List.mem_cons_of_mem _ hy)), List.cons_append]

theorem insertList_cut_none {k : κ} {w : α} {l₁ l₂ : List (κ × α)}
    (h₁ : ∀ x ∈ l₁, lt x.1 k) (h₂ : ∀ x ∈ l₂, lt k x.1) :
    insertList lt k w (l₁ ++ l₂) = l₁ ++ (k, w) :: l₂ := by
  induction l₁ with
  | nil =>
      cases l₂ with
      | nil => rfl
      | cons x l₂ =>
          have hx : lt k x.1 := h₂ x List.mem_cons_self
          have hne : k ≠ x.1 := fun he => irrefl (r := lt) x.1 (he ▸ hx)
          rw [List.nil_append, insertList, if_neg hne, if_pos hx, List.nil_append]
  | cons x l₁ ih =>
      have hx : lt x.1 k := h₁ x List.mem_cons_self
      have hne : k ≠ x.1 := fun he => irrefl (r := lt) x.1 (he ▸ hx)
      have hnlt : ¬ lt k x.1 := fun hk => irrefl k (IsTrans.trans _ _ _ hk hx)
      rw [List.cons_append, insertList, if_neg hne, if_neg hnlt,
        ih (fun y hy => h₁ y (List.mem_cons_of_mem _ hy)), List.cons_append]

theorem filter_ne_of_lt {k : κ} {l : List (κ × α)} (h : ∀ x ∈ l, x.1 ≠ k) :
    l.filter (fun e => e.1 ≠ k) = l := by
  rw [List.filter_eq_self]
  intro x hx
  simpa using h x hx

/-- **A held key cuts the map in two**: what is in front, what is behind, and what
assigning or erasing at that key leaves of them. -/
theorem find?_some_split {m : SortedMap κ α lt} {k : κ} {v : α} (h : m.find? k = some v) :
    ∃ l₁ l₂ : List (κ × α), m.entries = l₁ ++ (k, v) :: l₂
      ∧ (∀ x ∈ l₁, lt x.1 k) ∧ (∀ x ∈ l₂, lt k x.1)
      ∧ (m.erase k).entries = l₁ ++ l₂
      ∧ ∀ w, (m.insert k w).entries = l₁ ++ (k, w) :: l₂ := by
  obtain ⟨e, he, hv⟩ := Option.map_eq_some_iff.mp h
  obtain ⟨hek, l₁, l₂, hl, -⟩ := List.find?_eq_some_iff_append.mp he
  have hke : e = (k, v) := Prod.ext (by simpa using hek) hv
  subst hke
  have hs := m.sorted
  rw [hl, List.map_append, List.map_cons, List.pairwise_append, List.pairwise_cons] at hs
  obtain ⟨-, ⟨hgt, -⟩, hlt⟩ := hs
  have h₁ : ∀ x ∈ l₁, lt x.1 k := fun x hx =>
    hlt _ (List.mem_map_of_mem hx) _ List.mem_cons_self
  have h₂ : ∀ x ∈ l₂, lt k x.1 := fun x hx => hgt _ (List.mem_map_of_mem hx)
  refine ⟨l₁, l₂, hl, h₁, h₂, ?_, ?_⟩
  · show m.entries.filter _ = _
    rw [hl, List.filter_append, List.filter_cons_of_neg (by simp),
      filter_ne_of_lt (fun x hx he => irrefl k (he ▸ h₁ x hx)),
      filter_ne_of_lt (fun x hx he => irrefl k (he ▸ h₂ x hx))]
  · intro w
    show insertList lt k w m.entries = _
    rw [hl, insertList_cut_some h₁]

/-- A key determines its entry. -/
theorem find?_of_mem {m : SortedMap κ α lt} {k : κ} {v : α} (h : (k, v) ∈ m.entries) :
    m.find? k = some v := by
  cases hf : m.find? k with
  | none => exact absurd rfl ((by simpa [find?] using hf : ∀ x ∈ m.entries, x.1 ≠ k) _ h)
  | some w =>
      obtain ⟨l₁, l₂, he, h₁, h₂, -, -⟩ := find?_some_split hf
      rw [he] at h
      rcases List.mem_append.mp h with h | h
      · exact absurd (h₁ _ h) (irrefl (r := lt) k)
      · rcases List.mem_cons.mp h with h | h
        · rw [(Prod.mk.inj h).2]
        · exact absurd (h₂ _ h) (irrefl (r := lt) k)

/-- **A key the map does not hold has one place to go.** -/
theorem find?_none_split {m : SortedMap κ α lt} {k : κ} (h : m.find? k = none) :
    ∃ l₁ l₂ : List (κ × α), m.entries = l₁ ++ l₂
      ∧ (∀ x ∈ l₁, lt x.1 k) ∧ (∀ x ∈ l₂, lt k x.1)
      ∧ ∀ w, (m.insert k w).entries = l₁ ++ (k, w) :: l₂ := by
  have hne : ∀ x ∈ m.entries, x.1 ≠ k := by
    simpa [find?] using h
  have hcut : ∀ l : List (κ × α), (l.map Prod.fst).Pairwise lt → (∀ x ∈ l, x.1 ≠ k) →
      ∃ l₁ l₂, l = l₁ ++ l₂ ∧ (∀ x ∈ l₁, lt x.1 k) ∧ (∀ x ∈ l₂, lt k x.1) := by
    intro l
    induction l with
    | nil => exact fun _ _ => ⟨[], [], rfl, by simp, by simp⟩
    | cons x l ih =>
        intro hs hk
        obtain ⟨hx, hl⟩ := List.pairwise_cons.mp hs
        rcases trichotomous (r := lt) x.1 k with hlt | heq | hgt
        · obtain ⟨l₁, l₂, rfl, h₁, h₂⟩ := ih hl (fun y hy => hk y (List.mem_cons_of_mem _ hy))
          exact ⟨x :: l₁, l₂, rfl, List.forall_mem_cons.mpr ⟨hlt, h₁⟩, h₂⟩
        · exact absurd heq (hk x List.mem_cons_self)
        · refine ⟨[], x :: l, rfl, by simp, List.forall_mem_cons.mpr ⟨hgt, fun y hy => ?_⟩⟩
          exact IsTrans.trans _ _ _ hgt (hx _ (List.mem_map_of_mem hy))
  obtain ⟨l₁, l₂, hl, h₁, h₂⟩ := hcut m.entries m.sorted hne
  refine ⟨l₁, l₂, hl, h₁, h₂, fun w => ?_⟩
  show insertList lt k w m.entries = _
  rw [hl, insertList_cut_none h₁ h₂]

end Cut

end SortedMap

end HftLob.Lib

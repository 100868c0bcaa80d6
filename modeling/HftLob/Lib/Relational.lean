import Mathlib.Data.List.Basic
import Mathlib.Data.List.Sublists

/-!
# Tables

What a relational database does with rows, as far as a table with a primary key, a left
join and the row numbers of a window are concerned. A table is the list of its rows in the
order in which they were inserted.

Inserting a row under a key that is taken leaves the table as it is, so a table shows under
each key the first row that was offered. `filter_insertAll_eq_iff` says when nothing of a kind
is lost that way.
-/

namespace HftLob.Lib.Relational

variable {α β κ : Type}

/-! ## Primary keys -/

/-- The keys of the rows are all different, and free in the table. -/
def FreshKeys (key : α → κ) (table rows : List α) : Prop :=
  (rows.map key).Nodup ∧ ∀ r ∈ rows, key r ∉ table.map key

theorem FreshKeys.of_sublist {key : α → κ} {table rows rows' : List α}
    (h : FreshKeys key table rows) (hsub : rows'.Sublist rows) : FreshKeys key table rows' :=
  ⟨h.1.sublist (hsub.map key), fun r hr => h.2 r (hsub.subset hr)⟩

theorem freshKeys_cons {key : α → κ} {table rows : List α} {r : α} :
    FreshKeys key table (r :: rows)
      ↔ key r ∉ table.map key ∧ FreshKeys key (table ++ [r]) rows := by
  unfold FreshKeys
  simp only [List.map_cons, List.map_nil, List.nodup_cons, List.mem_cons, List.not_mem_nil,
    or_false, forall_eq_or_imp, List.map_append, List.mem_append, not_or]
  constructor
  · rintro ⟨⟨hnew, hnodup⟩, hfree, hrest⟩
    refine ⟨hfree, hnodup, fun r' hr' => ⟨hrest r' hr', fun he => hnew ?_⟩⟩
    exact he ▸ List.mem_map_of_mem hr'
  · rintro ⟨hfree, hnodup, hrest⟩
    refine ⟨⟨fun hin => ?_, hnodup⟩, hfree, fun r' hr' => (hrest r' hr').1⟩
    obtain ⟨r', hr', he⟩ := List.mem_map.mp hin
    exact (hrest r' hr').2 he

section Keyed

variable [DecidableEq κ] {key : α → κ}

def insertRow (key : α → κ) (table : List α) (r : α) : List α :=
  if key r ∈ table.map key then table else table ++ [r]

def insertAll (key : α → κ) (table : List α) (rows : List α) : List α :=
  rows.foldl (insertRow key) table

theorem insertAll_append (table rows rows' : List α) :
    insertAll key table (rows ++ rows') = insertAll key (insertAll key table rows) rows' :=
  List.foldl_append

theorem insertAll_concat (table rows : List α) (r : α) :
    insertAll key table (rows ++ [r]) = insertRow key (insertAll key table rows) r :=
  insertAll_append table rows [r]

/-- Every key that was offered is there. -/
theorem mem_keys_insertAll (rows : List α) (k : κ) :
    k ∈ (insertAll key [] rows).map key ↔ k ∈ rows.map key := by
  induction rows using List.reverseRecOn with
  | nil => exact Iff.rfl
  | append_singleton rows r ih =>
      rw [insertAll_concat, insertRow, List.map_append, List.mem_append, ← ih]
      split
      · rename_i htaken
        constructor
        · exact Or.inl
        · rintro (hk | hk)
          · exact hk
          · rw [List.map_singleton, List.mem_singleton] at hk
            exact hk ▸ htaken
      · rw [List.map_append, List.mem_append]

/-- No key is there twice. -/
theorem nodup_keys_insertAll (rows : List α) : ((insertAll key [] rows).map key).Nodup := by
  induction rows using List.reverseRecOn with
  | nil => exact List.nodup_nil
  | append_singleton rows r ih =>
      rw [insertAll_concat, insertRow]
      split
      · exact ih
      · rename_i hfree
        rw [List.map_append, List.map_singleton]
        exact ih.append (List.nodup_singleton _) (by simpa using hfree)

theorem insertAll_sublist (rows : List α) : (insertAll key [] rows).Sublist rows := by
  induction rows using List.reverseRecOn with
  | nil => exact List.Sublist.refl _
  | append_singleton rows r ih =>
      rw [insertAll_concat, insertRow]
      split
      · exact ih.trans (List.sublist_append_left rows [r])
      · exact ih.append (List.Sublist.refl [r])

theorem length_insertAll_le (table rows : List α) :
    (insertAll key table rows).length ≤ table.length + rows.length := by
  induction rows using List.reverseRecOn with
  | nil => exact Nat.le_refl _
  | append_singleton rows r ih =>
      rw [insertAll_concat, insertRow, List.length_append, List.length_singleton]
      split
      · omega
      · rw [List.length_append, List.length_singleton]
        omega

/-- **Every row goes in exactly if every key is fresh.** -/
theorem insertAll_eq_append_iff (table rows : List α) :
    insertAll key table rows = table ++ rows ↔ FreshKeys key table rows := by
  induction rows generalizing table with
  | nil => exact ⟨fun _ => ⟨List.nodup_nil, nofun⟩, fun _ => (List.append_nil table).symm⟩
  | cons r rows ih =>
      have hcons : insertAll key table (r :: rows)
          = insertAll key (insertRow key table r) rows := rfl
      rw [hcons, freshKeys_cons, insertRow]
      by_cases htaken : key r ∈ table.map key
      · -- the row is refused, and the table stays too short
        rw [if_pos htaken]
        refine ⟨fun he => ?_, fun h => absurd htaken h.1⟩
        have hlen := congrArg List.length he
        have hle : (insertAll key table rows).length ≤ _ := length_insertAll_le table rows
        rw [List.length_append, List.length_cons] at hlen
        omega
      · have hassoc : table ++ r :: rows = table ++ [r] ++ rows := List.append_cons table r rows
        rw [if_neg htaken, hassoc, ih]
        exact ⟨fun h => ⟨htaken, h⟩, And.right⟩

/-- **No row of a kind is lost exactly if none of them comes behind another row with its
key.** -/
theorem filter_insertAll_eq_iff (p : α → Bool) (rows : List α) :
    (insertAll key [] rows).filter p = rows.filter p
      ↔ rows.Pairwise fun r r' => p r' → key r ≠ key r' := by
  induction rows using List.reverseRecOn with
  | nil => simp [insertAll]
  | append_singleton rows r ih =>
      have hsub : ((insertAll key [] rows).filter p).Sublist (rows.filter p) :=
        (insertAll_sublist rows).filter p
      have hpair : (rows ++ [r]).Pairwise (fun r r' => p r' → key r ≠ key r')
          ↔ rows.Pairwise (fun r r' => p r' → key r ≠ key r') ∧ (p r → key r ∉ rows.map key) := by
        rw [List.pairwise_append]
        simp only [List.pairwise_singleton, List.mem_singleton, forall_eq, true_and, List.mem_map,
          not_exists, not_and]
        exact and_congr_right fun _ => ⟨fun h hp x hx => h x hx hp, fun h x hx hp => h hp x hx⟩
      rw [hpair, ← ih, insertAll_concat, insertRow, List.filter_append]
      by_cases hp : p r
      · have hone : [r].filter p = [r] := List.filter_cons_of_pos hp
        by_cases htaken : key r ∈ (insertAll key [] rows).map key
        · -- the row is refused, and one of its kind is missing
          have hmissing : (insertAll key [] rows).filter p ≠ rows.filter p ++ [r] := by
            intro he
            have hlen := congrArg List.length he
            rw [List.length_append, List.length_singleton] at hlen
            have := hsub.length_le
            omega
          rw [if_pos htaken, hone]
          constructor
          · exact fun he => absurd he hmissing
          · exact fun h => absurd ((mem_keys_insertAll rows _).mp htaken) (h.2 hp)
        · rw [if_neg htaken, List.filter_append, hone, List.append_cancel_right_eq]
          constructor
          · exact fun he => ⟨he, fun _ hk => htaken ((mem_keys_insertAll rows _).mpr hk)⟩
          · exact And.left
      · have hnone : [r].filter p = [] := List.filter_cons_of_neg hp
        have hsame : (if key r ∈ (insertAll key [] rows).map key then insertAll key [] rows
            else insertAll key [] rows ++ [r]).filter p = (insertAll key [] rows).filter p := by
          split
          · rfl
          · rw [List.filter_append, hnone, List.append_nil]
        rw [hsame, hnone, List.append_nil]
        exact ⟨fun he => ⟨he, fun h => absurd h hp⟩, And.left⟩

end Keyed

/-! ## Queries -/

/-- `LEFT JOIN`: every row of the left table with each row it is joined with, or with none. -/
def leftJoin (left : List α) (right : List β) (on : α → β → Bool) : List (α × Option β) :=
  left.flatMap fun a =>
    match right.filter (on a) with
    | [] => [(a, none)]
    | matching => matching.map fun b => (a, some b)

theorem leftJoin_eq_map {left : List α} {right : List β} {on : α → β → Bool} {g : α → Option β}
    (h : ∀ a, right.filter (on a) = (g a).toList) :
    leftJoin left right on = left.map fun a => (a, g a) := by
  induction left with
  | nil => rfl
  | cons a left ih =>
      unfold leftJoin at ih ⊢
      rw [List.flatMap_cons, List.map_cons, ih, h a]
      cases g a with
      | none => rfl
      | some b => rfl

section Window

variable [DecidableEq κ]

/-- `ROW_NUMBER() OVER (PARTITION BY part ORDER BY ord DESC)`. -/
def rowNumberDesc (part : α → κ) (ord : α → Nat) (table : List α) (r : α) : Nat :=
  (table.filter fun r' => part r' = part r ∧ ord r < ord r').length + 1

/-- **Number one is the last of its group**, if the rows were numbered as they came. -/
theorem filter_rowNumberDesc_one {part : α → κ} {ord : α → Nat} {table : List α}
    (h : table.Pairwise fun r r' => ord r < ord r') (k : κ) :
    table.filter (fun r => part r = k ∧ rowNumberDesc part ord table r = 1)
      = (table.filter fun r => part r = k).getLast?.toList := by
  have hgroup : ∀ r, part r = k → (rowNumberDesc part ord table r = 1
      ↔ ∀ r' ∈ table.filter (fun r => part r = k), ¬ ord r < ord r') := by
    intro r hr
    simp only [rowNumberDesc, Nat.add_eq_right, List.length_eq_zero_iff, List.filter_eq_nil_iff,
      decide_eq_true_eq, not_and, hr, List.mem_filter, and_imp]
  have hsplit : table.filter (fun r => part r = k ∧ rowNumberDesc part ord table r = 1)
      = (table.filter fun r => part r = k).filter
        fun r => ∀ r' ∈ table.filter (fun r => part r = k), ¬ ord r < ord r' := by
    rw [List.filter_filter]
    refine List.filter_congr fun r _ => ?_
    by_cases hr : part r = k
    · simp only [hr, true_and, decide_true, Bool.and_true, decide_eq_decide]
      exact hgroup r hr
    · simp only [hr, false_and, decide_false, Bool.and_false]
  have hpair : (table.filter fun r => part r = k).Pairwise fun r r' => ord r < ord r' :=
    h.filter _
  rw [hsplit]
  generalize table.filter (fun r => part r = k) = group at hpair ⊢
  rcases group.eq_nil_or_concat with rfl | ⟨front, last, rfl⟩
  · rfl
  · rw [List.concat_eq_append] at hpair ⊢
    rw [List.pairwise_append] at hpair
    have hfront : ∀ r ∈ front, ord r < ord last :=
      fun r hr => hpair.2.2 r hr last List.mem_cons_self
    have hlast : ∀ r' ∈ front ++ [last], ¬ ord last < ord r' := by
      intro r' hr'
      rcases List.mem_append.mp hr' with hr' | hr'
      · have := hfront r' hr'
        omega
      · rw [List.mem_singleton.mp hr']
        omega
    have hnone : front.filter
        (fun r => decide (∀ r' ∈ front ++ [last], ¬ ord r < ord r')) = [] := by
      rw [List.filter_eq_nil_iff]
      intro r hr hall
      exact of_decide_eq_true hall last (List.mem_append_right _ List.mem_cons_self) (hfront r hr)
    have hone : [last].filter
        (fun r => decide (∀ r' ∈ front ++ [last], ¬ ord r < ord r')) = [last] :=
      List.filter_cons_of_pos (decide_eq_true hlast)
    rw [List.filter_append, hnone, hone, List.getLast?_concat]
    rfl

end Window

end HftLob.Lib.Relational

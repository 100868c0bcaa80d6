import HftLob.Lib.PriceTime

/-!
# Priority between the entries of a list

In a list that is filled best price first and by arrival within a price, the place of an
entry is decided by its price and its id, if ids are given out in order of arrival. A walk
then fills nothing while something with a better claim is left.

The identifiers, the prices and both orders are arbitrary.
-/

namespace HftLob.Lib.PriceTime

variable {ι π : Type} {lt : π → π → Prop} {earlier : ι → ι → Prop}

/-- The better claim: at a better price, or at the same price and earlier. -/
def Ahead (lt : π → π → Prop) (earlier : ι → ι → Prop) (x y : Entry ι π) : Prop :=
  lt x.price y.price ∨ (x.price = y.price ∧ earlier x.id y.id)

/-- Every entry has a better claim than those behind it. -/
def InPriority (lt : π → π → Prop) (earlier : ι → ι → Prop) (l : List (Entry ι π)) : Prop :=
  l.Pairwise (Ahead lt earlier)

variable {l : List (Entry ι π)} {e : Entry ι π}

theorem Ahead.asymm [IsStrictTotalOrder π lt] [Std.Asymm earlier] {x y : Entry ι π}
    (h : Ahead lt earlier x y) : ¬ Ahead lt earlier y x := by
  rintro (hyx | ⟨heq, hyx⟩)
  · rcases h with hxy | ⟨heq, _⟩
    · exact asymm_of lt hxy hyx
    · exact irrefl _ (heq ▸ hyx)
  · rcases h with hxy | ⟨_, hxy⟩
    · exact irrefl _ (heq ▸ hxy)
    · exact Std.Asymm.asymm _ _ hxy hyx

/-! ## Keeping a list in priority -/

/-- The quantities do not matter. -/
theorem inPriority_iff_keys : InPriority lt earlier l ↔
    (l.map fun e => (e.id, e.price)).Pairwise fun x y =>
      lt x.2 y.2 ∨ (x.2 = y.2 ∧ earlier x.1 y.1) := by
  rw [List.pairwise_map]
  rfl

theorem InPriority.remove [DecidableEq ι] (h : InPriority lt earlier l) (i : ι) :
    InPriority lt earlier (remove i l) := List.Pairwise.filter _ h

theorem InPriority.walk_rest (h : InPriority lt earlier l) (crosses : π → Bool) (q : Nat) :
    InPriority lt earlier (walk crosses q l).rest :=
  inPriority_iff_keys.mpr
    ((inPriority_iff_keys.mp h).sublist (walk_rest_keys crosses q l).sublist)

theorem InPriority.walk_fills (h : InPriority lt earlier l) (crosses : π → Bool) (q : Nat) :
    InPriority lt earlier (walk crosses q l).fills :=
  inPriority_iff_keys.mpr
    ((inPriority_iff_keys.mp h).sublist (walk_fills_keys crosses q l).sublist)

/-- Who arrives last goes behind everything at least as good. -/
theorem InPriority.insert [DecidableRel lt] [IsStrictTotalOrder π lt]
    (h : InPriority lt earlier l) (hlast : ∀ x ∈ l, earlier x.id e.id) :
    InPriority lt earlier (insert lt e l) := by
  induction l with
  | nil => exact List.pairwise_singleton _ _
  | cons x l ih =>
      obtain ⟨hx, hl⟩ := List.pairwise_cons.mp h
      obtain ⟨hxe, hlast⟩ := List.forall_mem_cons.mp hlast
      unfold PriceTime.insert
      split
      · rename_i hbetter
        -- better than the head, hence than everything behind it
        refine List.pairwise_cons.mpr ⟨?_, h⟩
        intro y hy
        rcases List.mem_cons.mp hy with rfl | hy
        · exact .inl hbetter
        · rcases hx y hy with hxy | ⟨hxy, _⟩
          · exact .inl (trans_of lt hbetter hxy)
          · exact .inl (hxy ▸ hbetter)
      · rename_i hworse
        refine List.pairwise_cons.mpr ⟨?_, ih hl hlast⟩
        intro y hy
        rcases List.mem_cons.mp ((insert_perm e l).mem_iff.mp hy) with rfl | hy
        · rcases trichotomous_of lt x.price y.price with hlt | heq | hgt
          · exact .inl hlt
          · exact .inr ⟨heq, hxe⟩
          · exact absurd hgt hworse
        · exact hx y hy

/-! ## What a walk fills first -/

/-- Nothing is filled beyond the limit. -/
theorem walk_fills_cross {crosses : π → Bool} {q : Nat} {f : Entry ι π}
    (hf : f ∈ (walk crosses q l).fills) : crosses f.price := by
  induction l generalizing q with
  | nil => exact absurd hf (by simp)
  | cons x l ih =>
      rcases walk_cases crosses q x with h | ⟨hq, hc, h⟩ | ⟨hq, hc, h⟩
      · rw [walk_stop h] at hf
        exact absurd hf (by simp)
      · rw [walk_consume hq hc h] at hf
        rcases List.mem_cons.mp hf with rfl | hf
        · exact hc
        · exact ih hf
      · rw [walk_reduce hq hc h] at hf
        rw [List.mem_singleton.mp hf]
        exact hc

/-- Whoever has the better claim stands in front. -/
theorem InPriority.mem_front [IsStrictTotalOrder π lt] [Std.Asymm earlier]
    {front back : List (Entry ι π)} {x : Entry ι π}
    (h : InPriority lt earlier (front ++ e :: back)) (hx : x ∈ front ++ e :: back)
    (hahead : Ahead lt earlier x e) : x ∈ front := by
  rcases List.mem_append.mp hx with hfront | hx
  · exact hfront
  · rcases List.mem_cons.mp hx with rfl | hback
    · exact absurd hahead hahead.asymm
    · have hbehind := (List.pairwise_cons.mp (List.pairwise_append.mp h).2.1).1 x hback
      exact absurd hahead hbehind.asymm

/-- **Whatever has a better claim than a fill was filled whole before it.** -/
theorem InPriority.filled_before [IsStrictTotalOrder π lt] [Std.Asymm earlier]
    (h : InPriority lt earlier l) {crosses : π → Bool} {q : Nat} {x f : Entry ι π}
    {before after : List (Entry ι π)} (hx : x ∈ l)
    (hfills : (walk crosses q l).fills = before ++ f :: after) (hahead : Ahead lt earlier x f) :
    x ∈ before := by
  rcases walk_split crosses q l with hall | ⟨done, g, k, tail, _, _, hl, hdone, _⟩
  · rw [hfills, List.append_assoc, List.cons_append] at hall
    rw [hall] at h hx
    exact h.mem_front hx hahead
  · -- the fill is the last, of an entry that stays, or one of those before
    rw [hdone] at hfills
    rw [hl] at h hx
    rcases List.eq_nil_or_concat after with rfl | ⟨after, last, rfl⟩
    · obtain ⟨rfl, hlast⟩ := List.append_inj' hfills rfl
      rw [← List.singleton_inj.mp hlast] at hahead
      exact h.mem_front hx hahead
    · rw [List.concat_eq_append, ← List.cons_append, ← List.append_assoc] at hfills
      obtain ⟨rfl, _⟩ := List.append_inj' hfills rfl
      rw [List.append_assoc, List.cons_append] at h hx
      exact h.mem_front hx hahead

end HftLob.Lib.PriceTime

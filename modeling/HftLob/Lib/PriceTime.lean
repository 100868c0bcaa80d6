import Mathlib.Order.RelClasses
import Mathlib.Data.List.Basic
import Mathlib.Algebra.Order.BigOperators.Group.List
import Mathlib.Algebra.Order.Group.Nat
import Mathlib.Algebra.GroupWithZero.Nat

/-!
# Price-time priority on one flat list

What a side of an order book is for, with nothing said about how it is stored:
a list of entries, best price first and by arrival within a price. An incoming
quantity walks the list from its head, and what is left of it joins the other
side behind everything at least as good.

The identifiers, the prices and the order on prices are arbitrary.
-/

namespace HftLob.Lib.PriceTime

/-- A resting entry, or a fill against one: then `qty` is what changed hands. -/
structure Entry (ι π : Type) where
  id : ι
  price : π
  qty : Nat
  deriving DecidableEq, Repr

/-- What a walk produces: the fills in order, the quantity it did not place, and
the list it leaves. -/
structure Walk (ι π : Type) where
  fills : List (Entry ι π)
  left : Nat
  rest : List (Entry ι π)

variable {ι π : Type}

/--
Walk the list from its head while some quantity is left and the head's price
crosses. An entry filled to nothing disappears; one that is not keeps its place,
and ends the walk.
-/
def walk (crosses : π → Bool) : Nat → List (Entry ι π) → Walk ι π
  | q, [] => ⟨[], q, []⟩
  | q, e :: es =>
      if 0 < q ∧ crosses e.price then
        let f := min q e.qty
        if e.qty - f = 0 then
          let w := walk crosses (q - f) es
          ⟨{ e with qty := f } :: w.fills, w.left, w.rest⟩
        else ⟨[{ e with qty := f }], q - f, { e with qty := e.qty - f } :: es⟩
      else ⟨[], q, e :: es⟩

/-- Join the list behind every entry that is at least as good. -/
def insert (lt : π → π → Prop) [DecidableRel lt] (e : Entry ι π) :
    List (Entry ι π) → List (Entry ι π)
  | [] => [e]
  | x :: xs => if lt e.price x.price then e :: x :: xs else x :: insert lt e xs

/-- Leave the list. -/
def remove [DecidableEq ι] (i : ι) (l : List (Entry ι π)) : List (Entry ι π) :=
  l.filter (fun e => e.id ≠ i)

section Walk

variable {crosses : π → Bool}

@[simp] theorem walk_nil (q : Nat) : walk crosses q ([] : List (Entry ι π)) = ⟨[], q, []⟩ := rfl

theorem walk_stop {q : Nat} {e : Entry ι π} {es : List (Entry ι π)}
    (h : ¬ (0 < q ∧ crosses e.price)) : walk crosses q (e :: es) = ⟨[], q, e :: es⟩ := by
  rw [walk, if_neg h]

theorem walk_consume {q : Nat} {e : Entry ι π} {es : List (Entry ι π)}
    (hq : 0 < q) (hc : crosses e.price) (h : e.qty ≤ q) :
    walk crosses q (e :: es)
      = ⟨e :: (walk crosses (q - e.qty) es).fills, (walk crosses (q - e.qty) es).left,
         (walk crosses (q - e.qty) es).rest⟩ := by
  have hmin : min q e.qty = e.qty := Nat.min_eq_right h
  rw [walk, if_pos ⟨hq, hc⟩]
  simp only [hmin, Nat.sub_self, if_true]

theorem walk_reduce {q : Nat} {e : Entry ι π} {es : List (Entry ι π)}
    (hq : 0 < q) (hc : crosses e.price) (h : q < e.qty) :
    walk crosses q (e :: es)
      = ⟨[{ e with qty := q }], 0, { e with qty := e.qty - q } :: es⟩ := by
  have hmin : min q e.qty = q := Nat.min_eq_left (Nat.le_of_lt h)
  rw [walk, if_pos ⟨hq, hc⟩]
  simp only [hmin, Nat.sub_self]
  rw [if_neg (by omega)]

theorem walk_zero (l : List (Entry ι π)) : walk crosses 0 l = ⟨[], 0, l⟩ := by
  cases l with
  | nil => rfl
  | cons e es => exact walk_stop (by simp)

/-- The three ways a walk can meet an entry. -/
theorem walk_cases (crosses : π → Bool) (q : Nat) (e : Entry ι π) :
    ¬ (0 < q ∧ crosses e.price) ∨ (0 < q ∧ crosses e.price ∧ e.qty ≤ q)
      ∨ (0 < q ∧ crosses e.price ∧ q < e.qty) := by
  by_cases h : 0 < q ∧ crosses e.price
  · rcases Nat.lt_or_ge q e.qty with hlt | hge
    · exact Or.inr (Or.inr ⟨h.1, h.2, hlt⟩)
    · exact Or.inr (Or.inl ⟨h.1, h.2, hge⟩)
  · exact Or.inl h

/-- **A walk over two pieces** enters the second only when it has emptied the first. -/
theorem walk_append (q : Nat) (l₁ l₂ : List (Entry ι π)) :
    walk crosses q (l₁ ++ l₂) =
      if (walk crosses q l₁).rest = [] then
        ⟨(walk crosses q l₁).fills ++ (walk crosses (walk crosses q l₁).left l₂).fills,
         (walk crosses (walk crosses q l₁).left l₂).left,
         (walk crosses (walk crosses q l₁).left l₂).rest⟩
      else ⟨(walk crosses q l₁).fills, (walk crosses q l₁).left,
            (walk crosses q l₁).rest ++ l₂⟩ := by
  induction l₁ generalizing q with
  | nil => simp
  | cons e es ih =>
      rcases walk_cases crosses q e with h | ⟨hq, hc, h⟩ | ⟨hq, hc, h⟩
      · rw [List.cons_append, walk_stop h, walk_stop h, if_neg (by simp), List.cons_append]
      · rw [List.cons_append, walk_consume hq hc h, walk_consume hq hc h, ih]
        dsimp only
        split <;> rfl
      · rw [List.cons_append, walk_reduce hq hc h, walk_reduce hq hc h, if_neg (by simp),
          List.cons_append]

/-- Nothing is lost: what traded and what is left make up what came in. -/
theorem walk_sum (q : Nat) (l : List (Entry ι π)) :
    ((walk crosses q l).fills.map Entry.qty).sum + (walk crosses q l).left = q := by
  induction l generalizing q with
  | nil => simp
  | cons e es ih =>
      rcases walk_cases crosses q e with h | ⟨hq, hc, h⟩ | ⟨hq, hc, h⟩
      · rw [walk_stop h]; simp
      · rw [walk_consume hq hc h]
        have := ih (q - e.qty)
        simp only [List.map_cons, List.sum_cons]
        omega
      · rw [walk_reduce hq hc h]; simp

/-- No fill is larger than the quantity that came in. -/
theorem walk_fill_le {q : Nat} {l : List (Entry ι π)} {f : Entry ι π}
    (hf : f ∈ (walk crosses q l).fills) : f.qty ≤ q := by
  have hsum : ((walk crosses q l).fills.map Entry.qty).sum + (walk crosses q l).left = q :=
    walk_sum q l
  have hle : f.qty ≤ ((walk crosses q l).fills.map Entry.qty).sum :=
    List.single_le_sum (fun _ _ => Nat.zero_le _) _ (List.mem_map_of_mem hf)
  omega

/-- The fills are, in order, against the entries at the front of the list. -/
theorem walk_fills_keys (crosses : π → Bool) (q : Nat) (l : List (Entry ι π)) :
    (walk crosses q l).fills.map (fun e => (e.id, e.price))
      <+: l.map (fun e => (e.id, e.price)) := by
  induction l generalizing q with
  | nil => simp
  | cons e es ih =>
      rcases walk_cases crosses q e with h | ⟨hq, hc, h⟩ | ⟨hq, hc, h⟩
      · rw [walk_stop h]; simp
      · rw [walk_consume hq hc h, List.map_cons, List.map_cons]
        exact (List.prefix_cons_inj _).mpr (ih _)
      · rw [walk_reduce hq hc h]; simp

theorem walk_fills_nodup {q : Nat} {l : List (Entry ι π)} (h : (l.map Entry.id).Nodup) :
    ((walk crosses q l).fills.map Entry.id).Nodup := by
  have hkeys := (walk_fills_keys crosses q l).sublist.map Prod.fst
  simp only [List.map_map, Function.comp_def] at hkeys
  exact h.sublist hkeys

/-- Where nothing crosses, nothing happens. -/
theorem walk_uncrossed {q : Nat} {l : List (Entry ι π)} (h : ∀ e ∈ l, ¬ crosses e.price) :
    walk crosses q l = ⟨[], q, l⟩ := by
  cases l with
  | nil => rfl
  | cons e es => exact walk_stop fun hc => h e List.mem_cons_self hc.2

/-- What a walk leaves is the back of the list, up to the quantity of its head. -/
theorem walk_rest_keys (crosses : π → Bool) (q : Nat) (l : List (Entry ι π)) :
    (walk crosses q l).rest.map (fun e => (e.id, e.price))
      <:+ l.map (fun e => (e.id, e.price)) := by
  induction l generalizing q with
  | nil => simp
  | cons e es ih =>
      rcases walk_cases crosses q e with h | ⟨hq, hc, h⟩ | ⟨hq, hc, h⟩
      · simp only [walk_stop h, List.suffix_rfl]
      · rw [walk_consume hq hc h, List.map_cons]
        exact (ih _).trans (List.suffix_cons _ _)
      · rw [walk_reduce hq hc h]; simp

theorem walk_rest_length_le (crosses : π → Bool) (q : Nat) (l : List (Entry ι π)) :
    (walk crosses q l).rest.length ≤ l.length := by
  simpa using (walk_rest_keys crosses q l).length_le

/-- A walk that stops with something left stopped at a price that does not cross. -/
theorem walk_left_pos {q : Nat} {l : List (Entry ι π)} (h : 0 < (walk crosses q l).left) :
    ∀ e ∈ (walk crosses q l).rest.head?, ¬ crosses e.price := by
  induction l generalizing q with
  | nil => simp
  | cons e es ih =>
      rcases walk_cases crosses q e with hs | ⟨hq, hc, hle⟩ | ⟨hq, hc, hlt⟩
      · rw [walk_stop hs] at h ⊢
        intro x hx
        have : x = e := by simpa using hx.symm
        subst this
        exact fun hx => hs ⟨h, hx⟩
      · rw [walk_consume hq hc hle] at h ⊢
        exact ih h
      · rw [walk_reduce hq hc hlt] at h
        exact absurd h (Nat.lt_irrefl 0)

/-- With something left, a walk over a list that has what crosses in front has filled all
of that and left the others alone. -/
theorem walk_of_left_pos {q : Nat} {l : List (Entry ι π)}
    (hmono : l.Pairwise (fun x y => crosses y.price → crosses x.price))
    (h : 0 < (walk crosses q l).left) :
    (walk crosses q l).fills = l.filter (fun e => crosses e.price)
      ∧ (walk crosses q l).rest = l.filter (fun e => !crosses e.price) := by
  induction l generalizing q with
  | nil => exact ⟨rfl, rfl⟩
  | cons e es ih =>
      have hm := List.pairwise_cons.mp hmono
      rcases walk_cases crosses q e with hs | ⟨hq, hc, hle⟩ | ⟨hq, hc, hlt⟩
      · rw [walk_stop hs] at h ⊢
        -- the head does not cross, so nothing behind it does
        have hnone : ∀ x ∈ e :: es, ¬ crosses x.price := by
          intro x hx hcx
          cases List.mem_cons.mp hx with
          | inl he => exact hs ⟨h, he ▸ hcx⟩
          | inr hin => exact hs ⟨h, hm.1 x hin hcx⟩
        refine ⟨(List.filter_eq_nil_iff.mpr hnone).symm, (List.filter_eq_self.mpr ?_).symm⟩
        intro x hx
        simpa using hnone x hx
      · rw [walk_consume hq hc hle] at h ⊢
        obtain ⟨hfills, hrest⟩ := ih hm.2 h
        simp only [List.filter_cons, hc, Bool.not_true, if_true, Bool.false_eq_true, if_false]
        exact ⟨congrArg (e :: ·) hfills, hrest⟩
      · rw [walk_reduce hq hc hlt] at h
        exact absurd h (Nat.lt_irrefl 0)

/-- A walk that starts on a crossing price and has something left filled an entry up. -/
theorem walk_rest_length_lt {q : Nat} {e : Entry ι π} {l : List (Entry ι π)}
    (hc : crosses e.price) (hleft : 0 < (walk crosses q (e :: l)).left) :
    (walk crosses q (e :: l)).rest.length < (e :: l).length := by
  have hkeys := walk_rest_keys crosses q (e :: l)
  refine Nat.lt_of_le_of_ne (walk_rest_length_le crosses q (e :: l)) fun hlen => ?_
  -- otherwise the walk left the whole list, and its head still crosses
  have heq := hkeys.eq_of_length (by simpa using hlen)
  cases hrest : (walk crosses q (e :: l)).rest with
  | nil => rw [hrest] at hlen; simp at hlen
  | cons r rest =>
      have hr := walk_left_pos hleft r (by rw [hrest]; simp)
      rw [hrest] at heq
      simp only [List.map_cons, List.cons.injEq, Prod.mk.injEq] at heq
      exact hr (heq.1.2 ▸ hc)

/--
**What a walk does to the list it walks**: an initial part is filled whole and
disappears, and at most one entry after it is filled in part and stays.
-/
theorem walk_split (crosses : π → Bool) (q : Nat) (l : List (Entry ι π)) :
    l = (walk crosses q l).fills ++ (walk crosses q l).rest
      ∨ ∃ done e k tail, 0 < k ∧ k < e.qty ∧ l = done ++ e :: tail
          ∧ (walk crosses q l).fills = done ++ [{ e with qty := k }]
          ∧ (walk crosses q l).rest = { e with qty := e.qty - k } :: tail := by
  induction l generalizing q with
  | nil => exact Or.inl rfl
  | cons e es ih =>
      rcases walk_cases crosses q e with h | ⟨hq, hc, h⟩ | ⟨hq, hc, h⟩
      · rw [walk_stop h]
        exact Or.inl rfl
      · rw [walk_consume hq hc h]
        cases ih (q - e.qty) with
        | inl hall => exact Or.inl (congrArg (e :: ·) hall)
        | inr hpart =>
            obtain ⟨done, d, k, tail, hk, hlt, hl, hfills, hrest⟩ := hpart
            refine Or.inr ⟨e :: done, d, k, tail, hk, hlt, congrArg (e :: ·) hl, ?_, hrest⟩
            dsimp only
            rw [hfills, List.cons_append]
      · rw [walk_reduce hq hc h]
        exact Or.inr ⟨[], e, q, es, hq, h, rfl, rfl, rfl⟩

/-- A fill is of all of an entry of the list, or of a part, and then the rest of it stays. -/
theorem walk_fill_cases {q : Nat} {l : List (Entry ι π)} {f : Entry ι π}
    (hf : f ∈ (walk crosses q l).fills) :
    f ∈ l ∨ ∃ e ∈ l, 0 < f.qty ∧ f.qty < e.qty ∧ f = { e with qty := f.qty }
      ∧ { e with qty := e.qty - f.qty } ∈ (walk crosses q l).rest := by
  cases walk_split crosses q l with
  | inl hall =>
      refine Or.inl ?_
      rw [hall]
      exact List.mem_append_left _ hf
  | inr hpart =>
      obtain ⟨done, e, k, tail, hk, hlt, hl, hfills, hrest⟩ := hpart
      rw [hfills] at hf
      cases List.mem_append.mp hf with
      | inl hdone => exact Or.inl (by rw [hl]; simp [hdone])
      | inr hlast =>
          rw [List.mem_singleton.mp hlast]
          exact Or.inr ⟨e, by rw [hl]; simp, hk, hlt, rfl, by rw [hrest]; simp⟩

theorem walk_fill_mem {q : Nat} {l : List (Entry ι π)} {f : Entry ι π}
    (hf : f ∈ (walk crosses q l).fills) :
    ∃ e ∈ l, e.id = f.id ∧ e.price = f.price ∧ f.qty ≤ e.qty ∧ (0 < e.qty → 0 < f.qty) := by
  cases walk_fill_cases hf with
  | inl hall => exact ⟨f, hall, rfl, rfl, Nat.le_refl _, id⟩
  | inr hpart =>
      obtain ⟨e, he, hpos, hlt, hfe, _⟩ := hpart
      refine ⟨e, he, ?_, ?_, Nat.le_of_lt hlt, fun _ => hpos⟩
      · rw [hfe]
      · rw [hfe]

/-- An entry that a walk leaves was not touched, or was reduced. -/
theorem walk_rest_mem {q : Nat} {l : List (Entry ι π)} {r : Entry ι π}
    (hnodup : (l.map Entry.id).Nodup) (hr : r ∈ (walk crosses q l).rest) :
    (r ∈ l ∧ r.id ∉ (walk crosses q l).fills.map Entry.id)
      ∨ ∃ e ∈ l, ∃ k, 0 < k ∧ k < e.qty ∧ { e with qty := k } ∈ (walk crosses q l).fills
          ∧ r = { e with qty := e.qty - k } := by
  cases walk_split crosses q l with
  | inl hall =>
      rw [hall, List.map_append, List.nodup_append] at hnodup
      refine Or.inl ⟨by rw [hall]; exact List.mem_append_right _ hr, fun hin => ?_⟩
      exact hnodup.2.2 r.id hin r.id (List.mem_map_of_mem hr) rfl
  | inr hpart =>
      obtain ⟨done, e, k, tail, hk, hlt, hl, hfills, hrest⟩ := hpart
      rw [hrest] at hr
      cases List.mem_cons.mp hr with
      | inl he => exact Or.inr ⟨e, by rw [hl]; simp, k, hk, hlt, by rw [hfills]; simp, he⟩
      | inr htail =>
          refine Or.inl ⟨by rw [hl]; simp [htail], fun hin => ?_⟩
          have hassoc : l = (done ++ [e]) ++ tail := by rw [hl]; simp
          rw [hassoc, List.map_append, List.nodup_append] at hnodup
          refine hnodup.2.2 r.id ?_ r.id (List.mem_map_of_mem htail) rfl
          rw [hfills] at hin
          simpa using hin

/-- What becomes of an entry of the list: it is left alone, reduced, or filled up. -/
theorem walk_mem_cases {q : Nat} {l : List (Entry ι π)} {e : Entry ι π} (he : e ∈ l) :
    e ∈ (walk crosses q l).rest ∨ e ∈ (walk crosses q l).fills
      ∨ ∃ k, 0 < k ∧ k < e.qty ∧ { e with qty := k } ∈ (walk crosses q l).fills
          ∧ { e with qty := e.qty - k } ∈ (walk crosses q l).rest := by
  cases walk_split crosses q l with
  | inl hall =>
      rw [hall] at he
      cases List.mem_append.mp he with
      | inl hf => exact Or.inr (Or.inl hf)
      | inr hr => exact Or.inl hr
  | inr hpart =>
      obtain ⟨done, d, k, tail, hk, hlt, hl, hfills, hrest⟩ := hpart
      rw [hfills, hrest]
      rw [hl, List.mem_append, List.mem_cons] at he
      rcases he with hdone | hd | htail
      · exact Or.inr (Or.inl (List.mem_append_left _ hdone))
      · subst hd
        exact Or.inr (Or.inr ⟨k, hk, hlt, by simp, by simp⟩)
      · exact Or.inl (List.mem_cons_of_mem _ htail)

end Walk

theorem insert_perm {lt : π → π → Prop} [DecidableRel lt] (e : Entry ι π)
    (l : List (Entry ι π)) : (insert lt e l).Perm (e :: l) := by
  induction l with
  | nil => exact List.Perm.refl _
  | cons x xs ih =>
      unfold insert
      split
      · exact List.Perm.refl _
      · exact (ih.cons x).trans (List.Perm.swap e x xs)

/-- Where `insert` puts an entry, in a list cut at its price. -/
theorem insert_cut {lt : π → π → Prop} [DecidableRel lt] {e : Entry ι π}
    {l₁ l₂ : List (Entry ι π)} (h₁ : ∀ x ∈ l₁, ¬ lt e.price x.price)
    (h₂ : ∀ x ∈ l₂, lt e.price x.price) : insert lt e (l₁ ++ l₂) = l₁ ++ e :: l₂ := by
  induction l₁ with
  | nil =>
      cases l₂ with
      | nil => rfl
      | cons x l₂ => rw [List.nil_append, insert, if_pos (h₂ x List.mem_cons_self), List.nil_append]
  | cons x l₁ ih =>
      rw [List.cons_append, insert, if_neg (h₁ x List.mem_cons_self),
        ih (fun y hy => h₁ y (List.mem_cons_of_mem _ hy)), List.cons_append]

theorem remove_absent [DecidableEq ι] {i : ι} {l : List (Entry ι π)} (h : ∀ x ∈ l, x.id ≠ i) :
    remove i l = l := by
  unfold remove
  rw [List.filter_eq_self]
  intro x hx
  simpa using h x hx

/-- What `remove` leaves, of a list cut at the entry it removes. -/
theorem remove_cut [DecidableEq ι] {e : Entry ι π} {l₁ l₂ : List (Entry ι π)}
    (h₁ : ∀ x ∈ l₁, x.id ≠ e.id) (h₂ : ∀ x ∈ l₂, x.id ≠ e.id) :
    remove e.id (l₁ ++ e :: l₂) = l₁ ++ l₂ := by
  have h : remove e.id (l₁ ++ e :: l₂) = remove e.id l₁ ++ remove e.id l₂ := by
    simp [remove]
  rw [h, remove_absent h₁, remove_absent h₂]

/-! ## Removing an entry commutes with the rest -/

section Remove

variable [DecidableEq ι] {i : ι}

theorem remove_cons_self {e : Entry ι π} {l : List (Entry ι π)} (h : e.id = i) :
    remove i (e :: l) = remove i l := by
  simp [remove, h]

theorem remove_cons_ne {e : Entry ι π} {l : List (Entry ι π)} (h : e.id ≠ i) :
    remove i (e :: l) = e :: remove i l := by
  simp [remove, h]

theorem remove_comm (i j : ι) (l : List (Entry ι π)) :
    remove i (remove j l) = remove j (remove i l) := by
  simp only [remove, List.filter_filter]
  refine List.filter_congr fun x _ => ?_
  exact Bool.and_comm _ _

/-- **A walk that does not fill an entry does not notice that it is gone**, provided that
what crosses stands in front of what does not. -/
theorem walk_remove {crosses : π → Bool} {q : Nat} {l : List (Entry ι π)}
    (hfirst : l.Pairwise (fun x y => crosses y.price → crosses x.price))
    (h : i ∉ (walk crosses q l).fills.map Entry.id) :
    walk crosses q (remove i l)
      = ⟨(walk crosses q l).fills, (walk crosses q l).left, remove i (walk crosses q l).rest⟩ := by
  induction l generalizing q with
  | nil => rfl
  | cons e es ih =>
      obtain ⟨he, hes⟩ := List.pairwise_cons.mp hfirst
      rcases walk_cases crosses q e with hs | ⟨hq, hc, hle⟩ | ⟨hq, hc, hlt⟩
      · rw [walk_stop hs]
        by_cases hid : e.id = i
        · -- the walk ends in front of the entry, so it ends in front of what is behind it
          rw [remove_cons_self hid]
          by_cases hq : 0 < q
          · refine walk_uncrossed fun x hx hcx => hs ⟨hq, he x ?_ hcx⟩
            exact List.mem_of_mem_filter hx
          · have hzero : q = 0 := by omega
            rw [hzero, walk_zero]
        · rw [remove_cons_ne hid, walk_stop hs]
      · rw [walk_consume hq hc hle] at h ⊢
        rw [List.map_cons, List.mem_cons, not_or] at h
        rw [remove_cons_ne (Ne.symm h.1), walk_consume hq hc hle, ih hes h.2]
      · rw [walk_reduce hq hc hlt] at h ⊢
        rw [List.map_singleton, List.mem_singleton] at h
        have hid : e.id ≠ i := fun he => h he.symm
        have hid' : ({ e with qty := e.qty - q } : Entry ι π).id ≠ i := hid
        rw [remove_cons_ne hid, walk_reduce hq hc hlt]
        dsimp only
        rw [remove_cons_ne hid']

section Insert

variable {lt : π → π → Prop} [DecidableRel lt]

/-- What joined the list and leaves again was never there. -/
theorem remove_insert_self {e : Entry ι π} {l : List (Entry ι π)} (h : ∀ x ∈ l, x.id ≠ e.id) :
    remove e.id (insert lt e l) = l := by
  induction l with
  | nil => simp [insert, remove]
  | cons x xs ih =>
      obtain ⟨hx, hxs⟩ := List.forall_mem_cons.mp h
      unfold insert
      split
      · rw [remove_cons_self rfl, remove_absent h]
      · rw [remove_cons_ne hx, ih hxs]

/-- An entry joins a sorted list at the same place whether or not another is there. -/
theorem insert_remove [IsStrictTotalOrder π lt] {e : Entry ι π} {l : List (Entry ι π)}
    (hid : e.id ≠ i) (hsorted : l.Pairwise (fun x y => ¬ lt y.price x.price)) :
    insert lt e (remove i l) = remove i (insert lt e l) := by
  induction l with
  | nil => rw [insert, remove_cons_ne hid]; rfl
  | cons x xs ih =>
      obtain ⟨hx, hxs⟩ := List.pairwise_cons.mp hsorted
      by_cases hlt : lt e.price x.price
      · -- `e` is better than `x`, so it is better than everything behind `x`
        have hfront : ∀ y ∈ remove i (x :: xs), lt e.price y.price := by
          intro y hy
          rcases List.mem_cons.mp (List.mem_of_mem_filter hy) with rfl | hy
          · exact hlt
          · rcases trichotomous (r := lt) e.price y.price with hey | hey | hye
            · exact hey
            · exact absurd (hey ▸ hlt) (hx y hy)
            · exact absurd (IsTrans.trans _ _ _ hye hlt) (hx y hy)
        rw [insert, if_pos hlt, remove_cons_ne hid]
        have hempty : ∀ y ∈ ([] : List (Entry ι π)), ¬ lt e.price y.price := by simp
        exact insert_cut hempty hfront
      · rw [insert, if_neg hlt]
        by_cases hxi : x.id = i
        · rw [remove_cons_self hxi, remove_cons_self hxi, ih hxs]
        · rw [remove_cons_ne hxi, remove_cons_ne hxi, insert, if_neg hlt, ih hxs]

end Insert

end Remove

end HftLob.Lib.PriceTime

import HftLob.Lib.PriceTime

/-!
# Price-time priority under other names

A walk only ever asks whether a price crosses, a join only which of two prices is
the better one, and a leave only whether two identifiers are equal. So all three
commute with any change of identifiers and prices that keeps those answers.
-/

namespace HftLob.Lib.PriceTime

variable {ι κ π ρ : Type}

/-- The same entry under another identifier and another price. -/
def Entry.relabel (f : ι → κ) (g : π → ρ) (e : Entry ι π) : Entry κ ρ :=
  ⟨f e.id, g e.price, e.qty⟩

def Walk.relabel (f : ι → κ) (g : π → ρ) (w : Walk ι π) : Walk κ ρ :=
  ⟨w.fills.map (Entry.relabel f g), w.left, w.rest.map (Entry.relabel f g)⟩

theorem walk_relabel {crosses : π → Bool} {crosses' : ρ → Bool} {f : ι → κ} {g : π → ρ}
    (h : ∀ p, crosses' (g p) = crosses p) (q : Nat) (l : List (Entry ι π)) :
    walk crosses' q (l.map (Entry.relabel f g)) = (walk crosses q l).relabel f g := by
  induction l generalizing q with
  | nil => rfl
  | cons e es ih =>
      have hprice : crosses' (e.relabel f g).price = crosses e.price := h _
      rw [List.map_cons]
      rcases walk_cases crosses q e with hs | ⟨hq, hc, hle⟩ | ⟨hq, hc, hlt⟩
      · rw [walk_stop hs, walk_stop (by rwa [hprice])]
        rfl
      · have hle' : (e.relabel f g).qty ≤ q := hle
        rw [walk_consume hq hc hle, walk_consume hq (by rwa [hprice]) hle', ih]
        rfl
      · have hlt' : q < (e.relabel f g).qty := hlt
        rw [walk_reduce hq hc hlt, walk_reduce hq (by rwa [hprice]) hlt']
        rfl

theorem insert_relabel {lt : π → π → Prop} {lt' : ρ → ρ → Prop} [DecidableRel lt]
    [DecidableRel lt'] {f : ι → κ} {g : π → ρ} (h : ∀ a b, lt' (g a) (g b) ↔ lt a b)
    (e : Entry ι π) (l : List (Entry ι π)) :
    insert lt' (e.relabel f g) (l.map (Entry.relabel f g))
      = (insert lt e l).map (Entry.relabel f g) := by
  induction l with
  | nil => rfl
  | cons x xs ih =>
      rw [List.map_cons, insert, insert]
      by_cases hlt : lt e.price x.price
      · have hlt' : lt' (e.relabel f g).price (x.relabel f g).price := (h _ _).mpr hlt
        rw [if_pos hlt, if_pos hlt']
        rfl
      · have hlt' : ¬ lt' (e.relabel f g).price (x.relabel f g).price :=
          fun hc => hlt ((h _ _).mp hc)
        rw [if_neg hlt, if_neg hlt', ih]
        rfl

theorem remove_relabel [DecidableEq ι] [DecidableEq κ] {f : ι → κ} {g : π → ρ}
    (hf : Function.Injective f) (i : ι) (l : List (Entry ι π)) :
    remove (f i) (l.map (Entry.relabel f g)) = (remove i l).map (Entry.relabel f g) := by
  have hsame : ∀ e : Entry ι π, decide ((e.relabel f g).id ≠ f i) = decide (e.id ≠ i) :=
    fun e => decide_eq_decide.mpr hf.ne_iff
  rw [remove, remove, List.filter_map]
  exact congrArg _ (List.filter_congr fun e _ => hsame e)

end HftLob.Lib.PriceTime

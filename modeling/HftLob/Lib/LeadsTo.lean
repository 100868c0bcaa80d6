import Mathlib.Order.WellFounded

/-!
# What must happen in the end

A system whose parties take turns. A turn of a party that is blocked changes nothing, so
every sequence of turns is a run, and all that a scheduler is asked for is that some
parties get a turn again and again. `P` leads to `Q` if every such run from a `P` state
that stays within the invariant comes to a `Q` state.

`leadsTo_of_rank` is the rule for one party that gets something done: its turns lower a
rank, and the turns of the others leave it alone. Everything else is put together from
that with the rules for chains, cases and measures.

The states, the turns, the parties and the ranks are arbitrary.
-/

namespace HftLob.Lib

/-- A system, the parties that the scheduler does not forget, and the states of the runs that
are looked at. -/
structure Scheduled (σ τ ρ : Type) where
  act : σ → τ → σ
  party : τ → Option ρ
  fair : ρ → Prop
  Inv : σ → Prop

namespace Scheduled

variable {σ τ ρ : Type} (S : Scheduled σ τ ρ)

/-- Whenever one looks, each of the parties has a turn to come. -/
def Fair (turns : Nat → τ) : Prop :=
  ∀ p, S.fair p → ∀ i, ∃ j, i ≤ j ∧ S.party (turns j) = some p

def run (s : σ) (turns : Nat → τ) : Nat → σ
  | 0 => s
  | j + 1 => S.act (run s turns j) (turns j)

def Within (s : σ) (turns : Nat → τ) : Prop :=
  ∀ j, S.Inv (S.run s turns j)

def LeadsTo (P Q : σ → Prop) : Prop :=
  ∀ turns, S.Fair turns → ∀ s, S.Within s turns → P s → ∃ j, Q (S.run s turns j)

variable {S} {P Q R : σ → Prop} {s : σ} {turns : Nat → τ}

theorem Fair.shift (h : S.Fair turns) (i : Nat) : S.Fair fun j => turns (i + j) := by
  intro p hp k
  obtain ⟨j, hle, hj⟩ := h p hp (i + k)
  refine ⟨j - i, by omega, ?_⟩
  have hback : i + (j - i) = j := by omega
  dsimp only
  rw [hback]
  exact hj

theorem run_add (s : σ) (turns : Nat → τ) (i j : Nat) :
    S.run s turns (i + j) = S.run (S.run s turns i) (fun k => turns (i + k)) j := by
  induction j with
  | zero => rfl
  | succ j ih => rw [← Nat.add_assoc, run, run, ih]

theorem Within.shift (h : S.Within s turns) (i : Nat) :
    S.Within (S.run s turns i) fun j => turns (i + j) :=
  fun j => by rw [← run_add]; exact h (i + j)

/-! ## Chains and cases -/

theorem leadsTo_of_imp (h : ∀ s, S.Inv s → P s → Q s) : S.LeadsTo P Q :=
  fun _ _ s hs hP => ⟨0, h s (hs 0) hP⟩

theorem LeadsTo.trans (h : S.LeadsTo P Q) (h' : S.LeadsTo Q R) : S.LeadsTo P R := by
  intro turns hfair s hs hP
  obtain ⟨i, hQ⟩ := h turns hfair s hs hP
  obtain ⟨j, hR⟩ := h' _ (hfair.shift i) _ (hs.shift i) hQ
  exact ⟨i + j, by rw [run_add]; exact hR⟩

/-- What is to come may be weakened, and what is given strengthened. -/
theorem LeadsTo.mono {P' Q' : σ → Prop} (h : S.LeadsTo P Q) (hP : ∀ s, S.Inv s → P' s → P s)
    (hQ : ∀ s, S.Inv s → Q s → Q' s) : S.LeadsTo P' Q' :=
  ((leadsTo_of_imp hP).trans h).trans (leadsTo_of_imp hQ)

theorem LeadsTo.cases {P₁ P₂ : σ → Prop} (h₁ : S.LeadsTo P₁ Q) (h₂ : S.LeadsTo P₂ Q)
    (hP : ∀ s, S.Inv s → P s → P₁ s ∨ P₂ s) : S.LeadsTo P Q := by
  intro turns hfair s hs h
  rcases hP s (hs 0) h with h | h
  · exact h₁ turns hfair s hs h
  · exact h₂ turns hfair s hs h

/-- What `Q` leads to is not missed by stopping at `Q`. -/
theorem LeadsTo.or_else (h : S.LeadsTo P fun s => Q s ∨ R s) (h' : S.LeadsTo Q R) :
    S.LeadsTo P R :=
  h.trans (h'.cases (leadsTo_of_imp fun _ _ => id) fun _ _ => id)

/-- What is so for each value of `f` is so. -/
theorem leadsTo_of_value {α : Type} (f : σ → α)
    (h : ∀ v, S.LeadsTo (fun s => P s ∧ f s = v) Q) : S.LeadsTo P Q :=
  fun turns hfair s hs hP => h (f s) turns hfair s hs ⟨hP, rfl⟩

/-- What holds until something else does still holds on the way. -/
theorem LeadsTo.until {B : σ → Prop} (h : S.LeadsTo P Q)
    (hR : ∀ s a, S.Inv s → S.Inv (S.act s a) → R s → R (S.act s a) ∨ B (S.act s a)) :
    S.LeadsTo (fun s => P s ∧ R s) (fun s => Q s ∧ R s ∨ B s) := by
  intro turns hfair s hs ⟨hP, hRs⟩
  obtain ⟨j, hQ⟩ := h turns hfair s hs hP
  have hway : R (S.run s turns j) ∨ ∃ i, B (S.run s turns i) := by
    clear hQ
    induction j with
    | zero => exact Or.inl hRs
    | succ j ih =>
        rcases ih with hRj | hB
        · exact (hR _ _ (hs j) (hs (j + 1)) hRj).imp_right fun hB => ⟨j + 1, hB⟩
        · exact Or.inr hB
  rcases hway with hRj | ⟨i, hB⟩
  · exact ⟨j, Or.inl ⟨hQ, hRj⟩⟩
  · exact ⟨i, Or.inr hB⟩

/-- What no turn undoes is still there. -/
theorem LeadsTo.and_stable (h : S.LeadsTo P Q)
    (hR : ∀ s a, S.Inv s → S.Inv (S.act s a) → R s → R (S.act s a)) :
    S.LeadsTo (fun s => P s ∧ R s) (fun s => Q s ∧ R s) := by
  have huntil := h.until (R := R) (B := fun _ => False)
    fun s a hs hs' hRs => Or.inl (hR s a hs hs' hRs)
  exact huntil.mono (fun _ _ => id) fun _ _ h => h.resolve_right id

/-! ## Ranks and measures -/

section WellFounded

variable {α : Type} [LT α] [WellFoundedLT α]

/-- **One party gets something done**, however long the others keep it waiting. -/
theorem leadsTo_of_rank (p : ρ) (hp : S.fair p) (rank : σ → α)
    (hother : ∀ s a, S.Inv s → S.Inv (S.act s a) → P s → S.party a ≠ some p →
      Q (S.act s a) ∨ P (S.act s a) ∧ rank (S.act s a) = rank s)
    (hown : ∀ s a, S.Inv s → S.Inv (S.act s a) → P s → S.party a = some p →
      Q (S.act s a) ∨ P (S.act s a) ∧ rank (S.act s a) < rank s) : S.LeadsTo P Q := by
  have hrank : ∀ r, ∀ turns, S.Fair turns → ∀ s, S.Within s turns → P s → rank s = r →
      ∃ j, Q (S.run s turns j) := by
    intro r
    induction r using WellFoundedLT.induction with
    | ind r ih =>
        -- A run that goes on from after its first turn.
        have hlater : ∀ {turns : Nat → τ} {s : σ},
            (∃ j, Q (S.run (S.act s (turns 0)) (fun k => turns (1 + k)) j)) →
              ∃ j, Q (S.run s turns j) := by
          rintro turns s ⟨j, hj⟩
          exact ⟨1 + j, by rw [run_add]; exact hj⟩
        -- Within the rank, on the number of turns until the party's next.
        have hwait : ∀ n turns, S.Fair turns → S.party (turns n) = some p → ∀ s,
            S.Within s turns → P s → rank s = r → ∃ j, Q (S.run s turns j) := by
          intro n
          induction n with
          | zero =>
              intro turns hfair hn s hs hP hr
              rcases hown s (turns 0) (hs 0) (hs 1) hP hn with hQ | ⟨hP', hlt⟩
              · exact ⟨1, hQ⟩
              · exact hlater (ih _ (hr ▸ hlt) _ (hfair.shift 1) _ (hs.shift 1) hP' rfl)
          | succ n ihn =>
              intro turns hfair hn s hs hP hr
              have hn' : S.party (turns (1 + n)) = some p := by rw [Nat.add_comm]; exact hn
              by_cases hfirst : S.party (turns 0) = some p
              · rcases hown s (turns 0) (hs 0) (hs 1) hP hfirst with hQ | ⟨hP', hlt⟩
                · exact ⟨1, hQ⟩
                · exact hlater (ih _ (hr ▸ hlt) _ (hfair.shift 1) _ (hs.shift 1) hP' rfl)
              · rcases hother s (turns 0) (hs 0) (hs 1) hP hfirst with hQ | ⟨hP', hsame⟩
                · exact ⟨1, hQ⟩
                · exact hlater (ihn _ (hfair.shift 1) hn' _ (hs.shift 1) hP' (hsame.trans hr))
        intro turns hfair s hs hP hr
        obtain ⟨n, _, hn⟩ := hfair p hp 0
        exact hwait n turns hfair hn s hs hP hr
  exact fun turns hfair s hs hP => hrank (rank s) turns hfair s hs hP rfl

/-- **What keeps getting smaller** is done in the end. -/
theorem leadsTo_of_measure (f : σ → α)
    (h : ∀ v, S.LeadsTo (fun s => P s ∧ f s = v) (fun s => Q s ∨ P s ∧ f s < v)) :
    S.LeadsTo P Q := by
  have hmeasure : ∀ v, S.LeadsTo (fun s => P s ∧ f s = v) Q := by
    intro v
    induction v using WellFoundedLT.induction with
    | ind v ih =>
        intro turns hfair s hs hP
        obtain ⟨i, hi⟩ := h v turns hfair s hs hP
        rcases hi with hQ | ⟨hP', hlt⟩
        · exact ⟨i, hQ⟩
        · obtain ⟨j, hj⟩ := ih _ hlt _ (hfair.shift i) _ (hs.shift i) ⟨hP', rfl⟩
          exact ⟨i + j, by rw [run_add]; exact hj⟩
  exact fun turns hfair s hs hP => hmeasure (f s) turns hfair s hs ⟨hP, rfl⟩

end WellFounded

/-- One turn of one party is enough. -/
theorem leadsTo_of_turn (p : ρ) (hp : S.fair p)
    (hother : ∀ s a, S.Inv s → S.Inv (S.act s a) → P s → S.party a ≠ some p →
      Q (S.act s a) ∨ P (S.act s a))
    (hown : ∀ s a, S.Inv s → S.Inv (S.act s a) → P s → S.party a = some p → Q (S.act s a)) :
    S.LeadsTo P Q :=
  leadsTo_of_rank p hp (fun _ => 0)
    (fun s a hs hs' hP ha => (hother s a hs hs' hP ha).imp_right fun h => ⟨h, rfl⟩)
    fun s a hs hs' hP ha => Or.inl (hown s a hs hs' hP ha)

end Scheduled

end HftLob.Lib

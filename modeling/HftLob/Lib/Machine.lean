import Mathlib.Data.List.Basic

/-!
# Machines driven by a scheduler

A concurrent system as a partial step function: the action says which party moves
and resolves everything the environment is free to choose, and `none` means that
the action is not possible in this state. The runs of the system are the sequences
of actions that `exec` accepts, so a property of every interleaving is a property of
every such sequence.

The states and actions are arbitrary.
-/

namespace HftLob.Lib.Machine

variable {σ α : Type} {step : σ → α → Option σ}

def exec (step : σ → α → Option σ) : σ → List α → Option σ
  | s, [] => some s
  | s, a :: as => (step s a).bind fun t => exec step t as

/-- Every step of the run starts in a state that meets the condition on its action. -/
def Along (step : σ → α → Option σ) (C : σ → α → Prop) : σ → List α → Prop
  | _, [] => True
  | s, a :: as => C s a ∧ (match step s a with
    | none => True
    | some t => Along step C t as)

theorem Along.tail {C : σ → α → Prop} {s t : σ} {a : α} {as : List α}
    (h : Along step C s (a :: as)) (ht : step s a = some t) : Along step C t as := by
  have := h.2
  rw [ht] at this
  exact this

theorem Along.cons {C : σ → α → Prop} {s : σ} {a : α} {as : List α} (hC : C s a)
    (h : ∀ t, step s a = some t → Along step C t as) : Along step C s (a :: as) := by
  refine ⟨hC, ?_⟩
  cases ht : step s a with
  | none => trivial
  | some t => exact h t ht

instance decidableAlong {C : σ → α → Prop} [∀ s a, Decidable (C s a)] :
    ∀ (s : σ) (as : List α), Decidable (Along step C s as)
  | _, [] => .isTrue trivial
  | s, a :: as =>
      match ht : step s a with
      | none => decidable_of_iff (C s a)
          ⟨fun hC => .cons hC fun t h => absurd (ht.symm.trans h) (by simp), And.left⟩
      | some t =>
          match decidableAlong t as with
          | .isTrue h => decidable_of_iff (C s a)
              ⟨fun hC => .cons hC fun u hu => Option.some.inj (ht.symm.trans hu) ▸ h, And.left⟩
          | .isFalse h => .isFalse fun ha => h (ha.tail ht)

theorem exec_cons {s u : σ} {a : α} {as : List α} :
    exec step s (a :: as) = some u ↔ ∃ t, step s a = some t ∧ exec step t as = some u := by
  simp [exec, Option.bind_eq_some_iff]

theorem exec_singleton {s t : σ} {a : α} (h : step s a = some t) : exec step s [a] = some t :=
  exec_cons.mpr ⟨t, h, rfl⟩

theorem exec_append {s t u : σ} {as bs : List α} (hs : exec step s as = some t)
    (ht : exec step t bs = some u) : exec step s (as ++ bs) = some u := by
  induction as generalizing s with
  | nil =>
      cases hs
      exact ht
  | cons a as ih =>
      obtain ⟨r, hr, hs⟩ := exec_cons.mp hs
      exact exec_cons.mpr ⟨r, hr, ih hs⟩

/-- A run in two parts. -/
theorem exec_append_iff {s u : σ} {as bs : List α} :
    exec step s (as ++ bs) = some u ↔ ∃ t, exec step s as = some t ∧ exec step t bs = some u := by
  constructor
  · induction as generalizing s with
    | nil => exact fun h => ⟨s, rfl, h⟩
    | cons a as ih =>
        intro h
        obtain ⟨r, hr, h⟩ := exec_cons.mp h
        obtain ⟨t, ht, hu⟩ := ih h
        exact ⟨t, exec_cons.mpr ⟨r, hr, ht⟩, hu⟩
  · rintro ⟨t, ht, hu⟩
    exact exec_append ht hu

/-- **An invariant of the steps that meet a condition** holds at the end of every run
whose steps all do. -/
theorem exec_invariant {I : σ → Prop} {C : σ → α → Prop}
    (hstep : ∀ s a t, I s → C s a → step s a = some t → I t) :
    ∀ (as : List α) (s u : σ), I s → Along step C s as → exec step s as = some u → I u := by
  intro as
  induction as with
  | nil =>
      intro s u hs _ hu
      cases hu
      exact hs
  | cons a as ih =>
      intro s u hs hC hu
      obtain ⟨t, ht, hu⟩ := exec_cons.mp hu
      exact ih t u (hstep s a t hs hC.1 ht) (hC.tail ht) hu

theorem Along.of_forall {C : σ → α → Prop} (h : ∀ s a, C s a) :
    ∀ (as : List α) (s : σ), Along step C s as := by
  intro as
  induction as with
  | nil => exact fun _ => trivial
  | cons a as ih => exact fun s => .cons (h s a) fun t _ => ih t

/-- An invariant of every step holds at the end of every run. -/
theorem exec_preserves {I : σ → Prop} (hstep : ∀ s a t, I s → step s a = some t → I t)
    (as : List α) (s u : σ) (hs : I s) (hu : exec step s as = some u) : I u :=
  exec_invariant (C := fun _ _ => True) (fun s a t h _ ht => hstep s a t h ht) as s u hs
    (.of_forall (fun _ _ => trivial) as s) hu

/-- **What is lost stays lost**: a property that a step keeps exactly if it meets the
condition holds after a run exactly if every step did. -/
theorem exec_iff_along {I K : σ → Prop} {C : σ → α → Prop}
    (hstep : ∀ s a t, I s → step s a = some t → I t ∧ (K t ↔ K s ∧ C s a)) :
    ∀ (as : List α) (s u : σ), I s → exec step s as = some u →
      (K u ↔ K s ∧ Along step C s as) := by
  intro as
  induction as with
  | nil =>
      intro s u _ hu
      cases hu
      exact ⟨fun h => ⟨h, trivial⟩, And.left⟩
  | cons a as ih =>
      intro s u hs hu
      obtain ⟨t, ht, hu⟩ := exec_cons.mp hu
      obtain ⟨hIt, hKt⟩ := hstep s a t hs ht
      rw [ih t u hIt hu, hKt]
      constructor
      · rintro ⟨⟨hK, hC⟩, hrest⟩
        refine ⟨hK, Along.cons hC fun t' ht' => ?_⟩
        obtain rfl := Option.some.inj (ht.symm.trans ht')
        exact hrest
      · rintro ⟨hK, hall⟩
        exact ⟨⟨hK, hall.1⟩, hall.tail ht⟩

/-! ## Following another machine -/

section Simulation

variable {τ β : Type} {step' : τ → β → Option τ} {f : σ → α → List β}

theorem Along.append {C : σ → α → Prop} {s t : σ} {as bs : List α} (hs : Along step C s as)
    (ht : exec step s as = some t) (hbs : Along step C t bs) : Along step C s (as ++ bs) := by
  induction as generalizing s with
  | nil =>
      cases ht
      exact hbs
  | cons a as ih =>
      obtain ⟨r, hr, ht⟩ := exec_cons.mp ht
      refine .cons hs.1 fun r' hr' => ?_
      obtain rfl := Option.some.inj (hr.symm.trans hr')
      exact ih (hs.tail hr) ht

/-- What a run is for another machine, if `f` says it of each step. -/
def trace (step : σ → α → Option σ) (f : σ → α → List β) : σ → List α → List β
  | _, [] => []
  | s, a :: as => f s a ++ (match step s a with
    | none => []
    | some t => trace step f t as)

/-- **Simulation**: if the other machine can follow every step, it can follow every run, and
it meets its condition where each step that meets the one has it meet the other. -/
theorem exec_simulation {R : σ → τ → Prop} {C : σ → α → Prop} {D : τ → β → Prop}
    (hstep : ∀ s a s' t, R s t → step s a = some s' →
      (∃ t', exec step' t (f s a) = some t' ∧ R s' t') ∧ (C s a → Along step' D t (f s a))) :
    ∀ (as : List α) (s u : σ) (t : τ), R s t → exec step s as = some u →
      (∃ v, exec step' t (trace step f s as) = some v ∧ R u v)
        ∧ (Along step C s as → Along step' D t (trace step f s as)) := by
  intro as
  induction as with
  | nil =>
      intro s u t hR hu
      cases hu
      exact ⟨⟨t, rfl, hR⟩, fun _ => trivial⟩
  | cons a as ih =>
      intro s u t hR hu
      obtain ⟨r, hr, hu⟩ := exec_cons.mp hu
      obtain ⟨⟨t', ht', hR'⟩, hfirst⟩ := hstep s a r t hR hr
      obtain ⟨⟨v, hv, hRv⟩, hrest⟩ := ih r u t' hR' hu
      rw [trace, hr]
      exact ⟨⟨v, exec_append ht' hv, hRv⟩,
        fun hC => (hfirst hC.1).append ht' (hrest (hC.tail hr))⟩

end Simulation

end HftLob.Lib.Machine

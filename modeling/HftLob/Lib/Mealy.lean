import Mathlib.Data.List.Induction

/-!
# Machines that answer

A deterministic machine with outputs: a step takes a state and an input to the
next state and the outputs it emits. What is known of such a machine after a run
is a relation between the inputs read, the outputs emitted and the state, and
`run_induction` is the rule that establishes one.

The states, inputs and outputs are arbitrary.
-/

namespace HftLob.Lib.Mealy

variable {σ ι ω : Type} {step : σ → ι → σ × List ω}

def run (step : σ → ι → σ × List ω) : σ → List ι → σ × List ω
  | s, [] => (s, [])
  | s, i :: is => ((run step (step s i).1 is).1, (step s i).2 ++ (run step (step s i).1 is).2)

@[simp] theorem run_nil (s : σ) : run step s [] = (s, []) := rfl

theorem run_cons (s : σ) (i : ι) (is : List ι) :
    run step s (i :: is)
      = ((run step (step s i).1 is).1, (step s i).2 ++ (run step (step s i).1 is).2) := rfl

theorem run_append (s : σ) (is js : List ι) :
    run step s (is ++ js)
      = ((run step (run step s is).1 js).1,
          (run step s is).2 ++ (run step (run step s is).1 js).2) := by
  induction is generalizing s with
  | nil => simp
  | cons i is ih => rw [List.cons_append, run_cons, run_cons, ih, List.append_assoc]

theorem run_concat (s : σ) (is : List ι) (i : ι) :
    run step s (is ++ [i])
      = ((step (run step s is).1 i).1, (run step s is).2 ++ (step (run step s is).1 i).2) := by
  rw [run_append, run_cons, run_nil, List.append_nil]

/-- A machine that does the same under a view of the states, the inputs and the outputs
has the same runs under it. -/
theorem run_map {σ' ι' ω' : Type} {step' : σ' → ι' → σ' × List ω'} (view : σ → σ') (g : ι → ι')
    (f : ω → ω') {inputs : List ι}
    (hstep : ∀ s, ∀ i ∈ inputs, step' (view s) (g i) = (view (step s i).1, (step s i).2.map f))
    (s : σ) :
    run step' (view s) (inputs.map g)
      = (view (run step s inputs).1, (run step s inputs).2.map f) := by
  induction inputs generalizing s with
  | nil => rfl
  | cons i is ih =>
      have hi := hstep s i (by simp)
      have hrest := ih (fun t j hj => hstep t j (List.mem_cons_of_mem i hj)) (step s i).1
      rw [List.map_cons, run_cons, run_cons, hi]
      dsimp only
      rw [hrest, List.map_append]

/--
**A relation that every step keeps holds after the run.** The step may assume that
the inputs so far are an initial part of the whole sequence, so a hypothesis about
the sequence is available at each of its positions.
-/
theorem run_induction {P : List ι → List ω → σ → Prop} {s : σ} {inputs : List ι}
    (hinit : P [] [] s)
    (hstep : ∀ is i, is ++ [i] <+: inputs → P is (run step s is).2 (run step s is).1 →
      P (is ++ [i]) ((run step s is).2 ++ (step (run step s is).1 i).2)
        (step (run step s is).1 i).1) :
    P inputs (run step s inputs).2 (run step s inputs).1 := by
  have key : ∀ is, is <+: inputs → P is (run step s is).2 (run step s is).1 := by
    intro is
    -- the run is extended at its far end, so the induction is on the list reversed
    induction is using List.reverseRecOn with
    | nil => exact fun _ => hinit
    | append_singleton is i ih =>
        intro hprefix
        rw [run_concat]
        exact hstep is i hprefix (ih ((List.prefix_append is [i]).trans hprefix))
  exact key inputs List.prefix_rfl

/-- Every step of the run starts in a state that meets the condition on its input. -/
def Along (step : σ → ι → σ × List ω) (C : σ → ι → Prop) : σ → List ι → Prop
  | _, [] => True
  | s, i :: is => C s i ∧ Along step C (step s i).1 is

instance decidableAlong {C : σ → ι → Prop} [∀ s i, Decidable (C s i)] :
    ∀ (s : σ) (is : List ι), Decidable (Along step C s is)
  | _, [] => .isTrue trivial
  | s, i :: is =>
      match decidableAlong (step s i).1 is with
      | .isTrue h => decidable_of_iff (C s i) ⟨fun hc => ⟨hc, h⟩, And.left⟩
      | .isFalse h => .isFalse fun ha => h ha.2

theorem along_iff {C : σ → ι → Prop} {s : σ} {is : List ι} :
    Along step C s is ↔ ∀ pre i, pre ++ [i] <+: is → C (run step s pre).1 i := by
  induction is generalizing s with
  | nil => simp [Along]
  | cons j is ih =>
      rw [Along, ih]
      constructor
      · intro h pre i hp
        cases pre with
        | nil =>
            have hij : i = j := by simpa using hp
            exact hij ▸ h.1
        | cons k pre =>
            obtain ⟨rfl, htail⟩ := List.cons_prefix_cons.mp hp
            exact h.2 pre i htail
      · intro h
        refine ⟨h [] j (by simp), fun pre i hp => ?_⟩
        exact h (j :: pre) i (List.cons_prefix_cons.mpr ⟨rfl, hp⟩)

end HftLob.Lib.Mealy

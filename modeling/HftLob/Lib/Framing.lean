import Mathlib.Data.List.Basic
import Mathlib.Data.List.Infix

/-!
# Self-delimiting frames

A stream of items in which every frame says how long it is, once enough of it is there.
`Cuts` says what cutting frames off the front of a stream gives and what it leaves. Where
the stream was split on its way makes no difference (`Cuts.append`), whole frames one after
the other are cut apart again (`cuts_flatten`), and from a beginning of such a stream
nothing comes out that was not put in (`Cuts.prefix_of_whole`).

`drain` is the loop that asks a reader for the next frame until there is none, and
`Reads.drainAll` what a reader that is fed in chunks returns.
-/

namespace HftLob.Lib.Framing

variable {α β σ : Type}

/-- `size s` is the length of the frame at the front of `s`, if all of it is there. What
comes behind the frame does not change that. -/
structure Format (α : Type) where
  size : List α → Option Nat
  size_pos : ∀ {s n}, size s = some n → 0 < n
  size_le : ∀ {s n}, size s = some n → n ≤ s.length
  size_append : ∀ {s n} (t), size s = some n → size (s ++ t) = some n
  size_take : ∀ {s n}, size s = some n → size (s.take n) = some n

/-- Cutting frames off the front of `s` while there is a whole one gives `fs` and leaves `r`. -/
inductive Cuts (F : Format α) : List α → List (List α) → List α → Prop
  | done {s : List α} : F.size s = none → Cuts F s [] s
  | frame {s r : List α} {n : Nat} {fs : List (List α)} :
      F.size s = some n → Cuts F (s.drop n) fs r → Cuts F s (s.take n :: fs) r

/-- The frame is whole: it ends where it says it does. -/
def Whole (F : Format α) (f : List α) : Prop := F.size f = some f.length

variable {F : Format α} {s t r r' : List α} {fs gs : List (List α)}

theorem Cuts.flatten (h : Cuts F s fs r) : s = fs.flatten ++ r := by
  induction h with
  | done _ => rfl
  | @frame s r n fs hn _ ih =>
      rw [List.flatten_cons, List.append_assoc, ← ih, List.take_append_drop]

theorem Cuts.first {f : List α} (h : Cuts F s (f :: fs) r) :
    ∃ n, F.size s = some n ∧ s.take n = f ∧ Cuts F (s.drop n) fs r := by
  cases h with
  | frame hn htail => exact ⟨_, hn, rfl, htail⟩

theorem Cuts.rest (h : Cuts F s fs r) : F.size r = none := by
  induction h with
  | done hs => exact hs
  | frame _ _ ih => exact ih

/-- Every frame that is cut off is whole. -/
theorem Cuts.whole (h : Cuts F s fs r) : ∀ f ∈ fs, Whole F f := by
  induction h with
  | done _ => exact fun f hf => absurd hf (by simp)
  | @frame s r n fs hn _ ih =>
      intro f hf
      rcases List.mem_cons.mp hf with rfl | hf
      · rw [Whole, F.size_take hn, List.length_take_of_le (F.size_le hn)]
      · exact ih f hf

/-- Cutting comes to an end on every stream. -/
theorem exists_cuts (F : Format α) (s : List α) : ∃ fs r, Cuts F s fs r := by
  induction hlen : s.length using Nat.strongRecOn generalizing s with
  | ind len ih =>
      cases hn : F.size s with
      | none => exact ⟨[], s, .done hn⟩
      | some n =>
          have hpos := F.size_pos hn
          have hle := F.size_le hn
          obtain ⟨fs, r, hcut⟩ := ih (s.drop n).length (by rw [List.length_drop]; omega) _ rfl
          exact ⟨_, r, .frame hn hcut⟩

theorem Cuts.unique (h : Cuts F s fs r) (h' : Cuts F s gs r') : fs = gs ∧ r = r' := by
  induction h generalizing gs r' with
  | done hs =>
      cases h' with
      | done _ => exact ⟨rfl, rfl⟩
      | frame hn _ => rw [hs] at hn; exact absurd hn (by simp)
  | frame hn _ ih =>
      cases h' with
      | done hs => rw [hs] at hn; exact absurd hn (by simp)
      | frame hn' htail =>
          rw [hn] at hn'
          cases hn'
          obtain ⟨rfl, rfl⟩ := ih htail
          exact ⟨rfl, rfl⟩

/-- A whole frame is cut the same way whatever comes behind it. -/
theorem Cuts.frame_append {n : Nat} (hn : F.size s = some n) (h : Cuts F (s.drop n ++ t) fs r) :
    Cuts F (s ++ t) (s.take n :: fs) r := by
  have hle : n ≤ s.length := F.size_le hn
  rw [← List.drop_append_of_le_length hle] at h
  have hframe := Cuts.frame (F.size_append t hn) h
  rw [List.take_append_of_le_length hle] at hframe
  exact hframe

/-- **Where the stream is split makes no difference.** -/
theorem Cuts.append (h : Cuts F s fs r) (h' : Cuts F (r ++ t) gs r') :
    Cuts F (s ++ t) (fs ++ gs) r' := by
  induction h with
  | done _ => exact h'
  | frame hn _ ih => exact .frame_append hn (ih h')

theorem size_nil (F : Format α) : F.size [] = none := by
  cases h : F.size [] with
  | none => rfl
  | some n =>
      have hpos := F.size_pos h
      have hle := F.size_le h
      rw [List.length_nil] at hle
      omega

theorem Cuts.cons {f : List α} (hf : Whole F f) (h : Cuts F s fs r) :
    Cuts F (f ++ s) (f :: fs) r := by
  have hdrop : (f ++ s).drop f.length = s := List.drop_left
  have htake : (f ++ s).take f.length = f := List.take_left
  have hcut := Cuts.frame (F.size_append s hf) (by rw [hdrop]; exact h)
  rw [htake] at hcut
  exact hcut

/-- Whole frames one after the other are cut apart again. -/
theorem cuts_flatten (h : ∀ f ∈ fs, Whole F f) : Cuts F fs.flatten fs [] := by
  induction fs with
  | nil => exact .done (size_nil F)
  | cons f fs ih =>
      rw [List.flatten_cons]
      exact (ih fun g hg => h g (List.mem_cons_of_mem _ hg)).cons (h f List.mem_cons_self)

/-- **Out of a beginning of whole frames come only those frames**, from the first on. -/
theorem Cuts.prefix_of_whole (h : Cuts F s fs r) (hgs : ∀ g ∈ gs, Whole F g)
    (hs : s <+: gs.flatten) : fs <+: gs := by
  induction h generalizing gs with
  | done _ => exact List.nil_prefix
  | @frame s r n fs hn _ ih =>
      cases gs with
      | nil =>
          have hnil : s = [] := List.prefix_nil.mp hs
          rw [hnil, size_nil] at hn
          exact absurd hn (by simp)
      | cons g gs =>
          obtain ⟨u, hu⟩ := hs
          rw [List.flatten_cons] at hu
          -- the whole stream starts with one frame, which says how long it is
          have hsize : F.size (g ++ gs.flatten) = some g.length :=
            F.size_append _ (hgs g List.mem_cons_self)
          have hext : F.size (s ++ u) = some n := F.size_append u hn
          rw [hu, hsize] at hext
          cases hext
          have hle : g.length ≤ s.length := F.size_le hn
          have htake : s.take g.length = g := by
            have hcut : (s ++ u).take g.length = s.take g.length :=
              List.take_append_of_le_length hle
            rw [← hcut, hu, List.take_left]
          have hdrop : s.drop g.length ++ u = gs.flatten := by
            rw [← List.drop_append_of_le_length hle, hu, List.drop_left]
          rw [htake]
          refine List.cons_prefix_cons.mpr ⟨rfl, ih ?_ ⟨u, hdrop⟩⟩
          exact fun g' hg' => hgs g' (List.mem_cons_of_mem _ hg')

/-! ## Readers -/

/-- `while (auto x = next()) …`, at most as often as the fuel allows. -/
def drain (next : σ → Option (β × σ)) : Nat → σ → List β × σ
  | 0, s => ([], s)
  | fuel + 1, s =>
      match next s with
      | none => ([], s)
      | some (x, s') => (x :: (drain next fuel s').1, (drain next fuel s').2)

/-- Feed the chunks one after the other, each time asking until there is none. -/
def drainAll (next : σ → Option (β × σ)) (feed : σ → List α → σ) (fuel : σ → Nat) :
    σ → List (List α) → List β × σ
  | s, [] => ([], s)
  | s, c :: cs =>
      let d := drain next (fuel (feed s c)) (feed s c)
      (d.1 ++ (drainAll next feed fuel d.2 cs).1, (drainAll next feed fuel d.2 cs).2)

/-- The reader takes exactly the frames of the format off the front of its buffer. -/
structure Reads (F : Format α) (next : σ → Option (List α × σ)) (buffer : σ → List α) : Prop where
  none : ∀ {s}, F.size (buffer s) = none → next s = none
  some : ∀ {s n}, F.size (buffer s) = some n →
    ∃ s', next s = some ((buffer s).take n, s') ∧ buffer s' = (buffer s).drop n

variable {next : σ → Option (List α × σ)} {buffer : σ → List α}

/-- With as much fuel as there are items in the buffer the loop ends by itself. -/
theorem Reads.drain (h : Reads F next buffer) : ∀ (fuel : Nat) (s : σ),
    (buffer s).length ≤ fuel →
    Cuts F (buffer s) (drain next fuel s).1 (buffer (drain next fuel s).2) := by
  intro fuel
  induction fuel with
  | zero =>
      intro s hs
      have hnil : buffer s = [] := List.eq_nil_of_length_eq_zero (by omega)
      exact .done (by rw [hnil]; exact size_nil F)
  | succ fuel ih =>
      intro s hs
      cases hn : F.size (buffer s) with
      | none =>
          simp only [Framing.drain, h.none hn]
          exact .done hn
      | some n =>
          obtain ⟨s', hs', hbuf⟩ := h.some hn
          have hpos := F.size_pos hn
          have hrec := ih s' (by rw [hbuf, List.length_drop]; omega)
          simp only [Framing.drain, hs']
          rw [hbuf] at hrec
          exact .frame hn hrec

/-- **The chunks make no difference** to a reader that starts with no frame in its buffer. -/
theorem Reads.drainAll (h : Reads F next buffer) {feed : σ → List α → σ}
    (hfeed : ∀ s c, buffer (feed s c) = buffer s ++ c) :
    ∀ (chunks : List (List α)) (s : σ), F.size (buffer s) = Option.none →
      Cuts F (buffer s ++ chunks.flatten)
        (drainAll next feed (fun s => (buffer s).length) s chunks).1
        (buffer (drainAll next feed (fun s => (buffer s).length) s chunks).2) := by
  intro chunks
  induction chunks with
  | nil =>
      intro s hs
      rw [List.flatten_nil, List.append_nil]
      exact .done hs
  | cons c cs ih =>
      intro s _
      have hcut := h.drain _ (feed s c) (Nat.le_refl _)
      have hrest := ih _ hcut.rest
      rw [List.flatten_cons, ← List.append_assoc, ← hfeed]
      exact hcut.append hrest

section Simulation

variable {γ τ : Type} {nextOne : σ → Option (β × σ)} {nextTwo : τ → Option (γ × τ)}
  {result : β → γ} {state : σ → τ}

/-- Two readers that agree on each frame agree on all of them. -/
theorem drain_map (h : ∀ s, nextTwo (state s) = (nextOne s).map (Prod.map result state)) :
    ∀ (fuel : Nat) (s : σ), Framing.drain nextTwo fuel (state s)
      = Prod.map (List.map result) state (Framing.drain nextOne fuel s) := by
  intro fuel
  induction fuel with
  | zero => exact fun s => rfl
  | succ fuel ih =>
      intro s
      rw [Framing.drain, Framing.drain, h s]
      cases nextOne s with
      | none => rfl
      | some p =>
          obtain ⟨x, s'⟩ := p
          simp only [Option.map_some, Prod.map_apply, ih s', List.map_cons, Prod.map_fst,
            Prod.map_snd]

theorem drainAll_map (h : ∀ s, nextTwo (state s) = (nextOne s).map (Prod.map result state))
    {feedOne : σ → List α → σ} {feedTwo : τ → List α → τ}
    (hfeed : ∀ s c, feedTwo (state s) c = state (feedOne s c)) {fuel : τ → Nat} :
    ∀ (chunks : List (List α)) (s : σ), Framing.drainAll nextTwo feedTwo fuel (state s) chunks
      = Prod.map (List.map result) state
        (Framing.drainAll nextOne feedOne (fun s => fuel (state s)) s chunks) := by
  intro chunks
  induction chunks with
  | nil => exact fun s => rfl
  | cons c cs ih =>
      intro s
      simp only [Framing.drainAll, hfeed, drain_map h, Prod.map_fst, Prod.map_snd, ih,
        Prod.map_apply, List.map_append]

end Simulation

end HftLob.Lib.Framing

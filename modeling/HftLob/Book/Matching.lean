import HftLob.Book.Consistent

/-!
# The matching loops walk the flat list

The slots of a side, level after level and front to back, are the flat list of
its orders. `Matched` says what matching does to any run of them: they stay
consistent with the pool and the index, nothing outside the run is written,
and on the flat list the effect is exactly `PriceTime.walk`.

The inner loop is shown to do that to one level and the outer loop to all of
them; the step from one to the other is `walk_append`.
-/

namespace HftLob.Book

open HftLob.Lib HftLob.Lib.PriceTime OrderBook

variable {cap : PoolCapacity}

/-- The order in a slot, as an entry of the flat list. -/
def entryOf (storage : Nat → Order) (slot : Nat) : Entry OrderId Price :=
  ⟨(storage slot).id, (storage slot).price, (storage slot).qty.toNat⟩

/-- The trade a fill stands for. -/
def tradeOf (id : OrderId) (side : Side) (tsNs : Nanos) (f : Entry OrderId Price) : Trade :=
  tradeWith id side tsNs f.price f.id (UInt32.ofNat f.qty)

/-- The slots of a side, best level first and front to back. -/
def slotsOf (levels : List (Price × List Nat)) : List Nat := levels.flatMap Prod.snd

@[simp] theorem slotsOf_cons (px : Price) (dq : List Nat) (levels : List (Price × List Nat)) :
    slotsOf ((px, dq) :: levels) = dq ++ slotsOf levels := rfl

@[simp] theorem slotsOf_append (l₁ l₂ : List (Price × List Nat)) :
    slotsOf (l₁ ++ l₂) = slotsOf l₁ ++ slotsOf l₂ := List.flatMap_append

theorem mem_slotsOf {levels : List (Price × List Nat)} {s : Nat} :
    s ∈ slotsOf levels ↔ ∃ l ∈ levels, s ∈ l.2 := List.mem_flatMap

/-- No level is empty, and each order is filed under its own side and price. -/
structure LevelsOk (storage : Nat → Order) (side : Side) (levels : List (Price × List Nat)) :
    Prop where
  nonempty : ∀ l ∈ levels, l.2 ≠ []
  filed : ∀ l ∈ levels, ∀ s ∈ l.2, (storage s).side = side ∧ (storage s).price = l.1

theorem LevelsOk.congr {storage storage' : Nat → Order} {side : Side}
    {levels : List (Price × List Nat)} (h : LevelsOk storage side levels)
    (hf : ∀ s ∈ slotsOf levels, (storage' s).side = (storage s).side
      ∧ (storage' s).price = (storage s).price) : LevelsOk storage' side levels where
  nonempty := h.nonempty
  filed := by
    intro l hl s hs
    obtain ⟨h1, h2⟩ := hf s (mem_slotsOf.mpr ⟨l, hl, hs⟩)
    rw [h1, h2]
    exact h.filed l hl s hs

theorem LevelsOk.tail {storage : Nat → Order} {side : Side} {l : Price × List Nat}
    {levels : List (Price × List Nat)} (h : LevelsOk storage side (l :: levels)) :
    LevelsOk storage side levels :=
  ⟨fun x hx => h.nonempty x (List.mem_cons_of_mem _ hx),
   fun x hx => h.filed x (List.mem_cons_of_mem _ hx)⟩

/-! ## One order -/

/-- The front order is used up. -/
theorem fillFront_consume {id : OrderId} {side : Side} {tsNs : Nanos} {px : Price} {slot : Nat}
    {m : MatchState cap} (h : (m.pool.storage slot).qty ≤ m.qty) :
    fillFront id side tsNs px slot m =
      (⟨m.qty - (m.pool.storage slot).qty,
        (m.pool.write slot { m.pool.storage slot with qty := 0 }).release slot,
        m.locate.erase (m.pool.storage slot).id,
        m.trades ++ [tradeWith id side tsNs px (m.pool.storage slot).id
          (m.pool.storage slot).qty]⟩, true) := by
  simp only [fillFront, min_qty_of_le h, UInt32.sub_self, if_true]

/-- The incoming quantity is used up, and the front order keeps its place. -/
theorem fillFront_reduce {id : OrderId} {side : Side} {tsNs : Nanos} {px : Price} {slot : Nat}
    {m : MatchState cap} (h : m.qty < (m.pool.storage slot).qty) :
    fillFront id side tsNs px slot m =
      (⟨0, m.pool.write slot { m.pool.storage slot with
          qty := (m.pool.storage slot).qty - m.qty },
        m.locate,
        m.trades ++ [tradeWith id side tsNs px (m.pool.storage slot).id m.qty]⟩, false) := by
  have hne : (m.pool.storage slot).qty - m.qty ≠ 0 := by
    intro he
    have h1 := congrArg UInt32.toNat he
    rw [UInt32.toNat_sub_of_le _ _ (UInt32.le_of_lt h)] at h1
    have h2 := UInt32.lt_iff_toNat_lt.mp h
    simp only [UInt32.toNat_zero] at h1
    omega
  simp only [fillFront, min_qty_of_lt h, UInt32.sub_self, if_neg hne]

/-! ## What matching does to a run of slots -/

/-- `slots` of `m`, next to `others`, have been matched into `slots'` of `m'`. -/
structure Matched (crosses : Price → Bool) (id : OrderId) (side : Side) (tsNs : Nanos)
    (others slots slots' : List Nat) (m m' : MatchState cap) : Prop where
  consistent : Consistent m'.pool m'.locate (slots' ++ others)
  suffix : slots' <:+ slots
  /-- Matching writes quantities only. -/
  fields : ∀ s, (m'.pool.storage s).id = (m.pool.storage s).id
    ∧ (m'.pool.storage s).side = (m.pool.storage s).side
    ∧ (m'.pool.storage s).price = (m.pool.storage s).price
  /-- And only those of the orders it was given. -/
  frame : ∀ s, s ∉ slots → m'.pool.storage s = m.pool.storage s
  walk : ∃ fills, walk crosses m.qty.toNat (slots.map (entryOf m.pool.storage))
      = ⟨fills, m'.qty.toNat, slots'.map (entryOf m'.pool.storage)⟩
    ∧ m'.trades = m.trades ++ fills.map (tradeOf id side tsNs)

variable {crosses : Price → Bool} {id : OrderId} {side : Side} {tsNs : Nanos}
  {others : List Nat} {m : MatchState cap}

/-- Nothing was matched: the walk stops where it starts. -/
theorem Matched.refl {slots : List Nat} (hc : Consistent m.pool m.locate (slots ++ others))
    (hw : PriceTime.walk crosses m.qty.toNat (slots.map (entryOf m.pool.storage))
      = ⟨[], m.qty.toNat, slots.map (entryOf m.pool.storage)⟩) :
    Matched crosses id side tsNs others slots slots m m where
  consistent := hc
  suffix := List.suffix_rfl
  fields := fun _ => ⟨rfl, rfl, rfl⟩
  frame := fun _ _ => rfl
  walk := ⟨[], hw, by simp⟩

theorem Matched.levelsOk {slots slots' : List Nat} {m' : MatchState cap}
    {s : Side} {levels : List (Price × List Nat)}
    (h : Matched crosses id side tsNs others slots slots' m m')
    (hl : LevelsOk m.pool.storage s levels) : LevelsOk m'.pool.storage s levels :=
  hl.congr (fun x _ => (h.fields x).2)

/-- **Two runs, one after the other**: the second is entered once the first is empty. -/
theorem Matched.append {slots₁ slots₂ slots₂' : List Nat} {m₁ m₂ : MatchState cap}
    (h₁ : Matched crosses id side tsNs (slots₂ ++ others) slots₁ [] m m₁)
    (h₂ : Matched crosses id side tsNs others slots₂ slots₂' m₁ m₂)
    (hdisj : ∀ s ∈ slots₂, s ∉ slots₁) :
    Matched crosses id side tsNs others (slots₁ ++ slots₂) slots₂' m m₂ where
  consistent := h₂.consistent
  suffix := h₂.suffix.trans (List.suffix_append _ _)
  fields := by
    intro s
    obtain ⟨a1, a2, a3⟩ := h₁.fields s
    obtain ⟨b1, b2, b3⟩ := h₂.fields s
    exact ⟨b1.trans a1, b2.trans a2, b3.trans a3⟩
  frame := by
    intro s hs
    rw [h₂.frame s (fun hm => hs (List.mem_append_right _ hm)),
      h₁.frame s (fun hm => hs (List.mem_append_left _ hm))]
  walk := by
    obtain ⟨f₁, hw₁, ht₁⟩ := h₁.walk
    obtain ⟨f₂, hw₂, ht₂⟩ := h₂.walk
    have hmap : slots₂.map (entryOf m.pool.storage) = slots₂.map (entryOf m₁.pool.storage) := by
      refine List.map_congr_left fun s hs => ?_
      simp only [entryOf, h₁.frame s (hdisj s hs)]
    refine ⟨f₁ ++ f₂, ?_, by rw [ht₂, ht₁, List.map_append, List.append_assoc]⟩
    rw [List.map_append, walk_append, hw₁, hmap]
    simp only [List.map_nil, if_true, hw₂]

/-- **A run that is not used up** stops the walk: whatever comes after it stays. -/
theorem Matched.extend {slots slots' more : List Nat} {m' : MatchState cap}
    (h : Matched crosses id side tsNs (more ++ others) slots slots' m m') (hne : slots' ≠ [])
    (hdisj : ∀ s ∈ more, s ∉ slots) :
    Matched crosses id side tsNs others (slots ++ more) (slots' ++ more) m m' where
  consistent := by rw [List.append_assoc]; exact h.consistent
  suffix := by
    obtain ⟨t, ht⟩ := h.suffix
    exact ⟨t, by rw [← List.append_assoc, ht]⟩
  fields := h.fields
  frame := fun s hs => h.frame s fun hm => hs (List.mem_append_left _ hm)
  walk := by
    obtain ⟨fills, hw, ht⟩ := h.walk
    refine ⟨fills, ?_, ht⟩
    have hmap : more.map (entryOf m.pool.storage) = more.map (entryOf m'.pool.storage) := by
      refine List.map_congr_left fun s hs => ?_
      simp only [entryOf, h.frame s (hdisj s hs)]
    rw [List.map_append, walk_append, hw, if_neg (by simpa using hne), List.map_append, hmap]

/-! ## One level -/

section Front

variable {px : Price} {slot : Nat}

/-- The front order goes: its slot, its id and its place in the walk. -/
theorem Matched.consume (hcross : crosses px)
    (hc : Consistent m.pool m.locate (slot :: others))
    (hpx : (m.pool.storage slot).price = px) (hq : 0 < m.qty)
    (hle : (m.pool.storage slot).qty ≤ m.qty) :
    Matched crosses id side tsNs others [slot] [] m (fillFront id side tsNs px slot m).1 := by
  have hqn : 0 < m.qty.toNat := by simpa using UInt32.lt_iff_toNat_lt.mp hq
  have hlen : (m.pool.storage slot).qty.toNat ≤ m.qty.toNat := UInt32.le_iff_toNat_le.mp hle
  rw [fillFront_consume hle]
  refine ⟨hc.pop, List.nil_suffix, ?_, ?_, [entryOf m.pool.storage slot], ?_, ?_⟩
  · intro s
    by_cases hs : s = slot
    · subst hs
      simp
    · simp [m.pool.write_storage_ne _ hs]
  · intro s hs
    exact m.pool.write_storage_ne _ (by simpa using hs)
  · have hc' : crosses (entryOf m.pool.storage slot).price := by
      show crosses (m.pool.storage slot).price
      rw [hpx]
      exact hcross
    rw [List.map_cons, List.map_nil, walk_consume hqn hc' hlen]
    simp [entryOf, UInt32.toNat_sub_of_le _ _ hle]
  · simp [tradeOf, entryOf, hpx]

/-- The incoming quantity goes, and the front order keeps its place with less in it. -/
theorem Matched.reduce (hcross : crosses px)
    (hc : Consistent m.pool m.locate (slot :: others))
    (hpx : (m.pool.storage slot).price = px) (hq : 0 < m.qty)
    (hlt : m.qty < (m.pool.storage slot).qty) :
    Matched crosses id side tsNs others [slot] [slot] m (fillFront id side tsNs px slot m).1 := by
  have hqn : 0 < m.qty.toNat := by simpa using UInt32.lt_iff_toNat_lt.mp hq
  have hltn : m.qty.toNat < (m.pool.storage slot).qty.toNat := UInt32.lt_iff_toNat_lt.mp hlt
  have hsub : ((m.pool.storage slot).qty - m.qty).toNat
      = (m.pool.storage slot).qty.toNat - m.qty.toNat :=
    UInt32.toNat_sub_of_le _ _ (UInt32.le_of_lt hlt)
  rw [fillFront_reduce hlt]
  refine ⟨?_, List.suffix_rfl, ?_, ?_, [{ entryOf m.pool.storage slot with
    qty := m.qty.toNat }], ?_, ?_⟩
  · refine hc.reduce (UInt32.lt_iff_toNat_lt.mpr ?_)
    rw [hsub, UInt32.toNat_zero]
    omega
  · intro s
    by_cases hs : s = slot
    · subst hs
      simp
    · simp [m.pool.write_storage_ne _ hs]
  · intro s hs
    exact m.pool.write_storage_ne _ (by simpa using hs)
  · have hc' : crosses (entryOf m.pool.storage slot).price := by
      show crosses (m.pool.storage slot).price
      rw [hpx]
      exact hcross
    rw [List.map_cons, List.map_nil, walk_reduce hqn hc' hltn]
    simp [entryOf, hsub]
  · simp [tradeOf, entryOf, hpx]

end Front

/-- **The inner loop** matches the orders of a level that crosses. -/
theorem matchLevel_matched (crosses : Price → Bool) (id : OrderId) (side : Side)
    (tsNs : Nanos) {px : Price} (hcross : crosses px) :
    ∀ (dq : List Nat) (m : MatchState cap), Consistent m.pool m.locate (dq ++ others) →
      (∀ s ∈ dq, (m.pool.storage s).price = px) →
      Matched crosses id side tsNs others dq (matchLevel id side tsNs px dq m).1 m
        (matchLevel id side tsNs px dq m).2
      ∧ ((matchLevel id side tsNs px dq m).1 ≠ [] →
        (matchLevel id side tsNs px dq m).2.qty = 0) := by
  intro dq
  -- one turn of the loop per order of the queue
  induction dq with
  | nil => intro m hc _; exact ⟨Matched.refl hc rfl, fun h => absurd rfl h⟩
  | cons slot dq ih =>
      intro m hc hpx
      have hslot : (m.pool.storage slot).price = px := hpx slot List.mem_cons_self
      have hnd : (slot :: (dq ++ others)).Nodup := hc.holds.nodup
      have hnot : ∀ s ∈ dq, s ∉ [slot] := fun s hs he =>
        (List.nodup_cons.mp hnd).1 (List.mem_append_left _ (List.mem_singleton.mp he ▸ hs))
      rw [matchLevel]
      by_cases hq : m.qty > 0
      · rw [if_pos hq]
        by_cases hle : (m.pool.storage slot).qty ≤ m.qty
        · -- the front order goes, and the loop moves on to the next
          have hone : Matched crosses id side tsNs (dq ++ others) [slot] [] m
              (fillFront id side tsNs px slot m).1 := .consume hcross hc hslot hq hle
          have hdone : (fillFront id side tsNs px slot m).2 = true := by
            rw [fillFront_consume hle]
          rw [if_pos hdone]
          have hrest := ih _ hone.consistent (by
            intro s hs
            rw [(hone.fields s).2.2]
            exact hpx s (List.mem_cons_of_mem _ hs))
          exact ⟨hone.append hrest.1 hnot, hrest.2⟩
        · -- the incoming quantity goes, and the front order keeps its place
          have hlt : m.qty < (m.pool.storage slot).qty := UInt32.not_le.mp hle
          have hone : Matched crosses id side tsNs (dq ++ others) [slot] [slot] m
              (fillFront id side tsNs px slot m).1 := .reduce hcross hc hslot hq hlt
          have hdone : ¬ (fillFront id side tsNs px slot m).2 = true := by
            rw [fillFront_reduce hlt]
            simp
          rw [if_neg hdone]
          refine ⟨hone.extend (by simp) hnot, fun _ => ?_⟩
          rw [fillFront_reduce hlt]
      · have hz : m.qty = 0 := UInt32.le_zero_iff.mp (UInt32.not_lt.mp hq)
        rw [if_neg hq]
        refine ⟨Matched.refl hc ?_, fun _ => hz⟩
        rw [hz]
        exact walk_zero _

/-! ## All the levels -/

/-- **The outer loop** matches level after level, up to the first that does not cross. -/
theorem matchLevels_matched (crosses : Price → Price → Bool) (id : OrderId) (side : Side)
    (price : Price) (tsNs : Nanos) {opp : Side} :
    ∀ (levels : List (Price × List Nat)) (m : MatchState cap),
      Consistent m.pool m.locate (slotsOf levels ++ others) →
      LevelsOk m.pool.storage opp levels →
      Matched (fun px => crosses px price) id side tsNs others (slotsOf levels)
          (slotsOf (matchLevels crosses id side price tsNs levels m).1) m
          (matchLevels crosses id side price tsNs levels m).2
        ∧ LevelsOk (matchLevels crosses id side price tsNs levels m).2.pool.storage opp
          (matchLevels crosses id side price tsNs levels m).1
        ∧ (0 < (matchLevels crosses id side price tsNs levels m).2.qty →
            ∀ l ∈ (matchLevels crosses id side price tsNs levels m).1.head?,
              ¬ crosses l.1 price) := by
  intro levels
  -- one turn of the loop per level; every turn but the last empties its level
  induction levels with
  | nil => intro m hc hl; exact ⟨Matched.refl hc rfl, hl, by simp [matchLevels]⟩
  | cons l levels ih =>
      obtain ⟨px, dq⟩ := l
      intro m hc hl
      have hdq : dq ≠ [] := hl.nonempty _ List.mem_cons_self
      have hpx : ∀ s ∈ dq, (m.pool.storage s).price = px :=
        fun s hs => (hl.filed _ List.mem_cons_self s hs).2
      have hc' : Consistent m.pool m.locate (dq ++ (slotsOf levels ++ others)) := by
        rw [← List.append_assoc]; exact hc
      have hdisj : ∀ s ∈ slotsOf levels, s ∉ dq := by
        intro s hs hm
        exact (List.nodup_append.mp hc'.holds.nodup).2.2 s hm s (List.mem_append_left _ hs) rfl
      rw [matchLevels]
      by_cases hq : m.qty > 0
      · rw [if_pos hq]
        by_cases hcr : crosses px price
        · rw [if_pos hcr]
          obtain ⟨hlev, hdone⟩ := matchLevel_matched (fun px => crosses px price) id side tsNs
            hcr dq m hc' hpx
          by_cases he : (matchLevel id side tsNs px dq m).1 = []
          · -- the level is emptied and erased
            rw [if_pos he]
            rw [he] at hlev
            obtain ⟨hrest, hok, hstop⟩ := ih _ hlev.consistent (hlev.levelsOk hl.tail)
            exact ⟨hlev.append hrest hdisj, hok, hstop⟩
          · -- the level survives: the incoming quantity is used up
            rw [if_neg he]
            refine ⟨hlev.extend he hdisj, ?_, ?_⟩
            · have hl' := hlev.levelsOk hl
              refine ⟨List.forall_mem_cons.mpr ⟨he, hl'.tail.nonempty⟩,
                List.forall_mem_cons.mpr ⟨fun s hs => ?_, hl'.tail.filed⟩⟩
              exact hl'.filed _ List.mem_cons_self s (hlev.suffix.subset hs)
            · intro hpos
              rw [hdone he] at hpos
              exact absurd hpos (by simp)
        · -- no more crossing prices
          rw [if_neg hcr]
          refine ⟨Matched.refl hc ?_, hl, ?_⟩
          · cases dq with
            | nil => exact absurd rfl hdq
            | cons s dq =>
                refine walk_stop ?_
                rintro ⟨-, hx⟩
                exact hcr (by simpa [entryOf, hpx s List.mem_cons_self] using hx)
          · intro _ x hx
            have : x = (px, dq) := by simpa using hx.symm
            subst this
            exact hcr
      · have hz : m.qty = 0 := UInt32.le_zero_iff.mp (UInt32.not_lt.mp hq)
        rw [if_neg hq]
        refine ⟨Matched.refl hc ?_, hl, fun h => absurd h hq⟩
        rw [hz]
        exact walk_zero _

end HftLob.Book

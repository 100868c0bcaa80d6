import HftLob.Book.Matching

/-!
# Resting and removing, level by level

The two ways an order enters or leaves a side outside the matching loops. Both
cut the side at one price level; on the flat list `rest` is `PriceTime.insert`
and `removeFrom` is `PriceTime.remove`.
-/

namespace HftLob.Book

open HftLob.Lib HftLob.Lib.PriceTime OrderBook

variable {cap : PoolCapacity}

/-- A side as the flat list of its orders. -/
def flatOf (storage : Nat → Order) (levels : List (Price × List Nat)) :
    List (Entry OrderId Price) :=
  (slotsOf levels).map (entryOf storage)

theorem flatOf_congr {storage storage' : Nat → Order} {levels : List (Price × List Nat)}
    (h : ∀ s ∈ slotsOf levels, storage' s = storage s) :
    flatOf storage' levels = flatOf storage levels := by
  refine List.map_congr_left fun s hs => ?_
  simp only [entryOf, h s hs]

theorem LevelsOk.price_of_mem {storage : Nat → Order} {side : Side}
    {levels : List (Price × List Nat)} (h : LevelsOk storage side levels) {s : Nat}
    (hs : s ∈ slotsOf levels) : ∃ l ∈ levels, s ∈ l.2 ∧ (storage s).price = l.1 := by
  obtain ⟨l, hl, hsl⟩ := mem_slotsOf.mp hs
  exact ⟨l, hl, hsl, (h.filed l hl s hsl).2⟩

theorem LevelsOk.side_of_mem {storage : Nat → Order} {side : Side}
    {levels : List (Price × List Nat)} (h : LevelsOk storage side levels) {s : Nat}
    (hs : s ∈ slotsOf levels) : (storage s).side = side := by
  obtain ⟨l, hl, hsl⟩ := mem_slotsOf.mp hs
  exact (h.filed l hl s hsl).1

/-! ## Putting an order to rest -/

/-- `levels` cut at `price`: the better ones, the queue at that price, empty if there
is no such level, and the worse ones. -/
structure CutAt (lt : Price → Price → Prop) (levels l₁ : List (Price × List Nat))
    (price : Price) (dq : List Nat) (l₂ : List (Price × List Nat)) : Prop where
  better : ∀ x ∈ l₁, lt x.1 price
  worse : ∀ x ∈ l₂, lt price x.1
  eq : levels = l₁ ++ (price, dq) :: l₂ ∨ dq = [] ∧ levels = l₁ ++ l₂

namespace CutAt

variable {lt : Price → Price → Prop} {levels l₁ l₂ : List (Price × List Nat)} {price : Price}
  {dq : List Nat} {slot : Nat} {storage : Nat → Order} {side : Side}

theorem slots (h : CutAt lt levels l₁ price dq l₂) :
    slotsOf levels = slotsOf l₁ ++ dq ++ slotsOf l₂ := by
  rcases h.eq with he | ⟨hd, he⟩
  · rw [he, slotsOf_append, slotsOf_cons, List.append_assoc]
  · rw [he, hd, slotsOf_append, List.append_nil]

theorem slots_pushBack : slotsOf (l₁ ++ (price, dq ++ [slot]) :: l₂)
    = slotsOf l₁ ++ dq ++ slot :: slotsOf l₂ := by
  simp

theorem mem_left (h : CutAt lt levels l₁ price dq l₂) {x : Price × List Nat} (hx : x ∈ l₁) :
    x ∈ levels := by
  rcases h.eq with he | ⟨-, he⟩ <;> rw [he] <;> exact List.mem_append_left _ hx

theorem mem_right (h : CutAt lt levels l₁ price dq l₂) {x : Price × List Nat} (hx : x ∈ l₂) :
    x ∈ levels := by
  rcases h.eq with he | ⟨-, he⟩ <;> rw [he]
  · exact List.mem_append_right _ (List.mem_cons_of_mem _ hx)
  · exact List.mem_append_right _ hx

/-- Every level of a cut side is in front of the cut, at it, or behind it. -/
theorem mem_cases (h : CutAt lt levels l₁ price dq l₂)
    {l : Price × List Nat} (hl : l ∈ levels) :
    l ∈ l₁ ∨ l = (price, dq) ∨ l ∈ l₂ := by
  rcases h.eq with he | ⟨-, he⟩ <;> rw [he] at hl
  · rcases List.mem_append.mp hl with hl | hl
    · exact Or.inl hl
    · exact Or.inr (List.mem_cons.mp hl)
  · rcases List.mem_append.mp hl with hl | hl
    · exact Or.inl hl
    · exact Or.inr (Or.inr hl)

theorem filed (h : CutAt lt levels l₁ price dq l₂) (hl : LevelsOk storage side levels) :
    ∀ s ∈ dq, (storage s).side = side ∧ (storage s).price = price := by
  intro s hs
  rcases h.eq with he | ⟨hd, -⟩
  · refine hl.filed (price, dq) ?_ s hs
    rw [he]
    exact List.mem_append_right _ List.mem_cons_self
  · rw [hd] at hs
    exact absurd hs (by simp)

/-- The levels stay well filed when an order joins the one of its own price. -/
theorem levelsOk_pushBack (h : CutAt lt levels l₁ price dq l₂)
    (hl : LevelsOk storage side levels)
    (hslot : (storage slot).side = side ∧ (storage slot).price = price) :
    LevelsOk storage side (l₁ ++ (price, dq ++ [slot]) :: l₂) where
  nonempty := by
    intro l hlm
    rcases List.mem_append.mp hlm with hlm | hlm
    · exact hl.nonempty l (h.mem_left hlm)
    · rcases List.mem_cons.mp hlm with rfl | hlm
      · simp
      · exact hl.nonempty l (h.mem_right hlm)
  filed := by
    intro l hlm s hs
    rcases List.mem_append.mp hlm with hlm | hlm
    · exact hl.filed l (h.mem_left hlm) s hs
    · rcases List.mem_cons.mp hlm with rfl | hlm
      · rcases List.mem_append.mp hs with hs | hs
        · exact h.filed hl s hs
        · rw [List.mem_singleton.mp hs]
          exact hslot
      · exact hl.filed l (h.mem_right hlm) s hs

/-- On the flat list the order goes behind everything at least as good. -/
theorem flatOf_pushBack [DecidableRel lt] [IsStrictTotalOrder Price lt]
    (h : CutAt lt levels l₁ price dq l₂)
    (hl : LevelsOk storage side levels) (hslot : (storage slot).price = price) :
    flatOf storage (l₁ ++ (price, dq ++ [slot]) :: l₂)
      = PriceTime.insert lt (entryOf storage slot) (flatOf storage levels) := by
  unfold flatOf
  have hold : (slotsOf l₁ ++ dq ++ slotsOf l₂).map (entryOf storage)
      = (slotsOf l₁ ++ dq).map (entryOf storage) ++ (slotsOf l₂).map (entryOf storage) :=
    List.map_append
  rw [slots_pushBack, h.slots, hold, List.map_append, List.map_cons]
  refine (insert_cut ?_ ?_).symm
  · -- in front of it: the better levels, and the queue it joins
    intro x hx
    obtain ⟨s, hs, rfl⟩ := List.mem_map.mp hx
    show ¬ lt (storage slot).price (storage s).price
    rw [hslot]
    rcases List.mem_append.mp hs with hs | hs
    · obtain ⟨l, hlm, hsl⟩ := mem_slotsOf.mp hs
      rw [(hl.filed l (h.mem_left hlm) s hsl).2]
      exact fun hlt => irrefl (r := lt) price (IsTrans.trans _ _ _ hlt (h.better l hlm))
    · rw [(h.filed hl s hs).2]
      exact irrefl (r := lt) price
  · -- behind it: the worse levels
    intro x hx
    obtain ⟨s, hs, rfl⟩ := List.mem_map.mp hx
    obtain ⟨l, hlm, hsl⟩ := mem_slotsOf.mp hs
    show lt (storage slot).price (storage s).price
    rw [hslot, (hl.filed l (h.mem_right hlm) s hsl).2]
    exact h.worse l hlm

theorem keys_pushBack (h : CutAt lt levels l₁ price dq l₂) :
    ∀ l ∈ l₁ ++ (price, dq ++ [slot]) :: l₂, l.1 = price ∨ ∃ k ∈ levels, k.1 = l.1 := by
  intro l hlm
  rcases List.mem_append.mp hlm with hlm | hlm
  · exact Or.inr ⟨l, h.mem_left hlm, rfl⟩
  · rcases List.mem_cons.mp hlm with rfl | hlm
    · exact Or.inl rfl
    · exact Or.inr ⟨l, h.mem_right hlm, rfl⟩

/-- What is left of a side without one order is filed as it was. -/
theorem levelsOk_erase {levels' : List (Price × List Nat)} {d₁ d₂ : List Nat}
    (h : CutAt lt levels l₁ price (d₁ ++ slot :: d₂) l₂)
    (h' : CutAt lt levels' l₁ price (d₁ ++ d₂) l₂) (hl : LevelsOk storage side levels)
    (hne : ∀ l ∈ levels', l.2 ≠ []) : LevelsOk storage side levels' := by
  refine ⟨hne, fun l hlm t ht => ?_⟩
  rcases h'.mem_cases hlm with hm | hm | hm
  · exact hl.filed l (h.mem_left hm) t ht
  · -- what is left of the order's level was part of it before
    rw [hm] at ht ⊢
    refine h.filed hl t ?_
    rcases List.mem_append.mp ht with ht | ht
    · exact List.mem_append_left _ ht
    · exact List.mem_append_right _ (List.mem_cons_of_mem _ ht)
  · exact hl.filed l (h.mem_right hm) t ht

end CutAt

section Side

variable {lt : Price → Price → Prop} [DecidableRel lt] [IsStrictTotalOrder Price lt]

/-- `book[price].push_back(order)`: the level the order lands in, new or not. -/
theorem pushBack_cut (book : LevelMap lt) (price : Price) (slot : Nat) :
    ∃ l₁ dq l₂, CutAt lt book.entries l₁ price dq l₂
      ∧ (book.insert price ((book.find? price).getD [] ++ [slot])).entries
        = l₁ ++ (price, dq ++ [slot]) :: l₂ := by
  cases hf : book.find? price with
  | none =>
      obtain ⟨l₁, l₂, he, h₁, h₂, hins⟩ := SortedMap.find?_none_split hf
      exact ⟨l₁, [], l₂, ⟨h₁, h₂, Or.inr ⟨rfl, he⟩⟩, hins _⟩
  | some dq =>
      obtain ⟨l₁, l₂, he, h₁, h₂, -, hins⟩ := SortedMap.find?_some_split hf
      exact ⟨l₁, dq, l₂, ⟨h₁, h₂, Or.inl he⟩, hins _⟩

/-- What `rest` does when the pool has a slot to give. -/
structure Rested (book book' : LevelMap lt) (pool pool' : ObjectPool Order cap)
    (locate' : UMap OrderId (Side × Price)) (others : List Nat) (id : OrderId) (side : Side)
    (price : Price) (qty : Qty) : Prop where
  consistent : Consistent pool' locate' (slotsOf book'.entries ++ others)
  levels : LevelsOk pool'.storage side book'.entries
  flat : flatOf pool'.storage book'.entries
    = PriceTime.insert lt ⟨id, price, qty.toNat⟩ (flatOf pool.storage book.entries)
  frame : ∀ s ∈ others, pool'.storage s = pool.storage s
  keys : ∀ l ∈ book'.entries, l.1 = price ∨ ∃ k ∈ book.entries, k.1 = l.1

/-- **`rest` appends the order behind its level**, or drops it if the pool is exhausted. -/
theorem rest_spec {book : LevelMap lt} {pool : ObjectPool Order cap}
    {locate : UMap OrderId (Side × Price)} {others : List Nat} {id : OrderId} {side : Side}
    {price : Price} {qty : Qty} (tsNs : Nanos)
    (hc : Consistent pool locate (slotsOf book.entries ++ others))
    (hl : LevelsOk pool.storage side book.entries) (hq : 0 < qty)
    (hfresh : ∀ s ∈ slotsOf book.entries ++ others, (pool.storage s).id ≠ id) :
    (rest book pool locate id side price qty tsNs = (book, pool, locate)
        ∧ (slotsOf book.entries ++ others).length = cap.slots)
      ∨ ((slotsOf book.entries ++ others).length < cap.slots
        ∧ Rested book (rest book pool locate id side price qty tsNs).1 pool
          (rest book pool locate id side price qty tsNs).2.1
          (rest book pool locate id side price qty tsNs).2.2 others id side price qty) := by
  unfold rest
  cases ha : pool.acquire
      { id := id, side := side, price := price, qty := qty, tsNs := tsNs : Order } with
  -- `acquire` returned a null pointer: the remainder is gone without a word
  | none => exact Or.inl ⟨rfl, (ObjectPool.acquire_none_iff hc.holds).mp ha⟩
  | some r =>
      obtain ⟨slot, pool'⟩ := r
      -- the slot was free, so no order of either side is overwritten
      obtain ⟨hself, hst⟩ := hc.stocked.storage_acquire ha
      have hl' : LevelsOk pool'.storage side book.entries := by
        refine hl.congr fun s hs => ?_
        rw [hst s (List.mem_append_left _ hs)]
        exact ⟨rfl, rfl⟩
      obtain ⟨l₁, dq, l₂, hcut, hins⟩ := pushBack_cut book price slot
      refine Or.inr ⟨?_, ?_, ?_, ?_, fun s hs => hst s (List.mem_append_right _ hs), ?_⟩
      · refine Nat.lt_of_le_of_ne hc.holds.length_le fun he => ?_
        rw [(ObjectPool.acquire_none_iff hc.holds).mpr he] at ha
        exact absurd ha (by simp)
      · refine (hc.acquire ha hq hfresh).perm ?_
        dsimp only
        rw [hins, CutAt.slots_pushBack, hcut.slots, ← List.cons_append]
        exact (List.perm_middle.symm).append_right others
      · dsimp only
        rw [hins]
        exact hcut.levelsOk_pushBack hl' (by rw [hself]; exact ⟨rfl, rfl⟩)
      · dsimp only
        rw [hins, hcut.flatOf_pushBack hl' (by rw [hself]),
          flatOf_congr (fun s hs => hst s (List.mem_append_left _ hs))]
        simp only [entryOf, hself]
      · dsimp only
        rw [hins]
        exact hcut.keys_pushBack

/-! ## Removing an order -/

/-- The loop of `remove_from` erases the first order with the id. -/
theorem queue_erase {storage : Nat → Order} {id : OrderId} {dq : List Nat} {s : Nat}
    (h : dq.find? (fun t => (storage t).id = id) = some s) :
    ∃ d₁ d₂, dq = d₁ ++ s :: d₂ ∧ dq.eraseP (fun t => (storage t).id = id) = d₁ ++ d₂ := by
  obtain ⟨hs, d₁, d₂, hdq, hd₁⟩ := List.find?_eq_some_iff_append.mp h
  refine ⟨d₁, d₂, hdq, ?_⟩
  rw [hdq, List.eraseP_append_right _ fun t ht => by simpa using hd₁ t ht,
    List.eraseP_cons_of_pos (p := fun t => decide ((storage t).id = id)) hs]

/-- `remove_from` cuts the side at the price and its queue at the first order with the id. -/
theorem removeFrom_of_find {book : LevelMap lt} {pool : ObjectPool Order cap} {price : Price}
    {id : OrderId} {dq : List Nat} {s : Nat} (hfind : book.find? price = some dq)
    (hslot : dq.find? (fun t => (pool.storage t).id = id) = some s) :
    ∃ (book' : LevelMap lt) (l₁ : List (Price × List Nat)) (d₁ d₂ : List Nat)
      (l₂ : List (Price × List Nat)),
      removeFrom book pool price id = some (book', pool.release s)
      ∧ CutAt lt book.entries l₁ price (d₁ ++ s :: d₂) l₂
      ∧ CutAt lt book'.entries l₁ price (d₁ ++ d₂) l₂
      ∧ ((∀ l ∈ book.entries, l.2 ≠ []) → ∀ l ∈ book'.entries, l.2 ≠ []) := by
  obtain ⟨l₁, l₂, he, h₁, h₂, hera, hins⟩ := SortedMap.find?_some_split hfind
  obtain ⟨d₁, d₂, hdq, hep⟩ := queue_erase hslot
  have hcut : CutAt lt book.entries l₁ price (d₁ ++ s :: d₂) l₂ :=
    ⟨h₁, h₂, Or.inl (by rw [he, hdq])⟩
  unfold removeFrom
  rw [hfind]
  dsimp only
  rw [hslot]
  dsimp only
  rw [hep]
  by_cases hemp : d₁ ++ d₂ = []
  · -- the level empties and goes with the order
    rw [if_pos hemp]
    refine ⟨_, l₁, d₁, d₂, l₂, rfl, hcut, ⟨h₁, h₂, Or.inr ⟨hemp, hera⟩⟩, ?_⟩
    intro hne l hlm'
    rw [hera] at hlm'
    rcases List.mem_append.mp hlm' with h | h
    · exact hne l (hcut.mem_left h)
    · exact hne l (hcut.mem_right h)
  · rw [if_neg hemp]
    refine ⟨_, l₁, d₁, d₂, l₂, rfl, hcut, ⟨h₁, h₂, Or.inl (hins _)⟩, ?_⟩
    intro hne l hlm'
    rw [hins] at hlm'
    rcases List.mem_append.mp hlm' with h | h
    · exact hne l (hcut.mem_left h)
    · rcases List.mem_cons.mp h with h | h
      · rw [h]; exact hemp
      · exact hne l (hcut.mem_right h)

/-- An order that rests is the one its id is found at: ids are distinct. -/
theorem queue_find {pool : ObjectPool Order cap} {locate : UMap OrderId (Side × Price)}
    {live dq : List Nat} {s : Nat} (hc : Consistent pool locate live) (hsub : ∀ t ∈ dq, t ∈ live)
    (hs : s ∈ dq) : dq.find? (fun t => (pool.storage t).id = (pool.storage s).id) = some s := by
  cases hf : dq.find? (fun t => (pool.storage t).id = (pool.storage s).id) with
  | none =>
      have hnone := List.find?_eq_none.mp hf s hs
      simp at hnone
  | some t =>
      have hid : (pool.storage t).id = (pool.storage s).id := by
        simpa using List.find?_some hf
      rw [hc.slot_inj (hsub t (List.mem_of_find?_eq_some hf)) (hsub s hs) hid]

/-- What `remove_from` does to an order that is there. -/
structure Removed (book book' : LevelMap lt) (pool : ObjectPool Order cap)
    (locate : UMap OrderId (Side × Price)) (others : List Nat) (side : Side) (s : Nat) :
    Prop where
  consistent : Consistent (pool.release s) (locate.erase (pool.storage s).id)
    (slotsOf book'.entries ++ others)
  levels : LevelsOk pool.storage side book'.entries
  flat : flatOf pool.storage book'.entries
    = remove (pool.storage s).id (flatOf pool.storage book.entries)
  keys : ∀ l ∈ book'.entries, ∃ k ∈ book.entries, k.1 = l.1

/-- **`remove_from` takes out exactly the order it was asked for.** -/
theorem removeFrom_spec {book : LevelMap lt} {pool : ObjectPool Order cap}
    {locate : UMap OrderId (Side × Price)} {others : List Nat} {side : Side} {s : Nat}
    (hc : Consistent pool locate (slotsOf book.entries ++ others))
    (hl : LevelsOk pool.storage side book.entries) (hs : s ∈ slotsOf book.entries) :
    ∃ book' : LevelMap lt,
      removeFrom book pool (pool.storage s).price (pool.storage s).id
        = some (book', pool.release s)
      ∧ Removed book book' pool locate others side s := by
  obtain ⟨l, hlm, hsl, hpx⟩ := hl.price_of_mem hs
  have hfind : book.find? (pool.storage s).price = some l.2 := by
    rw [hpx]
    exact SortedMap.find?_of_mem hlm
  obtain ⟨book', l₁, d₁, d₂, l₂, hrem, hcut, hcut', hne⟩ := removeFrom_of_find hfind
    (queue_find hc (fun t ht => List.mem_append_left _ (mem_slotsOf.mpr ⟨l, hlm, ht⟩)) hsl)
  have hold : slotsOf book.entries = (slotsOf l₁ ++ d₁) ++ s :: (d₂ ++ slotsOf l₂) := by
    rw [hcut.slots]; simp
  have hnew : slotsOf book'.entries = (slotsOf l₁ ++ d₁) ++ (d₂ ++ slotsOf l₂) := by
    rw [hcut'.slots]; simp
  have hlive : ∀ t ∈ slotsOf book.entries, t ∈ slotsOf book.entries ++ others :=
    fun t ht => List.mem_append_left _ ht
  have hnd : (slotsOf book.entries).Nodup := (List.nodup_append.mp hc.holds.nodup).1
  -- an order with the same id would be the same slot, met twice
  have hids : ∀ t ∈ (slotsOf l₁ ++ d₁) ++ (d₂ ++ slotsOf l₂),
      (pool.storage t).id ≠ (pool.storage s).id := by
    intro t ht hid
    have hperm : (slotsOf book.entries).Perm
        (s :: ((slotsOf l₁ ++ d₁) ++ (d₂ ++ slotsOf l₂))) := by
      rw [hold]; exact List.perm_middle
    have htm : t ∈ slotsOf book.entries := hperm.mem_iff.mpr (List.mem_cons_of_mem _ ht)
    have hts : t = s := hc.slot_inj (hlive t htm) (hlive s hs) hid
    exact (List.nodup_cons.mp (hperm.nodup_iff.mp hnd)).1 (hts ▸ ht)
  refine ⟨book', hrem, ?_, ?_, ?_, ?_⟩
  · refine (hc.perm ?_).release
    rw [hold, hnew, ← List.cons_append]
    exact List.perm_middle.append_right others
  · exact hcut.levelsOk_erase hcut' hl (hne hl.nonempty)
  · unfold flatOf
    have hmap : ((slotsOf l₁ ++ d₁) ++ s :: (d₂ ++ slotsOf l₂)).map (entryOf pool.storage)
        = (slotsOf l₁ ++ d₁).map (entryOf pool.storage)
          ++ entryOf pool.storage s :: (d₂ ++ slotsOf l₂).map (entryOf pool.storage) := by
      rw [List.map_append, List.map_cons]
    rw [hold, hmap, hnew, List.map_append]
    refine (remove_cut (e := entryOf pool.storage s) ?_ ?_).symm
    · intro x hx
      obtain ⟨t, ht, rfl⟩ := List.mem_map.mp hx
      exact hids t (List.mem_append_left _ ht)
    · intro x hx
      obtain ⟨t, ht, rfl⟩ := List.mem_map.mp hx
      exact hids t (List.mem_append_right _ ht)
  · intro l hlm
    rcases hcut'.mem_cases hlm with h | h | h
    · exact ⟨l, hcut.mem_left h, rfl⟩
    · refine ⟨(l.1, d₁ ++ s :: d₂), ?_, rfl⟩
      rcases hcut.eq with he | ⟨hd, -⟩
      · rw [he, h]; exact List.mem_append_right _ List.mem_cons_self
      · exact absurd hd (by simp)
    · exact ⟨l, hcut.mem_right h, rfl⟩

end Side

end HftLob.Book

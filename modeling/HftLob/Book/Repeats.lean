import HftLob.Book.Refine

/-!
# The book when ids repeat

`add_limit_order` does not ask whether its id is already resting. If it is, `locate_`
knows only the later of the two orders, and loses that as soon as either is filled. The
pool, the levels and the quantities do not depend on `locate_`: `StockedBook` is the part
of the invariant about them, and it holds after every sequence of calls whatever the ids.
-/

namespace HftLob.Book

open HftLob.Lib HftLob.Lib.PriceTime OrderBook

variable {cap : PoolCapacity}

structure StockedBook (b : OrderBook cap) : Prop where
  stocked : Stocked b.pool b.slots
  bids : LevelsOk b.pool.storage .buy b.bids.entries
  asks : LevelsOk b.pool.storage .sell b.asks.entries

theorem stockedBook_init : StockedBook (OrderBook.init cap) :=
  ⟨bookInv_init.consistent.stocked, bookInv_init.bids, bookInv_init.asks⟩

/-! ## Matching -/

/-- What the loops leave of a run of slots, next to `others`. -/
structure Kept (others slots slots' : List Nat) (m m' : MatchState cap) : Prop where
  stocked : Stocked m'.pool (slots' ++ others)
  suffix : slots' <:+ slots
  /-- Matching writes quantities only. -/
  fields : ∀ s, (m'.pool.storage s).side = (m.pool.storage s).side
    ∧ (m'.pool.storage s).price = (m.pool.storage s).price

variable {id : OrderId} {side : Side} {tsNs : Nanos} {px : Price} {others : List Nat}

theorem Kept.refl {slots : List Nat} {m : MatchState cap}
    (h : Stocked m.pool (slots ++ others)) : Kept others slots slots m m :=
  ⟨h, List.suffix_rfl, fun _ => ⟨rfl, rfl⟩⟩

theorem Kept.trans {slots slots₁ slots₂ : List Nat} {m m₁ m₂ : MatchState cap}
    (hsuffix : slots₂ <:+ slots) (h₁ : ∀ s, (m₁.pool.storage s).side = (m.pool.storage s).side
      ∧ (m₁.pool.storage s).price = (m.pool.storage s).price)
    (h₂ : Kept others slots₁ slots₂ m₁ m₂) : Kept others slots slots₂ m m₂ where
  stocked := h₂.stocked
  suffix := hsuffix
  fields := fun s => ⟨(h₂.fields s).1.trans (h₁ s).1, (h₂.fields s).2.trans (h₁ s).2⟩

theorem Kept.levelsOk {slots slots' : List Nat} {m m' : MatchState cap}
    {levels : List (Price × List Nat)} (h : Kept others slots slots' m m')
    (hl : LevelsOk m.pool.storage side levels) :
    LevelsOk m'.pool.storage side levels :=
  hl.congr (fun s _ => h.fields s)

theorem write_fields (p : ObjectPool Order cap) (slot : Nat) (q : Qty) (s : Nat) :
    ((p.write slot { p.storage slot with qty := q }).storage s).side = (p.storage s).side
      ∧ ((p.write slot { p.storage slot with qty := q }).storage s).price
        = (p.storage s).price := by
  by_cases hs : s = slot
  · subst hs
    rw [ObjectPool.write_storage_self]
    exact ⟨rfl, rfl⟩
  · rw [p.write_storage_ne _ hs]
    exact ⟨rfl, rfl⟩

/-- One turn of the inner loop. -/
theorem fillFront_kept {slot : Nat} {m : MatchState cap} (h : Stocked m.pool (slot :: others)) :
    Kept others [slot] (if (fillFront id side tsNs px slot m).2 then [] else [slot]) m
      (fillFront id side tsNs px slot m).1 := by
  by_cases hle : (m.pool.storage slot).qty ≤ m.qty
  · rw [fillFront_consume hle]
    exact ⟨h.pop, List.nil_suffix, write_fields m.pool slot 0⟩
  · have hlt : m.qty < (m.pool.storage slot).qty := UInt32.not_le.mp hle
    have hleft : 0 < (m.pool.storage slot).qty - m.qty := by
      have hltn := UInt32.lt_iff_toNat_lt.mp hlt
      rw [UInt32.lt_iff_toNat_lt, UInt32.toNat_sub_of_le _ _ (UInt32.le_of_lt hlt),
        UInt32.toNat_zero]
      omega
    rw [fillFront_reduce hlt]
    exact ⟨h.reduce hleft, List.suffix_rfl, write_fields m.pool slot _⟩

/-- **The inner loop**, whatever the ids of the orders. -/
theorem matchLevel_kept : ∀ (dq : List Nat) (m : MatchState cap), Stocked m.pool (dq ++ others) →
    Kept others dq (matchLevel id side tsNs px dq m).1 m (matchLevel id side tsNs px dq m).2 := by
  intro dq
  induction dq with
  | nil => exact fun m h => .refl h
  | cons slot dq ih =>
      intro m h
      have hone := @fillFront_kept cap id side tsNs px (dq ++ others) slot m h
      rw [matchLevel]
      by_cases hq : m.qty > 0
      · rw [if_pos hq]
        by_cases hdone : (fillFront id side tsNs px slot m).2 = true
        · rw [if_pos hdone] at hone ⊢
          have hrest := ih _ hone.stocked
          exact .trans (hrest.suffix.trans (List.suffix_cons slot dq)) hone.fields hrest
        · rw [if_neg hdone] at hone ⊢
          exact ⟨hone.stocked, List.suffix_rfl, hone.fields⟩
      · rw [if_neg hq]
        exact .refl h

/-- **The outer loop**: the levels that are left are not empty and as well filed. -/
theorem matchLevels_kept (crosses : Price → Price → Bool) (price : Price) {opp : Side} :
    ∀ (levels : List (Price × List Nat)) (m : MatchState cap),
      Stocked m.pool (slotsOf levels ++ others) → LevelsOk m.pool.storage opp levels →
      Kept others (slotsOf levels) (slotsOf (matchLevels crosses id side price tsNs levels m).1) m
          (matchLevels crosses id side price tsNs levels m).2
        ∧ LevelsOk (matchLevels crosses id side price tsNs levels m).2.pool.storage opp
          (matchLevels crosses id side price tsNs levels m).1 := by
  intro levels
  induction levels with
  | nil => exact fun m h hl => ⟨.refl h, hl⟩
  | cons l levels ih =>
      obtain ⟨px, dq⟩ := l
      intro m h hl
      have h' : Stocked m.pool (dq ++ (slotsOf levels ++ others)) := by
        rw [← List.append_assoc]
        exact h
      have hlev := @matchLevel_kept cap id side tsNs px (slotsOf levels ++ others) dq m h'
      rw [matchLevels]
      by_cases hq : m.qty > 0
      · rw [if_pos hq]
        by_cases hcr : crosses px price = true
        · rw [if_pos hcr]
          by_cases he : (matchLevel id side tsNs px dq m).1 = []
          · -- the level is emptied and erased
            rw [if_pos he]
            have hstocked := hlev.stocked
            rw [he, List.nil_append] at hstocked
            obtain ⟨hrest, hok⟩ := ih _ hstocked (hlev.levelsOk hl.tail)
            exact ⟨.trans (hrest.suffix.trans (List.suffix_append dq _)) hlev.fields hrest, hok⟩
          · -- what is left of the level was in it before
            rw [if_neg he]
            have hl' := hlev.levelsOk hl
            obtain ⟨front, hfront⟩ := hlev.suffix
            refine ⟨⟨?_, ⟨front, ?_⟩, hlev.fields⟩, ?_, ?_⟩
            · rw [slotsOf_cons, List.append_assoc]
              exact hlev.stocked
            · rw [slotsOf_cons, slotsOf_cons, ← List.append_assoc, hfront]
            · exact List.forall_mem_cons.mpr ⟨he, hl'.tail.nonempty⟩
            · refine List.forall_mem_cons.mpr ⟨fun s hs => ?_, hl'.tail.filed⟩
              exact hl'.filed _ List.mem_cons_self s (hlev.suffix.subset hs)
        · rw [if_neg hcr]
          exact ⟨.refl h, hl⟩
      · rw [if_neg hq]
        exact ⟨.refl h, hl⟩

/-! ## Resting and removing -/

section Side

variable {lt : Price → Price → Prop} [DecidableRel lt] [IsStrictTotalOrder Price lt]

theorem rest_stocked {book : LevelMap lt} {pool : ObjectPool Order cap}
    (locate : UMap OrderId (Side × Price)) (id : OrderId) {price : Price} {qty : Qty}
    (tsNs : Nanos) (h : Stocked pool (slotsOf book.entries ++ others))
    (hl : LevelsOk pool.storage side book.entries) (hq : 0 < qty) :
    Stocked (rest book pool locate id side price qty tsNs).2.1
        (slotsOf (rest book pool locate id side price qty tsNs).1.entries ++ others)
      ∧ LevelsOk (rest book pool locate id side price qty tsNs).2.1.storage side
        (rest book pool locate id side price qty tsNs).1.entries
      ∧ ∀ s ∈ others,
        (rest book pool locate id side price qty tsNs).2.1.storage s = pool.storage s := by
  unfold rest
  cases ha : pool.acquire
      { id := id, side := side, price := price, qty := qty, tsNs := tsNs : Order } with
  | none => exact ⟨h, hl, fun _ _ => rfl⟩
  | some r =>
      obtain ⟨slot, pool'⟩ := r
      obtain ⟨hself, hst⟩ := h.storage_acquire ha
      obtain ⟨l₁, dq, l₂, hcut, hins⟩ := pushBack_cut book price slot
      dsimp only
      rw [hins]
      refine ⟨(h.acquire ha hq).perm ?_, hcut.levelsOk_pushBack (hl.congr fun s hs => ?_) ?_,
        fun s hs => hst s (List.mem_append_right _ hs)⟩
      · rw [CutAt.slots_pushBack, hcut.slots, ← List.cons_append]
        exact (List.perm_middle.symm).append_right others
      · rw [hst s (List.mem_append_left _ hs)]
        exact ⟨rfl, rfl⟩
      · rw [hself]
        exact ⟨rfl, rfl⟩

/-- `remove_from` gives back one slot of the side, whichever order it found. -/
theorem removeFrom_stocked {book book' : LevelMap lt} {pool pool' : ObjectPool Order cap}
    {price : Price} (h : Stocked pool (slotsOf book.entries ++ others))
    (hl : LevelsOk pool.storage side book.entries)
    (hrem : removeFrom book pool price id = some (book', pool')) :
    Stocked pool' (slotsOf book'.entries ++ others) ∧ LevelsOk pool'.storage side book'.entries
      ∧ pool'.storage = pool.storage := by
  cases hfind : book.find? price with
  | none =>
      unfold removeFrom at hrem
      rw [hfind] at hrem
      simp at hrem
  | some dq =>
      cases hslot : dq.find? (fun t => (pool.storage t).id = id) with
      | none =>
          unfold removeFrom at hrem
          rw [hfind] at hrem
          dsimp only at hrem
          rw [hslot] at hrem
          simp at hrem
      | some s =>
          obtain ⟨book₁, l₁, d₁, d₂, l₂, hrem₁, hcut, hcut', hne⟩ := removeFrom_of_find hfind hslot
          obtain ⟨rfl, rfl⟩ := Prod.mk.inj (Option.some.inj (hrem.symm.trans hrem₁))
          have hperm : (slotsOf book.entries ++ others).Perm
              (s :: (slotsOf book'.entries ++ others)) := by
            rw [hcut.slots, hcut'.slots]
            simp only [List.append_assoc, List.cons_append]
            rw [← List.append_assoc, ← List.append_assoc (slotsOf l₁) d₁]
            exact List.perm_middle
          exact ⟨(h.perm hperm).release, hcut.levelsOk_erase hcut' hl (hne hl.nonempty), rfl⟩

variable {ltM : Price → Price → Prop}

/-- Both branches of `add_limit_order`. -/
theorem place_stocked {own : LevelMap lt} {opp : LevelMap ltM} (crosses : Price → Price → Bool)
    (id : OrderId) {oppSide : Side} (price : Price) (tsNs : Nanos) {m : MatchState cap}
    (h : Stocked m.pool (slotsOf own.entries ++ slotsOf opp.entries))
    (hown : LevelsOk m.pool.storage side own.entries)
    (hopp : LevelsOk m.pool.storage oppSide opp.entries) :
    let r := place own opp crosses id side price tsNs m
    Stocked r.2.2.pool (slotsOf r.1.entries ++ slotsOf r.2.1.entries)
      ∧ LevelsOk r.2.2.pool.storage side r.1.entries
      ∧ LevelsOk r.2.2.pool.storage oppSide r.2.1.entries := by
  obtain ⟨hkept, hopp'⟩ := @matchLevels_kept cap id side tsNs (slotsOf own.entries) crosses price
    oppSide opp.entries m (h.perm List.perm_append_comm) hopp
  have hown' := hkept.levelsOk hown
  have hstocked := hkept.stocked.perm List.perm_append_comm
  unfold place
  dsimp only [matchAgainst]
  split
  · rename_i hq
    obtain ⟨hrest, hlevels, hframe⟩ := rest_stocked
      (matchLevels crosses id side price tsNs opp.entries m).2.locate id tsNs hstocked hown' hq
    refine ⟨hrest, hlevels, hopp'.congr fun s hs => ?_⟩
    rw [hframe s hs]
    exact ⟨rfl, rfl⟩
  · exact ⟨hstocked, hown', hopp'⟩

end Side

/-! ## Every sequence of calls -/

theorem addLimitOrder_stocked {b : OrderBook cap} (hb : StockedBook b) (id : OrderId) (side : Side)
    (price : Price) (qty : Qty) (tsNs : Nanos) (out : List Trade) :
    StockedBook (b.addLimitOrder id side price qty tsNs out).1 := by
  cases side with
  | buy =>
      rw [addLimitOrder_buy]
      obtain ⟨hstocked, hown, hopp⟩ := place_stocked
        (fun bookPx orderPx => decide (bookPx ≤ orderPx)) id price tsNs
        (m := ⟨qty, b.pool, b.locate, out⟩) hb.stocked hb.bids hb.asks
      exact ⟨hstocked, hown, hopp⟩
  | sell =>
      rw [addLimitOrder_sell]
      obtain ⟨hstocked, hown, hopp⟩ := place_stocked
        (fun bookPx orderPx => decide (bookPx ≥ orderPx)) id price tsNs
        (m := ⟨qty, b.pool, b.locate, out⟩) (hb.stocked.perm List.perm_append_comm) hb.asks hb.bids
      exact ⟨hstocked.perm List.perm_append_comm, hopp, hown⟩

theorem cancel_stocked {b : OrderBook cap} (hb : StockedBook b) (id : OrderId) :
    StockedBook (b.cancel id).1 := by
  unfold OrderBook.cancel
  cases hf : b.locate.lookup id with
  | none => exact hb
  | some v =>
      obtain ⟨side, price⟩ := v
      dsimp only
      cases side with
      | buy =>
          rw [if_pos rfl]
          cases hrem : removeFrom b.bids b.pool price id with
          | none => exact hb
          | some r =>
              obtain ⟨bids', pool'⟩ := r
              obtain ⟨hstocked, hlevels, hsame⟩ := removeFrom_stocked hb.stocked hb.bids hrem
              exact ⟨hstocked, hlevels, hsame ▸ hb.asks⟩
      | sell =>
          rw [if_neg (by simp)]
          cases hrem : removeFrom b.asks b.pool price id with
          | none => exact hb
          | some r =>
              obtain ⟨asks', pool'⟩ := r
              obtain ⟨hstocked, hlevels, hsame⟩ := removeFrom_stocked
                (hb.stocked.perm List.perm_append_comm) hb.asks hrem
              exact ⟨hstocked.perm List.perm_append_comm, hsame ▸ hb.bids, hlevels⟩

/-- **Every reachable book is stocked**, repeated ids or not. -/
theorem run_stocked (calls : List Call) : ∀ {b : OrderBook cap}, StockedBook b →
    StockedBook (b.run calls).1 := by
  induction calls with
  | nil => exact fun hb => hb
  | cons c calls ih =>
      intro b hb
      rw [OrderBook.run]
      refine ih ?_
      cases c with
      | add id side price qty tsNs out => exact addLimitOrder_stocked hb id side price qty tsNs out
      | cancel id => exact cancel_stocked hb id

end HftLob.Book

import HftLob.Book.View

/-!
# A canceled order that did not trade leaves no trace

A run with an order `x` in it is followed next to the same run without it. While `x`
rests, the second book is the first without its entry: no walk fills `x`, and a walk
stops in front of what it does not fill, so it takes the same course in both. The cancel
of `x` makes the two books one, up to the slots of the pool.

An exhausted pool would tell the runs apart, since `x` takes a slot.
-/

namespace HftLob.Book

open HftLob.Lib HftLob.Lib.PriceTime OrderBook

variable {cap : PoolCapacity}

/-! ## The flat book without an order -/

namespace Flat

/-- The book without this order. -/
def without (f : Flat) (x : OrderId) : Flat := (f.cancel x).1

theorem own_without (f : Flat) (x : OrderId) (side : Side) :
    (f.without x).own side = remove x (f.own side) := f.own_cancel x side

theorem opposite_without (f : Flat) (x : OrderId) (side : Side) :
    (f.without x).opposite side = remove x (f.opposite side) := by
  cases side <;> rfl

theorem Sorted.own {f : Flat} (hs : f.Sorted) (side : Side) :
    (f.own side).Pairwise (fun x y => ¬ better side y.price x.price) := by
  cases side with
  | buy => exact hs.1.imp not_lt.mpr
  | sell => exact hs.2.imp not_lt.mpr

/-- An add that trades with nobody is undone by taking the order out again. -/
theorem without_add_self {capacity : Nat} {f : Flat} {x : OrderId} {side : Side} {price : Price}
    {qty : Nat} (hx : x ∉ f.ids) (hfills : (f.add capacity x side price qty).2 = []) :
    (f.add capacity x side price qty).1.without x = f := by
  have hno : ∀ y ∈ f.own side, y.id ≠ x := by
    intro y hy he
    exact hx ((mem_ids_side side).mpr (Or.inl (he ▸ List.mem_map_of_mem hy)))
  have hno' : ∀ y ∈ f.opposite side, y.id ≠ x := by
    intro y hy he
    exact hx ((mem_ids_side side).mpr (Or.inr (he ▸ List.mem_map_of_mem hy)))
  -- without a fill the walk leaves the list as it is
  have hrest : (f.addWalk side price qty).rest = f.opposite side := by
    rw [add_fills] at hfills
    rcases walk_split (crosses side price) qty (f.opposite side) with hall | hpart
    · exact (hall.trans (congrArg (· ++ _) hfills)).symm
    · obtain ⟨done, e, k, tail, _, _, _, hpartial, _⟩ := hpart
      have hnil : done ++ [{ e with qty := k }] = [] := hpartial.symm.trans hfills
      simp at hnil
  refine ext_side side ?_ ?_
  · rw [own_without, add_own]
    split
    · exact remove_insert_self (e := ⟨x, price, _⟩) hno
    · exact remove_absent hno
  · rw [opposite_without, add_opposite, hrest, remove_absent hno']

/--
**Another order is added in the same way with or without `x`**, if it does not trade
with `x` and finds room where `x` takes a slot.
-/
theorem add_without {capacity : Nat} {f : Flat} {x id : OrderId} {side : Side} {price : Price}
    {qty : Nat} (hs : f.Sorted) (hid : id ≠ x)
    (hroom : 0 < (f.addWalk side price qty).left → f.Rests capacity side price qty)
    (hfills : x ∉ (f.add capacity id side price qty).2.map Entry.id) :
    (f.without x).add capacity id side price qty
      = ((f.add capacity id side price qty).1.without x, (f.add capacity id side price qty).2) := by
  rw [add_fills] at hfills
  have hwalk : (f.without x).addWalk side price qty
      = ⟨(f.addWalk side price qty).fills, (f.addWalk side price qty).left,
         remove x (f.addWalk side price qty).rest⟩ := by
    rw [addWalk, opposite_without]
    exact walk_remove (hs.crosses_first side price) hfills
  have hrests : (f.without x).Rests capacity side price qty ↔ f.Rests capacity side price qty := by
    constructor
    · intro h
      have hleft := h.1
      rw [hwalk] at hleft
      exact hroom hleft
    · intro h
      refine ⟨by rw [hwalk]; exact h.1, ?_⟩
      have hown : (remove x (f.own side)).length ≤ (f.own side).length :=
        List.length_filter_le _ _
      have hopp : (remove x (f.addWalk side price qty).rest).length
          ≤ (f.addWalk side price qty).rest.length := List.length_filter_le _ _
      have hlt := h.2
      rw [hwalk, own_without]
      dsimp only
      omega
  refine Prod.ext (ext_side side ?_ ?_) ?_
  · dsimp only
    rw [own_without, add_own, add_own, own_without, hwalk]
    by_cases h : f.Rests capacity side price qty
    · rw [if_pos (hrests.mpr h), if_pos h]
      exact insert_remove hid (hs.own side)
    · rw [if_neg (fun h' => h (hrests.mp h')), if_neg h]
  · dsimp only
    rw [opposite_without, add_opposite, add_opposite, hwalk]
  · dsimp only
    rw [add_fills, add_fills, hwalk]

theorem cancel_without {f : Flat} {x id : OrderId} (hid : id ≠ x) :
    (f.without x).cancel id = ((f.cancel id).1.without x, (f.cancel id).2) := by
  refine Prod.ext (congrArg₂ Flat.mk (remove_comm id x _) (remove_comm id x _)) ?_
  refine decide_eq_decide.mpr ?_
  rw [without, ids_cancel]
  exact and_iff_left hid

end Flat

/-! ## Two runs side by side -/

/-- The ids the calls add. -/
def addedIds (calls : List Call) : List OrderId :=
  calls.filterMap fun
    | .add id _ _ _ _ _ => some id
    | .cancel _ => none

namespace OrderBook

/-- A condition on every call of a run, in the state it is made in. -/
def Throughout (P : OrderBook cap → Call → Prop) : OrderBook cap → List Call → Prop
  | _, [] => True
  | b, c :: calls => P b c ∧ Throughout P (b.call c).1 calls

instance decidableThroughout {P : OrderBook cap → Call → Prop} [∀ b c, Decidable (P b c)] :
    ∀ (b : OrderBook cap) (calls : List Call), Decidable (b.Throughout P calls)
  | _, [] => .isTrue trivial
  | b, c :: calls =>
      have := decidableThroughout (P := P) (b.call c).1 calls
      inferInstanceAs (Decidable (P b c ∧ Throughout P (b.call c).1 calls))

/-- The trades a call appends. -/
def produced (b : OrderBook cap) : Call → List Trade
  | .add id side price qty tsNs tradesOut =>
      (b.addLimitOrder id side price qty tsNs tradesOut).2.drop tradesOut.length
  | .cancel _ => []

/-- If something is left of an added order, there is a slot for it. -/
def FindsSlot (b : OrderBook cap) : Call → Prop
  | .add _ side price qty _ _ => 0 < (b.flat.addWalk side price qty.toNat).left →
      b.flat.Rests cap.slots side price qty.toNat
  | .cancel _ => True

instance (b : OrderBook cap) (c : Call) : Decidable (b.FindsSlot c) :=
  match c with
  | .add _ side price qty _ _ =>
      inferInstanceAs (Decidable (_ → b.flat.Rests cap.slots side price qty.toNat))
  | .cancel _ => .isTrue trivial

/-- No trade of the call is with this order. -/
def Spares (x : OrderId) (b : OrderBook cap) (c : Call) : Prop :=
  ∀ t ∈ b.produced c, t.buyOrderId ≠ x ∧ t.sellOrderId ≠ x

instance (x : OrderId) (b : OrderBook cap) (c : Call) : Decidable (b.Spares x c) :=
  inferInstanceAs (Decidable (∀ t ∈ b.produced c, t.buyOrderId ≠ x ∧ t.sellOrderId ≠ x))

theorem run_append (b : OrderBook cap) (calls calls' : List Call) :
    b.run (calls ++ calls')
      = (((b.run calls).1.run calls').1, (b.run calls).2 ++ ((b.run calls).1.run calls').2) := by
  induction calls generalizing b with
  | nil => rfl
  | cons c calls ih => rw [List.cons_append, run, run, ih, List.cons_append]

theorem length_run (b : OrderBook cap) (calls : List Call) :
    (b.run calls).2.length = calls.length := by
  induction calls generalizing b with
  | nil => rfl
  | cons c calls ih => rw [run, List.length_cons, List.length_cons, ih]

theorem Throughout.append {P : OrderBook cap → Call → Prop} {b : OrderBook cap}
    {calls calls' : List Call} (h : b.Throughout P (calls ++ calls')) :
    (b.run calls).1.Throughout P calls' := by
  induction calls generalizing b with
  | nil => exact h
  | cons c calls ih => exact ih h.2

theorem Throughout.left {P : OrderBook cap → Call → Prop} {b : OrderBook cap}
    {calls calls' : List Call} (h : b.Throughout P (calls ++ calls')) : b.Throughout P calls := by
  induction calls generalizing b with
  | nil => trivial
  | cons c calls ih => exact ⟨h.1, ih h.2⟩

end OrderBook

/-- The calls add distinct ids, none of which rests. -/
structure Distinct (b : OrderBook cap) (calls : List Call) : Prop where
  nodup : (addedIds calls).Nodup
  fresh : ∀ i ∈ addedIds calls, i ∉ b.flat.ids

theorem BookInv.produced_eq {b : OrderBook cap} (hb : BookInv b) {id : OrderId} {side : Side}
    {price : Price} {qty : Qty} {tsNs : Nanos} {out : List Trade} (hid : id ∉ b.flat.ids) :
    b.produced (.add id side price qty tsNs out)
      = (b.flat.add cap.slots id side price qty.toNat).2.map (tradeOf id side tsNs) := by
  rw [produced, (addLimitOrder_spec hb hid).2.2, List.drop_left]

theorem Distinct.head {b : OrderBook cap} {c : Call} {calls : List Call}
    (h : Distinct b (c :: calls)) : b.flat.Fresh c := by
  cases c with
  | add id side price qty tsNs out => exact h.fresh id (by simp [addedIds])
  | cancel id => trivial

theorem BookInv.ids_call {b : OrderBook cap} {c : Call} (hb : BookInv b) (hc : b.flat.Fresh c)
    {x : OrderId} (hx : x ∈ (b.call c).1.flat.ids) : x ∈ addedIds [c] ∨ x ∈ b.flat.ids := by
  rw [(call_spec hb hc).2.1] at hx
  cases c with
  | add id side price qty tsNs out =>
      refine (Flat.ids_add hx).imp_left fun h => ?_
      simp [addedIds, h]
  | cancel id => exact Or.inr (Flat.ids_cancel.mp hx).1

theorem addedIds_append (calls calls' : List Call) :
    addedIds (calls ++ calls') = addedIds calls ++ addedIds calls' := List.filterMap_append

theorem addedIds_cons (c : Call) (calls : List Call) :
    addedIds (c :: calls) = addedIds [c] ++ addedIds calls := addedIds_append [c] calls

theorem Distinct.tail {b : OrderBook cap} {c : Call} {calls : List Call}
    (h : Distinct b (c :: calls)) (hb : BookInv b) : Distinct (b.call c).1 calls := by
  have hnodup := h.nodup
  rw [addedIds_cons, List.nodup_append] at hnodup
  refine ⟨hnodup.2.1, fun i hi hin => ?_⟩
  rcases BookInv.ids_call hb h.head hin with hc | hb
  · exact hnodup.2.2 i hc i hi rfl
  · exact h.fresh i (by rw [addedIds_cons]; exact List.mem_append_right _ hi) hb

theorem Distinct.left {b : OrderBook cap} {calls calls' : List Call}
    (h : Distinct b (calls ++ calls')) : Distinct b calls := by
  have hnodup := h.nodup
  rw [addedIds_append] at hnodup
  refine ⟨(List.nodup_append.mp hnodup).1, fun i hi => h.fresh i ?_⟩
  rw [addedIds_append]
  exact List.mem_append_left _ hi

/-- The invariant and the distinctness carry over to the later part of a run. -/
theorem Distinct.run {calls calls' : List Call} : ∀ {b : OrderBook cap}, BookInv b →
    Distinct b (calls ++ calls') →
    BookInv (b.run calls).1 ∧ Distinct (b.run calls).1 calls' := by
  induction calls with
  | nil => exact fun hb h => ⟨hb, h⟩
  | cons c calls ih => exact fun hb h => ih (call_spec hb h.head).1 (h.tail hb)

/-- What does not rest and is not added does not rest later. -/
theorem BookInv.absent_run {x : OrderId} {calls : List Call} : ∀ {b : OrderBook cap}, BookInv b →
    Distinct b calls → x ∉ addedIds calls → x ∉ b.flat.ids → x ∉ (b.run calls).1.flat.ids := by
  induction calls with
  | nil => exact fun _ _ _ h => h
  | cons c calls ih =>
      intro b hb hd hx habsent
      rw [addedIds_cons, List.mem_append, not_or] at hx
      refine ih (call_spec hb hd.head).1 (hd.tail hb) hx.2 fun hin => ?_
      rcases BookInv.ids_call hb hd.head hin with h | h
      · exact hx.1 h
      · exact habsent h

/-- On books with one flat book a call has one effect and one answer. -/
theorem call_congr {b b' : OrderBook cap} {c : Call} (hb : BookInv b) (hb' : BookInv b')
    (hflat : b.flat = b'.flat) (hc : b.flat.Fresh c) :
    (b.call c).1.flat = (b'.call c).1.flat ∧ (b.call c).2 = (b'.call c).2 := by
  have hc' : b'.flat.Fresh c := hflat ▸ hc
  refine ⟨by rw [(call_spec hb hc).2.1, (call_spec hb' hc').2.1, hflat], ?_⟩
  cases c with
  | add id side price qty tsNs out =>
      dsimp only [call]
      rw [(addLimitOrder_spec hb hc).2.2, (addLimitOrder_spec hb' hc').2.2, hflat]
  | cancel id =>
      dsimp only [call]
      rw [(cancel_spec id hb).2.2, (cancel_spec id hb').2.2, hflat]

theorem run_congr {calls : List Call} : ∀ {b b' : OrderBook cap}, BookInv b → BookInv b' →
    b.flat = b'.flat → Distinct b calls →
    BookInv (b.run calls).1 ∧ BookInv (b'.run calls).1
      ∧ (b.run calls).1.flat = (b'.run calls).1.flat ∧ (b.run calls).2 = (b'.run calls).2 := by
  induction calls with
  | nil => exact fun hb hb' hflat _ => ⟨hb, hb', hflat, rfl⟩
  | cons c calls ih =>
      intro b b' hb hb' hflat hd
      obtain ⟨hnext, hanswer⟩ := call_congr hb hb' hflat hd.head
      have hc' : b'.flat.Fresh c := hflat ▸ hd.head
      obtain ⟨h, h', hflat', hanswers⟩ := ih (call_spec hb hd.head).1 (call_spec hb' hc').1 hnext
        (hd.tail hb)
      refine ⟨h, h', hflat', ?_⟩
      rw [OrderBook.run, OrderBook.run, hanswer, hanswers]

/-- **One call next to the run without `x`.** -/
theorem call_without {x : OrderId} {b b' : OrderBook cap} {c : Call} (hb : BookInv b)
    (hb' : BookInv b') (hflat : b'.flat = b.flat.without x) (hc : b.flat.Fresh c)
    (hx : x ∉ addedIds [c]) (hcancel : c ≠ .cancel x) (hroom : b.FindsSlot c)
    (hspare : b.Spares x c) :
    b'.flat.Fresh c ∧ (b'.call c).1.flat = (b.call c).1.flat.without x
      ∧ (b'.call c).2 = (b.call c).2 := by
  cases c with
  | add id side price qty tsNs out =>
      have hid : id ≠ x := fun h => hx (by simp [addedIds, h])
      have hc' : b'.flat.Fresh (.add id side price qty tsNs out) := by
        rw [hflat]
        exact fun h => hc (Flat.ids_cancel.mp h).1
      have hfills : x ∉ (b.flat.add cap.slots id side price qty.toNat).2.map Entry.id := by
        intro hin
        obtain ⟨f, hf, hfx⟩ := List.mem_map.mp hin
        -- the other leg of the trade of this fill would be `x`
        have hin : tradeOf id side tsNs f ∈ b.produced (.add id side price qty tsNs out) := by
          rw [BookInv.produced_eq hb hc]
          exact List.mem_map_of_mem hf
        obtain ⟨hbuy, hsell⟩ := hspare _ hin
        cases side with
        | buy => exact hsell hfx
        | sell => exact hbuy hfx
      have hadd := Flat.add_without hb.flat_sorted hid hroom hfills
      refine ⟨hc', ?_, ?_⟩
      · rw [(call_spec hb' hc').2.1, (call_spec hb hc).2.1]
        dsimp only [Flat.call]
        rw [hflat, hadd]
      · dsimp only [call]
        rw [(addLimitOrder_spec hb' hc').2.2, (addLimitOrder_spec hb hc).2.2, hflat, hadd]
  | cancel id =>
      have hid : id ≠ x := fun h => hcancel (congrArg Call.cancel h)
      have hstep := Flat.cancel_without (f := b.flat) hid
      refine ⟨trivial, ?_, ?_⟩
      · dsimp only [call]
        rw [(cancel_spec id hb').2.1, (cancel_spec id hb).2.1, hflat, hstep]
      · dsimp only [call]
        rw [(cancel_spec id hb').2.2, (cancel_spec id hb).2.2, hflat, hstep]

/-- **While `x` rests, the run without it keeps up.** -/
theorem run_without {x : OrderId} {calls : List Call} : ∀ {b b' : OrderBook cap}, BookInv b →
    BookInv b' → b'.flat = b.flat.without x → Distinct b calls → x ∉ addedIds calls →
    b.Throughout FindsSlot calls → b.Throughout (Spares x) calls →
    x ∈ (b.run calls).1.flat.ids →
    BookInv (b'.run calls).1 ∧ (b'.run calls).1.flat = (b.run calls).1.flat.without x
      ∧ (b'.run calls).2 = (b.run calls).2 := by
  induction calls with
  | nil => exact fun _ hb' hflat _ _ _ _ _ => ⟨hb', hflat, rfl⟩
  | cons c calls ih =>
      intro b b' hb hb' hflat hd hx hroom hspare hin
      rw [addedIds_cons, List.mem_append, not_or] at hx
      have hnext := call_spec hb hd.head
      have hd' := hd.tail hb
      -- had it been canceled here, it would not rest at the end
      have hcancel : c ≠ .cancel x := by
        rintro rfl
        refine BookInv.absent_run hnext.1 hd' hx.2 (fun h => ?_) hin
        rw [hnext.2.1] at h
        exact (Flat.ids_cancel.mp h).2 rfl
      obtain ⟨hc', hflat', hanswer⟩ :=
        call_without hb hb' hflat hd.head hx.1 hcancel hroom.1 hspare.1
      obtain ⟨h', hend, hanswers⟩ := ih hnext.1 (call_spec hb' hc').1 hflat' hd' hx.2 hroom.2
        hspare.2 hin
      refine ⟨h', hend, ?_⟩
      rw [OrderBook.run, OrderBook.run, hanswer, hanswers]

/--
**A run from the add of `x` on**, next to the one without its add and its cancel: the
answers in between and behind are the same, and so are the flat books at the end.
-/
theorem run_without_add {x : OrderId} {side : Side} {price : Price} {qty : Qty} {tsNs : Nanos}
    {out : List Trade} {mid post : List Call} {b b₁ : OrderBook cap}
    (hb₁ : (b.call (.add x side price qty tsNs out)).1 = b₁) (hb : BookInv b)
    (hd : Distinct b (.add x side price qty tsNs out :: (mid ++ .cancel x :: post)))
    (hroom : b₁.Throughout FindsSlot mid)
    (hadd : b.produced (.add x side price qty tsNs out) = []) (hmid : b₁.Throughout (Spares x) mid)
    (hcancel : ((b₁.run mid).1.cancel x).2 = true) :
    BookInv (b₁.run (mid ++ .cancel x :: post)).1 ∧ BookInv (b.run (mid ++ post)).1
      ∧ (b.run (mid ++ post)).1.flat = (b₁.run (mid ++ .cancel x :: post)).1.flat
      ∧ ∃ between behind found, (b.run (mid ++ post)).2 = between ++ behind
        ∧ (b₁.run (mid ++ .cancel x :: post)).2 = between ++ found :: behind
        ∧ between.length = mid.length := by
  have hstart := call_spec hb hd.head
  have hd₁ := hd.tail hb
  rw [hb₁] at hstart hd₁
  have hx : x ∉ addedIds (mid ++ .cancel x :: post) := by
    have hnodup := hd.nodup
    rw [addedIds_cons, List.nodup_append] at hnodup
    exact fun hin => hnodup.2.2 x (by simp [addedIds]) x hin rfl
  rw [addedIds_append, List.mem_append, not_or] at hx
  have hflat : b.flat = b₁.flat.without x := by
    rw [hstart.2.1]
    refine (Flat.without_add_self hd.head ?_).symm
    rw [BookInv.produced_eq hb hd.head] at hadd
    exact List.map_eq_nil_iff.mp hadd
  obtain ⟨hb₂, hd₂⟩ := hd₁.run hstart.1
  have hin : x ∈ (b₁.run mid).1.flat.ids := by
    rw [(cancel_spec x hb₂).2.2] at hcancel
    exact of_decide_eq_true hcancel
  obtain ⟨hb', hflat', hbetween⟩ :=
    run_without hstart.1 hb hflat hd₁.left hx.1 hroom hmid hin
  -- the cancel takes `x` out of the first book too
  have hflat₃ : (b.run mid).1.flat = ((b₁.run mid).1.call (.cancel x)).1.flat := by
    rw [hflat']
    exact (cancel_spec x hb₂).2.1.symm
  have hd₃ := hd₂.tail hb₂
  have hb₃ := (call_spec hb₂ hd₂.head).1
  have hd₃' : Distinct (b.run mid).1 post := ⟨hd₃.nodup, by rw [hflat₃]; exact hd₃.fresh⟩
  obtain ⟨hend', hend, hsame, hbehind⟩ := run_congr hb' hb₃ hflat₃ hd₃'
  rw [run_append, run_append, OrderBook.run]
  exact ⟨hend, hend', hsame, _, _, _, rfl, by rw [hbetween, hbehind], length_run b mid⟩

/-! ## The whole run -/

theorem eraseIdx_length {α : Type} (l l' : List α) (a : α) :
    (l ++ a :: l').eraseIdx l.length = l ++ l' := by
  rw [List.eraseIdx_append_of_length_le (Nat.le_refl _), Nat.sub_self, List.eraseIdx_cons_zero]

/-- The later of two elements is erased first, so that the index of the other stands. -/
theorem eraseIdx_two {α : Type} (l₁ l₂ l₃ : List α) (a c : α) :
    ((l₁ ++ a :: (l₂ ++ c :: l₃)).eraseIdx (l₁.length + 1 + l₂.length)).eraseIdx l₁.length
      = l₁ ++ (l₂ ++ l₃) := by
  have hlen : l₁.length + 1 + l₂.length = (l₁ ++ a :: l₂).length := by
    rw [List.length_append, List.length_cons]
    omega
  have hassoc : l₁ ++ a :: (l₂ ++ c :: l₃) = (l₁ ++ a :: l₂) ++ c :: l₃ := by simp
  rw [hlen, hassoc, eraseIdx_length, List.append_assoc, List.cons_append, eraseIdx_length]

/--
**An order that is canceled before it trades leaves no trace.**

In a run that adds distinct ids and never finds the pool exhausted, let an order `x` be
added without a trade, not trade, and be canceled. Without these two calls every other
call has the same answer, and the book at the end looks the same.
-/
theorem canceled_order_leaves_no_trace (cap : PoolCapacity) (pre mid post : List Call)
    (x : OrderId) (side : Side) (price : Price) (qty : Qty) (tsNs : Nanos) (out : List Trade)
    (hids : (addedIds
      (pre ++ .add x side price qty tsNs out :: (mid ++ .cancel x :: post))).Nodup)
    (hroom : (OrderBook.init cap).Throughout FindsSlot
      (pre ++ .add x side price qty tsNs out :: (mid ++ .cancel x :: post)))
    (hadd : ((OrderBook.init cap).run pre).1.produced (.add x side price qty tsNs out) = [])
    (hmid : ((OrderBook.init cap).run (pre ++ [.add x side price qty tsNs out])).1.Throughout
      (Spares x) mid)
    (hcancel : (((OrderBook.init cap).run
      (pre ++ .add x side price qty tsNs out :: mid)).1.cancel x).2 = true) :
    let r := (OrderBook.init cap).run
      (pre ++ .add x side price qty tsNs out :: (mid ++ .cancel x :: post))
    let r' := (OrderBook.init cap).run (pre ++ (mid ++ post))
    r'.2 = (r.2.eraseIdx (pre.length + 1 + mid.length)).eraseIdx pre.length
      ∧ r'.1.view = r.1.view := by
  intro r r'
  have hd₀ : Distinct (OrderBook.init cap)
      (pre ++ .add x side price qty tsNs out :: (mid ++ .cancel x :: post)) :=
    ⟨hids, fun i _ hi => by simp [Flat.ids] at hi⟩
  obtain ⟨hb, hd⟩ := hd₀.run bookInv_init
  rw [run_append] at hmid hcancel
  obtain ⟨hend, hend', hflat, between, behind, found, hanswers', hanswers, hlen⟩ :=
    run_without_add rfl hb hd hroom.append.2.left hadd hmid hcancel
  have hr : r = (_, ((OrderBook.init cap).run pre).2 ++ _) := run_append _ _ _
  have hr' : r' = (_, ((OrderBook.init cap).run pre).2 ++ _) := run_append _ _ _
  rw [hr, hr']
  refine ⟨?_, BookInv.view_eq_of_flat hend' hend hflat⟩
  dsimp only
  rw [OrderBook.run, hanswers']
  dsimp only
  rw [hanswers, ← length_run (OrderBook.init cap) pre, ← hlen, eraseIdx_two]

/-- Order 2 rests behind order 1 and in front of order 5, is passed by two trades and goes. -/
theorem canceled_order_leaves_no_trace_between_trades :
    let cap : PoolCapacity := ⟨4, by decide⟩
    let pre : List Call := [.add 1 .buy 100 10 0 []]
    let add : Call := .add 2 .buy 99 5 1 []
    let mid : List Call := [.add 3 .sell 100 4 2 [], .add 5 .buy 98 1 3 [], .add 4 .sell 99 6 4 []]
    let post : List Call := [.add 6 .sell 98 1 5 [], .cancel 2]
    let r := (OrderBook.init cap).run (pre ++ add :: (mid ++ .cancel 2 :: post))
    let r' := (OrderBook.init cap).run (pre ++ (mid ++ post))
    (addedIds (pre ++ add :: (mid ++ .cancel 2 :: post))).Nodup
      ∧ r'.2 = (r.2.eraseIdx (pre.length + 1 + mid.length)).eraseIdx pre.length
      ∧ r'.1.view = r.1.view := by
  intro cap pre add mid post r r'
  exact ⟨by decide, canceled_order_leaves_no_trace cap pre mid post 2 .buy 99 5 1 [] (by decide)
    (by decide) (by decide) (by decide) (by decide)⟩

end HftLob.Book

import HftLob.Lib.Getline
import HftLob.Lib.Numeral
import HftLob.Types
import Mathlib.Data.List.Forall2

/-!
# The CSV loader

`MarketDataFeed::load_csv` makes an order of every line that has a price and a quantity and
is neither a comment nor the header. What it does not check it reads as best it can: a side
other than `B` or `b` is a sell, a number ends where its digits end, a negative quantity is
read as a 64-bit unsigned number, and a quantity keeps its low 32 bits.

Of a file in which every such line is well formed the orders are those written there.
Where one is not, its order is not.
-/

namespace HftLob.Desk

open HftLob.Lib HftLob.Lib.Getline HftLob.Lib.Numeral

/-- What `load_csv` throws. -/
inductive LoadError where
  /-- `std::runtime_error` with its message. -/
  | runtimeError (what : String)
  /-- `std::invalid_argument`, from `std::stoll` or `std::stoul`. -/
  | invalidArgument
  /-- `std::out_of_range`, from `std::stoll` or `std::stoul`. -/
  | outOfRange
  deriving DecidableEq

def stoll (s : List Char) : Except LoadError Int :=
  match scan s with
  | none => .error .invalidArgument
  | some (minus, m) =>
      let n : Int := if minus then -(m : Int) else m
      if -2 ^ 63 ≤ n ∧ n < 2 ^ 63 then .ok n else .error .outOfRange

/-- A number with a minus sign is negated as an `unsigned long`. -/
def stoul (s : List Char) : Except LoadError Nat :=
  match scan s with
  | none => .error .invalidArgument
  | some (minus, m) =>
      if m < 2 ^ 64 then .ok (if minus then (2 ^ 64 - m) % 2 ^ 64 else m) else .error .outOfRange

namespace MarketDataFeed

/-- The three strings read from a line, or `none` if the loop goes on to the next line. -/
def dataFields (line : List Char) : Option (List Char × List Char × List Char) :=
  if line = [] ∨ line.head? = some '#' then none
  else
    match getline ',' ⟨line, true⟩ with
    | (none, _) => none
    | (some sideStr, ss) =>
        if sideStr = ['s', 'i', 'd', 'e'] then none -- skip header row
        else
          -- a string that is not read stays empty
          let priceStr := (getline ',' ss).1.getD []
          let qtyStr := (getline ',' (getline ',' ss).2).1.getD []
          if priceStr = [] ∨ qtyStr = [] then none else some (sideStr, priceStr, qtyStr)

def sideOf (sideStr : List Char) : Side :=
  if sideStr = ['B'] ∨ sideStr = ['b'] then .buy else .sell

/-- The loop over the lines, with `next_id` and the events so far. -/
def loadLines : List (List Char) → OrderId → List Order → Except LoadError (List Order)
  | [], _, events => .ok events
  | line :: lines, nextId, events =>
      match dataFields line with
      | none => loadLines lines nextId events
      | some (sideStr, priceStr, qtyStr) => do
          let price ← stoll priceStr
          let qty ← stoul qtyStr
          loadLines lines (nextId + 1) (events ++ [{
            id := nextId
            side := sideOf sideStr
            price := price
            qty := UInt32.ofNat qty
            tsNs := 0 }])

/-- `file` is what the file has in it, if it can be opened. -/
def loadCsv (path : String) (file : Option (List Char)) : Except LoadError (List Order) :=
  match file with
  | none => .error (.runtimeError ("cannot open feed file: " ++ path))
  | some content => loadLines (readAll '\n' content) 1 []

end MarketDataFeed

open MarketDataFeed

/-! ## What is read -/

/-- The order is what the loop body makes of the three strings. -/
structure ReadAs (o : Order) (fields : List Char × List Char × List Char) : Prop where
  side : o.side = sideOf fields.1
  price : stoll fields.2.1 = .ok o.price
  qty : ∃ q, stoul fields.2.2 = .ok q ∧ o.qty = UInt32.ofNat q

/-- **The orders are the data lines**, in the order of the file and numbered on. -/
theorem loadLines_ok {lines : List (List Char)} {nextId : OrderId} {events result : List Order}
    (h : loadLines lines nextId events = .ok result) :
    ∃ orders, result = events ++ orders
      ∧ List.Forall₂ ReadAs orders (lines.filterMap dataFields)
      ∧ orders.map Order.id
        = (List.range orders.length).map (fun i => nextId + UInt64.ofNat i) := by
  induction lines generalizing nextId events with
  | nil =>
      cases h
      exact ⟨[], (List.append_nil _).symm, .nil, rfl⟩
  | cons line lines ih =>
      rw [loadLines] at h
      cases hf : dataFields line with
      | none =>
          rw [hf] at h
          rw [List.filterMap_cons_none hf]
          exact ih h
      | some fields =>
          obtain ⟨sideStr, priceStr, qtyStr⟩ := fields
          rw [hf] at h
          dsimp only at h
          rw [List.filterMap_cons_some hf]
          cases hp : stoll priceStr with
          | error e =>
              rw [hp] at h
              cases h
          | ok price =>
              cases hq : stoul qtyStr with
              | error e =>
                  rw [hp, hq] at h
                  cases h
              | ok qty =>
                  rw [hp, hq] at h
                  obtain ⟨orders, hresult, hread, hids⟩ := ih h
                  refine ⟨_ :: orders, by rw [hresult, List.append_assoc]; rfl, ?_, ?_⟩
                  · exact .cons ⟨rfl, hp, qty, hq, rfl⟩ hread
                  · rw [List.map_cons, hids, List.length_cons, List.range_succ_eq_map,
                      List.map_cons, List.map_map]
                    refine congrArg₂ List.cons (UInt64.add_zero nextId).symm ?_
                    refine List.map_congr_left fun i _ => ?_
                    show nextId + 1 + UInt64.ofNat i = nextId + UInt64.ofNat (i + 1)
                    rw [UInt64.ofNat_add, UInt64.add_assoc, UInt64.add_comm 1]
                    rfl

/-! ## What is written -/

/-- The side a field stands for. -/
def NamesSide (field : List Char) (side : Side) : Prop :=
  (field = ['B'] ∨ field = ['b']) ∧ side = .buy ∨ (field = ['S'] ∨ field = ['s']) ∧ side = .sell

/-- The line has the order in it: side, price and quantity are what its fields say. -/
def ComesFrom (o : Order) (line : List Char) : Prop :=
  ∃ side price qty more, line.splitOn ',' = side :: price :: qty :: more
    ∧ NamesSide side o.side ∧ Denotes price o.price ∧ Denotes qty o.qty.toNat

/-- The line has some order in it. -/
def WellFormedLine (line : List Char) : Prop :=
  ∃ side price qty more, line.splitOn ',' = side :: price :: qty :: more
    ∧ (∃ s, NamesSide side s) ∧ (∃ n, Denotes price n) ∧ ∃ n, Denotes qty n ∧ 0 ≤ n ∧ n < 2 ^ 32

/-- No order is invented: each comes from a line of its own, in the order of the file. -/
structure Faithful (content : List Char) (orders : List Order) : Prop where
  ids : orders.map Order.id = (List.range orders.length).map (fun i => UInt64.ofNat (i + 1))
  written : ∃ lines, lines.Sublist (readAll '\n' content) ∧ List.Forall₂ ComesFrom orders lines

theorem ComesFrom.wellFormed {o : Order} {line : List Char} (h : ComesFrom o line) :
    WellFormedLine line := by
  obtain ⟨side, price, qty, more, hsplit, hside, hprice, hqty⟩ := h
  have hlt := o.qty.toNat_lt
  exact ⟨side, price, qty, more, hsplit, ⟨_, hside⟩, ⟨_, hprice⟩, _, hqty, by omega, by omega⟩

theorem NamesSide.sideOf_eq {field : List Char} {side : Side} (h : NamesSide field side) :
    sideOf field = side := by
  rcases h with ⟨rfl | rfl, rfl⟩ | ⟨rfl | rfl, rfl⟩ <;> rfl

theorem stoll_of_denotes {s : List Char} {n price : Int} (h : Denotes s n)
    (hok : stoll s = .ok price) : price = n := by
  obtain ⟨minus, m, hscan, hn⟩ := scan_of_denotes h
  unfold stoll at hok
  rw [hscan] at hok
  dsimp only at hok
  rw [← hn] at hok
  split at hok
  · exact (Except.ok.inj hok).symm
  · cases hok

theorem stoul_of_denotes {s : List Char} {n : Int} {q : Nat} (h : Denotes s n) (hn : 0 ≤ n)
    (hok : stoul s = .ok q) : (q : Int) = n := by
  obtain ⟨minus, m, hscan, hvalue⟩ := scan_of_denotes h
  unfold stoul at hok
  rw [hscan] at hok
  dsimp only at hok
  split at hok
  · have hq := Except.ok.inj hok
    cases minus with
    | false =>
        rw [if_neg (by simp)] at hq hvalue
        omega
    | true =>
        -- the only numeral with a minus sign that is not negative is zero
        rw [if_pos rfl] at hq hvalue
        have hm : m = 0 := by omega
        subst hm
        omega
  · cases hok

/-! ## From one to the other -/

/-- The strings read are the fields of the line. -/
theorem splitOn_of_dataFields {line side price qty : List Char}
    (h : dataFields line = some (side, price, qty)) :
    ∃ more, line.splitOn ',' = side :: price :: qty :: more := by
  unfold dataFields at h
  split at h
  · cases h
  · obtain ⟨hside, hrest⟩ := getline_pieces ',' (⟨line, true⟩ : Stream Char)
    have hall : pieces ',' ⟨line, true⟩ = line.splitOn ',' := rfl
    split at h
    · cases h
    · rename_i sideStr ss hget
      rw [hget, hall] at hside hrest
      obtain ⟨hprice, hrest'⟩ := getline_pieces ',' ss
      obtain ⟨hqty, _⟩ := getline_pieces ',' (getline ',' ss).2
      split at h
      · cases h
      · dsimp only at h
        split at h
        · cases h
        · rename_i hne
          rw [hprice, hqty, hrest', hrest] at h hne
          dsimp only [Option.getD_some] at hside
          obtain ⟨rfl, hpq⟩ := Prod.mk.inj (Option.some.inj h)
          obtain ⟨rfl, rfl⟩ := Prod.mk.inj hpq
          -- a field that is not there would have been read as the empty string
          cases hs : line.splitOn ',' with
          | nil => simp [hs] at hne
          | cons f fs =>
              rw [hs] at hside hne
              cases fs with
              | nil => simp at hne
              | cons g gs =>
                  cases gs with
                  | nil => simp at hne
                  | cons k more => exact ⟨more, by simpa using hside.symm⟩

/-- A line with the fields is not skipped. -/
theorem dataFields_of_splitOn {line side price qty : List Char} {more : List (List Char)}
    (hsplit : line.splitOn ',' = side :: price :: qty :: more) (hside : ∃ s, NamesSide side s)
    (hprice : price ≠ []) (hqty : qty ≠ []) : dataFields line = some (side, price, qty) := by
  by_cases hmem : ',' ∈ line
  · obtain ⟨a, b, rfl, ha⟩ := List.eq_append_cons_of_mem hmem
    rw [List.splitOn_append_cons_self_of_not_mem ha b] at hsplit
    obtain ⟨rfl, hb⟩ := List.cons.inj hsplit
    obtain ⟨hp, hrest⟩ := getline_pieces ',' (⟨b, true⟩ : Stream Char)
    obtain ⟨hq, _⟩ := getline_pieces ',' (getline ',' (⟨b, true⟩ : Stream Char)).2
    have hall : pieces ',' ⟨b, true⟩ = price :: qty :: more := hb
    rw [hall] at hp hrest
    rw [hrest] at hq
    have hp : (getline ',' (⟨b, true⟩ : Stream Char)).1.getD [] = price := hp
    have hq : (getline ',' (getline ',' (⟨b, true⟩ : Stream Char)).2).1.getD [] = qty := hq
    have hskip : ¬ (a ++ ',' :: b = [] ∨ (a ++ ',' :: b).head? = some '#') := by
      obtain ⟨s, ⟨rfl | rfl, _⟩ | ⟨rfl | rfl, _⟩⟩ := hside <;> simp
    have hheader : a ≠ ['s', 'i', 'd', 'e'] := by
      obtain ⟨s, ⟨rfl | rfl, _⟩ | ⟨rfl | rfl, _⟩⟩ := hside <;> simp
    unfold dataFields
    rw [if_neg hskip, getline_cut ha]
    dsimp only
    rw [if_neg hheader, hp, hq, if_neg (not_or.mpr ⟨hprice, hqty⟩)]
  · rw [List.splitOn_eq_singleton hmem] at hsplit
    simp at hsplit

theorem ReadAs.comesFrom {o : Order} {line : List Char} {fields : List Char × List Char × List Char}
    (hread : ReadAs o fields) (hfields : dataFields line = some fields) (h : WellFormedLine line) :
    ComesFrom o line := by
  obtain ⟨side', price', qty'⟩ := fields
  obtain ⟨side, price, qty, more, hsplit, ⟨s, hs⟩, ⟨n, hn⟩, m, hm, hnonneg, hlt⟩ := h
  obtain ⟨more', hsplit'⟩ := splitOn_of_dataFields hfields
  have hsame := hsplit'.symm.trans hsplit
  simp only [List.cons.injEq] at hsame
  obtain ⟨rfl, rfl, rfl, _⟩ := hsame
  obtain ⟨q, hq, hoq⟩ := hread.qty
  have hqm : (q : Int) = m := stoul_of_denotes hm hnonneg hq
  have hqty : (o.qty.toNat : Int) = m := by
    rw [hoq, UInt32.toNat_ofNat', Nat.mod_eq_of_lt (by omega), hqm]
  refine ⟨_, _, _, more, hsplit, ?_, ?_, ?_⟩
  · rw [hread.side, hs.sideOf_eq]
    exact hs
  · rw [stoll_of_denotes hn hread.price]
    exact hn
  · rw [hqty]
    exact hm

theorem ComesFrom.isSome {o : Order} {line : List Char} (h : ComesFrom o line) :
    (dataFields line).isSome := by
  obtain ⟨side, price, qty, more, hsplit, hside, hprice, hqty⟩ := h
  rw [dataFields_of_splitOn hsplit ⟨_, hside⟩ hprice.ne_nil hqty.ne_nil]
  rfl

/-! ## The whole file -/

/-- A line that some order comes from is a data line. -/
theorem data_of_forall₂ {lines : List (List Char)} {orders : List Order}
    (h : List.Forall₂ ComesFrom orders lines) :
    ∀ line ∈ lines, (dataFields line).isSome ∧ WellFormedLine line := by
  induction h with
  | nil => simp
  | cons ho _ ih => exact List.forall_mem_cons.mpr ⟨⟨ho.isSome, ho.wellFormed⟩, ih⟩

/-- Where every data line is well formed, each order comes from its own. -/
theorem forall₂_comesFrom {lines : List (List Char)} {orders : List Order}
    (hread : List.Forall₂ ReadAs orders (lines.filterMap dataFields))
    (hwell : ∀ line ∈ lines, (dataFields line).isSome → WellFormedLine line) :
    List.Forall₂ ComesFrom orders (lines.filter fun line => (dataFields line).isSome) := by
  induction lines generalizing orders with
  | nil => exact (List.forall₂_nil_right_iff.mp hread) ▸ .nil
  | cons line lines ih =>
      have hrest : ∀ l ∈ lines, (dataFields l).isSome → WellFormedLine l :=
        fun l hl => hwell l (List.mem_cons_of_mem line hl)
      cases hf : dataFields line with
      | none =>
          rw [List.filterMap_cons_none hf] at hread
          rw [List.filter_cons_of_neg (by simp [hf])]
          exact ih hread hrest
      | some fields =>
          rw [List.filterMap_cons_some hf] at hread
          rw [List.filter_cons_of_pos (by simp [hf])]
          have hline := hwell line List.mem_cons_self (by rw [hf]; rfl)
          cases hread with
          | cons ho hos => exact .cons (ho.comesFrom hf hline) (ih hos hrest)

/-- **The orders are faithful exactly if every data line is well formed.** -/
theorem faithful_iff {content : List Char} {orders : List Order}
    (h : loadLines (readAll '\n' content) 1 [] = .ok orders) :
    Faithful content orders
      ↔ ∀ line ∈ readAll '\n' content, (dataFields line).isSome → WellFormedLine line := by
  obtain ⟨orders', hresult, hread, hids⟩ := loadLines_ok h
  rw [List.nil_append] at hresult
  subst hresult
  constructor
  · rintro ⟨_, lines, hsub, hcomes⟩ line hline hdata
    have hsome := data_of_forall₂ hcomes
    -- as many lines as orders, all of them data lines: they are the data lines
    have hall : lines = (readAll '\n' content).filter fun l => (dataFields l).isSome := by
      have hself : lines.filter (fun l => (dataFields l).isSome) = lines :=
        List.filter_eq_self.mpr fun l hl => (hsome l hl).1
      refine List.Sublist.eq_of_length (hself ▸ hsub.filter _) ?_
      rw [← hcomes.length_eq, hread.length_eq, List.length_filterMap_eq_countP,
        List.countP_eq_length_filter]
    refine (hsome line ?_).2
    rw [hall]
    exact List.mem_filter.mpr ⟨hline, hdata⟩
  · intro hwell
    refine ⟨?_, _, List.filter_sublist, forall₂_comesFrom hread hwell⟩
    rw [hids]
    refine List.map_congr_left fun i _ => ?_
    rw [UInt64.ofNat_add, UInt64.add_comm]
    rfl

/--
**When the loader invents no order.**

For every file that `load_csv` reads to its end, its orders are those written in the file,
numbered from one in the order of their lines, exactly if every line it makes an order of
has `B`, `b`, `S` or `s` for its side, a decimal number for its price and one from `0` to
`2 ^ 32 - 1` for its quantity.
-/
theorem load_csv_faithful_iff (path : String) (content : List Char) (orders : List Order)
    (hload : loadCsv path (some content) = .ok orders) :
    Faithful content orders
      ↔ ∀ line ∈ readAll '\n' content, (dataFields line).isSome → WellFormedLine line :=
  faithful_iff hload

/-- A header, an order to buy, a comment and an order to sell, with blanks and a return. -/
theorem load_csv_faithful_two_orders :
    let content := ['s', 'i', 'd', 'e', ',', 'p', '\n', 'B', ',', '1', '0', '0', ',', '5', '\n',
      '#', '\n', 's', ',', ' ', '-', '7', ',', '3', '\r', '\n']
    let orders : List Order := [⟨1, .buy, 100, 5, 0⟩, ⟨2, .sell, -7, 3, 0⟩]
    loadCsv "feed.csv" (some content) = .ok orders ∧ Faithful content orders := by
  intro content orders
  have hlines : readAll '\n' content = [['s', 'i', 'd', 'e', ',', 'p'],
      ['B', ',', '1', '0', '0', ',', '5'], ['#'], ['s', ',', ' ', '-', '7', ',', '3', '\r']] := by
    rw [readAll_eq]
    rfl
  have hload : loadCsv "feed.csv" (some content) = .ok orders := by
    show loadLines (readAll '\n' content) 1 [] = _
    rw [hlines]
    rfl
  refine ⟨hload, (load_csv_faithful_iff "feed.csv" content orders hload).mpr ?_⟩
  rw [hlines]
  intro line hline hdata
  simp only [List.mem_cons, List.not_mem_nil, or_false] at hline
  rcases hline with rfl | rfl | rfl | rfl
  · exact absurd hdata (by decide)
  · exact ⟨['B'], ['1', '0', '0'], ['5'], [], by decide, ⟨.buy, .inl ⟨.inl rfl, rfl⟩⟩,
      ⟨100, [], [], ['1', '0', '0'], [], by simp [digitsValue]⟩,
      5, ⟨[], [], ['5'], [], by simp [digitsValue]⟩, by decide⟩
  · exact absurd hdata (by decide)
  · exact ⟨['s'], [' ', '-', '7'], ['3', '\r'], [], by decide, ⟨.sell, .inr ⟨.inr rfl, rfl⟩⟩,
      ⟨-7, [' '], ['-'], ['7'], [], by simp [isSpace, digitsValue]⟩,
      3, ⟨[], [], ['3'], ['\r'], by simp [isSpace, digitsValue]⟩, by decide⟩

/-- A quantity of `-1` is loaded as an order for `2 ^ 32 - 1`. -/
theorem negative_quantity_loaded :
    let content := ['B', ',', '1', '0', '0', ',', '-', '1']
    let orders : List Order := [⟨1, .buy, 100, 4294967295, 0⟩]
    loadCsv "feed.csv" (some content) = .ok orders ∧ ¬ Faithful content orders := by
  intro content orders
  have hlines : readAll '\n' content = [content] := by
    rw [readAll_eq]
    rfl
  have hload : loadLines (readAll '\n' content) 1 [] = .ok orders := by
    rw [hlines]
    rfl
  refine ⟨hload, fun hfaithful => ?_⟩
  have hline : content ∈ readAll '\n' content := by rw [hlines]; exact List.mem_cons_self
  obtain ⟨side, price, qty, more, hsplit, _, _, n, hn, hnonneg, _⟩ :=
    (faithful_iff hload).mp hfaithful content hline (by decide)
  have hqty : qty = ['-', '1'] := by
    have hfields : content.splitOn ',' = [['B'], ['1', '0', '0'], ['-', '1']] := by decide
    rw [hfields] at hsplit
    simp only [List.cons.injEq] at hsplit
    exact hsplit.2.2.1.symm
  obtain ⟨minus, m, hscan, hvalue⟩ := scan_of_denotes hn
  rw [hqty] at hscan
  obtain ⟨rfl, rfl⟩ := Prod.mk.inj (Option.some.inj (hscan.symm.trans (rfl : _ = some (true, 1))))
  rw [if_pos rfl] at hvalue
  omega

end HftLob.Desk

import HftLob.Ring.Broadcast

/-!
# Exactly once, in order, to every consumer

The writer gates on a minimum that may be long out of date, or on one collected while
the cursors it was collected from move on. Both are safe for the same reason: cursors
only grow, so whatever the writer ever compares against is below every cursor.
`RingInv` says so for the cached minimum and for a scan at any point, and from it that
the slot the writer is about to use is one every consumer is done with.
-/

namespace HftLob.Ring

open HftLob.Lib

variable {T : Type} {cap : RingCapacity} {maxConsumers : Nat} {r r' : BroadcastRing T}

/-- Every consumer is less than `Capacity` behind. -/
def Ahead (cap : RingCapacity) (r : BroadcastRing T) : Prop :=
  ∀ id < r.consumerCount, r.published.length < (r.cursors id).toNat + cap.size

/-- What the writer knows at each point of `try_publish`. -/
def WriterOk (cap : RingCapacity) (r : BroadcastRing T) : Prop :=
  match r.writer with
  | .idle | .returned _ => True
  | .gate _ write => write = r.writeCursor
  | .scanCount _ write => write = r.writeCursor ∧ cap.size ≤ r.published.length
  | .scan _ write n i min =>
      write = r.writeCursor ∧ cap.size ≤ r.published.length ∧ n = r.consumerCount ∧ i ≤ n
        ∧ (∀ j < i, min.toNat ≤ (r.cursors j).toNat) ∧ (i = 0 → min = uint64Max)
        ∧ (0 < i → min.toNat ≤ r.published.length
          ∧ (r.slack → r.published.length < min.toNat + cap.size))
  | .scanned _ write freshMin =>
      write = r.writeCursor ∧ cap.size ≤ r.published.length
        ∧ freshMin.toNat ≤ r.published.length
        ∧ (∀ j < r.consumerCount, freshMin.toNat ≤ (r.cursors j).toNat)
        ∧ (r.slack → r.published.length < freshMin.toNat + cap.size)
  | .storeSlot _ write => write = r.writeCursor ∧ Ahead cap r
  | .storeCursor item write =>
      write = r.writeCursor ∧ Ahead cap r ∧ r.slots (r.published.length % cap.size) = item

/-- What a reader knows at each point of `try_consume`. -/
def ReaderOk (r : BroadcastRing T) (id : Nat) : Prop :=
  match r.readers id with
  | .idle | .returned _ => True
  | .loaded read => id < r.consumerCount ∧ read = r.cursors id
  | .copy read =>
      id < r.consumerCount ∧ read = r.cursors id ∧ read.toNat < r.published.length
  | .storeCursor read out =>
      id < r.consumerCount ∧ read = r.cursors id ∧ r.published[read.toNat]? = some out

/-- The oldest item that is still in its slot. -/
def oldest (cap : RingCapacity) (r : BroadcastRing T) : Nat :=
  match r.writer with
  | .storeCursor _ _ => r.published.length + 1 - cap.size
  | _ => r.published.length - cap.size

structure RingInv (cap : RingCapacity) (r : BroadcastRing T) : Prop where
  cursor : r.writeCursor.toNat = r.published.length
  read : ∀ id < r.consumerCount, (r.cursors id).toNat ≤ r.published.length
  consumed : ∀ id, r.consumed id = r.published.take (r.cursors id).toNat
  unregistered : ∀ id, r.consumerCount ≤ id → r.cursors id = 0
  lag : ∀ id < r.consumerCount, r.published.length ≤ (r.cursors id).toNat + cap.size
  /-- The cached minimum is below every cursor, and has not moved while a consumer may
  still register with its cursor at zero. -/
  cachedLe : r.cachedMin.toNat ≤ r.published.length
  cached : ∀ id < r.consumerCount, r.cachedMin.toNat ≤ (r.cursors id).toNat
  cachedZero : r.published.length < cap.size → r.cachedMin.toNat = 0
  window : Circular.Holds cap.size r.slots r.published (oldest cap r)
  slack : r.slack → Ahead cap r
  writer : WriterOk cap r
  reader : ∀ id, ReaderOk r id
  refused : ∀ b ∈ r.refusals, b = false

theorem ringInv_init (slots : Nat → T) : RingInv cap (BroadcastRing.init slots) where
  cursor := rfl
  read := by intro id h; exact absurd h (by simp [BroadcastRing.init])
  consumed := by intro id; rfl
  unregistered := by intro id _; rfl
  lag := by intro id h; exact absurd h (by simp [BroadcastRing.init])
  cachedLe := Nat.le_refl _
  cached := by intro id h; exact absurd h (by simp [BroadcastRing.init])
  cachedZero := by intro _; rfl
  window := Circular.holds_nil
  slack := by intro _ id h; exact absurd h (by simp [BroadcastRing.init])
  writer := trivial
  reader := by intro id; trivial
  refused := by intro b h; exact absurd h (by simp [BroadcastRing.init])

/-! ## What the invariant gives -/

theorem RingInv.consumed_length (h : RingInv cap r) {id : Nat} (hid : id < r.consumerCount) :
    (r.consumed id).length = (r.cursors id).toNat := by
  rw [h.consumed id, List.length_take, Nat.min_eq_left (h.read id hid)]

theorem ahead_of_hasSlack
    (hread : ∀ id < r.consumerCount, (r.cursors id).toNat ≤ r.published.length)
    (hcons : ∀ id, r.consumed id = r.published.take (r.cursors id).toNat)
    (hs : r.hasSlack cap) : Ahead cap r := by
  intro id hid
  have hslack := of_decide_eq_true (List.all_eq_true.mp hs id (List.mem_range.mpr hid))
  rw [hcons id, List.length_take, Nat.min_eq_left (hread id hid)] at hslack
  exact hslack

/-- The item a reader is about to copy is still in its slot. -/
theorem RingInv.oldest_le (h : RingInv cap r) {id : Nat} (hid : id < r.consumerCount) :
    oldest cap r ≤ (r.cursors id).toNat := by
  have hlag := h.lag id hid
  have hwriter := h.writer
  unfold oldest
  unfold WriterOk at hwriter
  split
  · -- the slot about to be lost was checked to be behind every cursor
    rename_i item write heq
    rw [heq] at hwriter
    have := hwriter.2.1 id hid
    omega
  · omega

/-- The test of the gate, on numbers. -/
theorem gate_iff {write min : UInt64} (hle : min.toNat ≤ write.toNat) :
    write - min ≥ UInt64.ofNat cap.size ↔ cap.size ≤ write.toNat - min.toNat := by
  have hlt := cap.size_lt
  rw [ge_iff_le, UInt64.le_iff_toNat_le,
    UInt64.toNat_sub_of_le _ _ (UInt64.le_iff_toNat_le.mpr hle),
    UInt64.toNat_ofNat', Nat.mod_eq_of_lt hlt]

/-! ## What other threads cannot break -/

/-- The writer's knowledge survives cursors that move on. -/
theorem WriterOk.mono (h : WriterOk cap r) (hw : r'.writer = r.writer)
    (hcur : r'.writeCursor = r.writeCursor) (hpub : r'.published = r.published)
    (hslots : r'.slots = r.slots) (hcount : r'.consumerCount = r.consumerCount)
    (hmono : ∀ id, (r.cursors id).toNat ≤ (r'.cursors id).toNat) (hslack : r'.slack → r.slack) :
    WriterOk cap r' := by
  have hahead : Ahead cap r → Ahead cap r' := by
    intro ha id hid
    rw [hcount] at hid
    rw [hpub]
    exact Nat.lt_of_lt_of_le (ha id hid) (Nat.add_le_add_right (hmono id) _)
  unfold WriterOk at h ⊢
  rw [hw, hcur, hpub, hslots, hcount]
  cases hwr : r.writer with
  | idle => trivial
  | returned b => trivial
  | gate item write => rw [hwr] at h; exact h
  | scanCount item write => rw [hwr] at h; exact h
  | scan item write n i min =>
      rw [hwr] at h
      obtain ⟨h1, h2, h3, h4, h5, h6, h7⟩ := h
      exact ⟨h1, h2, h3, h4, fun j hj => Nat.le_trans (h5 j hj) (hmono j), h6,
        fun hi => ⟨(h7 hi).1, fun hs => (h7 hi).2 (hslack hs)⟩⟩
  | scanned item write freshMin =>
      rw [hwr] at h
      obtain ⟨h1, h2, h3, h4, h5⟩ := h
      exact ⟨h1, h2, h3, fun j hj => Nat.le_trans (h4 j hj) (hmono j), fun hs => h5 (hslack hs)⟩
  | storeSlot item write => rw [hwr] at h; exact ⟨h.1, hahead h.2⟩
  | storeCursor item write => rw [hwr] at h; exact ⟨h.1, hahead h.2.1, h.2.2⟩

/-- A reader's knowledge survives items that are published. -/
theorem ReaderOk.mono {id : Nat} (h : ReaderOk r id) (hr : r'.readers id = r.readers id)
    (hcur : r'.cursors id = r.cursors id) (hcount : r.consumerCount ≤ r'.consumerCount)
    (hpub : r.published <+: r'.published) : ReaderOk r' id := by
  unfold ReaderOk at h ⊢
  rw [hr, hcur]
  cases hrd : r.readers id with
  | idle => trivial
  | returned out => trivial
  | loaded read => rw [hrd] at h; exact ⟨by omega, h.2⟩
  | copy read =>
      rw [hrd] at h
      exact ⟨by omega, h.2.1, Nat.lt_of_lt_of_le h.2.2 hpub.length_le⟩
  | storeCursor read out =>
      rw [hrd] at h
      refine ⟨by omega, h.2.1, ?_⟩
      obtain ⟨more, hmore⟩ := hpub
      have hlt : read.toNat < r.published.length := (List.getElem?_eq_some_iff.mp h.2.2).1
      rw [← hmore, List.getElem?_append_left hlt]
      exact h.2.2

/-! ## The steps of the writer -/

section Writer

variable {s : Bool}

/-- A step that only moves the writer on. -/
theorem RingInv.setWriter (h : RingInv cap r) {w : Writer T}
    (hold : oldest cap { r with writer := w, slack := s } = oldest cap r)
    (hs : s → ({ r with writer := w, slack := s } : BroadcastRing T).hasSlack cap)
    (hw : WriterOk cap { r with writer := w, slack := s }) :
    RingInv cap { r with writer := w, slack := s } where
  cursor := h.cursor
  read := h.read
  consumed := h.consumed
  unregistered := h.unregistered
  lag := h.lag
  cachedLe := h.cachedLe
  cached := h.cached
  cachedZero := h.cachedZero
  window := by rw [hold]; exact h.window
  slack := fun hs' => ahead_of_hasSlack h.read h.consumed (hs hs')
  writer := hw
  reader := fun id => (h.reader id).mono rfl rfl (Nat.le_refl _) List.prefix_rfl
  refused := h.refused

/-- The slots still have what they had, wherever the writer is but between its two stores. -/
theorem oldest_eq (h : ∀ item write, r.writer ≠ .storeCursor item write) :
    oldest cap r = r.published.length - cap.size := by
  unfold oldest
  split
  · rename_i item write heq
    exact absurd heq (h item write)
  · rfl

theorem RingInv.gate_step (h : RingInv cap r) {item : T} {write : UInt64}
    (hwr : r.writer = .gate item write) (hs₂ : s → r.hasSlack cap) :
    RingInv cap { r with
      writer := if write - r.cachedMin ≥ UInt64.ofNat cap.size then .scanCount item write
                else .storeSlot item write
      slack := s } := by
  have hok := h.writer
  unfold WriterOk at hok
  rw [hwr] at hok
  have hold : oldest cap r = r.published.length - cap.size :=
    oldest_eq (by rw [hwr]; nofun)
  have hlen : write.toNat = r.published.length := by rw [hok, h.cursor]
  have hiff : write - r.cachedMin ≥ UInt64.ofNat cap.size
      ↔ cap.size ≤ write.toNat - r.cachedMin.toNat :=
    gate_iff (by rw [hlen]; exact h.cachedLe)
  split
  · rename_i hge
    have hge := hiff.mp hge
    refine h.setWriter hold.symm hs₂ ⟨hok, ?_⟩
    show cap.size ≤ r.published.length
    omega
  · rename_i hlt
    have hlt : ¬ cap.size ≤ write.toNat - r.cachedMin.toNat := fun hc => hlt (hiff.mpr hc)
    refine h.setWriter hold.symm hs₂ ⟨hok, ?_⟩
    -- the cached minimum is below every cursor
    intro id hid
    have hcached := h.cached id hid
    show r.published.length < (r.cursors id).toNat + cap.size
    omega

/-- The smaller of the minimum so far and the cursor just loaded. -/
theorem toNat_scanMin (c low : UInt64) :
    (if c < low then c else low).toNat = min c.toNat low.toNat := by
  split
  · rename_i hlt
    have := UInt64.lt_iff_toNat_lt.mp hlt
    omega
  · rename_i hge
    have := mt UInt64.lt_iff_toNat_lt.mpr hge
    omega

theorem RingInv.scan_step (h : RingInv cap r) {item : T} {write low : UInt64} {n i : Nat}
    (hwr : r.writer = .scan item write n i low) (hi : i < n) (hs₁ : s → r.slack)
    (hs₂ : s → r.hasSlack cap) :
    RingInv cap { r with
      writer := .scan item write n (i + 1) (if r.cursors i < low then r.cursors i else low)
      slack := s } := by
  have hok := h.writer
  unfold WriterOk at hok
  rw [hwr] at hok
  obtain ⟨hwrite, hfull, hn, _, hbelow, hfirst, hlater⟩ := hok
  have hold : oldest cap r = r.published.length - cap.size :=
    oldest_eq (by rw [hwr]; nofun)
  have hread := h.read i (by omega)
  refine h.setWriter hold.symm hs₂ ⟨hwrite, hfull, hn, hi, ?_, by omega, fun _ => ?_⟩
  · intro j hj
    rw [toNat_scanMin]
    rcases Nat.lt_succ_iff_lt_or_eq.mp hj with hlt | heq
    · exact Nat.le_trans (Nat.min_le_right _ _) (hbelow j hlt)
    · rw [heq]
      exact Nat.min_le_left _ _
  · rw [toNat_scanMin]
    refine ⟨Nat.le_trans (Nat.min_le_left _ _) hread, fun hs => ?_⟩
    have hslack := h.slack (hs₁ hs) i (by omega)
    show r.published.length < min (r.cursors i).toNat low.toNat + cap.size
    -- the first cursor is compared with the largest number there is
    rcases Nat.eq_zero_or_pos i with hz | hpos
    · have hmax : low.toNat = 2 ^ 64 - 1 := by rw [hfirst hz]; rfl
      have := (r.cursors i).toNat_lt
      omega
    · have := (hlater hpos).2 (hs₁ hs)
      omega

theorem RingInv.scan_done (h : RingInv cap r) {item : T} {write low : UInt64} {n i : Nat}
    (hwr : r.writer = .scan item write n i low) (hi : ¬ i < n) (hs₁ : s → r.slack)
    (hs₂ : s → r.hasSlack cap) :
    RingInv cap { r with
      writer := .scanned item write (if n = 0 then r.writeCursor else low)
      slack := s } := by
  have hok := h.writer
  unfold WriterOk at hok
  rw [hwr] at hok
  obtain ⟨hwrite, hfull, hn, hle, hbelow, _, hlater⟩ := hok
  have hold : oldest cap r = r.published.length - cap.size :=
    oldest_eq (by rw [hwr]; nofun)
  have hcap := cap.size_pos
  by_cases hz : n = 0
  · -- nobody has registered: `scan_min_consumer_cursor` returns the writer's own cursor
    rw [if_pos hz]
    refine h.setWriter hold.symm hs₂ ⟨hwrite, hfull, ?_, ?_, ?_⟩
    · exact Nat.le_of_eq h.cursor
    · intro j hj
      have hj : j < r.consumerCount := hj
      omega
    · intro _
      show r.published.length < r.writeCursor.toNat + cap.size
      rw [h.cursor]
      omega
  · rw [if_neg hz]
    have hin : i = n := by omega
    have hpos : 0 < i := by omega
    refine h.setWriter hold.symm hs₂ ⟨hwrite, hfull, (hlater hpos).1, ?_, ?_⟩
    · intro j hj
      have hj : j < r.consumerCount := hj
      exact hbelow j (by omega)
    · exact fun hs => (hlater hpos).2 (hs₁ hs)

/-- The minimum found by the scan becomes the cached one. -/
theorem RingInv.cache (h : RingInv cap r) {item : T} {write freshMin : UInt64}
    (hwr : r.writer = .scanned item write freshMin) :
    RingInv cap { r with cachedMin := freshMin } := by
  have hok := h.writer
  unfold WriterOk at hok
  rw [hwr] at hok
  refine ⟨h.cursor, h.read, h.consumed, h.unregistered, h.lag, hok.2.2.1, hok.2.2.2.1, ?_,
    h.window, h.slack, h.writer.mono rfl rfl rfl rfl rfl (fun _ => Nat.le_refl _) id,
    fun id => (h.reader id).mono rfl rfl (Nat.le_refl _) List.prefix_rfl, h.refused⟩
  intro hlt
  have hfull := hok.2.1
  have hlt : r.published.length < cap.size := hlt
  omega

theorem RingInv.scanned_step (h : RingInv cap r) {item : T} {write freshMin : UInt64}
    (hwr : r.writer = .scanned item write freshMin) (hs₂ : s → r.hasSlack cap) :
    RingInv cap (if write - freshMin ≥ UInt64.ofNat cap.size then
        { r with cachedMin := freshMin, writer := .returned false,
                 refusals := r.refusals ++ [r.slack], slack := s }
      else { r with cachedMin := freshMin, writer := .storeSlot item write, slack := s }) := by
  have hok := h.writer
  unfold WriterOk at hok
  rw [hwr] at hok
  obtain ⟨hwrite, hfull, hle, hbelow, hslack⟩ := hok
  have hlen : write.toNat = r.published.length := by rw [hwrite, h.cursor]
  have hiff : write - freshMin ≥ UInt64.ofNat cap.size ↔ cap.size ≤ write.toNat - freshMin.toNat :=
    gate_iff (by omega)
  have hcache := h.cache hwr
  have hold : oldest cap { r with cachedMin := freshMin } = r.published.length - cap.size :=
    oldest_eq (by dsimp only; rw [hwr]; nofun)
  split
  · rename_i hge
    have hge := hiff.mp hge
    have hreturned : RingInv cap
        { r with cachedMin := freshMin, writer := .returned false, slack := s } :=
      hcache.setWriter hold.symm hs₂ trivial
    refine { hreturned with writer := trivial, reader := ?_, refused := ?_ }
    · exact fun id => (h.reader id).mono rfl rfl (Nat.le_refl _) List.prefix_rfl
    · intro b hb
      cases List.mem_append.mp hb with
      | inl hold => exact h.refused b hold
      | inr hnew =>
          -- with slack throughout, the scan would have found a larger minimum
          rw [List.mem_singleton.mp hnew]
          by_contra hb'
          have := hslack (by simpa using hb')
          omega
  · rename_i hlt
    have hlt : ¬ cap.size ≤ write.toNat - freshMin.toNat := fun hc => hlt (hiff.mpr hc)
    refine hcache.setWriter hold.symm hs₂ ⟨hwrite, ?_⟩
    intro id hid
    have := hbelow id hid
    show r.published.length < (r.cursors id).toNat + cap.size
    omega

theorem RingInv.storeSlot_step (h : RingInv cap r) {item : T} {write : UInt64}
    (hwr : r.writer = .storeSlot item write) (hs₂ : s → r.hasSlack cap) :
    RingInv cap { r with slots := Function.update r.slots (slotOf cap write) item
                         writer := .storeCursor item write
                         slack := s } := by
  have hok := h.writer
  unfold WriterOk at hok
  rw [hwr] at hok
  have hold : oldest cap r = r.published.length - cap.size :=
    oldest_eq (by rw [hwr]; nofun)
  have hslot : slotOf cap write = r.published.length % cap.size := by
    rw [slotOf_eq, hok.1, h.cursor]
  have hcap := cap.size_pos
  refine ⟨h.cursor, h.read, h.consumed, h.unregistered, h.lag, h.cachedLe, h.cached, h.cachedZero,
    ?_, fun hs => ahead_of_hasSlack h.read h.consumed (hs₂ hs), ⟨hok.1, hok.2, ?_⟩,
    fun id => (h.reader id).mono rfl rfl (Nat.le_refl _) List.prefix_rfl, h.refused⟩
  · have hwindow := h.window
    rw [hold] at hwindow
    dsimp only
    rw [hslot]
    show Circular.Holds cap.size _ r.published (r.published.length + 1 - cap.size)
    -- the store overwrites the item one lap back, so the window has to give it up first
    exact (hwindow.mono (by omega)).store (by omega)
  · dsimp only
    rw [hslot]
    exact Function.update_self ..

theorem RingInv.storeCursor_step (h : RingInv cap r) {item : T} {write : UInt64}
    (hwr : r.writer = .storeCursor item write) (hlen : r.published.length + 1 < 2 ^ 64)
    (hs₂ : s → ({ r with published := r.published ++ [item] } : BroadcastRing T).hasSlack cap) :
    RingInv cap { r with writeCursor := write + 1
                         writer := .returned true
                         published := r.published ++ [item]
                         slack := s } := by
  have hok := h.writer
  unfold WriterOk at hok
  rw [hwr] at hok
  obtain ⟨hwrite, hahead, hslot⟩ := hok
  have hpub : (r.published ++ [item]).length = r.published.length + 1 := by simp
  have hread : ∀ id < r.consumerCount, (r.cursors id).toNat ≤ (r.published ++ [item]).length :=
    fun id hid => by have := h.read id hid; omega
  have hcons : ∀ id, r.consumed id = (r.published ++ [item]).take (r.cursors id).toNat := by
    intro id
    have hle : (r.cursors id).toNat ≤ r.published.length := by
      rcases Nat.lt_or_ge id r.consumerCount with hid | hid
      · exact h.read id hid
      · rw [h.unregistered id hid]
        exact Nat.zero_le _
    rw [h.consumed id, List.take_append_of_le_length hle]
  refine ⟨?_, hread, hcons, h.unregistered, ?_, ?_, h.cached, ?_, ?_,
    fun hs => ahead_of_hasSlack hread hcons (hs₂ hs), trivial,
    fun id => (h.reader id).mono rfl rfl (Nat.le_refl _) (List.prefix_append _ _), h.refused⟩
  · dsimp only
    rw [UInt64.toNat_add, hwrite, h.cursor, hpub]
    exact Nat.mod_eq_of_lt hlen
  · intro id hid
    have := hahead id hid
    show (r.published ++ [item]).length ≤ (r.cursors id).toNat + cap.size
    omega
  · have := h.cachedLe
    show r.cachedMin.toNat ≤ (r.published ++ [item]).length
    omega
  · intro hlt
    have hlt : (r.published ++ [item]).length < cap.size := hlt
    exact h.cachedZero (by omega)
  · have hwindow := h.window
    unfold oldest at hwindow
    rw [hwr] at hwindow
    have hlo : r.published.length + 1 - cap.size = (r.published ++ [item]).length - cap.size := by
      rw [hpub]
    rw [oldest_eq (by intro _ _ he; cases he)]
    dsimp only
    rw [← hlo]
    exact hwindow.append hslot

theorem RingInv.writeStep (h : RingInv cap r) (hr : r.writeStep cap = some r')
    (hlen : r'.published.length < 2 ^ 64) (hs₁ : s → r.slack) (hs₂ : s → r'.hasSlack cap) :
    RingInv cap { r' with slack := s } := by
  unfold BroadcastRing.writeStep at hr
  cases hwr : r.writer with
  | idle => rw [hwr] at hr; exact absurd hr (by simp)
  | returned b => rw [hwr] at hr; exact absurd hr (by simp)
  | gate item write =>
      rw [hwr] at hr
      dsimp only at hr
      have hgate := h.gate_step (s := s) hwr
      split at hr <;> cases hr
      · rw [if_pos ‹_›] at hgate
        exact hgate hs₂
      · rw [if_neg ‹_›] at hgate
        exact hgate hs₂
  | scanCount item write =>
      rw [hwr] at hr
      cases hr
      have hok := h.writer
      unfold WriterOk at hok
      rw [hwr] at hok
      have hold : oldest cap r = r.published.length - cap.size :=
        oldest_eq (by rw [hwr]; nofun)
      exact h.setWriter hold.symm hs₂ ⟨hok.1, hok.2, rfl, Nat.zero_le _,
        fun j hj => absurd hj (Nat.not_lt_zero j), fun _ => rfl,
        fun hi => absurd hi (Nat.lt_irrefl 0)⟩
  | scan item write n i low =>
      rw [hwr] at hr
      dsimp only at hr
      split at hr <;> cases hr
      · exact h.scan_step hwr ‹_› hs₁ hs₂
      · exact h.scan_done hwr ‹_› hs₁ hs₂
  | scanned item write freshMin =>
      rw [hwr] at hr
      dsimp only at hr
      have hscanned := h.scanned_step (s := s) hwr
      split at hr <;> cases hr
      · rw [if_pos ‹_›] at hscanned
        exact hscanned hs₂
      · rw [if_neg ‹_›] at hscanned
        exact hscanned hs₂
  | storeSlot item write =>
      rw [hwr] at hr
      cases hr
      exact h.storeSlot_step hwr hs₂
  | storeCursor item write =>
      rw [hwr] at hr
      cases hr
      refine h.storeCursor_step hwr ?_ hs₂
      simpa using hlen

theorem RingInv.startPublish (h : RingInv cap r) {item : T}
    (hr : r.startPublish item = some r') (hs₂ : s → r'.hasSlack cap) :
    RingInv cap { r' with slack := s } := by
  unfold BroadcastRing.startPublish at hr
  have hdone : (∀ i w, r.writer ≠ .storeCursor i w)
      ∧ r' = { r with writer := .gate item r.writeCursor } := by
    cases hwr : r.writer with
    | idle => rw [hwr] at hr; cases hr; exact ⟨(by intro _ _ he; cases he), rfl⟩
    | returned b => rw [hwr] at hr; cases hr; exact ⟨(by intro _ _ he; cases he), rfl⟩
    | _ => rw [hwr] at hr; exact absurd hr (by simp)
  obtain ⟨hne, rfl⟩ := hdone
  exact h.setWriter (oldest_eq hne).symm hs₂ rfl

end Writer

/-! ## The steps of the readers, and registering -/

section Reader

variable {s : Bool}

/-- A consumer that registers early enough starts with nothing overwritten. -/
theorem RingInv.register (h : RingInv cap r) (hr : r.register cap maxConsumers = some r') :
    RingInv cap { r' with slack := s } := by
  unfold BroadcastRing.register at hr
  split at hr
  case isFalse => exact absurd hr (by simp)
  rename_i hroom
  cases hr
  have hlt : r.published.length < cap.size := by rw [← h.cursor]; exact hroom.1
  -- the new consumer is the first unregistered one
  have hnew : ∀ id, id < r.consumerCount + 1 → id < r.consumerCount ∨ (r.cursors id).toNat = 0 := by
    intro id hid
    rcases Nat.lt_or_ge id r.consumerCount with hold | hge
    · exact Or.inl hold
    · exact Or.inr (by rw [h.unregistered id hge]; rfl)
  have hread : ∀ id < r.consumerCount + 1, (r.cursors id).toNat ≤ r.published.length := by
    intro id hid
    rcases hnew id hid with hold | hzero
    · exact h.read id hold
    · omega
  have hahead : ∀ id < r.consumerCount + 1,
      r.published.length < (r.cursors id).toNat + cap.size := by
    intro id _
    omega
  refine ⟨h.cursor, hread, h.consumed, fun id hid => h.unregistered id (Nat.le_of_succ_le hid),
    fun id hid => Nat.le_of_lt (hahead id hid), h.cachedLe, ?_, h.cachedZero, h.window,
    fun _ => hahead, ?_, fun id => (h.reader id).mono rfl rfl (Nat.le_succ _) List.prefix_rfl,
    h.refused⟩
  · intro id _
    show r.cachedMin.toNat ≤ _
    rw [h.cachedZero hlt]
    exact Nat.zero_le _
  · -- a scan is under way only when the ring has been filled once
    have hok := h.writer
    unfold WriterOk at hok ⊢
    cases hwr : r.writer with
    | idle => trivial
    | returned b => trivial
    | gate item write => rw [hwr] at hok; exact hok
    | scanCount item write => rw [hwr] at hok; have := hok.2; omega
    | scan item write n i low => rw [hwr] at hok; have := hok.2.1; omega
    | scanned item write freshMin => rw [hwr] at hok; have := hok.2.1; omega
    | storeSlot item write => rw [hwr] at hok; exact ⟨hok.1, hahead⟩
    | storeCursor item write => rw [hwr] at hok; exact ⟨hok.1, hahead, hok.2.2⟩

/-- A step that only moves a reader on. -/
theorem RingInv.setReader (h : RingInv cap r) {id : Nat} {rd : Reader T} (hs₁ : s → r.slack)
    (hrd : ReaderOk { r with readers := Function.update r.readers id rd } id) :
    RingInv cap { r with readers := Function.update r.readers id rd, slack := s } where
  cursor := h.cursor
  read := h.read
  consumed := h.consumed
  unregistered := h.unregistered
  lag := h.lag
  cachedLe := h.cachedLe
  cached := h.cached
  cachedZero := h.cachedZero
  window := h.window
  slack := fun hs => h.slack (hs₁ hs)
  writer := h.writer.mono rfl rfl rfl rfl rfl (fun _ => Nat.le_refl _) hs₁
  reader := by
    intro id'
    by_cases hid : id' = id
    · subst hid
      exact hrd
    · exact (h.reader id').mono (Function.update_of_ne hid ..) rfl (Nat.le_refl _) List.prefix_rfl
  refused := h.refused

theorem RingInv.startConsume (h : RingInv cap r) {id : Nat} (hr : r.startConsume id = some r')
    (hs₁ : s → r.slack) : RingInv cap { r' with slack := s } := by
  unfold BroadcastRing.startConsume at hr
  split at hr
  case isFalse => exact absurd hr (by simp)
  rename_i hid
  have hr' : r' = { r with readers := Function.update r.readers id (.loaded (r.cursors id)) } := by
    split at hr
    all_goals first | (cases hr; rfl) | exact absurd hr (by simp)
  subst hr'
  refine h.setReader hs₁ ?_
  unfold ReaderOk
  dsimp only
  rw [Function.update_self]
  exact ⟨hid, rfl⟩

/-- The cursor moves past an item that was copied from its slot. -/
theorem RingInv.storeCursor_read (h : RingInv cap r) {id : Nat} {read : UInt64} {out : T}
    (hrd : r.readers id = .storeCursor read out) (hlen : r.published.length < 2 ^ 64)
    (hs₁ : s → r.slack) :
    RingInv cap { r with cursors := Function.update r.cursors id (read + 1)
                         readers := Function.update r.readers id (.returned (some out))
                         consumed := Function.update r.consumed id (r.consumed id ++ [out])
                         slack := s } := by
  have hok := h.reader id
  unfold ReaderOk at hok
  rw [hrd] at hok
  obtain ⟨hid, hread, hout⟩ := hok
  have hlt : read.toNat < r.published.length := (List.getElem?_eq_some_iff.mp hout).1
  have hnext : (read + 1).toNat = read.toNat + 1 := by
    rw [UInt64.toNat_add]
    exact Nat.mod_eq_of_lt (by show read.toNat + 1 < 2 ^ 64; omega)
  have hself : (Function.update r.cursors id (read + 1) id).toNat = (r.cursors id).toNat + 1 := by
    rw [Function.update_self, hnext, hread]
  have hother : ∀ id', id' ≠ id → Function.update r.cursors id (read + 1) id' = r.cursors id' :=
    fun id' hne => Function.update_of_ne hne ..
  have hmono : ∀ id', (r.cursors id').toNat
      ≤ (Function.update r.cursors id (read + 1) id').toNat := by
    intro id'
    by_cases hne : id' = id
    · rw [hne, hself]
      omega
    · exact Nat.le_of_eq (congrArg UInt64.toNat (hother id' hne).symm)
  have hread' : ∀ id' < r.consumerCount,
      (Function.update r.cursors id (read + 1) id').toNat ≤ r.published.length := by
    intro id' hid'
    by_cases hne : id' = id
    · rw [hne, hself, ← hread]
      omega
    · rw [hother id' hne]
      exact h.read id' hid'
  refine ⟨h.cursor, hread', ?_, ?_, ?_, h.cachedLe, ?_, h.cachedZero, h.window, ?_,
    h.writer.mono rfl rfl rfl rfl rfl hmono hs₁, ?_, h.refused⟩
  · intro id'
    dsimp only
    by_cases hne : id' = id
    · rw [hne, Function.update_self, hself, h.consumed id, ← hread,
        List.take_add_one, hout]
      rfl
    · rw [Function.update_of_ne hne, hother id' hne]
      exact h.consumed id'
  · intro id' hge
    have hge : r.consumerCount ≤ id' := hge
    rw [← h.unregistered id' hge]
    exact hother id' (by omega)
  · intro id' hid'
    exact Nat.le_trans (h.lag id' hid') (Nat.add_le_add_right (hmono id') _)
  · intro id' hid'
    exact Nat.le_trans (h.cached id' hid') (hmono id')
  · intro hs id' hid'
    exact Nat.lt_of_lt_of_le (h.slack (hs₁ hs) id' hid') (Nat.add_le_add_right (hmono id') _)
  · intro id'
    by_cases hne : id' = id
    · unfold ReaderOk
      dsimp only
      rw [hne, Function.update_self]
      trivial
    · exact (h.reader id').mono (Function.update_of_ne hne ..) (hother id' hne) (Nat.le_refl _)
        List.prefix_rfl

theorem RingInv.readStep (h : RingInv cap r) {id : Nat} (hr : r.readStep cap id = some r')
    (hlen : r'.published.length < 2 ^ 64) (hs₁ : s → r.slack) :
    RingInv cap { r' with slack := s } := by
  have hok := h.reader id
  unfold BroadcastRing.readStep at hr
  unfold ReaderOk at hok
  cases hrd : r.readers id with
  | idle => rw [hrd] at hr; exact absurd hr (by simp)
  | returned out => rw [hrd] at hr; exact absurd hr (by simp)
  | loaded read =>
      rw [hrd] at hr hok
      dsimp only at hr
      split at hr <;> cases hr
      · refine h.setReader hs₁ ?_
        unfold ReaderOk
        dsimp only
        rw [Function.update_self]
        trivial
      · rename_i hlt
        refine h.setReader hs₁ ?_
        unfold ReaderOk
        dsimp only
        rw [Function.update_self]
        refine ⟨hok.1, hok.2, ?_⟩
        have := mt UInt64.le_iff_toNat_le.mpr hlt
        rw [h.cursor] at this
        omega
  | copy read =>
      rw [hrd] at hr hok
      cases hr
      obtain ⟨hid, hread, hlt⟩ := hok
      refine h.setReader hs₁ ?_
      unfold ReaderOk
      dsimp only
      rw [Function.update_self]
      refine ⟨hid, hread, ?_⟩
      -- the writer has not come round to this slot again
      have hold := h.oldest_le hid
      have hitem := List.getElem?_eq_getElem hlt
      rw [hitem, slotOf_eq, h.window read.toNat _ (by rw [hread]; exact hold) hitem]
  | storeCursor read out =>
      rw [hrd] at hr
      cases hr
      exact h.storeCursor_read hrd hlen hs₁

end Reader

/-! ## Every run -/

/-- No action takes back an item. -/
theorem act_published {a : RingAction T} (hr : r.act cap maxConsumers a = some r') :
    r.published <+: r'.published := by
  cases a with
  | register =>
      dsimp only [BroadcastRing.act, BroadcastRing.register] at hr
      split at hr <;> cases hr
      exact List.prefix_rfl
  | publish item =>
      dsimp only [BroadcastRing.act, BroadcastRing.startPublish] at hr
      split at hr <;> cases hr <;> exact List.prefix_rfl
  | write =>
      dsimp only [BroadcastRing.act, BroadcastRing.writeStep] at hr
      split at hr
      case h_8 => cases hr; exact List.prefix_append _ _
      all_goals (try split at hr) <;> cases hr <;> exact List.prefix_rfl
  | consume id =>
      dsimp only [BroadcastRing.act, BroadcastRing.startConsume] at hr
      split at hr
      · split at hr <;> cases hr <;> exact List.prefix_rfl
      · cases hr
  | read id =>
      dsimp only [BroadcastRing.act, BroadcastRing.readStep] at hr
      split at hr
      all_goals (try split at hr) <;> cases hr <;> exact List.prefix_rfl

theorem step_eq_some {a : RingAction T} (hr : r.step cap maxConsumers a = some r') :
    ∃ t, r.act cap maxConsumers a = some t
      ∧ r' = { t with slack := r.slackBefore a && t.hasSlack cap } := by
  unfold BroadcastRing.step at hr
  obtain ⟨t, ht, he⟩ := Option.map_eq_some_iff.mp hr
  exact ⟨t, ht, he.symm⟩

theorem step_published {a : RingAction T} (hr : r.step cap maxConsumers a = some r') :
    r.published <+: r'.published := by
  obtain ⟨t, ht, rfl⟩ := step_eq_some hr
  have hprefix : r.published <+: t.published := act_published ht
  exact hprefix

theorem ringInv_step {a : RingAction T} (h : RingInv cap r)
    (hr : r.step cap maxConsumers a = some r') (hlen : r'.published.length < 2 ^ 64) :
    RingInv cap r' := by
  obtain ⟨t, ht, rfl⟩ := step_eq_some hr
  have hs₂ : (r.slackBefore a && t.hasSlack cap) = true → t.hasSlack cap :=
    fun hs => (Bool.and_eq_true_iff.mp hs).2
  have hs₁ : (r.slackBefore a && t.hasSlack cap) = true → r.slackBefore a :=
    fun hs => (Bool.and_eq_true_iff.mp hs).1
  cases a with
  | register => exact h.register ht
  | publish item => exact h.startPublish ht hs₂
  | write => exact h.writeStep ht hlen hs₁ hs₂
  | consume id => exact h.startConsume ht hs₁
  | read id => exact h.readStep ht hlen hs₁

theorem ringInv_exec (slots : Nat → T) (actions : List (RingAction T))
    (hrun : Machine.exec (BroadcastRing.step cap maxConsumers) (BroadcastRing.init slots) actions
      = some r) (hlen : r.published.length < 2 ^ 64) : RingInv cap r := by
  refine Machine.exec_preserves (I := fun r => r.published.length < 2 ^ 64 → RingInv cap r) ?_
    actions _ r (fun _ => ringInv_init slots) hrun hlen
  intro s a t hs ht hlen'
  exact ringInv_step (hs (Nat.lt_of_le_of_lt (step_published ht).length_le hlen')) ht hlen'

/-- What a broadcast ring promises, of one state of a run. -/
structure Delivers (cap : RingCapacity) (r : BroadcastRing T) : Prop where
  /-- A consumer's calls have returned the first items published, in order. -/
  inOrder : ∀ id < r.consumerCount, r.consumed id <+: r.published
  /-- An item whose slot is about to be used again has been returned to every consumer. -/
  notLapped : ∀ item write, r.writer = .storeSlot item write →
    ∀ n < r.published.length, n % cap.size = slotOf cap write →
      ∀ id < r.consumerCount, n < (r.consumed id).length
  /-- No call was refused while every consumer had fewer than `Capacity` items to read
  all through it. -/
  notRefused : ∀ b ∈ r.refusals, b = false

/-- The writer uses a slot again only when every consumer is done with it. -/
theorem RingInv.not_lapped (h : RingInv cap r) {item : T} {write : UInt64}
    (hwr : r.writer = .storeSlot item write) {n : Nat} (hn : n < r.published.length)
    (hslot : n % cap.size = slotOf cap write) {id : Nat} (hid : id < r.consumerCount) :
    n < (r.consumed id).length := by
  have hok := h.writer
  unfold WriterOk at hok
  rw [hwr] at hok
  have hahead := hok.2 id hid
  rw [h.consumed_length hid]
  by_contra hge
  rw [slotOf_eq, hok.1, h.cursor] at hslot
  exact Circular.mod_ne_of_lt hn (by omega) hslot

/-- **The broadcast ring delivers exactly once and in order** to every consumer, in every
interleaving of the writer's and the readers' memory accesses. -/
theorem broadcastRing_delivers (cap : RingCapacity) (maxConsumers : Nat) (slots : Nat → T)
    (actions : List (RingAction T)) (r : BroadcastRing T)
    (hrun : Machine.exec (BroadcastRing.step cap maxConsumers) (BroadcastRing.init slots) actions
      = some r) (hlen : r.published.length < 2 ^ 64) : Delivers cap r := by
  have h := ringInv_exec slots actions hrun hlen
  refine ⟨fun id _ => ?_, fun item write hwr n hn hslot id hid => h.not_lapped hwr hn hslot hid,
    h.refused⟩
  rw [h.consumed id]
  exact List.take_prefix _ _

/-- A ring of one slot: an item published and read, a refused call, and a scan that is
overtaken by the consumer it waits for. -/
theorem broadcastRing_delivers_one_slot :
    let cap : RingCapacity := ⟨0, by decide⟩
    let actions : List (RingAction Nat) :=
      [.register, .publish 7, .write, .write, .write,
       .publish 8, .write, .write, .write, .write, .write,
       .publish 8, .write, .write, .consume 0, .read 0, .read 0, .read 0, .write, .write, .write,
       .write, .write, .consume 0]
    ∃ r, Machine.exec (BroadcastRing.step cap 8) (BroadcastRing.init fun _ => 0) actions = some r
      ∧ r.published = [7, 8] ∧ r.consumed 0 = [7] ∧ r.refusals = [false] ∧ Delivers cap r := by
  intro cap actions
  have heval : ((Machine.exec (BroadcastRing.step cap 8)
      (BroadcastRing.init fun _ => 0) actions).map
      fun r => (r.published, r.consumed 0, r.refusals)) = some ([7, 8], [7], [false]) := by
    decide +kernel
  obtain ⟨r, hr, heval⟩ := Option.map_eq_some_iff.mp heval
  rw [Prod.mk.injEq, Prod.mk.injEq] at heval
  refine ⟨r, hr, heval.1, heval.2.1, heval.2.2,
    broadcastRing_delivers cap 8 (fun _ => 0) actions r hr ?_⟩
  rw [heval.1]
  decide

end HftLob.Ring

import HftLob.Lib.Jumps
import HftLob.Desk.Udp

/-!
# The subscriber's count of dropped packets

`engine_subscriber` takes `expected_id` from every datagram, late and repeated ones
included, and adds up how far ids run ahead of it. Ids that come in order are counted
exactly. A datagram that comes late or again sets `expected_id` back, and the ids between
it and the next one are counted although they came, or once more.
-/

namespace HftLob.Desk

open HftLob.Book HftLob.Lib HftLob.Lib.Jumps

variable {pool : PoolCapacity}

/-- `expected_id = w.id + 1`. -/
def nextId (id : Nat) : Nat := (id + 1) % 2 ^ 64

/-- The ids that arrive, in the order of arrival. -/
def arrivedIds (arrivals : List Order) : List Nat := arrivals.map (fun o => o.id.toNat)

theorem nextId_le {m c : Nat} (h : m < c) : nextId m ≤ c :=
  Nat.le_trans (Nat.mod_le _ _) h

/-! ## What the loop adds up -/

theorem handle_expectedId (s : Subscriber pool) (w : WireOrder) (recvNs : Nanos) :
    (s.handle w recvNs).expectedId.toNat = nextId w.id.toNat := UInt64.toNat_add w.id 1

theorem handle_dropped (s : Subscriber pool) (w : WireOrder) (recvNs : Nanos) :
    (s.handle w recvNs).dropped.toNat
      = (s.dropped.toNat + (w.id.toNat - s.expectedId.toNat)) % 2 ^ 64 := by
  have hsame : s.dropped.toNat % 2 ^ 64 = s.dropped.toNat := Nat.mod_eq_of_lt s.dropped.toNat_lt
  show (if w.id ≠ s.expectedId then
    s.dropped + (if w.id > s.expectedId then w.id - s.expectedId else 0) else s.dropped).toNat = _
  by_cases hgt : w.id > s.expectedId
  · have hne : w.id ≠ s.expectedId := fun he => UInt64.lt_irrefl _ (he ▸ hgt)
    rw [if_pos hne, if_pos hgt, UInt64.toNat_add, UInt64.toNat_sub_of_le _ _ (UInt64.le_of_lt hgt)]
  · -- not ahead: nothing is added
    have hle : w.id.toNat ≤ s.expectedId.toNat :=
      Nat.le_of_not_lt fun hlt => hgt (UInt64.lt_iff_toNat_lt.mpr hlt)
    rw [if_neg hgt, UInt64.add_zero, ite_self, Nat.sub_eq_zero_of_le hle, Nat.add_zero, hsame]

/-- **Every jump is counted**, modulo the width of the counter. -/
theorem handleAll_dropped (s : Subscriber pool) (orders : List (Order × Nanos)) :
    (s.handleAll orders).dropped.toNat
      = (s.dropped.toNat + total nextId s.expectedId.toNat (arrivedIds (orders.map Prod.fst)))
        % 2 ^ 64 := by
  induction orders generalizing s with
  | nil => exact (Nat.mod_eq_of_lt s.dropped.toNat_lt).symm
  | cons o orders ih =>
      have hid : (toWire o.1).id = o.1.id := rfl
      have hrest := ih (s.handle (toWire o.1) o.2)
      rw [handle_expectedId, handle_dropped, Nat.mod_add_mod, Nat.add_assoc, hid] at hrest
      exact hrest

/-! ## What the count is worth -/

theorem largest_lt (arrivals : List Order) : largest (arrivedIds arrivals) < 2 ^ 64 := by
  by_contra hge
  have hlast : 2 ^ 64 - 1 < largest (arrivedIds arrivals) := by omega
  obtain ⟨m, hm, hlt⟩ := exists_gt_of_lt_largest hlast
  obtain ⟨o, _, rfl⟩ := List.mem_map.mp hm
  have := o.id.toNat_lt
  omega

/-- What UDP can make of the datagrams sent: any of them, in any order and any number of
times, the end marker last. -/
structure Delivered (events arrivals : List Order) (received : List Received) : Prop where
  sent : ∀ o ∈ arrivals, o ∈ events
  datagrams : received.map Prod.fst = (publish arrivals).map some

theorem Delivered.dropped {events arrivals : List Order} {received : List Received}
    (h : Delivered events arrivals received) (hfeed : FeedList events) :
    ((Subscriber.init pool).receive received).dropped.toNat
      = ((lost 1 (arrivedIds arrivals)).card + surplus nextId 1 (arrivedIds arrivals))
        % 2 ^ 64 := by
  obtain ⟨times, hlen, hall⟩ := receive_publish (Subscriber.init pool)
    (fun o ho => hfeed.id_ne_zero o (h.sent o ho)) (fun o ho => hfeed.prices o (h.sent o ho))
    h.datagrams
  have hcount := handleAll_dropped (Subscriber.init pool) (arrivals.zip times)
  rw [List.map_fst_zip (Nat.le_of_eq hlen.symm)] at hcount
  rw [← total_eq_lost_add_surplus (fun m c hlt => nextId_le hlt), hall]
  exact hcount.trans (congrArg (· % 2 ^ 64) (Nat.zero_add _))

theorem FeedList.id_range {events : List Order} (hfeed : FeedList events) {o : Order}
    (ho : o ∈ events) : 1 ≤ o.id.toNat ∧ o.id.toNat ≤ events.length := by
  have hin : o.id ∈ events.map Order.id := List.mem_map_of_mem ho
  rw [hfeed.ids] at hin
  obtain ⟨i, hi, hid⟩ := List.mem_map.mp hin
  have hi := List.mem_range.mp hi
  have hfits := hfeed.fits
  rw [← hid, UInt64.toNat_ofNat', Nat.mod_eq_of_lt (by omega)]
  omega

/-- **Without reordering the count is exact**, whatever is lost or repeated. -/
theorem dropped_exact_in_order {events arrivals : List Order} {received : List Received}
    (h : Delivered events arrivals received) (hfeed : FeedList events)
    (hshort : events.length < 2 ^ 64 - 1) (horder : (arrivedIds arrivals).Pairwise (· ≤ ·)) :
    ((Subscriber.init pool).receive received).dropped.toNat
      = (lost 1 (arrivedIds arrivals)).card := by
  have hrange : ∀ m ∈ arrivedIds arrivals, 1 ≤ m ∧ m ≤ events.length := by
    intro m hm
    obtain ⟨o, ho, rfl⟩ := List.mem_map.mp hm
    exact hfeed.id_range (h.sent o ho)
  have hnext : ∀ m ∈ arrivedIds arrivals, nextId m = m + 1 := by
    intro m hm
    have := hrange m hm
    exact Nat.mod_eq_of_lt (by omega)
  have hlost := lost_card_le 1 (arrivedIds arrivals)
  have hlargest := largest_lt arrivals
  rw [h.dropped hfeed, surplus_of_sorted 1 hnext horder fun m hm => (hrange m hm).1, Nat.add_zero,
    Nat.mod_eq_of_lt (by omega)]

/--
**When the drop count is exact.**

Whatever is lost, repeated or reordered, the subscriber reports the number of ids below the
largest received that never arrived exactly if the surplus of its jumps vanishes in the
counter: jumps over ids that do arrive, and second and further jumps over lost ones.
-/
theorem dropped_exact_iff_no_surplus (pool : PoolCapacity) (events arrivals : List Order)
    (received : List Received) (hfeed : FeedList events)
    (hdelivered : Delivered events arrivals received) :
    ((Subscriber.init pool).receive received).dropped.toNat
        = (lost 1 (arrivedIds arrivals)).card
      ↔ 2 ^ 64 ∣ surplus nextId 1 (arrivedIds arrivals) := by
  have hlost : (lost 1 (arrivedIds arrivals)).card < 2 ^ 64 :=
    Nat.lt_of_le_of_lt (lost_card_le 1 _) (largest_lt arrivals)
  rw [hdelivered.dropped hfeed]
  generalize (lost 1 (arrivedIds arrivals)).card = lostIds at hlost
  generalize surplus nextId 1 (arrivedIds arrivals) = extra
  omega

/-- Three events of which the second is lost and the last comes twice. -/
theorem dropped_exact_one_lost :
    let pool : PoolCapacity := ⟨4, by decide⟩
    let a : Order := ⟨1, .buy, 100, 5, 0⟩
    let b : Order := ⟨2, .sell, 107, 3, 0⟩
    let c : Order := ⟨3, .buy, 99, 4, 0⟩
    let received : List Received := [(some (toWire a).bytes, 3), (some (toWire c).bytes, 8),
      (some (toWire c).bytes, 9), (some endMarker.bytes, 12)]
    FeedList [a, b, c] ∧ Delivered [a, b, c] [a, c, c] received
      ∧ (lost 1 (arrivedIds [a, c, c])).card = 1
      ∧ ((Subscriber.init pool).receive received).dropped.toNat = 1 := by
  intro pool a b c received
  have hfeed : FeedList [a, b, c] := ⟨by decide, by decide, by decide⟩
  have hdelivered : Delivered [a, b, c] [a, c, c] received := ⟨by decide, rfl⟩
  have hnone : 2 ^ 64 ∣ surplus nextId 1 (arrivedIds [a, c, c]) := by decide
  have hlost : (lost 1 (arrivedIds [a, c, c])).card = 1 := by decide
  have hexact := (dropped_exact_iff_no_surplus pool [a, b, c] [a, c, c] received hfeed
    hdelivered).mpr hnone
  exact ⟨hfeed, hdelivered, hlost, hexact.trans hlost⟩

/-- Two events that change places: nothing is lost, and one packet is reported dropped. -/
theorem reordered_pair_reported_dropped :
    let pool : PoolCapacity := ⟨4, by decide⟩
    let a : Order := ⟨1, .buy, 100, 5, 0⟩
    let b : Order := ⟨2, .sell, 107, 3, 0⟩
    let received : List Received := [(some (toWire b).bytes, 3), (some (toWire a).bytes, 8),
      (some endMarker.bytes, 9)]
    FeedList [a, b] ∧ Delivered [a, b] [b, a] received
      ∧ ((Subscriber.init pool).receive received).dropped = 1
      ∧ (lost 1 (arrivedIds [b, a])).card = 0 :=
  ⟨⟨by decide, by decide, by decide⟩, ⟨by decide, rfl⟩, by decide +kernel, by decide⟩

end HftLob.Desk

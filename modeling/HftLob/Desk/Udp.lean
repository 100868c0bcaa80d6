import HftLob.Lib.Bytes
import HftLob.Desk.Harness

/-!
# The feed over the network

`feed_publisher` sends each event as the memory of a packed `WireOrder`, and one with id 0
at the end; `engine_subscriber` reads datagrams into such a struct and runs the same body
over them as the engine thread of `hft_lob`, at the times it receives them.
-/

namespace HftLob.Desk

open HftLob.Book HftLob.Lib HftLob.Lib.Bytes HftLob.Ring

/-! ## The wire format -/

structure WireOrder where
  id : UInt64
  side : UInt8
  price : Price
  qty : UInt32
  tsNs : UInt64

/-- `sizeof(WireOrder)`. -/
def wireOrderSize : Nat := 29

namespace WireOrder

/-- The memory of the struct; the price in two's complement. -/
def bytes (w : WireOrder) : List UInt8 :=
  leBytes 8 w.id.toNat ++ [w.side] ++ leBytes 8 (w.price % 2 ^ 64).toNat
    ++ leBytes 4 w.qty.toNat ++ leBytes 8 w.tsNs.toNat

/-- What `recv` into the struct makes of it. -/
def read (bytes : List UInt8) : WireOrder where
  id := UInt64.ofNat (field 0 8 bytes)
  side := UInt8.ofNat (field 8 1 bytes)
  price := int64 (field 9 8 bytes)
  qty := UInt32.ofNat (field 17 4 bytes)
  tsNs := UInt64.ofNat (field 21 8 bytes)

end WireOrder

def toWire (o : Order) : WireOrder where
  id := o.id
  side := match o.side with
    | .buy => 0
    | .sell => 1
  price := o.price
  qty := o.qty
  tsNs := o.tsNs

def fromWire (w : WireOrder) : Order where
  id := w.id
  side := if w.side = 0 then .buy else .sell
  price := w.price
  qty := w.qty
  tsNs := w.tsNs

/-- `WireOrder end_marker{}`. -/
def endMarker : WireOrder := ⟨0, 0, 0, 0, 0⟩

/-! ## The two processes -/

/-- The datagrams of `feed_publisher`. -/
def publish (events : List Order) : List (List UInt8) :=
  events.map (fun o => (toWire o).bytes) ++ [endMarker.bytes]

structure Subscriber (pool : PoolCapacity) where
  desk : TickEngine pool
  expectedId : UInt64
  dropped : UInt64
  /-- The loop has been left. -/
  ended : Bool

/-- What a call of `recv` gives, and the time read after it: `none` is an error. -/
abbrev Received := Option (List UInt8) × Nanos

namespace Subscriber

variable {pool : PoolCapacity}

def init (pool : PoolCapacity) : Subscriber pool where
  desk := TickEngine.init pool
  expectedId := 1
  dropped := 0
  ended := false

/-- A datagram that holds an order. -/
def handle (s : Subscriber pool) (w : WireOrder) (recvNs : Nanos) : Subscriber pool where
  desk := s.desk.process (fromWire w) recvNs
  expectedId := w.id + 1
  dropped :=
    if w.id ≠ s.expectedId then s.dropped + (if w.id > s.expectedId then w.id - s.expectedId else 0)
    else s.dropped
  ended := false

/-- The receive loop. The kernel cuts a datagram to the size of the struct. -/
def receive (s : Subscriber pool) : List Received → Subscriber pool
  | [] => s
  | (none, _) :: _ => { s with ended := true }
  | (some datagram, recvNs) :: rest =>
      if (datagram.take wireOrderSize).length ≠ wireOrderSize then s.receive rest
      else if (WireOrder.read datagram).id = 0 then { s with ended := true }
      else (s.handle (WireOrder.read datagram) recvNs).receive rest

end Subscriber

/-! ## What arrives is what was sent -/

theorem length_bytes (w : WireOrder) : w.bytes.length = wireOrderSize := by
  simp [WireOrder.bytes, wireOrderSize]

/-- Every member is at its offset. -/
theorem field_bytes (w : WireOrder) :
    field 0 8 w.bytes = leValue (leBytes 8 w.id.toNat)
      ∧ field 8 1 w.bytes = leValue [w.side]
      ∧ field 9 8 w.bytes = leValue (leBytes 8 (w.price % 2 ^ 64).toNat)
      ∧ field 17 4 w.bytes = leValue (leBytes 4 w.qty.toNat)
      ∧ field 21 8 w.bytes = leValue (leBytes 8 w.tsNs.toNat) := by
  simp only [field, WireOrder.bytes, leBytes, List.cons_append, List.nil_append,
    List.drop_succ_cons, List.drop_zero, List.take_succ_cons, List.take_zero, and_self]

/-- A price survives its two's complement. -/
theorem int64_leValue {x : Price} (hlo : -2 ^ 63 ≤ x) (hhi : x < 2 ^ 63) :
    int64 (leValue (leBytes 8 (x % 2 ^ 64).toNat)) = x := by
  have hnonneg : 0 ≤ x % 2 ^ 64 := Int.emod_nonneg x (by decide)
  have hlt : x % 2 ^ 64 < 2 ^ 64 := Int.emod_lt_of_pos x (by decide)
  have hword : (x % 2 ^ 64).toNat < 256 ^ 8 := by omega
  rw [leValue_leBytes, Nat.mod_eq_of_lt hword, Int.toNat_of_nonneg hnonneg]
  unfold int64
  have hmod : (x % ((2 ^ 64 : Nat) : Int)).bmod (2 ^ 64) = x.bmod (2 ^ 64) := Int.emod_bmod x _
  exact hmod.trans (int64_of_range hlo hhi)

theorem read_bytes {w : WireOrder} (hlo : -2 ^ 63 ≤ w.price) (hhi : w.price < 2 ^ 63) :
    WireOrder.read w.bytes = w := by
  obtain ⟨hid, hside, hprice, hqty, hts⟩ := field_bytes w
  unfold WireOrder.read
  rw [hid, hside, hprice, hqty, hts, ofNat_leValue_64, ofNat_leValue_64, ofNat_leValue_32,
    ofNat_leValue_8, int64_leValue hlo hhi]

theorem fromWire_toWire (o : Order) : fromWire (toWire o) = o := by
  obtain ⟨id, side, price, qty, tsNs⟩ := o
  cases side <;> rfl

/-! ## The subscriber -/

/-- A feed list as `MarketDataFeed` makes it: ids from one on, prices of 64 bits. -/
structure FeedList (events : List Order) : Prop where
  ids : events.map Order.id = (List.range events.length).map (fun i => UInt64.ofNat (i + 1))
  fits : events.length < 2 ^ 64
  prices : ∀ o ∈ events, -2 ^ 63 ≤ o.price ∧ o.price < 2 ^ 63

theorem FeedList.id_ne_zero {events : List Order} (hfeed : FeedList events) :
    ∀ o ∈ events, o.id ≠ 0 := by
  intro o ho hzero
  have hin : o.id ∈ events.map Order.id := List.mem_map_of_mem ho
  have hfits := hfeed.fits
  rw [hfeed.ids] at hin
  obtain ⟨i, hi, hid⟩ := List.mem_map.mp hin
  have hi := List.mem_range.mp hi
  have hnat : (UInt64.ofNat (i + 1)).toNat = 0 := by rw [hid, hzero]; rfl
  rw [UInt64.toNat_ofNat', Nat.mod_eq_of_lt (by omega)] at hnat
  omega

variable {pool : PoolCapacity}

/-- One datagram of the publisher is one order for the desk. -/
theorem receive_order (s : Subscriber pool) {o : Order} (hid : o.id ≠ 0)
    (hprice : -2 ^ 63 ≤ o.price ∧ o.price < 2 ^ 63) (recvNs : Nanos) (rest : List Received) :
    s.receive ((some (toWire o).bytes, recvNs) :: rest)
      = (s.handle (toWire o) recvNs).receive rest := by
  have hread : WireOrder.read (toWire o).bytes = toWire o := read_bytes hprice.1 hprice.2
  have hlen : ((toWire o).bytes.take wireOrderSize).length = wireOrderSize := by
    rw [List.length_take, length_bytes, Nat.min_self]
  rw [Subscriber.receive, if_neg (not_not_intro hlen), hread,
    if_neg (show (toWire o).id ≠ 0 from hid)]

theorem receive_marker (s : Subscriber pool) (recvNs : Nanos) (rest : List Received) :
    s.receive ((some endMarker.bytes, recvNs) :: rest) = { s with ended := true } := rfl

/-- The orders of datagrams in turn, each with its time. -/
def Subscriber.handleAll (s : Subscriber pool) (orders : List (Order × Nanos)) : Subscriber pool :=
  orders.foldl (fun s o => s.handle (toWire o.1) o.2) s

/-- **The loop handles every order published** and leaves at the end marker. -/
theorem receive_publish (s : Subscriber pool) {events : List Order} (hids : ∀ o ∈ events, o.id ≠ 0)
    (hprices : ∀ o ∈ events, -2 ^ 63 ≤ o.price ∧ o.price < 2 ^ 63) {received : List Received}
    (hreceived : received.map Prod.fst = (publish events).map some) :
    ∃ times : List Nanos, times.length = events.length
      ∧ s.receive received = { s.handleAll (events.zip times) with ended := true } := by
  induction events generalizing s received with
  | nil =>
      cases received with
      | nil => exact absurd hreceived (by simp [publish])
      | cons r received =>
          obtain ⟨datagram, recvNs⟩ := r
          have hhead : datagram = some endMarker.bytes := (List.cons.inj hreceived).1
          rw [hhead, receive_marker]
          exact ⟨[], rfl, rfl⟩
  | cons o events ih =>
      cases received with
      | nil => exact absurd hreceived (by simp [publish])
      | cons r received =>
          obtain ⟨datagram, recvNs⟩ := r
          obtain ⟨hhead, htail⟩ := List.cons.inj hreceived
          have hhead : datagram = some (toWire o).bytes := hhead
          rw [hhead, receive_order s (hids o (by simp)) (hprices o (by simp))]
          obtain ⟨times, hlen, hrest⟩ := ih (s.handle (toWire o) recvNs)
            (fun p hp => hids p (List.mem_cons_of_mem o hp))
            (fun p hp => hprices p (List.mem_cons_of_mem o hp)) htail
          exact ⟨recvNs :: times, by rw [List.length_cons, List.length_cons, hlen], hrest⟩

/-- **The subscriber runs the desk over the orders.** -/
theorem handleAll_desk (s : Subscriber pool) (orders : List (Order × Nanos)) :
    (s.handleAll orders).desk = s.desk.processAll orders := by
  induction orders generalizing s with
  | nil => rfl
  | cons o orders ih =>
      have hone : (s.handle (toWire o.1) o.2).desk = s.desk.process o.1 o.2 := by
        rw [Subscriber.handle, fromWire_toWire]
      calc (s.handleAll (o :: orders)).desk
          = (s.handle (toWire o.1) o.2).desk.processAll orders := ih _
        _ = s.desk.processAll (o :: orders) := by rw [hone]; rfl

/-! ## The two engines -/

/-- What the two programs report and leave, timestamps apart. -/
structure SameOutcome (e e' : TickEngine pool) : Prop where
  processed : e.processed = e'.processed
  tradeCount : e.tradeCount = e'.tradeCount
  trades : e.trades.map untimedTrade = e'.trades.map untimedTrade
  book : e.book.view = e'.book.view

theorem SameOutcome.of_untimed {e e' : TickEngine pool} (h : e.untimed = e'.untimed) :
    SameOutcome e e' := by
  have hprocessed : e.untimed.processed = e'.untimed.processed := by rw [h]
  have hcount : e.untimed.tradeCount = e'.untimed.tradeCount := by rw [h]
  have htrades : e.untimed.trades = e'.untimed.trades := by rw [h]
  have hbook : e.untimed.book = e'.untimed.book := by rw [h]
  refine ⟨hprocessed, hcount, htrades, ?_⟩
  calc e.book.view = e.untimed.book.view := (OrderBook.view_untimed e.book).symm
    _ = e'.untimed.book.view := by rw [hbook]
    _ = e'.book.view := OrderBook.view_untimed e'.book

/--
**The UDP engine and the in-process engine agree.**

When every datagram arrives once and in order, the subscriber ends, and whatever times
either program reads, it has processed as many orders, made the same trades and keeps
the same book as the engine thread of the harness has when that has ended.
-/
theorem udp_engine_agrees (pool : PoolCapacity) (cap : RingCapacity) (buffer : Nat → Order)
    (events : List Order) (hfeed : FeedList events) (received : List Received)
    (hreceived : received.map Prod.fst = (publish events).map some)
    (actions : List HarnessAction) (h : Harness pool)
    (hrun : Machine.exec (Harness.step cap) (Harness.init pool buffer events) actions = some h)
    (hexit : h.engine = .exited) :
    ((Subscriber.init pool).receive received).ended = true
      ∧ SameOutcome ((Subscriber.init pool).receive received).desk h.desk := by
  obtain ⟨times, hlen, hall⟩ := receive_publish (Subscriber.init pool)
    hfeed.id_ne_zero hfeed.prices hreceived
  have hdesk : ((Subscriber.init pool).receive received).desk
      = (TickEngine.init pool).processAll (events.zip times) := by
    rw [hall]
    exact handleAll_desk _ _
  obtain ⟨hpopped, hprocessed⟩ := (harnessInv_exec hrun).exited hexit
  -- with the times forgotten both have processed the events of the feed
  have hzip : (events.zip times).map (fun o => untimedOrder o.1) = events.map untimedOrder := by
    have hfst := List.map_fst_zip (Nat.le_of_eq hlen.symm)
    rw [← hfst, List.map_map, hfst]
    rfl
  have hfeed' : (h.ring.popped.map fun o => (o, o.tsNs)).map (fun o => untimedOrder o.1)
      = events.map untimedOrder := by
    rw [List.map_map]
    exact hpopped
  refine ⟨by rw [hall], .of_untimed ?_⟩
  rw [hdesk, hprocessed, TickEngine.processAll_untimed, TickEngine.processAll_untimed, hzip, hfeed']

/-- Two events that trade with each other, at different times in the two programs. -/
theorem udp_engine_agrees_on_two :
    let pool : PoolCapacity := ⟨4, by decide⟩
    let cap : RingCapacity := ⟨1, by decide⟩
    let events : List Order := [⟨1, .buy, 100, 5, 0⟩, ⟨2, .sell, -7, 3, 0⟩]
    let received : List Received := [(some (toWire ⟨1, .buy, 100, 5, 0⟩).bytes, 3),
      (some (toWire ⟨2, .sell, -7, 3, 0⟩).bytes, 8), (some endMarker.bytes, 9)]
    let actions := List.replicate 8 (HarnessAction.feed 7) ++ List.replicate 5 (.engine false)
      ++ List.replicate 5 (.feed 9) ++ List.replicate 10 (.engine true)
    ∃ h, Machine.exec (Harness.step cap) (Harness.init pool (fun _ => default) events) actions
        = some h ∧ h.engine = .exited
      ∧ ((Subscriber.init pool).receive received).ended = true
      ∧ SameOutcome ((Subscriber.init pool).receive received).desk h.desk := by
  intro pool cap events received actions
  have hexits : (Machine.exec (Harness.step cap) (Harness.init pool (fun _ => default) events)
      actions).map Harness.engine = some .exited := by decide +kernel
  obtain ⟨h, hrun, hexit⟩ := Option.map_eq_some_iff.mp hexits
  exact ⟨h, hrun, hexit, udp_engine_agrees pool cap _ events ⟨by decide, by decide, by decide⟩
    received rfl actions h hrun hexit⟩

end HftLob.Desk

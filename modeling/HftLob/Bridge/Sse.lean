import Mathlib.Data.Fintype.Option
import HftLob.Bridge.Blotter

/-!
# Live updates to browsers

`GatewayLink` keeps the orders as dicts that are changed in place, and tells every browser
about a change with a copy: under the lock the order is changed, under the lock again the set
of subscribers is copied, and then the copy of the order is put into one queue after the other.
A browser that connects gets a snapshot first. Its handler thread lists the dicts under the
lock, writes them out without it, and subscribes only then.

Each of these is a step here, for any number of threads that submit orders (`τ`) and of
browsers (`κ`); the reader thread handles one report after the other. Which reports come in
when is left open. The text of a snapshot is made in one step, from the dicts as they are then;
the subscribers are listed in the order in which they came.
-/

namespace HftLob.Bridge

open HftLob.Book HftLob.Gateway

/-- Where a thread is with an order that it has to broadcast. -/
inductive Phase (κ : Type) where
  | idle
  /-- `submit_new_order` has its number and its packed body. -/
  | drawn (order : NewOrderMsg)
  /-- The dict at this address is in `orders`. -/
  | entered (ref : Nat)
  /-- The order is copied, `_broadcast` begins. -/
  | copied (order : BlotterOrder)
  /-- The copy is put into the queues of these subscribers. -/
  | putting (order : BlotterOrder) (rest : List κ)

/-- Where the handler thread of a browser is, with what the browser has got. -/
inductive Client where
  | waiting
  /-- The dicts are listed, by client order id. -/
  | snapped (refs : UInt64 → Option Nat)
  /-- The snapshot is written. -/
  | written (base : UInt64 → Option BlotterOrder)
  /-- The queue has had these updates so far. -/
  | subscribed (base : UInt64 → Option BlotterOrder) (updates : List BlotterOrder)
  | gone

structure Sse (τ κ : Type) where
  /-- The order dicts, by address. -/
  heap : List BlotterOrder
  orders : UInt64 → Option Nat
  orderCounter : Nat
  /-- The threads in `submit_new_order`, and for `none` the reader thread. -/
  threads : Option τ → Phase κ
  subscribers : List κ
  clients : κ → Client

inductive SseAction (τ κ : Type) where
  | draw (t : τ) (side : Side) (price quantity : Int)
  | enter (t : τ) (now : Int)
  /-- `_handle` of an execution report, up to where it lets go of the lock. -/
  | report (report : ExecutionReportMsg) (now : Int)
  /-- The next step of a broadcast. -/
  | advance (t : Option τ)
  | snapshot (k : κ)
  | write (k : κ)
  | subscribe (k : κ)
  /-- The connection breaks. -/
  | leave (k : κ)

/-- What a browser shows that starts with `base` and gets these updates. -/
def applyUpdates (base : UInt64 → Option BlotterOrder) (updates : List BlotterOrder) :
    UInt64 → Option BlotterOrder :=
  updates.foldl (fun view order => Function.update view order.clientOrderId (some order)) base

/-- A message for the queue of a browser. -/
def Client.put (order : BlotterOrder) : Client → Client
  | subscribed base updates => subscribed base (updates ++ [order])
  | client => client

namespace Sse

variable {τ κ : Type} [DecidableEq τ] [DecidableEq κ]

def init : Sse τ κ := ⟨[], fun _ => none, 0, fun _ => .idle, [], fun _ => .waiting⟩

/-- `link.orders`: the order with this id as it is now. -/
def shown (s : Sse τ κ) (c : UInt64) : Option BlotterOrder := (s.orders c).bind (s.heap[·]?)

def setThread (s : Sse τ κ) (t : Option τ) (phase : Phase κ) : Sse τ κ :=
  { s with threads := Function.update s.threads t phase }

def setClient (s : Sse τ κ) (k : κ) (client : Client) : Sse τ κ :=
  { s with clients := Function.update s.clients k client }

omit [DecidableEq κ] in
theorem setThread_self (s : Sse τ κ) (t : Option τ) (phase : Phase κ) :
    (s.setThread t phase).threads t = phase := Function.update_self ..

omit [DecidableEq κ] in
theorem setThread_of_ne (s : Sse τ κ) {t t' : Option τ} (h : t' ≠ t) (phase : Phase κ) :
    (s.setThread t phase).threads t' = s.threads t' := Function.update_of_ne h ..

omit [DecidableEq τ] in
theorem setClient_self (s : Sse τ κ) (k : κ) (client : Client) :
    (s.setClient k client).clients k = client := Function.update_self ..

omit [DecidableEq τ] in
theorem setClient_of_ne (s : Sse τ κ) {k k' : κ} (h : k' ≠ k) (client : Client) :
    (s.setClient k client).clients k' = s.clients k' := Function.update_of_ne h ..

/-- An order dict that is not in `orders` yet. -/
def insert (s : Sse τ κ) (c : UInt64) (order : BlotterOrder) : Sse τ κ :=
  { s with heap := s.heap ++ [order], orders := Function.update s.orders c (some s.heap.length) }

/-- `_handle` under the lock: change the dict, or make one. -/
def handle (s : Sse τ κ) (report : ExecutionReportMsg) (now : Int) : Sse τ κ :=
  let order := handleReport (s.shown report.clientOrderId) report now
  match s.orders report.clientOrderId with
  | some ref => { s with heap := s.heap.set ref order }
  | none => s.insert report.clientOrderId order

def step (s : Sse τ κ) : SseAction τ κ → Option (Sse τ κ)
  | .draw t side price quantity =>
      match s.threads (some t) with
      | .idle =>
          let s' := { s with orderCounter := s.orderCounter + 1 }
          match drawOrder (s.orderCounter + 1) side price quantity with
          | none => some s'
          | some order => some (s'.setThread (some t) (.drawn order))
      | _ => none
  | .enter t now =>
      match s.threads (some t) with
      | .drawn order =>
          some ((s.insert order.clientOrderId (submittedOrder order now)).setThread (some t)
            (.entered s.heap.length))
      | _ => none
  | .report report now =>
      match s.threads none with
      | .idle =>
          let order := handleReport (s.shown report.clientOrderId) report now
          some ((s.handle report now).setThread none (.copied order))
      | _ => none
  | .advance t =>
      match s.threads t with
      | .entered ref => (s.heap[ref]?).map fun order => s.setThread t (.copied order)
      | .copied order => some (s.setThread t (.putting order s.subscribers))
      | .putting order (k :: rest) =>
          some ((s.setClient k ((s.clients k).put order)).setThread t (.putting order rest))
      | .putting _ [] => some (s.setThread t .idle)
      | _ => none
  | .snapshot k =>
      match s.clients k with
      | .waiting => some (s.setClient k (.snapped s.orders))
      | _ => none
  | .write k =>
      match s.clients k with
      | .snapped refs => some (s.setClient k (.written fun c => (refs c).bind (s.heap[·]?)))
      | _ => none
  | .subscribe k =>
      match s.clients k with
      | .written base =>
          some ({ s with subscribers := s.subscribers ++ [k] }.setClient k (.subscribed base []))
      | _ => none
  | .leave k => some
      ({ s with subscribers := s.subscribers.filter (· ≠ k) }.setClient k .gone)

end Sse

/-! ## Snapshots that miss nothing -/

/-- The order that a thread is about to tell the browsers about. -/
def Phase.order {κ : Type} (heap : List BlotterOrder) : Phase κ → Option BlotterOrder
  | entered ref => heap[ref]?
  | copied order | putting order _ => some order
  | idle | drawn _ => none

/-- What the browser shows, once its snapshot is written and its queue is read. -/
def Client.view (heap : List BlotterOrder) : Client → UInt64 → Option BlotterOrder
  | snapped refs => fun c => (refs c).bind (heap[·]?)
  | written base => base
  | subscribed base updates => applyUpdates base updates
  | waiting | gone => fun _ => none

/-- The browser is between its snapshot and its subscription. -/
def Client.joining : Client → Bool
  | snapped _ | written _ => true
  | waiting | subscribed _ _ | gone => false

/-- The order whose broadcast copies the subscribers next. -/
def Phase.announced {κ : Type} : Phase κ → Option BlotterOrder
  | copied order => some order
  | idle | drawn _ | entered _ | putting _ _ => none

def Phase.drawnOrder {κ : Type} : Phase κ → Option NewOrderMsg
  | drawn order => some order
  | idle | entered _ | copied _ | putting _ _ => none

/-- When a broadcast copies the subscribers, the browsers that have their snapshot and are not
among them have the change in it. No two threads have the same order to broadcast. -/
def UpdatesSeen {τ κ : Type} (s : Sse τ κ) : SseAction τ κ → Prop
  | .advance t => ∀ order ∈ (s.threads t).announced, ∀ k, (s.clients k).joining →
      (s.clients k).view s.heap order.clientOrderId = some order
  | .report report _ => ∀ t, ∀ order ∈ (s.threads t).order s.heap,
      order.clientOrderId ≠ report.clientOrderId
  | .enter t _ => ∀ new ∈ (s.threads (some t)).drawnOrder,
      ∀ order ∈ (s.threads none).order s.heap, order.clientOrderId ≠ new.clientOrderId
  | .draw _ _ _ _ | .snapshot _ | .write _ | .subscribe _ | .leave _ => True

instance {τ κ : Type} [Fintype τ] [Fintype κ] (s : Sse τ κ) (a : SseAction τ κ) :
    Decidable (UpdatesSeen s a) :=
  match a with
  | .advance _ => inferInstanceAs (Decidable (∀ _ ∈ _, ∀ _ : κ, _ → _))
  | .report _ _ => inferInstanceAs (Decidable (∀ _ : Option τ, ∀ _ ∈ _, _))
  | .enter _ _ => inferInstanceAs (Decidable (∀ _ ∈ _, ∀ _ ∈ _, _))
  | .draw _ _ _ _ | .snapshot _ | .write _ | .subscribe _ | .leave _ => .isTrue trivial

end HftLob.Bridge

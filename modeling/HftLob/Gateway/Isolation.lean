import HftLob.Gateway.Routing

/-!
# Which connection an execution report reaches

If the kernel hands out a descriptor only when nothing is left that carries it, then
everything that carries a descriptor belongs to the latest connection that had it.
`Belongs` says that of events, orders and acks alike; what is delivered and what is
canceled then follows. A descriptor handed out too early breaks it at once.
-/

namespace HftLob.Gateway

open HftLob.Book HftLob.Engine HftLob.Lib HftLob.Lib.PriceTime MatchingEngineConsumer

variable {cap : PoolCapacity} {w w' : World cap} {r : Report}

/-- Nothing under way and no order in `resting_` carries this descriptor. -/
def Quiet (w : World cap) (fd : UInt32) : Prop :=
  (∀ p ∈ w.pending, p.1.sessionId ≠ fd)
    ∧ (∀ x ∈ w.engine.resting.keys,
        (w.engine.resting.lookup x).map RestingOrderInfo.sessionId ≠ some fd)
    ∧ ∀ p ∈ w.acks, p.1.sessionId ≠ fd

instance (w : World cap) (fd : UInt32) : Decidable (Quiet w fd) :=
  -- by a look at the keys there are, not at every `UInt64`
  have : Decidable (∀ x ∈ w.engine.resting.keys,
      (w.engine.resting.lookup x).map RestingOrderInfo.sessionId ≠ some fd) :=
    Finset.decidableDforallFinset
  inferInstanceAs (Decidable (_ ∧ _ ∧ _))

theorem Quiet.resting {fd : UInt32} (h : Quiet w fd) {x : OrderId} {info : RestingOrderInfo}
    (hx : w.engine.resting.lookup x = some info) : info.sessionId ≠ fd := by
  intro he
  refine h.2.1 x (Finmap.mem_keys.mpr (Finmap.mem_of_lookup_eq_some hx)) ?_
  rw [hx, Option.map_some, he]

/-- A descriptor is handed out only once it is quiet. -/
def AcceptsQuiet (w : World cap) : Action → Prop
  | .accept fd => Quiet w fd
  | _ => True

instance (w : World cap) (a : Action) : Decidable (AcceptsQuiet w a) :=
  match a with
  | .accept fd => inferInstanceAs (Decidable (Quiet w fd))
  | .close _ | .newOrder _ _ _ | .cancelOrder _ _ _ | .process _ | .drain => .isTrue trivial

/-- Every report is about something received on the connection it was written to, and
every order that a cancel removed was received on the connection of the cancel. -/
def Isolated (w : World cap) : Prop :=
  (∀ r ∈ w.reports, r.concerns = some r.connection) ∧ ∀ r ∈ w.removals, r.1 = some r.2

/-! ## Finding the submitter of an order -/

theorem submitter_eq {applied : List (SequencedEvent × Nat)}
    (hseq : Sequenced (applied.map Prod.fst)) {p : SequencedEvent × Nat} (hp : p ∈ applied)
    {x : OrderId} (hx : Submits p.1 x) : submitter applied x = some p.2 := by
  cases hq : applied.find? (fun q => decide (Submits q.1 x)) with
  | none =>
      have := List.find?_eq_none.mp hq p hp
      exact absurd (decide_eq_true hx) this
  | some q =>
      have hqx : Submits q.1 x := by simpa using List.find?_some hq
      have hqmem := List.mem_of_find?_eq_some hq
      -- two pairs with one stamp are one pair
      have hqp : q = p := by
        by_contra hne
        have hpair : applied.Pairwise (fun a b => a.1.seqNum ≠ b.1.seqNum) :=
          (List.pairwise_map.mp hseq.2).imp UInt64.ne_of_lt
        have hsymm : Std.Symm (fun a b : SequencedEvent × Nat => a.1.seqNum ≠ b.1.seqNum) :=
          ⟨fun _ _ h => h.symm⟩
        exact hpair.forall hqmem hp hne (hqx.2.trans hx.2.symm)
      rw [submitter, hq, hqp]
      rfl

/-! ## The invariant -/

/-- `latest` is the last connection each descriptor was given to, and everything that
carries a descriptor belongs to that connection. -/
structure Belongs (w : World cap) (latest : UInt32 → Option Nat) : Prop where
  engine : ∃ acks, EngineInv (w.applied.map Prod.fst) acks w.engine
  connected : ∀ fd conn, w.connections.lookup fd = some conn → latest fd = some conn
  pending : ∀ p ∈ w.pending, latest p.1.sessionId = some p.2
  resting : ∀ x info, w.engine.resting.lookup x = some info →
    ∃ p ∈ w.applied, Submits p.1 x ∧ latest info.sessionId = some p.2
  acks : ∀ p ∈ w.acks, latest p.1.sessionId = p.2
  isolated : Isolated w

theorem belongs_init : Belongs (World.init cap) (fun _ => none) where
  engine := ⟨[], engineInv_init⟩
  connected := by intro fd conn h; simp [World.init] at h
  pending := by intro p h; simp [World.init] at h
  resting := by intro x info h; simp [World.init, MatchingEngineConsumer.init] at h
  acks := by intro p h; simp [World.init] at h
  isolated := ⟨by simp [World.init], by simp [World.init]⟩

theorem Isolated.report (h : Isolated w) (hr : w'.reports = w.reports ++ [r])
    (hcancel : w'.removals = w.removals) (hself : r.concerns = some r.connection) :
    Isolated w' := by
  refine ⟨?_, hcancel ▸ h.2⟩
  intro r' hr'
  rw [hr] at hr'
  cases List.mem_append.mp hr' with
  | inl hold => exact h.1 r' hold
  | inr hnew => rw [List.mem_singleton.mp hnew]; exact hself

/-! ## One step -/

variable {latest : UInt32 → Option Nat}

/-- A quiet descriptor goes to a new connection. -/
theorem Belongs.accept (h : Belongs w latest) {fd : UInt32} (hquiet : Quiet w fd) :
    Belongs { w with connections := w.connections.insert fd w.accepted
                     accepted := w.accepted + 1 }
      (Function.update latest fd (some w.accepted)) where
  engine := h.engine
  connected := by
    intro fd' conn hc
    by_cases hfd : fd' = fd
    · subst hfd
      rw [Finmap.lookup_insert] at hc
      rw [Function.update_self]
      exact hc
    · rw [Finmap.lookup_insert_of_ne _ hfd] at hc
      rw [Function.update_of_ne hfd]
      exact h.connected fd' conn hc
  pending := by
    intro p hp
    -- nothing on its way carries the descriptor, so no other connection loses its own
    rw [Function.update_of_ne (hquiet.1 p hp)]
    exact h.pending p hp
  resting := by
    intro x info hx
    rw [Function.update_of_ne (hquiet.resting hx)]
    exact h.resting x info hx
  acks := by
    intro p hp
    rw [Function.update_of_ne (hquiet.2.2 p hp)]
    exact h.acks p hp
  isolated := h.isolated

theorem Belongs.close (h : Belongs w latest) (fd : UInt32) :
    Belongs { w with connections := w.connections.erase fd } latest where
  engine := h.engine
  connected := by
    intro fd' conn hc
    by_cases hfd : fd' = fd
    · subst hfd
      rw [Finmap.lookup_erase] at hc
      exact absurd hc (by simp)
    · rw [Finmap.lookup_erase_ne hfd] at hc
      exact h.connected fd' conn hc
  pending := h.pending
  resting := h.resting
  acks := h.acks
  isolated := h.isolated

theorem Belongs.pushEvent (h : Belongs w latest) {fd : UInt32} {ev : SequencedEvent}
    {queued : Bool} (hfd : ev.sessionId = fd) (hw : w.pushEvent fd ev queued = some w') :
    Belongs w' latest := by
  obtain ⟨conn, hc, ⟨_, rfl⟩ | ⟨_, rfl⟩⟩ := World.pushEvent_cases hw
  · refine ⟨h.engine, h.connected, ?_, h.resting, h.acks, h.isolated⟩
    intro p hp
    cases List.mem_append.mp hp with
    | inl hold => exact h.pending p hold
    | inr hnew =>
        rw [List.mem_singleton.mp hnew]
        exact hfd ▸ h.connected fd conn hc
  · -- the queue is full: the gateway rejects on the connection it reads from
    exact ⟨h.engine, h.connected, h.pending, h.resting, h.acks,
      h.isolated.report rfl rfl rfl⟩

theorem Belongs.drain (h : Belongs w latest) (hw : w.step .drain = some w') :
    Belongs w' latest := by
  obtain ⟨ack, about, acks, hacks, hcase⟩ := World.drain_cases hw
  have hrest : ∀ p ∈ acks, latest p.1.sessionId = p.2 :=
    fun p hp => h.acks p (by rw [hacks]; exact List.mem_cons_of_mem _ hp)
  obtain ⟨_, rfl⟩ | ⟨conn, hc, rfl⟩ := hcase
  · -- the connection is gone and the ack is dropped
    exact ⟨h.engine, h.connected, h.pending, h.resting, hrest, h.isolated⟩
  · refine ⟨h.engine, h.connected, h.pending, h.resting, hrest,
      h.isolated.report rfl rfl ?_⟩
    -- the ack and the connection found both belong to the latest one
    have hack := h.acks (ack, about) (by rw [hacks]; exact List.mem_cons_self)
    exact hack.symm.trans (h.connected _ conn hc)

/-- The order `x` in `resting_` came in on the latest connection of its descriptor. -/
theorem Belongs.submitter (h : Belongs w latest) {ev : SequencedEvent} {conn : Nat}
    (hseq : Sequenced ((w.applied ++ [(ev, conn)]).map Prod.fst)) {x : OrderId}
    {info : RestingOrderInfo} (hx : w.engine.resting.lookup x = some info) :
    submitter (w.applied ++ [(ev, conn)]) x = latest info.sessionId := by
  obtain ⟨p, hp, hsub, hlatest⟩ := h.resting x info hx
  rw [submitter_eq hseq (List.mem_append_left _ hp) hsub, hlatest]

section ApplyEvent

variable {ev : SequencedEvent} {conn : Nat}

theorem submitter_self (hseq : Sequenced ((w.applied ++ [(ev, conn)]).map Prod.fst))
    (hnew : ev.type = .newOrder) :
    Gateway.submitter (w.applied ++ [(ev, conn)]) ev.seqNum = some conn := by
  have hmem : (ev, conn) ∈ w.applied ++ [(ev, conn)] := by simp
  exact submitter_eq hseq hmem ⟨hnew, rfl⟩

theorem Belongs.applyEvent_resting (h : Belongs w latest)
    (hseq : Sequenced ((w.applied ++ [(ev, conn)]).map Prod.fst))
    (hev : latest ev.sessionId = some conn) :
    ∀ x info, (w.engine.apply ev).1.resting.lookup x = some info →
      ∃ p ∈ w.applied ++ [(ev, conn)], Submits p.1 x ∧ latest info.sessionId = some p.2 := by
  obtain ⟨acks, hinv⟩ := h.engine
  have hseq' : Sequenced (w.applied.map Prod.fst ++ [ev]) := by simpa using hseq
  intro x info hx
  cases hinv.apply_owner hseq'.lt hx with
  | inl hold =>
      obtain ⟨info₀, hx₀, hkey⟩ := hold
      obtain ⟨p, hp, hsub, hlatest⟩ := h.resting x info₀ hx₀
      have hsession : info₀.sessionId = info.sessionId := congrArg OrderKey.sessionId hkey
      exact ⟨p, List.mem_append_left _ hp, hsub, hsession ▸ hlatest⟩
  | inr hnew =>
      have hsession : info.sessionId = ev.sessionId := congrArg OrderKey.sessionId hnew.2
      exact ⟨(ev, conn), by simp, hnew.1, hsession ▸ hev⟩

/-- Every ack of the event carries the descriptor of the connection it concerns. -/
theorem Belongs.applyEvent_acks (h : Belongs w latest)
    (hseq : Sequenced ((w.applied ++ [(ev, conn)]).map Prod.fst))
    (hev : latest ev.sessionId = some conn) :
    ∀ a ∈ (w.engine.apply ev).2,
      latest a.sessionId = concerns (w.applied ++ [(ev, conn)]) ev conn a := by
  obtain ⟨acks, hinv⟩ := h.engine
  have hseq' : Sequenced (w.applied.map Prod.fst ++ [ev]) := by simpa using hseq
  intro a ha
  unfold concerns
  unfold MatchingEngineConsumer.apply at ha
  cases htype : ev.type with
  | newOrder =>
      rw [htype] at ha
      rw [if_pos rfl]
      cases hinv.newOrder_ack hseq'.lt ha with
      -- a fill of somebody's resting order, sent to its owner
      | inl hfill =>
          obtain ⟨info, hinfo, hkey⟩ := hfill
          have hsession : info.sessionId = a.sessionId := congrArg OrderKey.sessionId hkey
          rw [← hsession, h.submitter hseq hinfo]
      | inr hown =>
          have hsession : ev.sessionId = a.sessionId := congrArg OrderKey.sessionId hown.2
          rw [← hsession, hown.1, submitter_self hseq htype, hev]
  | cancelOrder =>
      rw [htype] at ha
      have hsession : ev.sessionId = a.sessionId :=
        congrArg OrderKey.sessionId (hinv.cancelOrder_ack ha).1
      rw [if_neg (by simp), ← hsession, hev]
  | marketDataOrder => rw [htype] at ha; exact absurd ha (by simp)
  | admin => rw [htype] at ha; exact absurd ha (by simp)

/-- An order that the event removes came in on the connection of the event. -/
theorem Belongs.applyEvent_removals (h : Belongs w latest)
    (hseq : Sequenced ((w.applied ++ [(ev, conn)]).map Prod.fst))
    (hev : latest ev.sessionId = some conn) :
    ∀ a ∈ (w.engine.apply ev).2, a.status = .canceled →
      Gateway.submitter (w.applied ++ [(ev, conn)]) a.exchangeOrderId = some conn := by
  obtain ⟨acks, hinv⟩ := h.engine
  have hseq' : Sequenced (w.applied.map Prod.fst ++ [ev]) := by simpa using hseq
  intro a ha hcanceled
  unfold MatchingEngineConsumer.apply at ha
  cases htype : ev.type with
  | newOrder =>
      rw [htype] at ha
      exact absurd hcanceled (hinv.newOrder_ack_status hseq'.lt ha)
  | cancelOrder =>
      rw [htype] at ha
      -- the name is the same, so the descriptor is, and with it the connection
      obtain ⟨hkey', hresting⟩ := hinv.cancelOrder_ack ha
      obtain ⟨info, hinfo, hkey⟩ := hresting (by rw [hcanceled]; decide)
      have hsession : info.sessionId = ev.sessionId :=
        congrArg OrderKey.sessionId (hkey.trans hkey'.symm)
      rw [h.submitter hseq hinfo, hsession, hev]
  | marketDataOrder => rw [htype] at ha; exact absurd ha (by simp)
  | admin => rw [htype] at ha; exact absurd ha (by simp)

theorem Belongs.applyEvent (h : Belongs w latest)
    (hseq : Sequenced ((w.applied ++ [(ev, conn)]).map Prod.fst))
    (hev : latest ev.sessionId = some conn) : Belongs (w.applyEvent ev conn) latest where
  engine := by
    obtain ⟨acks, hinv⟩ := h.engine
    have hinv' := engineInv_step hinv (by simpa using hseq)
    exact ⟨acks ++ (w.engine.apply ev).2, by simpa [World.applyEvent] using hinv'⟩
  connected := h.connected
  pending := h.pending
  resting := h.applyEvent_resting hseq hev
  acks := by
    intro p hp
    cases List.mem_append.mp hp with
    | inl hold => exact h.acks p hold
    | inr hnew =>
        obtain ⟨a, ha, rfl⟩ := List.mem_map.mp hnew
        exact h.applyEvent_acks hseq hev a ha
  isolated := by
    refine ⟨h.isolated.1, ?_⟩
    intro r hr
    cases List.mem_append.mp hr with
    | inl hold => exact h.isolated.2 r hold
    | inr hnew =>
        obtain ⟨a, ha, rfl⟩ := List.mem_map.mp hnew
        obtain ⟨ha, hcanceled⟩ := List.mem_filter.mp ha
        exact h.applyEvent_removals hseq hev a ha (by simpa using hcanceled)

end ApplyEvent

/-! ## Every run -/

/-- The invariant of runs: the stamps count up, and until they wrap everything belongs
to the latest connection of its descriptor. -/
structure RoutingInv (w : World cap) : Prop where
  stamped : Stamped (w.applied.map Prod.fst)
  belongs : w.applied.length < 2 ^ 64 → ∃ latest, Belongs w latest

theorem routingInv_init : RoutingInv (World.init cap) :=
  ⟨rfl, fun _ => ⟨_, belongs_init⟩⟩

theorem pushEvent_applied {fd : UInt32} {ev : SequencedEvent} {queued : Bool}
    (hw : w.pushEvent fd ev queued = some w') : w'.applied = w.applied := by
  obtain ⟨_, _, ⟨_, rfl⟩ | ⟨_, rfl⟩⟩ := World.pushEvent_cases hw <;> rfl

theorem RoutingInv.pushEvent (h : RoutingInv w) {fd : UInt32} {ev : SequencedEvent}
    {queued : Bool} (hfd : ev.sessionId = fd) (hw : w.pushEvent fd ev queued = some w') :
    RoutingInv w' := by
  have happlied := pushEvent_applied hw
  refine ⟨happlied ▸ h.stamped, fun hlen => ?_⟩
  obtain ⟨latest, hbelongs⟩ := h.belongs (happlied ▸ hlen)
  exact ⟨latest, hbelongs.pushEvent hfd hw⟩

/-- The next stamp is the next number. -/
theorem stamped_concat (h : Stamped (w.applied.map Prod.fst)) (ts : UInt64) (ev : SequencedEvent)
    (conn : Nat) : Stamped ((w.applied ++ [(w.stamp ts ev, conn)]).map Prod.fst) := by
  rw [List.map_append]
  exact h.concat (by rw [List.length_map]; rfl)

theorem RoutingInv.process (h : RoutingInv w) {ts : UInt64}
    (hw : w.step (.process ts) = some w') : RoutingInv w' := by
  obtain ⟨ev, conn, pending, hp, rfl⟩ := World.process_cases hw
  have hstamped := stamped_concat h.stamped ts ev conn
  refine ⟨hstamped, fun hlen => ?_⟩
  have hlen' : (w.applied ++ [(w.stamp ts ev, conn)]).length < 2 ^ 64 := hlen
  have hold : w.applied.length < 2 ^ 64 := by
    rw [List.length_append] at hlen'
    omega
  obtain ⟨latest, hbelongs⟩ := h.belongs hold
  have hpop : Belongs { w with pending := pending } latest :=
    ⟨hbelongs.engine, hbelongs.connected,
      fun p hp' => hbelongs.pending p (by rw [hp]; exact List.mem_cons_of_mem _ hp'),
      hbelongs.resting, hbelongs.acks, hbelongs.isolated⟩
  refine ⟨latest, hpop.applyEvent ?_ ?_⟩
  · exact hstamped.sequenced (by rw [List.length_map]; exact hlen')
  · exact hbelongs.pending (ev, conn) (by rw [hp]; exact List.mem_cons_self)

theorem drain_applied (hw : w.step .drain = some w') : w'.applied = w.applied := by
  obtain ⟨_, _, _, _, ⟨_, rfl⟩ | ⟨_, _, rfl⟩⟩ := World.drain_cases hw <;> rfl

theorem routingInv_step {a : Action} (h : RoutingInv w) (hquiet : AcceptsQuiet w a)
    (hw : w.step a = some w') : RoutingInv w' := by
  cases a with
  | accept fd =>
      obtain ⟨_, rfl⟩ := World.accept_cases hw
      refine ⟨h.stamped, fun hlen => ?_⟩
      obtain ⟨latest, hbelongs⟩ := h.belongs hlen
      exact ⟨_, hbelongs.accept hquiet⟩
  | close fd =>
      obtain rfl := World.close_cases hw
      refine ⟨h.stamped, fun hlen => ?_⟩
      obtain ⟨latest, hbelongs⟩ := h.belongs hlen
      exact ⟨latest, hbelongs.close fd⟩
  | newOrder fd order queued =>
      have hpush : w.pushEvent fd (World.newOrderEvent fd order) queued = some w' := hw
      exact h.pushEvent (by rfl) hpush
  | cancelOrder fd clientOrderId queued =>
      have hpush : w.pushEvent fd (World.cancelOrderEvent fd clientOrderId) queued = some w' := hw
      exact h.pushEvent (by rfl) hpush
  | process ts => exact h.process hw
  | drain =>
      have happlied := drain_applied hw
      refine ⟨happlied ▸ h.stamped, fun hlen => ?_⟩
      obtain ⟨latest, hbelongs⟩ := h.belongs (happlied ▸ hlen)
      exact ⟨latest, hbelongs.drain hw⟩

/-- **Reports and cancels keep to their connection** along every run that hands out a
descriptor only once nothing carries it any more. -/
theorem reports_reach_their_connection (cap : PoolCapacity) (actions : List Action)
    (w : World cap) (hrun : Machine.exec World.step (World.init cap) actions = some w)
    (hquiet : Machine.Along World.step AcceptsQuiet (World.init cap) actions)
    (hlen : w.applied.length < 2 ^ 64) : Isolated w := by
  have hinv : RoutingInv w := Machine.exec_invariant
    (fun s a t hs hC ht => routingInv_step hs hC ht) actions _ w routingInv_init hquiet hrun
  obtain ⟨_, hbelongs⟩ := hinv.belongs hlen
  exact hbelongs.isolated

/-- A descriptor used twice, the second time after the first order was canceled and
everything about it delivered. -/
theorem reports_reach_their_connection_reused :
    let cap : PoolCapacity := ⟨4, by decide⟩
    let actions : List Action :=
      [.accept 5, .newOrder 5 ⟨1, 0, 100, 5⟩ true, .cancelOrder 5 1 true, .process 0, .drain,
       .process 0, .drain, .close 5, .accept 5, .newOrder 5 ⟨1, 0, 99, 5⟩ true,
       .cancelOrder 5 2 false, .process 0, .drain]
    ∃ w : World cap, Machine.exec World.step (World.init cap) actions = some w
      ∧ Machine.Along World.step AcceptsQuiet (World.init cap) actions
      ∧ w.applied.length < 2 ^ 64 ∧ Isolated w := by
  intro cap actions
  have hsome : (Machine.exec World.step (World.init cap) actions).isSome := by decide +kernel
  obtain ⟨w, hw⟩ := Option.isSome_iff_exists.mp hsome
  have hlen : ((Machine.exec World.step (World.init cap) actions).map
      fun w => w.applied.length) = some 3 := by decide +kernel
  rw [hw, Option.map_some, Option.some.injEq] at hlen
  have hquiet : Machine.Along World.step AcceptsQuiet (World.init cap) actions := by
    decide +kernel
  exact ⟨w, hw, hquiet, by omega,
    reports_reach_their_connection cap actions w hw hquiet (by omega)⟩

/-- A descriptor reused while an order of its first connection still rests. The second
connection gets the report of a fill of that order, and its cancel removes it. -/
theorem report_reaches_later_connection :
    let cap : PoolCapacity := ⟨4, by decide⟩
    let actions : List Action :=
      [.accept 5, .newOrder 5 ⟨1, 0, 100, 5⟩ true, .process 0, .drain, .close 5,
       .accept 5, .accept 6, .newOrder 6 ⟨1, 1, 100, 2⟩ true, .process 0, .drain, .drain,
       .cancelOrder 5 1 true, .process 0]
    ∃ w : World cap, Machine.exec World.step (World.init cap) actions = some w
      ∧ (∃ r ∈ w.reports, r.connection = 1 ∧ r.concerns = some 0
          ∧ r.message = ⟨1, 1, .partialFill, 100, 2, 3⟩)
      ∧ (some 0, 1) ∈ w.removals ∧ ¬ Isolated w := by
  intro cap actions
  have hreports : ((Machine.exec World.step (World.init cap) actions).map
      fun w => (w.reports, w.removals))
      = some ([⟨0, ⟨1, 1, .accepted, 0, 0, 5⟩, some 0⟩,
          ⟨1, ⟨1, 1, .partialFill, 100, 2, 3⟩, some 0⟩,
          ⟨2, ⟨1, 2, .filled, 100, 2, 0⟩, some 2⟩], [(some 0, 1)]) := by decide +kernel
  obtain ⟨w, hw, hreports⟩ := Option.map_eq_some_iff.mp hreports
  rw [Prod.mk.injEq] at hreports
  refine ⟨w, hw, ⟨_, by rw [hreports.1]; exact List.mem_cons_of_mem _ List.mem_cons_self, rfl,
    rfl, rfl⟩, by rw [hreports.2]; exact List.mem_singleton.mpr rfl, fun hiso => ?_⟩
  have := hiso.2 (some 0, 1) (by rw [hreports.2]; exact List.mem_singleton.mpr rfl)
  exact absurd this (by decide)

end HftLob.Gateway

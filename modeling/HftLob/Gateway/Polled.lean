import HftLob.Gateway.Exchange
import HftLob.Gateway.PollLoop

/-!
# A call of `poll_once` as steps of the exchange

`Server.step` takes frames as they are dispatched, `poll_once` takes them out of what `recv`
returns. What the readers hold is the only difference: a call is a run of `Exchange` up to
that, with the matcher at rest. So whatever holds of the runs of `Exchange`, with the matcher
moving in between, holds of the poll loop.
-/

namespace HftLob.Gateway

open HftLob.Book HftLob.Engine HftLob.Lib HftLob.Wire

variable {cap : PoolCapacity}

/-- The same sessions and outputs, whatever the readers hold. -/
structure Server.Same (srv srv₀ : Server) : Prop where
  sessions : ∀ fd, (srv.connections.lookup fd).map ConnectionState.session
    = (srv₀.connections.lookup fd).map ConnectionState.session
  outputs : srv.outputs = srv₀.outputs

namespace Server.Same

variable {srv srv' srv₀ : Server} {fd : UInt32} {conn : ConnectionState}

theorem found (h : srv.Same srv₀) (hconn : srv.connections.lookup fd = some conn) :
    ∃ conn₀, srv₀.connections.lookup fd = some conn₀ ∧ conn₀.session = conn.session := by
  have hsession := h.sessions fd
  rw [hconn, Option.map_some] at hsession
  exact Option.map_eq_some_iff.mp hsession.symm

theorem free (h : srv.Same srv₀) (hnone : srv.connections.lookup fd = none) :
    srv₀.connections.lookup fd = none := by
  have hsession := h.sessions fd
  rw [hnone, Option.map_none] at hsession
  exact Option.map_eq_none_iff.mp hsession.symm

theorem insert (h : srv.Same srv₀) {conn₀ : ConnectionState} {srv₀' : Server}
    {said : List (UInt32 × Output)} (hsession : conn.session = conn₀.session)
    (hconns : srv'.connections = srv.connections.insert fd conn)
    (hconns₀ : srv₀'.connections = srv₀.connections.insert fd conn₀)
    (houtputs : srv'.outputs = srv.outputs ++ said)
    (houtputs₀ : srv₀'.outputs = srv₀.outputs ++ said) : srv'.Same srv₀' where
  sessions fd' := by
    rw [hconns, hconns₀]
    by_cases hfd : fd' = fd
    · rw [hfd, Finmap.lookup_insert, Finmap.lookup_insert, Option.map_some, Option.map_some,
        hsession]
    · rw [Finmap.lookup_insert_of_ne _ hfd, Finmap.lookup_insert_of_ne _ hfd]
      exact h.sessions fd'
  outputs := by rw [houtputs, houtputs₀, h.outputs]

theorem erase (h : srv.Same srv₀) {srv₀' : Server} {said : List (UInt32 × Output)}
    (hconns : srv'.connections = srv.connections.erase fd)
    (hconns₀ : srv₀'.connections = srv₀.connections.erase fd)
    (houtputs : srv'.outputs = srv.outputs ++ said)
    (houtputs₀ : srv₀'.outputs = srv₀.outputs ++ said) : srv'.Same srv₀' where
  sessions fd' := by
    rw [hconns, hconns₀]
    by_cases hfd : fd' = fd
    · rw [hfd, Finmap.lookup_erase, Finmap.lookup_erase]
    · rw [Finmap.lookup_erase_ne hfd, Finmap.lookup_erase_ne hfd]
      exact h.sessions fd'
  outputs := by rw [houtputs, houtputs₀, h.outputs]

/-- Bytes that come in change a reader and nothing else. -/
theorem feed (h : srv.Same srv₀) (hconn : srv.connections.lookup fd = some conn)
    (chunk : List UInt8) : (srv.feed fd conn chunk).Same srv₀ where
  sessions fd' := by
    rw [← h.sessions fd']
    dsimp only [Server.feed]
    by_cases hfd : fd' = fd
    · rw [hfd, Finmap.lookup_insert, hconn]
      rfl
    · rw [Finmap.lookup_insert_of_ne _ hfd]
  outputs := h.outputs

theorem close (h : srv.Same srv₀) (fd : UInt32) :
    (srv.closeConnection fd).Same (srv₀.closeConnection fd) :=
  h.erase rfl rfl rfl rfl

theorem sendOn (h : srv.Same srv₀) {conn₀ : ConnectionState}
    (hsession : conn₀.session = conn.session) (now : Int) (frame : UInt32 → Frame) :
    (srv.sendOn fd conn now frame).Same (srv₀.sendOn fd conn₀ now frame) := by
  refine h.insert ?_ rfl rfl rfl ?_
  · rw [hsession]
  · rw [Server.sendOn, hsession]
    rfl

theorem frame (h : srv.Same srv₀) {moments : Nat → Moment} {reader : FrameReader} {f : Frame}
    (hconn : srv.connections.lookup fd = some conn)
    (hf : srv.onFrame moments fd { conn with reader := reader } f.bytes = .ok srv') :
    ∃ srv₀', srv₀.step (.frame fd f (moments srv.dispatched)) = some srv₀' ∧ srv'.Same srv₀' := by
  obtain ⟨conn₀, hconn₀, hsession⟩ := h.found hconn
  -- `dispatch` is given the session, not the reader
  obtain ⟨r, hdispatch, -⟩ := dispatch_does fd conn.session (moments srv.dispatched) f
  simp only [Server.onFrame, hdispatch, Except.ok.injEq] at hf
  subst hf
  simp only [Server.step, hconn₀, Server.onFrame, hsession, hdispatch, Option.some.injEq,
    exists_eq_left']
  by_cases hclose : Output.close ∈ r.2
  · exact h.erase (if_pos hclose) (if_pos hclose) rfl rfl
  · refine h.insert ?_ (if_neg hclose) (if_neg hclose) rfl rfl
    rfl

theorem checkHeartbeat (h : srv.Same srv₀) (fd : UInt32) (now : Int) :
    (srv.checkHeartbeat fd now).Same (srv₀.checkHeartbeat fd now) := by
  cases hconn : srv.connections.lookup fd with
  | none => simpa [Server.checkHeartbeat, hconn, h.free hconn] using h
  | some conn =>
      obtain ⟨conn₀, hconn₀, hsession⟩ := h.found hconn
      simp only [Server.checkHeartbeat, hconn, hconn₀, hsession,
        Server.closeConnection_setSession]
      split
      · exact h
      · split
        · exact h.close fd
        · split
          · exact h.sendOn hsession now _
          · exact h

theorem drainAck (h : srv.Same srv₀) (ack : OutboundAck) (now : Int) :
    (srv.drainAck ack now).Same (srv₀.drainAck ack now) := by
  cases hconn : srv.connections.lookup ack.sessionId with
  | none => simpa [Server.drainAck, hconn, h.free hconn] using h
  | some conn =>
      obtain ⟨conn₀, hconn₀, hsession⟩ := h.found hconn
      simp only [Server.drainAck, hconn, hconn₀]
      exact h.sendOn hsession now _

end Server.Same

/-! ## Runs that stand for a call -/

/-- From `s` the exchange gets to this server, up to the readers, without the matcher. -/
def Exchange.Reaches (s : Exchange cap) (srv : Server) (acks : List OutboundAck) : Prop :=
  ∃ actions s', Machine.exec Exchange.step s actions = some s' ∧ srv.Same s'.server
    ∧ s'.applied = s.applied ∧ s'.acks = acks

namespace Exchange.Reaches

variable {s : Exchange cap} {srv srv' : Server} {acks : List OutboundAck}

theorem step (h : s.Reaches srv acks) {acks' : List OutboundAck}
    (hstep : ∀ s' : Exchange cap, srv.Same s'.server → s'.acks = acks →
      ∃ a s'', s'.step a = some s'' ∧ srv'.Same s''.server ∧ s''.applied = s'.applied
        ∧ s''.acks = acks') : s.Reaches srv' acks' := by
  obtain ⟨actions, s', hrun, hsame, happlied, hacks⟩ := h
  obtain ⟨a, s'', ha, hsame', happlied', hacks'⟩ := hstep s' hsame hacks
  exact ⟨actions ++ [a], s'', Machine.exec_append hrun (Machine.exec_singleton ha), hsame',
    happlied'.trans happlied, hacks'⟩

theorem close (h : s.Reaches srv acks) (fd : UInt32) :
    s.Reaches (srv.closeConnection fd) acks :=
  h.step fun _ hsame hacks => ⟨.close fd, _, rfl, hsame.close fd, rfl, hacks⟩

theorem checkHeartbeat (h : s.Reaches srv acks) (fd : UInt32) (now : Int) :
    s.Reaches (srv.checkHeartbeat fd now) acks :=
  h.step fun _ hsame hacks => ⟨.heartbeat fd now, _, rfl, hsame.checkHeartbeat fd now, rfl, hacks⟩

/-- The ack is the next one in the queue. -/
theorem drainAck {ack : OutboundAck} (h : s.Reaches srv (ack :: acks)) (now : Int) :
    s.Reaches (srv.drainAck ack now) acks := by
  refine h.step fun s' hsame hacks => ?_
  refine ⟨.deliver now, ?_⟩
  rw [Exchange.step, hacks]
  exact ⟨_, rfl, hsame.drainAck ack now, rfl, rfl⟩

theorem accept (h : s.Reaches srv acks) {fd : UInt32}
    (hs : srv.step (.accept fd) = some srv') : s.Reaches srv' acks := by
  obtain ⟨hfree, rfl⟩ := Server.accept_eq_some hs
  refine h.step fun s' hsame hacks => ⟨.accept fd, ?_⟩
  rw [Exchange.step, Exchange.serve, Server.step, hsame.free hfree]
  exact ⟨_, rfl, hsame.insert rfl rfl rfl (List.append_nil _).symm (List.append_nil _).symm, rfl,
    hacks⟩

theorem serves (s : Exchange cap) (acks : List OutboundAck) (moments : Nat → Moment)
    (fd : UInt32) : Serves moments fd fun srv => s.Reaches srv acks where
  feed chunk h hconn := by
    -- no step at all
    obtain ⟨actions, s', hrun, hsame, hrest⟩ := h
    exact ⟨actions, s', hrun, hsame.feed hconn chunk, hrest⟩
  frame {srv _ _ _ f} h hconn hf := by
    refine h.step fun s' hsame hacks => ⟨.frame fd f (moments srv.dispatched), ?_⟩
    obtain ⟨srv₀', hs, hsame'⟩ := hsame.frame hconn hf
    rw [Exchange.step, Exchange.serve, hs]
    exact ⟨_, rfl, hsame', rfl, hacks⟩
  close h := h.close fd

theorem onReady (h : s.Reaches srv acks) {r : Ready} (hs : srv.onReady r = some srv') :
    s.Reaches srv' acks := by
  cases r with
  | listen client =>
      cases client with
      | none =>
          cases hs
          exact h
      | some fd => exact h.accept hs
  | eof fd =>
      cases hs
      exact h.close fd
  | readable fd recvs moments =>
      dsimp only [Server.onReady] at hs
      split at hs
      · exact absurd hs (by simp)
      · rename_i srv₁ hread
        cases hs
        exact (serves s acks moments fd).handleReadable h hread

theorem checkHeartbeats {walk : List (UInt32 × Int)} : ∀ {srv : Server},
    s.Reaches srv acks → s.Reaches (srv.checkHeartbeats walk) acks := by
  induction walk with
  | nil => exact fun h => h
  | cons visit walk ih => exact fun h => ih (h.checkHeartbeat visit.1 visit.2)

theorem drainAcks {popped : List (OutboundAck × Int)} : ∀ {srv : Server},
    s.Reaches srv (popped.map Prod.fst ++ acks) → s.Reaches (srv.drainAcks popped) acks := by
  induction popped with
  | nil => exact fun h => h
  | cons ack popped ih => exact fun h => ih (h.drainAck ack.2)

end Exchange.Reaches

/-- **A call of `poll_once` is a run of the exchange**, if it pops what is in the ack queue. -/
theorem pollOnce_is_run {s : Exchange cap} {srv srv' : Server} {p : Poll}
    {acks : List OutboundAck} (h : srv.Same s.server) (hp : srv.pollOnce p = some srv')
    (hacks : s.acks = p.acks.map Prod.fst ++ acks) :
    ∃ actions s', Machine.exec Exchange.step s actions = some s' ∧ srv'.Same s'.server
      ∧ s'.applied = s.applied ∧ s'.acks = acks := by
  obtain ⟨srv₁, hready, -, rfl⟩ := Server.pollOnce_eq_some hp
  have hstart : s.Reaches srv (p.acks.map Prod.fst ++ acks) := ⟨[], s, rfl, h, rfl, hacks⟩
  have hworked : s.Reaches srv₁ (p.acks.map Prod.fst ++ acks) :=
    Machine.exec_preserves (I := fun srv => s.Reaches srv (p.acks.map Prod.fst ++ acks))
      (fun _ _ _ hI hs => hI.onReady hs) p.ready srv srv₁ hstart hready
  exact hworked.checkHeartbeats.drainAcks

/-- A client connects and its order comes in, in two parts. -/
theorem pollOnce_is_run_first_order :
    let cap : PoolCapacity := ⟨4, by decide⟩
    let order := ClientMsg.frame 1 (.newOrder ⟨1, #v[65, 66, 67, 0, 0, 0, 0, 0], 0, 100, 5⟩)
    let recvs : List Recv := [.data (order.bytes.take 10), .data (order.bytes.drop 10)]
    let p : Poll := ⟨[.listen (some 5), .readable 5 recvs fun _ => ⟨0, true⟩], [(5, 1)], [], 0, 1⟩
    ∃ (srv' : Server) (actions : List ExchangeAction) (s' : Exchange cap),
      Server.init.pollOnce p = some srv'
        ∧ Machine.exec Exchange.step (Exchange.init cap) actions = some s'
        ∧ srv'.Same s'.server ∧ pushes (s'.server.outputs.map Prod.snd) = [eventOf 5 order] := by
  intro cap order recvs p
  have houtputs : (Server.init.pollOnce p).map (fun srv => pushes (srv.outputs.map Prod.snd))
      = some [eventOf 5 order] := by decide +kernel
  obtain ⟨srv', hp, hpushed⟩ := Option.map_eq_some_iff.mp houtputs
  have hstart : Server.init.Same (Exchange.init cap).server := ⟨fun _ => rfl, rfl⟩
  obtain ⟨actions, s', hrun, hsame, -, -⟩ := pollOnce_is_run hstart hp rfl
  exact ⟨srv', actions, s', hp, hrun, hsame, hsame.outputs ▸ hpushed⟩

end HftLob.Gateway

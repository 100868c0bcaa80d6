import HftLob.Gateway.Numbering

/-!
# The bytes of a connection decide its orders

`FrameReader` cuts frames independently of how the bytes come in. Here that is carried
through the server: over any number of calls of `poll_once`, with other connections coming
and going, with heartbeats and acks sent in between and with the stream cut anywhere, the
events pushed for a connection are the orders among the frames in the bytes read from it
since it was accepted. An order is left out only when the sequencer's queue was full.

The invariant is a statement about one connection at a time, and what happens to another
one does not touch it.
-/

namespace HftLob.Gateway

open HftLob.Wire HftLob.Lib HftLob.Lib.Framing

/-! ## What came in and what went on -/

/-- One event more, of the bytes read from a descriptor since it was accepted. -/
def hear (fd : UInt32) (bytes : List UInt8) : Ready → List UInt8
  | .listen (some client) => if client = fd then [] else bytes
  | .readable fd' recvs _ => if fd' = fd then bytes ++ (received recvs).flatten else bytes
  | .listen none | .eof _ => bytes

def heardOn (fd : UInt32) (ready : List Ready) : List UInt8 := ready.foldl (hear fd) []

/-- The events pushed since the last close. -/
def pushedSince (outputs : List Output) : List SequencedEvent :=
  outputs.foldl (fun evs o => match o with
    | .push ev => evs ++ [ev]
    | .send _ => evs
    | .close => []) []

/-- The events that the orders among the frames become. -/
def ordersOf (fd : UInt32) (frames : List Frame) : List SequencedEvent :=
  (frames.filter fun f => decide (IsOrder f)).map (eventOf fd)

theorem pushedSince_append (outputs said : List Output) (h : Output.close ∉ said) :
    pushedSince (outputs ++ said) = pushedSince outputs ++ pushes said := by
  induction said generalizing outputs with
  | nil => simp [pushes]
  | cons o said ih =>
      have hsaid : Output.close ∉ said := fun hin => h (List.mem_cons_of_mem _ hin)
      have hone : pushedSince (outputs ++ [o]) = pushedSince outputs ++ pushes [o] := by
        rw [pushedSince, List.foldl_append]
        cases o with
        | push ev => rfl
        | send f => exact (List.append_nil _).symm
        | close => exact absurd List.mem_cons_self h
      rw [List.append_cons, ih _ hsaid, hone, List.append_assoc]
      congr 1
      exact List.filterMap_append.symm

theorem pushedSince_close (outputs : List Output) : pushedSince (outputs ++ [.close]) = [] := by
  rw [pushedSince, List.foldl_append]
  rfl

theorem ordersOf_concat (fd : UInt32) (frames : List Frame) (f : Frame) :
    ordersOf fd (frames ++ [f]) = ordersOf fd frames ++
        if IsOrder f then [eventOf fd f] else [] := by
  by_cases h : IsOrder f <;> simp [ordersOf, h]

/-! ## One connection -/

/-- What has been taken out of the bytes so far, and what became of it; `room` is that the
queue was never full. -/
structure Taken (room : Prop) (fd : UInt32) (bytes : List UInt8) (conn : ConnectionState)
    (done : List Output) (frames : List Frame) : Prop where
  bytes : bytes = (frames.map Frame.bytes).flatten ++ conn.reader.buffer
  status : conn.session.status = frames.foldl statusAfter .awaitingLogon
  some_pushed : List.Sublist (pushedSince done) (ordersOf fd frames)
  all_pushed : room → pushedSince done = ordersOf fd frames

section Frame

variable {room : Prop} {fd : UInt32} {bytes : List UInt8} {conn : ConnectionState}
  {done : List Output} {frames : List Frame}

theorem Taken.feed (h : Taken room fd bytes conn done frames) (chunk : List UInt8) :
    Taken room fd (bytes ++ chunk) { conn with reader := conn.reader.feed chunk } done frames where
  bytes := by
    rw [h.bytes, List.append_assoc]
    rfl
  status := h.status
  some_pushed := h.some_pushed
  all_pushed := h.all_pushed

/-- A frame goes out of the buffer and to `dispatch`. -/
theorem Taken.frame (h : Taken room fd bytes conn done frames) {f : Frame} {reader : FrameReader}
    (hbuffer : conn.reader.buffer = f.bytes ++ reader.buffer) {m : Moment}
    {r : SessionState × List Output} (hroom : room → m.queueRoom = true)
    (hdoes : Does r (statusAfter conn.session.status f) (enters fd f m)
      (Closes conn.session.status f)) (hopen : Output.close ∉ r.2) :
    Taken room fd bytes ⟨reader, r.1⟩ (done ++ r.2) (frames ++ [f]) where
  bytes := by
    rw [h.bytes, hbuffer, List.map_append, List.flatten_append, List.append_assoc]
    simp
  status := by rw [List.foldl_append, ← h.status]; exact hdoes.status
  some_pushed := by
    rw [pushedSince_append _ _ hopen, hdoes.pushed, ordersOf_concat]
    refine h.some_pushed.append ?_
    unfold enters
    by_cases horder : IsOrder f
    · by_cases hm : m.queueRoom = true
      · rw [if_pos ⟨horder, hm⟩, if_pos horder]
      · rw [if_neg fun hand => hm hand.2]
        exact List.nil_sublist _
    · rw [if_neg fun hand => horder hand.1, if_neg horder]
  all_pushed := by
    intro hr
    rw [pushedSince_append _ _ hopen, hdoes.pushed, ordersOf_concat, h.all_pushed hr]
    congr 1
    unfold enters
    by_cases horder : IsOrder f
    · rw [if_pos ⟨horder, hroom hr⟩, if_pos horder]
    · rw [if_neg fun hand => horder hand.1, if_neg horder]

/-- A frame that the server sends on its own. -/
theorem Taken.send (h : Taken room fd bytes conn done frames) (now : Int)
    (frame : UInt32 → Frame) (f : Frame) :
    Taken room fd bytes { conn with session := (sendNumbered conn.session now frame).1 }
      (done ++ [.send f]) frames where
  bytes := h.bytes
  status := h.status
  some_pushed := by
    rw [pushedSince_append _ _ (by simp)]
    exact (List.append_nil _).symm ▸ h.some_pushed
  all_pushed := fun hr => by
    rw [pushedSince_append _ _ (by simp), h.all_pushed hr]
    exact List.append_nil _

end Frame

/-- A descriptor, its connection if it has one, and what was done about it. -/
def StreamOk (room : Prop) (fd : UInt32) (bytes : List UInt8) (srv : Server) : Prop :=
  match srv.connections.lookup fd with
  | none => pushedSince (doneOn fd srv.outputs) = []
  | some conn => frameFormat.size conn.reader.buffer = none
      ∧ ∃ frames, Taken room fd bytes conn (doneOn fd srv.outputs) frames

section Server

variable {room : Prop} {fd fd' : UInt32} {bytes : List UInt8} {srv srv' : Server}
  {conn : ConnectionState} {moments : Nat → Moment}

theorem streamOk_some (hfound : srv.connections.lookup fd = some conn) :
    StreamOk room fd bytes srv ↔ frameFormat.size conn.reader.buffer = none
      ∧ ∃ frames, Taken room fd bytes conn (doneOn fd srv.outputs) frames := by
  unfold StreamOk
  rw [hfound]

theorem streamOk_none (hfound : srv.connections.lookup fd = none) :
    StreamOk room fd bytes srv ↔ pushedSince (doneOn fd srv.outputs) = [] := by
  unfold StreamOk
  rw [hfound]

/-- What is done about another descriptor is nothing to this one. -/
theorem StreamOk.elsewhere (h : StreamOk room fd bytes srv)
    (hconns : srv'.connections.lookup fd = srv.connections.lookup fd)
    (houtputs : doneOn fd srv'.outputs = doneOn fd srv.outputs) :
    StreamOk room fd bytes srv' := by
  unfold StreamOk at h ⊢
  rw [hconns, houtputs]
  exact h

theorem kept_streamOk (T : Int → Prop) : Kept (· ≠ fd) T (StreamOk room fd bytes) where
  change := by
    intro srv srv' h hchange
    cases hchange with
    | nothing hconns houtputs => exact h.elsewhere (by rw [hconns]) (by rw [houtputs])
    | opened fd' hne _ hconns houtputs =>
        refine h.elsewhere ?_ (by rw [houtputs])
        rw [hconns, Finmap.lookup_insert_of_ne _ hne.symm]
    | closed fd' hne hconns houtputs =>
        refine h.elsewhere ?_ ?_
        · rw [hconns, Finmap.lookup_erase_ne hne.symm]
        · rw [houtputs]
          exact doneOn_append_ne hne srv.outputs [.close]
    | talked fd' hne conn session said now _ _ _ hconns houtputs =>
        refine h.elsewhere ?_ ?_
        · rw [hconns, Finmap.lookup_insert_of_ne _ hne.symm]
        · rw [houtputs, doneOn_append_ne hne]
  read := fun _ hne h _ => h.elsewhere (Finmap.lookup_insert_of_ne _ hne.symm) rfl

theorem streamOk_closeConnection : StreamOk room fd bytes (srv.closeConnection fd) := by
  rw [streamOk_none (Finmap.lookup_erase _ _)]
  have hdone : doneOn fd (srv.closeConnection fd).outputs = doneOn fd srv.outputs ++ [.close] :=
    doneOn_append_self fd srv.outputs [.close]
  rw [hdone, pushedSince_close]

theorem StreamOk.closeConnection (h : StreamOk room fd bytes srv) (fd' : UInt32) :
    StreamOk room fd bytes (srv.closeConnection fd') := by
  by_cases hfd : fd' = fd
  · rw [hfd]
    exact streamOk_closeConnection
  · exact (kept_streamOk fun _ => True).closeConnection hfd h

theorem StreamOk.sendOn (h : StreamOk room fd bytes srv)
    (hfound : srv.connections.lookup fd' = some conn) (now : Int) (frame : UInt32 → Frame) :
    StreamOk room fd bytes (srv.sendOn fd' conn now frame) := by
  by_cases hfd : fd' = fd
  · subst hfd
    obtain ⟨hsize, frames, htaken⟩ := (streamOk_some hfound).mp h
    rw [streamOk_some (Finmap.lookup_insert _)]
    refine ⟨hsize, frames, ?_⟩
    have hdone : doneOn fd' (srv.sendOn fd' conn now frame).outputs
        = doneOn fd' srv.outputs ++ (sendNumbered conn.session now frame).2 :=
      doneOn_append_self fd' srv.outputs _
    rw [hdone]
    exact htaken.send now frame _
  · exact h.elsewhere (Finmap.lookup_insert_of_ne _ (Ne.symm hfd)) (doneOn_append_ne hfd _ _)

theorem StreamOk.checkHeartbeat (h : StreamOk room fd bytes srv) (fd' : UInt32) (now : Int) :
    StreamOk room fd bytes (srv.checkHeartbeat fd' now) := by
  rcases srv.checkHeartbeat_cases fd' now with ⟨-, he⟩ | ⟨-, he | ⟨conn, hfound, he⟩⟩
  · rw [he]
    exact h.closeConnection fd'
  · rw [he]
    exact h
  · rw [he]
    exact h.sendOn hfound now _

theorem StreamOk.drainAck (h : StreamOk room fd bytes srv) (ack : OutboundAck) (now : Int) :
    StreamOk room fd bytes (srv.drainAck ack now) := by
  unfold Server.drainAck
  split
  · exact h
  · rename_i conn hfound
    exact h.sendOn hfound now _

/-! ## Reading -/

/-- The inner loop takes the frames out. -/
theorem readFrames_taken (hroom : room → ∀ i, (moments i).queueRoom = true) :
    ∀ {fuel : Nat} {srv : Server} {conn : ConnectionState} {frames : List Frame},
      srv.connections.lookup fd = some conn → conn.reader.buffer.length < fuel →
      Taken room fd bytes conn (doneOn fd srv.outputs) frames →
      srv.readFrames moments fd fuel = .ok srv' →
      (∃ conn', srv'.connections.lookup fd = some conn') ∧ StreamOk room fd bytes srv' := by
  intro fuel
  induction fuel with
  | zero => exact fun _ hlen => absurd hlen (Nat.not_lt_zero _)
  | succ fuel ih =>
      intro srv conn frames hfound hlen htaken hr
      rw [Server.readFrames, Server.access, hfound] at hr
      cases hn : frameFormat.size conn.reader.buffer with
      | none =>
          simp only [FrameReader.reads.none hn, Except.ok.injEq] at hr
          subst hr
          exact ⟨⟨conn, hfound⟩, (streamOk_some hfound).mpr ⟨hn, frames, htaken⟩⟩
      | some n =>
          obtain ⟨f, reader, hnext, hbuffer⟩ := FrameReader.nextFrame_bytes hn
          obtain ⟨r, hdispatch, hdoes⟩ :=
            dispatch_does fd conn.session (moments srv.dispatched) f
          simp only [hnext, Server.onFrame, hdispatch] at hr
          have hshort : reader.buffer.length < fuel := by
            rw [hbuffer, List.length_append, Frame.length_bytes] at hlen
            have hsize : headerSize = 7 := rfl
            omega
          by_cases hclose : Output.close ∈ r.2
          · -- the loop looks at the entry once more, and it is gone
            obtain ⟨k, rfl⟩ : ∃ k, fuel = k + 1 := ⟨fuel - 1, by omega⟩
            rw [if_pos hclose, Server.readFrames_erased (Finmap.lookup_erase _ _)] at hr
            cases hr
          · rw [if_neg hclose] at hr
            have htaken' := htaken.frame hbuffer (fun h => hroom h srv.dispatched) hdoes hclose
            rw [← doneOn_append_self] at htaken'
            exact ih (Finmap.lookup_insert _) hshort htaken' hr

theorem recvLoop_stream (hroom : room → ∀ i, (moments i).queueRoom = true) {recvs : List Recv} :
    ∀ {srv : Server} {conn : ConnectionState} {bytes : List UInt8},
      srv.connections.lookup fd = some conn → StreamOk room fd bytes srv →
      srv.recvLoop moments fd recvs = .ok srv' →
      StreamOk room fd (bytes ++ (received recvs).flatten) srv' := by
  induction recvs with
  | nil =>
      intro srv conn bytes _ h hr
      cases hr
      exact (List.append_nil bytes).symm ▸ h
  | cons recv recvs ih =>
      intro srv conn bytes hfound h hr
      cases recv with
      | again =>
          cases hr
          exact (List.append_nil bytes).symm ▸ h
      | eof | error =>
          cases hr
          exact streamOk_closeConnection
      | data chunk =>
          obtain ⟨_, frames, htaken⟩ := (streamOk_some hfound).mp h
          rw [Server.recvLoop_data hfound] at hr
          split at hr
          · exact absurd hr (by simp)
          · rename_i srv₁ hread
            have hfed : (srv.feed fd conn chunk).connections.lookup fd
                = some { conn with reader := conn.reader.feed chunk } := Finmap.lookup_insert _
            obtain ⟨⟨conn₁, hfound₁⟩, hstream⟩ :=
              readFrames_taken hroom hfed (Nat.lt_succ_self _) (htaken.feed chunk) hread
            rw [received, List.flatten_cons, ← List.append_assoc]
            exact ih hfound₁ hstream hr

/-! ## Whole runs -/

/-- The event finds room in the queue for every frame on the descriptor. -/
def Ready.RoomOn (fd : UInt32) : Ready → Prop
  | .readable fd' _ moments => fd' = fd → ∀ i, (moments i).queueRoom = true
  | .listen _ | .eof _ => True

theorem StreamOk.onReady (h : StreamOk room fd bytes srv) {r : Ready}
    (hroom : room → r.RoomOn fd) (hs : srv.onReady r = some srv') :
    StreamOk room fd (hear fd bytes r) srv' := by
  cases r with
  | listen client =>
      cases client with
      | none =>
          cases hs
          exact h
      | some client =>
          dsimp only [Server.onReady, Server.step] at hs
          split at hs
          · rename_i hfree
            cases hs
            dsimp only [hear]
            by_cases hfd : client = fd
            · -- the stream begins, and so does what is made of it
              subst hfd
              rw [if_pos rfl, streamOk_some (Finmap.lookup_insert _)]
              have hnone := (streamOk_none hfree).mp h
              refine ⟨size_nil frameFormat, [], rfl, rfl, ?_, fun _ => hnone⟩
              rw [hnone]
              exact List.nil_sublist _
            · rw [if_neg hfd]
              exact h.elsewhere (Finmap.lookup_insert_of_ne _ (Ne.symm hfd)) rfl
          · exact absurd hs (by simp)
  | eof fd' =>
      cases hs
      exact h.closeConnection fd'
  | readable fd' recvs moments =>
      dsimp only [hear]
      by_cases hfd : fd' = fd
      · subst hfd
        rw [if_pos rfl]
        dsimp only [Server.onReady] at hs
        split at hs
        · exact absurd hs (by simp)
        · rename_i srv₁ hread
          cases hs
          rw [Server.handleReadable] at hread
          cases hfound : srv.connections.lookup fd' with
          | none =>
              rw [hfound] at hread
              cases hread
              exact (streamOk_none hfound).mpr ((streamOk_none hfound).mp h)
          | some conn =>
              rw [hfound] at hread
              exact recvLoop_stream (fun hr => hroom hr rfl) hfound h hread
      · rw [if_neg hfd]
        have hwithin : (Ready.readable fd' recvs moments).Within (· ≠ fd) fun _ => True :=
          ⟨hfd, fun _ => trivial⟩
        exact (kept_streamOk fun _ => True).onReady hwithin h hs

theorem StreamOk.exec_onReady {ready : List Ready} : ∀ {srv : Server} {bytes : List UInt8},
    StreamOk room fd bytes srv → (room → ∀ r ∈ ready, r.RoomOn fd) →
    Machine.exec Server.onReady srv ready = some srv' →
    StreamOk room fd (ready.foldl (hear fd) bytes) srv' := by
  induction ready with
  | nil =>
      intro srv bytes h _ hs
      cases hs
      exact h
  | cons r ready ih =>
      intro srv bytes h hroom hs
      obtain ⟨srv₁, hr, hs⟩ := Machine.exec_cons.mp hs
      rw [List.foldl_cons]
      exact ih (h.onReady (fun hr => hroom hr r List.mem_cons_self) hr)
        (fun hr r' hin => hroom hr r' (List.mem_cons_of_mem _ hin)) hs

/-- Only what `kevent` reports is read; the rest of a call leaves the stream alone. -/
theorem StreamOk.pollOnce (h : StreamOk room fd bytes srv) {p : Poll}
    (hroom : room → ∀ r ∈ p.ready, r.RoomOn fd) (hs : srv.pollOnce p = some srv') :
    StreamOk room fd (p.ready.foldl (hear fd) bytes) srv' := by
  obtain ⟨srv₁, hready, _, rfl⟩ := Server.pollOnce_eq_some hs
  have hwalked : StreamOk room fd (p.ready.foldl (hear fd) bytes) (srv₁.checkHeartbeats p.walk) :=
    List.foldlRecOn p.walk _ (h.exec_onReady hroom hready)
      fun _ hk visit _ => hk.checkHeartbeat visit.1 visit.2
  exact List.foldlRecOn p.acks _ hwalked fun _ hk ack _ => hk.drainAck ack.1 ack.2

theorem StreamOk.exec_pollOnce {polls : List Poll} : ∀ {srv : Server} {bytes : List UInt8},
    StreamOk room fd bytes srv → (room → ∀ r ∈ polls.flatMap Poll.ready, r.RoomOn fd) →
    Machine.exec Server.pollOnce srv polls = some srv' →
    StreamOk room fd ((polls.flatMap Poll.ready).foldl (hear fd) bytes) srv' := by
  induction polls with
  | nil =>
      intro srv bytes h _ hs
      cases hs
      exact h
  | cons p polls ih =>
      intro srv bytes h hroom hs
      obtain ⟨srv₁, hp, hs⟩ := Machine.exec_cons.mp hs
      rw [List.flatMap_cons] at hroom ⊢
      rw [List.foldl_append]
      exact ih (h.pollOnce (fun hr r hin => hroom hr r (List.mem_append_left _ hin)) hp)
        (fun hr r hin => hroom hr r (List.mem_append_right _ hin)) hs

end Server

/-- **The bytes read from a connection decide its orders.** In every run of `poll_once` in
which no client logs out or logs on twice, an open connection has been read as the frames in
its bytes, with the rest in its reader; its session is where those frames take it; and the
orders among them were pushed in their order, none twice, and all of them if there was room. -/
theorem bytes_decide_orders (polls : List Poll) (srv : Server) (fd : UInt32)
    (conn : ConnectionState)
    (hrun : Machine.exec Server.pollOnce .init polls = some srv)
    (hopen : srv.connections.lookup fd = some conn) :
    ∃ frames : List Frame,
      Cuts frameFormat (heardOn fd (polls.flatMap Poll.ready)) (frames.map Frame.bytes)
        conn.reader.buffer
      ∧ conn.session.status = frames.foldl statusAfter .awaitingLogon
      ∧ List.Sublist (pushedSince (doneOn fd srv.outputs)) (ordersOf fd frames)
      ∧ ((∀ r ∈ polls.flatMap Poll.ready, r.RoomOn fd) →
        pushedSince (doneOn fd srv.outputs) = ordersOf fd frames) := by
  have hinit : StreamOk (∀ r ∈ polls.flatMap Poll.ready, r.RoomOn fd) fd [] .init := by
    rw [streamOk_none (Finmap.lookup_empty _)]
    rfl
  obtain ⟨hsize, frames, htaken⟩ := (streamOk_some hopen).mp (hinit.exec_pollOnce id hrun)
  refine ⟨frames, ?_, htaken.status, htaken.some_pushed, htaken.all_pushed⟩
  have hwhole : ∀ b ∈ frames.map Frame.bytes, Whole frameFormat b := by
    intro b hb
    obtain ⟨f, _, rfl⟩ := List.mem_map.mp hb
    exact f.whole
  have hcut := (cuts_flatten hwhole).append (t := conn.reader.buffer) (.done hsize)
  rw [List.append_nil] at hcut
  rw [heardOn, htaken.bytes]
  exact hcut

/-- An order comes in two pieces, in two calls, with a heartbeat and another client between
them. -/
theorem bytes_decide_orders_two_pieces :
    let logon := (ClientMsg.frame 1 (.logon ⟨7, 1000, 0⟩)).bytes
    let order := (ClientMsg.frame 2 (.newOrder ⟨42, Vector.replicate 8 0, 0, 100, 10⟩)).bytes
    let moments : Nat → Moment := fun _ => ⟨0, true⟩
    let polls : List Poll :=
      [⟨[.listen (some 5), .readable 5 [.data (logon ++ order.take 9), .again] moments],
          [(5, 1000000000)], [], 0, 1000000000⟩,
        ⟨[.listen (some 6), .readable 5 [.data (order.drop 9), .again] moments],
          [(5, 1000000000), (6, 1000000000)], [], 1000000000, 1000000000⟩]
    ∃ srv conn, Machine.exec Server.pollOnce .init polls = some srv
      ∧ srv.connections.lookup 5 = some conn
      ∧ (pushedSince (doneOn 5 srv.outputs)).map (fun ev => (ev.clientOrderId, ev.quantity))
          = [(42, 10)]
      ∧ ∃ frames : List Frame,
        Cuts frameFormat (heardOn 5 (polls.flatMap Poll.ready)) (frames.map Frame.bytes)
          conn.reader.buffer
        ∧ conn.session.status = frames.foldl statusAfter .awaitingLogon
        ∧ List.Sublist (pushedSince (doneOn 5 srv.outputs)) (ordersOf 5 frames)
        ∧ pushedSince (doneOn 5 srv.outputs) = ordersOf 5 frames := by
  intro logon order moments polls
  have hrun : (Machine.exec Server.pollOnce .init polls).map (fun srv =>
      ((srv.connections.lookup 5).isSome,
        (pushedSince (doneOn 5 srv.outputs)).map fun ev => (ev.clientOrderId, ev.quantity)))
      = some (true, [(42, 10)]) := by
    decide +kernel
  obtain ⟨srv, hsrv, heval⟩ := Option.map_eq_some_iff.mp hrun
  rw [Prod.mk.injEq] at heval
  obtain ⟨conn, hconn⟩ := Option.isSome_iff_exists.mp heval.1
  have hroom : ∀ r ∈ polls.flatMap Poll.ready, r.RoomOn 5 := by
    simp [polls, Ready.RoomOn, moments]
  obtain ⟨frames, hcut, hstatus, hsome, hall⟩ := bytes_decide_orders polls srv 5 conn hsrv hconn
  exact ⟨srv, conn, hsrv, hconn, heval.2, frames, hcut, hstatus, hsome, hall hroom⟩

end HftLob.Gateway

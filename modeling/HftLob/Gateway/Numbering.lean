import HftLob.Gateway.PollLoop

/-!
# The numbers of outbound frames

Four places of the server build a frame: the answer to a logon, a resend request, an
execution report and a heartbeat. Each takes the next number of its session, so what goes
out on a connection is numbered without a gap, whichever of them speaks when.

A descriptor is used again after a close, and the count then starts again.
-/

namespace HftLob.Gateway

open HftLob.Wire HftLob.Lib

/-! ## Counting frames -/

/-- What was done about a descriptor, in order. -/
def doneOn (fd : UInt32) (outputs : List (UInt32 × Output)) : List Output :=
  outputs.filterMap fun o => if o.1 = fd then some o.2 else none

/-- How many frames were sent since the last close. -/
def framesSent (outputs : List Output) : Nat :=
  outputs.foldl (fun n o => match o with
    | .send _ => n + 1
    | .push _ => n
    | .close => 0) 0

/-- Every frame carries the number of frames that were sent before it. -/
def InOrder (outputs : List Output) : Prop :=
  ∀ before f after, outputs = before ++ .send f :: after →
    f.seqNum = UInt32.ofNat (framesSent before)

theorem framesSent_concat (outputs : List Output) (o : Output) :
    framesSent (outputs ++ [o]) = match o with
      | .send _ => framesSent outputs + 1
      | .push _ => framesSent outputs
      | .close => 0 := by
  rw [framesSent, List.foldl_append]
  rfl

theorem inOrder_concat {outputs : List Output} {o : Output} (h : InOrder outputs)
    (ho : ∀ f, o = .send f → f.seqNum = UInt32.ofNat (framesSent outputs)) :
    InOrder (outputs ++ [o]) := by
  intro before f after heq
  rcases List.eq_nil_or_concat after with rfl | ⟨after, last, rfl⟩
  · obtain ⟨hbefore, hlast⟩ := List.append_inj' heq rfl
    rw [← hbefore]
    exact ho f (List.singleton_inj.mp hlast)
  · rw [List.concat_eq_append, ← List.cons_append, ← List.append_assoc] at heq
    exact h before f after (List.append_inj' heq rfl).1

theorem doneOn_append_self (fd : UInt32) (outputs : List (UInt32 × Output)) (said : List Output) :
    doneOn fd (outputs ++ said.map fun o => (fd, o)) = doneOn fd outputs ++ said := by
  simp [doneOn, List.filterMap_append, List.filterMap_map]

theorem doneOn_append_ne {fd fd' : UInt32} (h : fd' ≠ fd) (outputs : List (UInt32 × Output))
    (said : List Output) :
    doneOn fd (outputs ++ said.map fun o => (fd', o)) = doneOn fd outputs := by
  simp [doneOn, List.filterMap_append, List.filterMap_map, h]

/-! ## The invariant -/

/-- The next number of a session is how many frames were sent on its connection. -/
def Counts (outputs : List Output) (s : SessionState) : Prop :=
  s.outboundSeq = UInt32.ofNat (framesSent outputs)

@[simp] theorem trackInboundSeq_outboundSeq (s : SessionState) (seqNum : UInt32) (now : Int) :
    (s.trackInboundSeq seqNum now).1.outboundSeq = s.outboundSeq := by
  unfold SessionState.trackInboundSeq
  dsimp only
  split
  · rfl
  · split <;> rfl

@[simp] theorem handleLogon_outboundSeq (s : SessionState) (clientId : UInt64) (ms seq : UInt32)
    (now : Int) : (s.handleLogon clientId ms seq now).1.outboundSeq = s.outboundSeq := by
  unfold SessionState.handleLogon
  split <;> rfl

/-- One frame more. -/
theorem Counts.send {outputs : List Output} {s : SessionState} (h : Counts outputs s) (now : Int)
    (frame : UInt32 → Frame) (f : Frame) :
    Counts (outputs ++ [.send f]) (sendNumbered s now frame).1 := by
  show s.outboundSeq + 1 = _
  rw [h, framesSent_concat, UInt32.ofNat_add]
  rfl

/-- **Whatever a session talks is in order**, if what it said before is. -/
theorem Talk.inOrder {now : Int} {s s' : SessionState} {said : List Output}
    (h : Talk now s said s') : ∀ {outputs : List Output}, InOrder outputs → Counts outputs s →
    InOrder (outputs ++ said) ∧ Counts (outputs ++ said) s' := by
  induction h with
  | done s =>
      intro outputs hin hcount
      rw [List.append_nil]
      exact ⟨hin, hcount⟩
  | @logon s s' said clientId ms seq _ _ ih =>
      intro outputs hin hcount
      have hin' := inOrder_concat (o := .send (logonAckFrame s.outboundSeq)) hin (by
        rintro f ⟨rfl⟩
        exact hcount)
      have hcount' : Counts outputs (s.handleLogon clientId ms seq now).1 :=
        (handleLogon_outboundSeq s clientId ms seq now).trans hcount
      rw [List.append_cons]
      exact ih hin' (hcount'.send now _ _)
  | heard seqNum _ ih =>
      intro outputs hin hcount
      exact ih hin ((trackInboundSeq_outboundSeq _ seqNum now).trans hcount)
  | @send s s' said frame numbered _ ih =>
      intro outputs hin hcount
      have hin' := inOrder_concat (o := .send (frame s.outboundSeq)) hin (by
        rintro f ⟨rfl⟩
        rw [numbered]
        exact hcount)
      rw [List.append_cons]
      exact ih hin' (hcount.send now _ _)
  | push ev _ ih =>
      intro outputs hin hcount
      have hin' := inOrder_concat (o := .push ev) hin (by simp)
      have hcount' : Counts (outputs ++ [.push ev]) _ := hcount.trans (by rw [framesSent_concat])
      rw [List.append_cons]
      exact ih hin' hcount'

/-- A descriptor without a connection has nothing sent on it since its last close. -/
structure NumberInv (srv : Server) : Prop where
  inOrder : ∀ fd, InOrder (doneOn fd srv.outputs)
  counts : ∀ fd conn, srv.connections.lookup fd = some conn →
    Counts (doneOn fd srv.outputs) conn.session
  unused : ∀ fd, srv.connections.lookup fd = none → framesSent (doneOn fd srv.outputs) = 0

theorem numberInv_init : NumberInv .init where
  inOrder fd := by
    intro before f after h
    exact absurd h (by simp [Server.init, doneOn])
  counts fd conn h := by simp [Server.init] at h
  unused fd _ := rfl

variable {D : UInt32 → Prop} {T : Int → Prop} {srv srv' : Server}

/-- What happens about one descriptor is nothing to the others. -/
theorem NumberInv.of_changed (h : NumberInv srv) (fd : UInt32) (said : List Output)
    (hother : ∀ fd', fd' ≠ fd → srv'.connections.lookup fd' = srv.connections.lookup fd')
    (houtputs : srv'.outputs = srv.outputs ++ said.map fun o => (fd, o))
    (hin : InOrder (doneOn fd srv.outputs ++ said))
    (hcounts : ∀ conn, srv'.connections.lookup fd = some conn →
      Counts (doneOn fd srv.outputs ++ said) conn.session)
    (hunused : srv'.connections.lookup fd = none →
      framesSent (doneOn fd srv.outputs ++ said) = 0) : NumberInv srv' where
  inOrder fd' := by
    rw [houtputs]
    by_cases hfd : fd' = fd
    · rw [hfd, doneOn_append_self]
      exact hin
    · rw [doneOn_append_ne (Ne.symm hfd)]
      exact h.inOrder fd'
  counts fd' conn hconn := by
    rw [houtputs]
    by_cases hfd : fd' = fd
    · subst hfd
      rw [doneOn_append_self]
      exact hcounts conn hconn
    · rw [doneOn_append_ne (Ne.symm hfd)]
      exact h.counts fd' conn (hother fd' hfd ▸ hconn)
  unused fd' hnone := by
    rw [houtputs]
    by_cases hfd : fd' = fd
    · subst hfd
      rw [doneOn_append_self]
      exact hunused hnone
    · rw [doneOn_append_ne (Ne.symm hfd)]
      exact h.unused fd' (hother fd' hfd ▸ hnone)

theorem NumberInv.opened (h : NumberInv srv) {fd : UInt32}
    (hfree : srv.connections.lookup fd = none)
    (hconns : srv'.connections = srv.connections.insert fd {})
    (houtputs : srv'.outputs = srv.outputs) : NumberInv srv' := by
  have hsame : doneOn fd srv.outputs ++ [] = doneOn fd srv.outputs := List.append_nil _
  refine h.of_changed fd [] ?_ (by simp [houtputs]) ?_ ?_ ?_
  · intro fd' hne
    rw [hconns, Finmap.lookup_insert_of_ne _ hne]
  · rw [hsame]
    exact h.inOrder fd
  · intro conn hconn
    rw [hconns, Finmap.lookup_insert, Option.some.injEq] at hconn
    rw [hsame, Counts, h.unused fd hfree, ← hconn]
    rfl
  · intro hnone
    rw [hconns, Finmap.lookup_insert] at hnone
    exact absurd hnone (by simp)

theorem NumberInv.closed (h : NumberInv srv) {fd : UInt32}
    (hconns : srv'.connections = srv.connections.erase fd)
    (houtputs : srv'.outputs = srv.outputs ++ [(fd, .close)]) : NumberInv srv' := by
  refine h.of_changed fd [.close] ?_ houtputs
    (inOrder_concat (h.inOrder fd) (by simp)) ?_ fun _ => framesSent_concat _ _
  · intro fd' hne
    rw [hconns, Finmap.lookup_erase_ne hne]
  · intro conn hconn
    rw [hconns, Finmap.lookup_erase] at hconn
    exact absurd hconn (by simp)

theorem NumberInv.talked (h : NumberInv srv) {fd : UInt32} {conn : ConnectionState}
    {session : SessionState} {said : List Output} {now : Int}
    (hfound : srv.connections.lookup fd = some conn) (htalk : Talk now conn.session said session)
    (hconns : srv'.connections = srv.connections.insert fd { conn with session := session })
    (houtputs : srv'.outputs = srv.outputs ++ said.map fun o => (fd, o)) : NumberInv srv' := by
  obtain ⟨hin, hcount⟩ := htalk.inOrder (h.inOrder fd) (h.counts fd conn hfound)
  refine h.of_changed fd said ?_ houtputs hin ?_ ?_
  · intro fd' hne
    rw [hconns, Finmap.lookup_insert_of_ne _ hne]
  · intro conn' hconn'
    rw [hconns, Finmap.lookup_insert, Option.some.injEq] at hconn'
    rw [← hconn']
    exact hcount
  · intro hnone
    rw [hconns, Finmap.lookup_insert] at hnone
    exact absurd hnone (by simp)

theorem numberInv_kept : Kept D T NumberInv where
  change := by
    intro srv srv' h hchange
    cases hchange with
    | nothing hconns houtputs =>
        exact ⟨houtputs ▸ h.inOrder, houtputs ▸ hconns ▸ h.counts, houtputs ▸ hconns ▸ h.unused⟩
    | opened fd _ hfree hconns houtputs => exact h.opened hfree hconns houtputs
    | closed fd _ hconns houtputs => exact h.closed hconns houtputs
    | talked fd _ conn session said now _ hfound htalk hconns houtputs =>
        exact h.talked hfound htalk hconns houtputs
  read := by
    intro srv fd conn reader _ h hfound
    refine ⟨h.inOrder, ?_, ?_⟩
    · intro fd' conn' hconn'
      by_cases hfd : fd' = fd
      · subst hfd
        rw [Finmap.lookup_insert, Option.some.injEq] at hconn'
        rw [← hconn']
        exact h.counts fd' conn hfound
      · rw [Finmap.lookup_insert_of_ne _ hfd] at hconn'
        exact h.counts fd' conn' hconn'
    · intro fd' hnone
      by_cases hfd : fd' = fd
      · subst hfd
        rw [Finmap.lookup_insert] at hnone
        exact absurd hnone (by simp)
      · rw [Finmap.lookup_insert_of_ne _ hfd] at hnone
        exact h.unused fd' hnone

theorem numberInv_polls {polls : List Poll} (hrun : Machine.exec Server.pollOnce .init polls
    = some srv) : NumberInv srv :=
  Machine.exec_preserves (fun _ p _ h hs => numberInv_kept.pollOnce p.within_any h hs) polls _ _
    numberInv_init hrun

/-- **What goes out on a connection is numbered from zero without a gap**, in every run of
the poll loop in which no client logs out or logs on twice: a frame handed to `send_frame`
carries the number of frames that were sent on its connection before it, whoever sent them. -/
theorem outbound_frames_numbered (polls : List Poll) (srv : Server)
    (hrun : Machine.exec Server.pollOnce .init polls = some srv) (fd : UInt32)
    (before after : List Output) (f : Frame)
    (hsent : doneOn fd srv.outputs = before ++ .send f :: after) :
    f.seqNum = UInt32.ofNat (framesSent before) :=
  (numberInv_polls hrun).inOrder fd before f after hsent

/-- A logon is answered, a heartbeat falls due and a report comes back: numbers 0, 1 and 2. -/
theorem outbound_frames_numbered_report :
    let logon := (ClientMsg.frame 1 (.logon ⟨7, 1000, 0⟩)).bytes
    let polls : List Poll :=
      [⟨[.listen (some 5), .readable 5 [.data logon, .again] fun _ => ⟨0, true⟩],
          [(5, 0)], [], 0, 0⟩,
        ⟨[], [(5, 1000000000)], [(⟨5, 42, 1, .accepted, 0, 0, 10⟩, 1000000000)],
          1000000000, 1000000000⟩]
    let report := executionReportFrame 2 ⟨42, 1, execStatusByte .accepted, 0, 0, 10⟩
    ∃ srv, Machine.exec Server.pollOnce .init polls = some srv
      ∧ doneOn 5 srv.outputs
        = [.send (logonAckFrame 0), .send (heartbeatFrame 1)] ++ .send report :: []
      ∧ report.seqNum = UInt32.ofNat 2 := by
  intro logon polls report
  have hrun : (Machine.exec Server.pollOnce .init polls).map (fun srv => doneOn 5 srv.outputs)
      = some ([.send (logonAckFrame 0), .send (heartbeatFrame 1)] ++ .send report :: []) := by
    decide +kernel
  obtain ⟨srv, hsrv, hdone⟩ := Option.map_eq_some_iff.mp hrun
  exact ⟨srv, hsrv, hdone, outbound_frames_numbered polls srv hsrv 5 _ _ _ hdone⟩

end HftLob.Gateway

import HftLob.Lib.Machine
import HftLob.Wire.FrameReader

/-!
# Writing frames to a connection

`send_frame` on a non-blocking socket. `send` may take any part of what it is offered, or
nothing; in the second case `send_frame` returns and forgets what is left of the frame,
and the next frame goes out right behind the part that was taken.

A connection's outbound side moves by single `send` calls, and the environment chooses
what each one does. `built` and `torn` are not data of the program: the frames handed to
`send_frame` so far, and whether one of them was given up in its middle.
-/

namespace HftLob.Gateway

open HftLob.Wire HftLob.Lib HftLob.Lib.Framing

/-! ## The frames the gateway builds -/

/-- The vector `out` of `send_frame`. -/
def outFrame (type : MsgType) (seqNum : UInt32) (body : List UInt8)
    (h : body.length < 2 ^ 16) : Frame where
  msgType := type.byte
  seqNum := seqNum
  body := body
  body_lt := h

/-- `send_logon_ack`: a `LogonMsg` of zeros. -/
def logonAckFrame (seqNum : UInt32) : Frame :=
  outFrame .logon seqNum (LogonMsg.bytes ⟨0, 0, 0⟩) (by decide)

def resendRequestFrame (seqNum : UInt32) (range : ResendRange) : Frame :=
  outFrame .resendRequest seqNum range.bytes (by rw [ResendRange.length_bytes]; decide)

def executionReportFrame (seqNum : UInt32) (report : Wire.ExecutionReportMsg) : Frame :=
  outFrame .executionReport seqNum report.bytes
    (by rw [ExecutionReportMsg.length_bytes]; decide)

def heartbeatFrame (seqNum : UInt32) : Frame := outFrame .heartbeat seqNum [] (by decide)

/-! ## The send loop -/

structure Outbound where
  built : List Frame
  /-- Every byte the socket has taken, in order. -/
  accepted : List UInt8
  /-- `out` and `sent` of the call in progress. -/
  sending : Option (List UInt8 × Nat)
  torn : Bool
  deriving DecidableEq

def Outbound.init : Outbound := ⟨[], [], none, false⟩

inductive SendAction where
  /-- `send_frame` is called. -/
  | sendFrame (frame : Frame)
  /-- `send` returns `n > 0`. -/
  | sent (n : Nat)
  /-- `send` returns zero or less. -/
  | failed
  deriving DecidableEq

def Outbound.step (s : Outbound) : SendAction → Option Outbound
  | .sendFrame frame =>
      match s.sending with
      | none => some { s with built := s.built ++ [frame], sending := some (frame.bytes, 0) }
      | some _ => none
  | .sent n =>
      match s.sending with
      | none => none
      | some (out, sent) =>
          if 1 ≤ n ∧ n ≤ out.length - sent then
            some { s with
              accepted := s.accepted ++ (out.drop sent).take n
              sending := if sent + n < out.length then some (out, sent + n) else none }
          else none
  | .failed =>
      match s.sending with
      | none => none
      | some (_, sent) => some { s with sending := none, torn := s.torn || 0 < sent }

/-- Once a frame was given up in its middle, the socket takes nothing more. -/
def SilentOnceTorn (s : Outbound) : SendAction → Prop
  | .sent _ => s.torn = false
  | .sendFrame _ | .failed => True

instance (s : Outbound) (a : SendAction) : Decidable (SilentOnceTorn s a) :=
  match a with
  | .sent _ => inferInstanceAs (Decidable (s.torn = false))
  | .sendFrame _ | .failed => .isTrue trivial

/-- What the socket took is a beginning of whole frames that the gateway built, in their order
and none twice, and whatever a decoder cuts out of it are such frames. -/
def Parseable (s : Outbound) : Prop :=
  (∃ fs : List Frame, List.Sublist fs s.built ∧ s.accepted <+: (fs.map Frame.bytes).flatten)
    ∧ ∀ frames rest, Cuts frameFormat s.accepted frames rest →
      ∃ fs : List Frame, List.Sublist fs s.built ∧ fs.map Frame.bytes = frames

/-! ## The invariant -/

/-- The part of the frame being sent that is with the socket already. -/
def Outbound.part (s : Outbound) : List UInt8 :=
  match s.sending with
  | none => []
  | some (out, sent) => out.take sent

/-- The frames that were built before the one being sent. -/
def Outbound.done (s : Outbound) : List Frame :=
  match s.sending with
  | none => s.built
  | some _ => s.built.dropLast

structure StreamInv (s : Outbound) : Prop where
  current : ∀ out sent, s.sending = some (out, sent) →
    sent < out.length ∧ ∃ f, s.built = s.done ++ [f] ∧ f.bytes = out
  /-- Whole frames, and behind them what went out of the one being sent. -/
  stream : s.torn = false →
    ∃ fs, List.Sublist fs s.done ∧ s.accepted = (fs.map Frame.bytes).flatten ++ s.part
  /-- A frame was given up, and is the last. -/
  cut : s.torn = true →
    ∃ fs, List.Sublist fs s.built ∧ s.accepted <+: (fs.map Frame.bytes).flatten

theorem streamInv_init : StreamInv .init where
  current := by intro out sent h; simp [Outbound.init] at h
  stream := fun _ => ⟨[], List.Sublist.slnil, rfl⟩
  cut := by simp [Outbound.init]

variable {s s' : Outbound}

theorem flatten_concat (fs : List Frame) (f : Frame) :
    ((fs ++ [f]).map Frame.bytes).flatten = (fs.map Frame.bytes).flatten ++ f.bytes := by
  simp

/-- What is with the socket, if no frame was given up, is a beginning of frames that were built. -/
theorem StreamInv.begins (h : StreamInv s) (htorn : s.torn = false) :
    ∃ fs, List.Sublist fs s.built ∧ s.accepted <+: (fs.map Frame.bytes).flatten := by
  obtain ⟨fs, hfs, hacc⟩ := h.stream htorn
  cases hsending : s.sending with
  | none =>
      rw [Outbound.done, hsending] at hfs
      rw [Outbound.part, hsending, List.append_nil] at hacc
      exact ⟨fs, hfs, by rw [hacc]⟩
  | some current =>
      obtain ⟨_, f, hbuilt, hbytes⟩ := h.current current.1 current.2 hsending
      refine ⟨fs ++ [f], hbuilt ▸ hfs.append (List.Sublist.refl _), ?_⟩
      rw [hacc, Outbound.part, hsending, flatten_concat, hbytes]
      exact (List.prefix_append_right_inj _).mpr (List.take_prefix _ _)

theorem StreamInv.sendFrame (h : StreamInv s) (hidle : s.sending = none) (frame : Frame) :
    StreamInv { s with built := s.built ++ [frame], sending := some (frame.bytes, 0) } where
  current := by
    intro out sent he
    cases he
    have hsize : headerSize = 7 := rfl
    refine ⟨by rw [Frame.length_bytes]; omega, frame, ?_, rfl⟩
    simp [Outbound.done]
  stream := by
    intro htorn
    obtain ⟨fs, hfs, hacc⟩ := h.stream htorn
    rw [Outbound.done, hidle] at hfs
    rw [Outbound.part, hidle] at hacc
    exact ⟨fs, by simpa [Outbound.done] using hfs, by simpa [Outbound.part] using hacc⟩
  cut := by
    intro htorn
    obtain ⟨fs, hfs, hacc⟩ := h.cut htorn
    exact ⟨fs, hfs.trans (List.sublist_append_left _ _), hacc⟩

theorem StreamInv.sent (h : StreamInv s) (htorn : s.torn = false) {out : List UInt8}
    {sent n : Nat} (hout : s.sending = some (out, sent)) :
    StreamInv { s with
      accepted := s.accepted ++ (out.drop sent).take n
      sending := if sent + n < out.length then some (out, sent + n) else none } := by
  obtain ⟨hlt, f, hbuilt, hbytes⟩ := h.current out sent hout
  obtain ⟨fs, hfs, hacc⟩ := h.stream htorn
  rw [Outbound.done, hout] at hbuilt hfs
  have hmore : s.accepted ++ (out.drop sent).take n
      = (fs.map Frame.bytes).flatten ++ out.take (sent + n) := by
    rw [hacc, Outbound.part, hout, List.append_assoc, ← List.take_add]
  by_cases hlast : sent + n < out.length
  · rw [if_pos hlast]
    refine ⟨?_, fun _ => ⟨fs, hfs, hmore⟩, fun hcut => absurd (htorn.symm.trans hcut) nofun⟩
    intro out' sent' he
    cases he
    exact ⟨hlast, f, hbuilt, hbytes⟩
  · -- the frame is complete, and the next one starts behind it
    rw [if_neg hlast]
    have hall : out.take (sent + n) = f.bytes := by
      rw [hbytes]
      exact List.take_of_length_le (by omega)
    refine ⟨nofun, fun _ => ⟨fs ++ [f], ?_, ?_⟩, fun hcut => absurd (htorn.symm.trans hcut) nofun⟩
    · show List.Sublist (fs ++ [f]) s.built
      exact hbuilt ▸ hfs.append (List.Sublist.refl _)
    · show s.accepted ++ (out.drop sent).take n = ((fs ++ [f]).map Frame.bytes).flatten ++ []
      rw [hmore, hall, flatten_concat, List.append_nil]

theorem StreamInv.failed (h : StreamInv s) {out : List UInt8} {sent : Nat}
    (hout : s.sending = some (out, sent)) :
    StreamInv { s with sending := none, torn := s.torn || 0 < sent } where
  current := nofun
  stream := by
    intro htorn
    simp only [Bool.or_eq_false_iff, decide_eq_false_iff_not] at htorn
    obtain ⟨fs, hfs, hacc⟩ := h.stream htorn.1
    -- nothing of the frame went out, so nothing is missing
    have hzero : sent = 0 := by omega
    rw [Outbound.done, hout] at hfs
    rw [Outbound.part, hout, hzero] at hacc
    exact ⟨fs, hfs.trans (List.dropLast_sublist _), hacc⟩
  cut := by
    intro _
    -- given up now, or earlier
    cases htorn : s.torn with
    | false => exact h.begins htorn
    | true => exact h.cut htorn

theorem streamInv_step {a : SendAction} (h : StreamInv s) (ha : SilentOnceTorn s a)
    (hs : s.step a = some s') : StreamInv s' := by
  cases a with
  | sendFrame frame =>
      dsimp only [Outbound.step] at hs
      split at hs
      · rename_i hidle
        cases hs
        exact h.sendFrame hidle frame
      · exact absurd hs (by simp)
  | sent n =>
      dsimp only [Outbound.step] at hs
      split at hs
      · exact absurd hs (by simp)
      · rename_i out sent hout
        split at hs
        · cases hs
          exact h.sent ha hout
        · exact absurd hs (by simp)
  | failed =>
      dsimp only [Outbound.step] at hs
      split at hs
      · exact absurd hs (by simp)
      · rename_i out sent hout
        cases hs
        exact h.failed hout

/-- From a beginning of whole frames come only these frames. -/
theorem cuts_built {fs : List Frame} {bytes rest : List UInt8} {frames : List (List UInt8)}
    (hbegin : bytes <+: (fs.map Frame.bytes).flatten)
    (hcut : Cuts frameFormat bytes frames rest) : frames <+: fs.map Frame.bytes := by
  have hwhole : ∀ g ∈ fs.map Frame.bytes, Whole frameFormat g := by
    intro g hg
    obtain ⟨f, _, rfl⟩ := List.mem_map.mp hg
    exact f.whole
  exact hcut.prefix_of_whole hwhole hbegin

theorem StreamInv.parseable (h : StreamInv s) : Parseable s := by
  have hbegin : ∃ fs, List.Sublist fs s.built ∧ s.accepted <+: (fs.map Frame.bytes).flatten := by
    cases htorn : s.torn with
    | false => exact h.begins htorn
    | true => exact h.cut htorn
  refine ⟨hbegin, fun frames rest hcut => ?_⟩
  obtain ⟨fs, hfs, hp⟩ := hbegin
  obtain ⟨gs, hgs, rfl⟩ := List.prefix_map_iff.mp (cuts_built hp hcut)
  exact ⟨gs, hgs.sublist.trans hfs, rfl⟩

/-- **What is on a connection can be parsed**, as long as nothing is sent behind a frame
that was given up in its middle: the peer reads frames that were built, in the order in which
they were built and none of them twice. -/
theorem accepted_bytes_parseable (actions : List SendAction) (s : Outbound)
    (hrun : Machine.exec Outbound.step .init actions = some s)
    (hsilent : Machine.Along Outbound.step SilentOnceTorn .init actions) : Parseable s :=
  (Machine.exec_invariant (fun _ _ _ h hC ht => streamInv_step h hC ht) actions _ s
    streamInv_init hsilent hrun).parseable

/-- A heartbeat in two parts, one that the socket did not take at all, and one cut short. -/
theorem accepted_bytes_parseable_heartbeats :
    let actions : List SendAction :=
      [.sendFrame (heartbeatFrame 0), .sent 3, .sent 4, .sendFrame (heartbeatFrame 1), .failed,
       .sendFrame (heartbeatFrame 2), .sent 7, .sendFrame (heartbeatFrame 3), .sent 1, .failed]
    ∃ s, Machine.exec Outbound.step .init actions = some s
      ∧ Machine.Along Outbound.step SilentOnceTorn .init actions
      ∧ s.accepted = [0, 0, 3, 0, 0, 0, 0, 0, 0, 3, 2, 0, 0, 0, 0] ∧ Parseable s := by
  intro actions
  have heval : (Machine.exec Outbound.step .init actions).map Outbound.accepted
      = some [0, 0, 3, 0, 0, 0, 0, 0, 0, 3, 2, 0, 0, 0, 0] := by decide
  obtain ⟨s, hs, hacc⟩ := Option.map_eq_some_iff.mp heval
  have hsilent : Machine.Along Outbound.step SilentOnceTorn .init actions := by decide
  exact ⟨s, hs, hsilent, hacc, accepted_bytes_parseable actions s hs hsilent⟩

/-- Three bytes of a heartbeat go out before the socket is full, then all of the next one.
The peer reads a heartbeat nobody sent. -/
theorem torn_frame_misparsed :
    let actions : List SendAction :=
      [.sendFrame (heartbeatFrame 0), .sent 3, .failed, .sendFrame (heartbeatFrame 1), .sent 7]
    ∃ s, Machine.exec Outbound.step .init actions = some s
      ∧ s.built = [heartbeatFrame 0, heartbeatFrame 1]
      ∧ Cuts frameFormat s.accepted [(heartbeatFrame 0x01030000).bytes] [0, 0, 0]
      ∧ (¬ ∃ fs : List Frame, (∀ f ∈ fs, f ∈ s.built)
          ∧ s.accepted <+: (fs.map Frame.bytes).flatten)
      ∧ ¬ Parseable s := by
  intro actions
  have heval : (Machine.exec Outbound.step .init actions).map (fun s => (s.built, s.accepted))
      = some ([heartbeatFrame 0, heartbeatFrame 1], [0, 0, 3, 0, 0, 3, 1, 0, 0, 0]) := by decide
  obtain ⟨s, hs, heval⟩ := Option.map_eq_some_iff.mp heval
  rw [Prod.mk.injEq] at heval
  obtain ⟨hbuilt, hacc⟩ := heval
  have hcut : Cuts frameFormat s.accepted [(heartbeatFrame 0x01030000).bytes] [0, 0, 0] := by
    rw [hacc]
    exact .frame (n := 7) (by decide) (.done (by decide))
  have hnot : ¬ ∃ g ∈ s.built, g.bytes = (heartbeatFrame 0x01030000).bytes := by
    rw [hbuilt]
    decide
  refine ⟨s, hs, hbuilt, hcut, ?_, fun h => ?_⟩
  · rintro ⟨fs, hfs, hp⟩
    obtain ⟨g, hg, hbytes⟩ := List.mem_map.mp ((cuts_built hp hcut).subset List.mem_cons_self)
    exact hnot ⟨g, hfs g hg, hbytes⟩
  · obtain ⟨fs, hfs, hframes⟩ := h.2 _ _ hcut
    obtain ⟨g, hg, hbytes⟩ := List.mem_map.mp (hframes ▸ List.mem_cons_self)
    exact hnot ⟨g, hfs.subset hg, hbytes⟩

end HftLob.Gateway

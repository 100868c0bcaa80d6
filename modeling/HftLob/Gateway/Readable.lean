import HftLob.Gateway.Dispatch

/-!
# Reading from a connection

`handle_readable` holds on to an iterator into `connections_` through two loops: `recv`
until there is nothing more, and `next_frame` until there is no whole frame. `dispatch`
may erase the very entry the iterator points to. Every access through the iterator is a
lookup here, and a lookup of an erased entry is a fault.

The access that follows a frame that closes its connection is the one in the condition of
the inner loop, so one such frame is enough, whatever else has arrived.
-/

namespace HftLob.Gateway

open HftLob.Wire HftLob.Lib.Framing

structure ConnectionState where
  reader : FrameReader := .init
  session : SessionState := {}
  deriving DecidableEq

inductive Fault where
  /-- An entry of `connections_` is used after it was erased. -/
  | useAfterErase
  /-- `memcpy` reads beyond the end of the frame. -/
  | readOutsideFrame
  deriving DecidableEq

/-- What `recv` returned. -/
inductive Recv where
  | data (chunk : List UInt8)
  /-- Zero: the peer has closed its side. -/
  | eof
  /-- `EAGAIN` or `EWOULDBLOCK`. -/
  | again
  | error
  deriving DecidableEq

structure Server where
  connections : UMap UInt32 ConnectionState
  /-- What was done so far, and about which connection. -/
  outputs : List (UInt32 × Output)
  /-- How often `dispatch` was called. -/
  dispatched : Nat

namespace Server

def access (srv : Server) (fd : UInt32) : Except Fault ConnectionState :=
  match srv.connections.lookup fd with
  | none => .error .useAfterErase
  | some conn => .ok conn

def closeConnection (srv : Server) (fd : UInt32) : Server :=
  { srv with connections := srv.connections.erase fd
             outputs := srv.outputs ++ [(fd, .close)] }

/-- The session is changed in place; a frame that closes the connection erases the entry. -/
def onFrame (moments : Nat → Moment) (srv : Server) (fd : UInt32) (conn : ConnectionState)
    (frame : List UInt8) : Except Fault Server :=
  match dispatch fd frame conn.session (moments srv.dispatched) with
  | none => .error .readOutsideFrame
  | some (session, outputs) => .ok {
      connections :=
        if Output.close ∈ outputs then srv.connections.erase fd
        else srv.connections.insert fd { conn with session := session }
      outputs := srv.outputs ++ outputs.map (fun o => (fd, o))
      dispatched := srv.dispatched + 1 }

/-- The inner loop. A frame takes bytes off the buffer, so the fuel does not run out. -/
def readFrames (moments : Nat → Moment) (fd : UInt32) : Nat → Server → Except Fault Server
  | 0, srv => .ok srv
  | fuel + 1, srv =>
      match srv.access fd with
      | .error e => .error e
      | .ok conn =>
          match conn.reader.nextFrame with
          | none => .ok srv
          | some (frame, reader) =>
              match srv.onFrame moments fd { conn with reader := reader } frame with
              | .error e => .error e
              | .ok srv => readFrames moments fd fuel srv

/-- The bytes go into the reader of the connection. -/
def feed (srv : Server) (fd : UInt32) (conn : ConnectionState) (chunk : List UInt8) : Server :=
  { srv with connections :=
      srv.connections.insert fd { conn with reader := conn.reader.feed chunk } }

/-- The outer loop, until `recv` has nothing more. -/
def recvLoop (moments : Nat → Moment) (fd : UInt32) : Server → List Recv → Except Fault Server
  | srv, [] | srv, .again :: _ => .ok srv
  | srv, .eof :: _ | srv, .error :: _ => .ok (srv.closeConnection fd)
  | srv, .data chunk :: recvs =>
      match srv.access fd with
      | .error e => .error e
      | .ok conn =>
          match readFrames moments fd ((conn.reader.feed chunk).buffer.length + 1)
              (srv.feed fd conn chunk) with
          | .error e => .error e
          | .ok srv => recvLoop moments fd srv recvs

def handleReadable (moments : Nat → Moment) (srv : Server) (fd : UInt32) (recvs : List Recv) :
    Except Fault Server :=
  match srv.connections.lookup fd with
  | none => .ok srv
  | some _ => recvLoop moments fd srv recvs

end Server

/-! ## Which frames keep a connection open -/

/-- No logout among the frames, and no logon but the one an awaiting session takes. -/
def KeepsOpen (status : SessionStatus) (frames : List Frame) : Prop :=
  (∀ f ∈ frames, ¬ IsLogout f)
    ∧ frames.countP (fun f => IsLogon f) ≤ if status = .awaitingLogon then 1 else 0

instance (status : SessionStatus) (frames : List Frame) : Decidable (KeepsOpen status frames) :=
  inferInstanceAs (Decidable (_ ∧ _))

theorem keepsOpen_cons {status : SessionStatus} {f : Frame} {frames : List Frame} :
    KeepsOpen status (f :: frames)
      ↔ ¬ Closes status f ∧ KeepsOpen (statusAfter status f) frames := by
  unfold KeepsOpen Closes statusAfter
  rw [List.forall_mem_cons, List.countP_cons]
  by_cases hout : IsLogout f
  · simp [hout]
  · by_cases hlogon : IsLogon f
    · by_cases hawaiting : status = .awaitingLogon
      · simp [hout, hlogon, hawaiting]
      · simp [hout, hlogon, hawaiting]
    · simp [hout, hlogon]

theorem keepsOpen_append {status : SessionStatus} {frames frames' : List Frame} :
    KeepsOpen status (frames ++ frames')
      ↔ KeepsOpen status frames ∧ KeepsOpen (frames.foldl statusAfter status) frames' := by
  induction frames generalizing status with
  | nil =>
      have hnil : KeepsOpen status [] := ⟨by simp, by simp⟩
      simp only [List.nil_append, List.foldl_nil, hnil, true_and]
  | cons f frames ih =>
      rw [List.cons_append, keepsOpen_cons, keepsOpen_cons, ih, List.foldl_cons, and_assoc]

/-- The bytes a call looks for frames in: nothing if `recv` gives nothing, and otherwise
what was left from the call before and what comes in until `recv` has nothing more. -/
def received : List Recv → List (List UInt8)
  | .data chunk :: recvs => chunk :: received recvs
  | _ => []

def bytesRead (conn : ConnectionState) (recvs : List Recv) : List UInt8 :=
  match received recvs with
  | [] => []
  | chunks => conn.reader.buffer ++ chunks.flatten

/-! ## The loops -/

namespace Server

variable {moments : Nat → Moment} {srv : Server} {fd : UInt32} {conn : ConnectionState}

/-- A whole frame is dispatched, and the entry is gone exactly if the frame closes it. -/
theorem onFrame_spec (moments : Nat → Moment) (srv : Server) (fd : UInt32)
    (conn : ConnectionState) (f : Frame) :
    ∃ srv', srv.onFrame moments fd conn f.bytes = .ok srv'
      ∧ (Closes conn.session.status f → srv'.connections.lookup fd = none)
      ∧ (¬ Closes conn.session.status f → ∃ session, srv'.connections.lookup fd
          = some { conn with session := session }
        ∧ session.status = statusAfter conn.session.status f) := by
  obtain ⟨⟨session, outputs⟩, hdispatch, hdoes⟩ :=
    dispatch_does fd conn.session (moments srv.dispatched) f
  refine ⟨_, by rw [onFrame, hdispatch], ?_, ?_⟩
  · intro hcloses
    dsimp only
    rw [if_pos (hdoes.closed.mpr hcloses), Finmap.lookup_erase]
  · intro hopen
    refine ⟨session, ?_, hdoes.status⟩
    dsimp only
    rw [if_neg (fun h => hopen (hdoes.closed.mp h)), Finmap.lookup_insert]

theorem readFrames_erased {fuel : Nat} (h : srv.connections.lookup fd = none) :
    readFrames moments fd (fuel + 1) srv = .error .useAfterErase := by
  rw [readFrames, access, h]

/-- The inner loop gets through the frames in the buffer if none of them closes the
connection, and faults otherwise. -/
theorem readFrames_spec (moments : Nat → Moment) {frames : List Frame} :
    ∀ {fuel : Nat} {srv : Server} {conn : ConnectionState} {rest : List UInt8},
    srv.connections.lookup fd = some conn →
    Cuts frameFormat conn.reader.buffer (frames.map Frame.bytes) rest →
    conn.reader.buffer.length < fuel →
    (KeepsOpen conn.session.status frames → ∃ srv' session,
        readFrames moments fd fuel srv = .ok srv'
        ∧ srv'.connections.lookup fd = some ⟨⟨rest⟩, session⟩
        ∧ session.status = frames.foldl statusAfter conn.session.status)
      ∧ (¬ KeepsOpen conn.session.status frames →
        readFrames moments fd fuel srv = .error .useAfterErase) := by
  induction frames with
  | nil =>
      intro fuel srv conn rest hconn hcut hfuel
      obtain ⟨fuel, rfl⟩ : ∃ k, fuel = k + 1 := ⟨fuel - 1, by omega⟩
      have hbuf : conn.reader.buffer = rest := hcut.flatten
      have hnone : conn.reader.nextFrame = none := by
        refine FrameReader.reads.none ?_
        rw [hbuf]
        exact hcut.rest
      refine ⟨fun _ => ⟨srv, conn.session, ?_, ?_, rfl⟩, fun h => absurd ⟨by simp, by simp⟩ h⟩
      · rw [readFrames, access, hconn]
        simp only [hnone]
      · rw [hconn, ← hbuf]
  | cons f frames ih =>
      intro fuel srv conn rest hconn hcut hfuel
      obtain ⟨fuel, rfl⟩ : ∃ k, fuel = k + 1 := ⟨fuel - 1, by omega⟩
      rw [List.map_cons] at hcut
      obtain ⟨n, hn, htake, htail⟩ := hcut.first
      obtain ⟨reader, hnext, hbuf⟩ := FrameReader.reads.some hn
      rw [htake] at hnext
      have hpos := frameFormat.size_pos hn
      have hle := frameFormat.size_le hn
      obtain ⟨srv', honFrame, hclosed, hopen⟩ :=
        onFrame_spec moments srv fd { conn with reader := reader } f
      -- the loop goes on from what `dispatch` left
      have hloop : readFrames moments fd (fuel + 1) srv = readFrames moments fd fuel srv' := by
        rw [readFrames, access, hconn]
        simp only [hnext, honFrame]
      rw [hloop, keepsOpen_cons, List.foldl_cons]
      by_cases hcloses : Closes conn.session.status f
      · -- the entry is erased, and the condition of the loop looks at it
        obtain ⟨k, rfl⟩ : ∃ k, fuel = k + 1 := ⟨fuel - 1, by omega⟩
        have hfault : readFrames moments fd (k + 1) srv' = .error .useAfterErase :=
          readFrames_erased (hclosed hcloses)
        exact ⟨fun h => absurd hcloses h.1, fun _ => hfault⟩
      · obtain ⟨session, hlookup, hstatus⟩ := hopen hcloses
        have hlen : reader.buffer.length < fuel := by
          rw [hbuf, List.length_drop]
          omega
        obtain ⟨hok, hbad⟩ := ih hlookup (by rw [hbuf]; exact htail) hlen
        dsimp only at hok hbad
        rw [hstatus] at hok hbad
        exact ⟨fun h => hok h.2, fun h => hbad fun hk => h ⟨hcloses, hk⟩⟩

/-- A chunk more. -/
theorem recvLoop_data {recvs : List Recv} {chunk : List UInt8} (hconn : srv.connections.lookup fd
    = some conn) :
    recvLoop moments fd srv (.data chunk :: recvs)
      = match readFrames moments fd ((conn.reader.feed chunk).buffer.length + 1)
            (srv.feed fd conn chunk) with
        | .error e => .error e
        | .ok srv => recvLoop moments fd srv recvs := by
  rw [recvLoop, access, hconn]

/-- The loop ends without a look at the entry. -/
theorem recvLoop_idle {recvs : List Recv} (h : received recvs = []) :
    ∃ srv', recvLoop moments fd srv recvs = .ok srv' := by
  cases recvs with
  | nil => exact ⟨_, rfl⟩
  | cons recv recvs =>
      cases recv with
      | data chunk => exact absurd h (by simp [received])
      | eof | again | error => exact ⟨_, rfl⟩

/-- What the outer loop makes of the frames that come in, from an entry whose frames are
all taken or with a chunk that makes it take them. -/
theorem recvLoop_spec {recvs : List Recv} : ∀ {srv : Server} {conn : ConnectionState}
    {frames : List Frame} {rest : List UInt8}, srv.connections.lookup fd = some conn →
    (received recvs = [] → frameFormat.size conn.reader.buffer = none) →
    Cuts frameFormat (conn.reader.buffer ++ (received recvs).flatten)
        (frames.map Frame.bytes) rest →
    (KeepsOpen conn.session.status frames → ∃ srv', recvLoop moments fd srv recvs = .ok srv')
      ∧ (¬ KeepsOpen conn.session.status frames →
        recvLoop moments fd srv recvs = .error .useAfterErase) := by
  have hidle : ∀ {recvs : List Recv} {srv : Server} {conn : ConnectionState}
      {frames : List Frame} {rest : List UInt8}, received recvs = [] →
      frameFormat.size conn.reader.buffer = none →
      Cuts frameFormat (conn.reader.buffer ++ (received recvs).flatten)
        (frames.map Frame.bytes) rest →
      (KeepsOpen conn.session.status frames → ∃ srv', recvLoop moments fd srv recvs = .ok srv')
        ∧ (¬ KeepsOpen conn.session.status frames →
          recvLoop moments fd srv recvs = .error .useAfterErase) := by
    intro recvs srv conn frames rest hnone hsize hcut
    rw [hnone, List.flatten_nil, List.append_nil] at hcut
    have hnil : frames = [] := List.map_eq_nil_iff.mp (hcut.unique (.done hsize)).1
    subst hnil
    exact ⟨fun _ => recvLoop_idle hnone, fun h => absurd ⟨by simp, by simp⟩ h⟩
  induction recvs with
  | nil =>
      intro srv conn frames rest hconn hdrained hcut
      exact hidle rfl (hdrained rfl) hcut
  | cons recv recvs ih =>
      intro srv conn frames rest hconn hdrained hcut
      cases recv with
      | eof | again | error => exact hidle rfl (hdrained rfl) hcut
      | data chunk =>
          -- the frames that this chunk completes, and those of the later ones
          obtain ⟨now, left, hnow⟩ := Frame.exists_cuts (conn.reader.buffer ++ chunk)
          obtain ⟨later, rest', hlater⟩ := Frame.exists_cuts (left ++ (received recvs).flatten)
          have hall : Cuts frameFormat
              (conn.reader.buffer ++ (received (.data chunk :: recvs)).flatten)
              ((now ++ later).map Frame.bytes) rest' := by
            rw [received, List.flatten_cons, ← List.append_assoc, List.map_append]
            exact hnow.append hlater
          obtain ⟨rfl, rfl⟩ := Frame.cuts_unique hcut hall
          rw [recvLoop_data hconn, keepsOpen_append]
          have hfed : (srv.feed fd conn chunk).connections.lookup fd
              = some { conn with reader := conn.reader.feed chunk } := Finmap.lookup_insert _
          obtain ⟨hok, hbad⟩ := readFrames_spec moments hfed hnow (Nat.lt_succ_self _)
          by_cases hkeeps : KeepsOpen conn.session.status now
          · obtain ⟨srv', session, hread, hlookup, hstatus⟩ := hok hkeeps
            obtain ⟨hok', hbad'⟩ := ih hlookup (fun _ => hnow.rest) hlater
            dsimp only at hok' hbad'
            rw [hstatus] at hok' hbad'
            rw [hread]
            exact ⟨fun h => hok' h.2, fun h => hbad' fun hk => h ⟨hkeeps, hk⟩⟩
          · rw [hbad hkeeps]
            exact ⟨fun h => absurd h.1 hkeeps, fun _ => rfl⟩

/-- What a call makes of the frames it gets to see. -/
theorem handleReadable_spec (moments : Nat → Moment) {recvs : List Recv} {frames : List Frame}
    {rest : List UInt8} (hconn : srv.connections.lookup fd = some conn)
    (hcut : Cuts frameFormat (bytesRead conn recvs) (frames.map Frame.bytes) rest) :
    (KeepsOpen conn.session.status frames →
        ∃ srv', srv.handleReadable moments fd recvs = .ok srv')
      ∧ (¬ KeepsOpen conn.session.status frames →
        srv.handleReadable moments fd recvs = .error .useAfterErase) := by
  unfold handleReadable
  rw [hconn]
  dsimp only
  cases hreceived : received recvs with
  | nil =>
      -- nothing comes in, and nothing is looked at
      rw [bytesRead, hreceived] at hcut
      have hnil : frames = [] :=
        List.map_eq_nil_iff.mp (hcut.unique (.done (size_nil frameFormat))).1
      subst hnil
      exact ⟨fun _ => recvLoop_idle hreceived, fun h => absurd ⟨by simp, by simp⟩ h⟩
  | cons chunk chunks =>
      have hbytes : bytesRead conn recvs = conn.reader.buffer ++ (received recvs).flatten := by
        rw [bytesRead, hreceived]
      rw [hbytes] at hcut
      exact recvLoop_spec hconn (fun h => absurd (hreceived.symm.trans h) (by simp)) hcut

/-- No frame is read beyond its end. -/
theorem handleReadable_inside (moments : Nat → Moment) (srv : Server) (fd : UInt32)
    (recvs : List Recv) : srv.handleReadable moments fd recvs ≠ .error .readOutsideFrame := by
  cases hconn : srv.connections.lookup fd with
  | none => simp [handleReadable, hconn]
  | some conn =>
      obtain ⟨frames, rest, hcut⟩ := Frame.exists_cuts (bytesRead conn recvs)
      obtain ⟨hok, hbad⟩ := handleReadable_spec moments hconn hcut
      by_cases hkeeps : KeepsOpen conn.session.status frames
      · obtain ⟨srv', h⟩ := hok hkeeps
        rw [h]
        simp
      · rw [hbad hkeeps]
        simp

/-- **A call of `handle_readable` uses no closed connection exactly if no frame it gets to
see closes the connection**: no logout, and no logon but the first. -/
theorem handleReadable_safe_iff_keepsOpen (moments : Nat → Moment) (srv : Server) (fd : UInt32)
    (recvs : List Recv) :
    srv.handleReadable moments fd recvs ≠ .error .useAfterErase
      ↔ ∀ conn frames rest, srv.connections.lookup fd = some conn →
        Cuts frameFormat (bytesRead conn recvs) (frames.map Frame.bytes) rest →
        KeepsOpen conn.session.status frames := by
  constructor
  · intro hsafe conn frames rest hconn hcut
    by_contra hkeeps
    exact hsafe ((handleReadable_spec moments hconn hcut).2 hkeeps)
  · intro hkeeps
    cases hconn : srv.connections.lookup fd with
    | none => simp [handleReadable, hconn]
    | some conn =>
        obtain ⟨frames, rest, hcut⟩ := Frame.exists_cuts (bytesRead conn recvs)
        obtain ⟨srv', hok⟩ : ∃ srv', srv.handleReadable moments fd recvs = .ok srv' :=
          (handleReadable_spec moments hconn hcut).1 (hkeeps conn frames rest hconn hcut)
        rw [hok]
        simp

/-- A client logs on and out in one segment. The logout erases the connection, and the
condition of the inner loop asks its reader for one more frame. -/
theorem logout_uses_closed_connection :
    let srv : Server := ⟨Finmap.singleton 5 {}, [], 0⟩
    let logon : List UInt8 :=
      [16, 0, 1, 0, 0, 0, 0, 7, 0, 0, 0, 0, 0, 0, 0, 232, 3, 0, 0, 0, 0, 0, 0]
    let logout : List UInt8 := [0, 0, 2, 1, 0, 0, 0]
    srv.handleReadable (fun _ => ⟨0, true⟩) 5 [.data (logon ++ logout), .again]
      = .error .useAfterErase := by
  intro srv logon logout
  rfl

end Server

end HftLob.Gateway

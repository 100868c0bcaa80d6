import HftLob.Wire.Protocol

/-!
# Session state

`SessionState`: whether a connection has logged on, and the sequence numbers expected from
the peer and given to it. Numbers are 32 bits wide and wrap. A point of the steady clock
is a number of nanoseconds; every function that looks at the clock is given what it saw.
-/

namespace HftLob.Gateway

inductive SessionStatus where
  | awaitingLogon
  | loggedOn
  | loggedOut
  /-- Heartbeat timeout. -/
  | disconnected
  deriving DecidableEq, Repr

structure SessionState where
  status : SessionStatus := .awaitingLogon
  clientId : UInt64 := 0
  heartbeatIntervalMs : UInt32 := 1000
  expectedPeerSeq : UInt32 := 0
  outboundSeq : UInt32 := 0
  lastPeerActivity : Int := 0
  lastOutboundActivity : Int := 0
  deriving DecidableEq, Repr

namespace SessionState

/-- The new state, and whether the logon was accepted. -/
def handleLogon (s : SessionState) (clientId : UInt64)
    (heartbeatIntervalMs peerStartingSeq : UInt32) (now : Int) : SessionState × Bool :=
  if s.status ≠ .awaitingLogon then (s, false)
  else
    ({ s with clientId := clientId
              heartbeatIntervalMs := heartbeatIntervalMs
              expectedPeerSeq := peerStartingSeq + 1
              lastPeerActivity := now
              status := .loggedOn }, true)

/-- The new state, and the missing range if there is a gap. A number seen before is
answered like one that was expected. -/
def trackInboundSeq (s : SessionState) (seqNum : UInt32) (now : Int) :
    SessionState × Option (UInt32 × UInt32) :=
  let s := { s with lastPeerActivity := now }
  if seqNum = s.expectedPeerSeq then ({ s with expectedPeerSeq := s.expectedPeerSeq + 1 }, none)
  else if seqNum > s.expectedPeerSeq then
    ({ s with expectedPeerSeq := seqNum + 1 }, some (s.expectedPeerSeq, seqNum - 1))
  else (s, none) -- duplicate or replay

/-- The number for the next frame out. -/
def nextOutboundSeq (s : SessionState) : SessionState × UInt32 :=
  ({ s with outboundSeq := s.outboundSeq + 1 }, s.outboundSeq)

/-- The interval on the scale of the clock. -/
def heartbeatInterval (s : SessionState) : Int := s.heartbeatIntervalMs.toNat * 1000000

def shouldSendHeartbeat (s : SessionState) (now : Int) : Bool :=
  now - s.lastOutboundActivity ≥ s.heartbeatInterval

def isPeerDead (s : SessionState) (now : Int) : Bool :=
  now - s.lastPeerActivity > s.heartbeatInterval * 2

def markOutboundActivity (s : SessionState) (now : Int) : SessionState :=
  { s with lastOutboundActivity := now }

def logout (s : SessionState) : SessionState := { s with status := .loggedOut }

def disconnect (s : SessionState) : SessionState := { s with status := .disconnected }

theorem handleLogon_status (s : SessionState) (clientId : UInt64) (ms seq : UInt32) (now : Int) :
    ((s.handleLogon clientId ms seq now).2 = true ↔ s.status = .awaitingLogon)
      ∧ (s.handleLogon clientId ms seq now).1.status
        = if s.status = .awaitingLogon then .loggedOn else s.status := by
  unfold handleLogon
  by_cases h : s.status = .awaitingLogon
  · simp [h]
  · simp [h]

@[simp] theorem trackInboundSeq_status (s : SessionState) (seqNum : UInt32) (now : Int) :
    (s.trackInboundSeq seqNum now).1.status = s.status := by
  unfold trackInboundSeq
  dsimp only
  split
  · rfl
  · split <;> rfl

end SessionState

end HftLob.Gateway

import Mathlib.Logic.Function.Basic
import Superliquid.Hotstuff.Message
import Superliquid.Lib.Checked

-- How nodes get connected. Every node dials all of its peers and accepts connections from them, so that two
-- nodes may end up with two connections. A connection ends only when one of its ends is dropped.

namespace Superliquid

-- A connection, by the nodes at its ends. Every node dials a peer once.
structure PeerSocket where
  initiator : PeerId
  acceptor  : PeerId
  deriving DecidableEq

def PeerSocket.other (s : PeerSocket) (nodeId : PeerId) : PeerId :=
  if s.initiator = nodeId then s.acceptor else s.initiator

namespace Peering

-- Where `connect_to_peer` stands. In `greeting` it has said hello.
inductive Dialing
  | connecting (counts : Nat)
  | greeting
  | connected
  | panicked
  deriving DecidableEq

-- How far the connection of a peer has got that has dialled.
inductive Handshake
  | waiting
  | acked
  | adopted
  deriving DecidableEq

-- Where `run_peer_listener` stands. It takes one connection after the other.
inductive Listener
  | accepting
  | acked (peerId : PeerId)
  | closed
  deriving DecidableEq

-- What a node knows of its peers. In `readers` is the connection that is read from for a peer, and in `first`
-- the first one that was registered for it.
structure Endpoint where
  dialing         : PeerId → Dialing
  handshakes      : PeerId → Handshake
  listener        : Listener
  peerConnections : PeerId → Option PeerSocket
  readers         : PeerId → Option PeerSocket
  dropped         : PeerSocket → Bool
  first           : PeerId → Option PeerSocket

namespace Endpoint

def new : Endpoint where
  dialing := fun _ => .connecting 1
  handshakes := fun _ => .waiting
  listener := .accepting
  peerConnections := fun _ => none
  readers := fun _ => none
  dropped := fun _ => false
  first := fun _ => none

def drop (e : Endpoint) (socket : PeerSocket) : Endpoint :=
  { e with dropped := Function.update e.dropped socket true }

-- The first connection with a peer is registered. Any other is dropped in favour of it.
def deduplicatePeerConnection (e : Endpoint) (socket : PeerSocket) (peerId : PeerId) : Endpoint × PeerSocket :=
  match e.peerConnections peerId with
  | some registered => (e.drop socket, registered)
  | none =>
    let first := (e.first peerId).getD socket
    ({ e with
      peerConnections := Function.update e.peerConnections peerId (some socket)
      first := Function.update e.first peerId (some first) }, socket)

-- How long to wait before the next attempt, and the count that it is made with.
def backoff (counts : Nat) : Checked (Nat × Nat) := do
  let base := 100
  let maxSleep := 1000 * 60
  let expDuration ← Checked.fit 32 (base ^ counts)
  let sleepDuration := min expDuration maxSleep
  if sleepDuration ≠ maxSleep then
    return (sleepDuration, min (counts + 1) (2 ^ 32 - 1))
  else
    return (sleepDuration, counts)

def setDialing (e : Endpoint) (peerId : PeerId) (dialing : Dialing) : Endpoint :=
  { e with dialing := Function.update e.dialing peerId dialing }

def setHandshake (e : Endpoint) (peerId : PeerId) (handshake : Handshake) : Endpoint :=
  { e with handshakes := Function.update e.handshakes peerId handshake }

-- The branches of the loop in `connect_to_peer`.
def connectFailed (e : Endpoint) (peerId : PeerId) : Endpoint :=
  match e.dialing peerId with
  | .connecting counts =>
    match backoff counts with
    | .ok (_, counts) => e.setDialing peerId (.connecting counts)
    | .error _        => e.setDialing peerId .panicked
  | _ => e

def connect (e : Endpoint) (peerId : PeerId) : Endpoint :=
  match e.dialing peerId with
  | .connecting _ => e.setDialing peerId .greeting
  | _             => e

-- The rest of `connect_to_peer`, after the ack. Nothing reads from the connection.
def confirm (e : Endpoint) (nodeId peerId : PeerId) : Endpoint :=
  (e.deduplicatePeerConnection ⟨nodeId, peerId⟩ peerId).1.setDialing peerId .connected

-- `handle_handshake`
def handshake (e : Endpoint) (peerId : PeerId) : Endpoint :=
  { e.setHandshake peerId .acked with listener := .acked peerId }

-- The rest of the loop in `run_peer_listener`, after the ack.
def adopt (e : Endpoint) (nodeId : PeerId) : Endpoint :=
  match e.listener with
  | .acked peerId =>
    let (e, socket) := e.deduplicatePeerConnection ⟨peerId, nodeId⟩ peerId
    { e.setHandshake peerId .adopted with
      listener := .accepting
      readers := Function.update e.readers peerId (some socket) }
  | _ => e

-- The end of a task that reads from a peer. What is registered for the peer goes, whatever it is.
def dropPeerSocket (e : Endpoint) (peerId : PeerId) (socket : PeerSocket) : Endpoint :=
  let e := { e.drop socket with readers := Function.update e.readers peerId none }
  match e.peerConnections peerId with
  | some registered =>
    { e.drop registered with peerConnections := Function.update e.peerConnections peerId none }
  | none => e

end Endpoint

abbrev Network :=
  PeerId → Endpoint

-- `accept` and `confirm` name the node that has dialled first. An intruder is a connection that does not
-- start with a hello, and `reset` is what becomes of those that a listener has not taken.
inductive Event
  | connectFailed (nodeId peerId : PeerId)
  | connect (nodeId peerId : PeerId)
  | accept (peerId nodeId : PeerId)
  | adopt (nodeId : PeerId)
  | confirm (nodeId peerId : PeerId)
  | eof (nodeId peerId : PeerId)
  | intrude (nodeId : PeerId)
  | reset (nodeId peerId : PeerId)

namespace Network

def new : Network :=
  fun _ => .new

def set (n : Network) (nodeId : PeerId) (e : Endpoint) : Network :=
  Function.update n nodeId e

-- A node does not dial itself.
def Dials (n : Network) (nodeId peerId : PeerId) : Prop :=
  nodeId ≠ peerId ∧ ∃ counts, (n nodeId).dialing peerId = .connecting counts

instance {n : Network} {nodeId peerId : PeerId} : Decidable (n.Dials nodeId peerId) :=
  match h : (n nodeId).dialing peerId with
  | .connecting counts => decidable_of_iff (nodeId ≠ peerId) (by simp [Dials, h])
  | .greeting | .connected | .panicked => isFalse (by simp [Dials, h])

-- The other end of what a node reads from a peer is gone.
def Eof (n : Network) (nodeId : PeerId) (socket : PeerSocket) : Prop :=
  (n (socket.other nodeId)).dropped socket

instance {n : Network} {nodeId : PeerId} {socket : PeerSocket} : Decidable (n.Eof nodeId socket) :=
  inferInstanceAs (Decidable (_ = true))

def step (n : Network) : Event → Network
  | .connectFailed nodeId peerId =>
    if n.Dials nodeId peerId then n.set nodeId ((n nodeId).connectFailed peerId) else n
  | .connect nodeId peerId =>
    if n.Dials nodeId peerId ∧ (n peerId).listener ≠ .closed then
      n.set nodeId ((n nodeId).connect peerId)
    else
      n
  | .accept peerId nodeId =>
    if (n nodeId).listener = .accepting ∧ (n peerId).dialing nodeId = .greeting ∧
        (n nodeId).handshakes peerId = .waiting then
      n.set nodeId ((n nodeId).handshake peerId)
    else
      n
  | .adopt nodeId => n.set nodeId ((n nodeId).adopt nodeId)
  | .confirm nodeId peerId =>
    if (n nodeId).dialing peerId = .greeting ∧ (n peerId).handshakes nodeId ≠ .waiting then
      n.set nodeId ((n nodeId).confirm nodeId peerId)
    else
      n
  | .eof nodeId peerId =>
    match (n nodeId).readers peerId with
    | some socket =>
      if n.Eof nodeId socket then n.set nodeId ((n nodeId).dropPeerSocket peerId socket) else n
    | none => n
  | .intrude nodeId =>
    if (n nodeId).listener = .accepting then
      n.set nodeId { n nodeId with listener := .closed }
    else
      n
  | .reset nodeId peerId =>
    if (n peerId).listener = .closed ∧ (n nodeId).dialing peerId = .greeting ∧
        (n peerId).handshakes nodeId = .waiting then
      n.set nodeId ((n nodeId).setDialing peerId .panicked)
    else
      n

end Network
end Peering
end Superliquid

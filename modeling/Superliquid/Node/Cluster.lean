import Superliquid.Node.Service

-- The nodes of a network with what is on the way between them. The links between the nodes are given, and they
-- break only when a node drops its end. A message is sent by a task of its own, so that messages may overtake
-- each other.

namespace Superliquid

structure Cluster where
  services        : PeerId → Service
  peerConnections : PeerId → List PeerId
  wires           : PeerId → PeerId → List Service.Message

namespace Cluster

open Service

inductive Event
  | client (nodeId : PeerId) (id : Nat) (incoming : Incoming)
  | proceed (nodeId : PeerId) (conn : Conn)
  | receive (nodeId : PeerId) (order : HotStuffReplica.TallyOrder)
  | emit (nodeId : PeerId)
  | timeout (nodeId : PeerId)
  | deliver (source target : PeerId) (index : Nat)
  | drop (nodeId peerId : PeerId)
  | hangUp (source target : PeerId)

-- `handle_replica_outbound`, as far as one peer is concerned.
def addressed (peerId : PeerId) : Outbound → List Service.Message
  | .broadcast msg         => [.hotStuff msg]
  | .sendToNode nodeId msg => if nodeId = peerId then [.hotStuff msg] else []
  | .sendToSelf _          => []

def submit (txn : SignedTransaction) : Service.Message :=
  .application (.submitTransaction txn)

-- What a node sends to a peer when it goes from `s` to `s'`.
def sent (s s' : Service) (peerId : PeerId) : List Service.Message :=
  (s'.broadcasts.drop s.broadcasts.length).map submit ++
    (s'.outbox.drop s.outbox.length).flatMap (addressed peerId)

variable [Sha256] [Ed25519] (peers : PeerId → List PeerId)

def new (c : Config) (faucetKey : SigningKey) : Cluster where
  services := fun nodeId => .new c nodeId faucetKey
  peerConnections := peers
  wires := fun _ _ => []

def perform (c : Cluster) (nodeId : PeerId) (e : Service.Event) : Cluster :=
  let s := c.services nodeId
  { c with
    services := Function.update c.services nodeId (s.step e)
    wires := fun source target =>
      if source = nodeId ∧ target ∈ c.peerConnections nodeId then
        c.wires source target ++ sent s (s.step e) target
      else
        c.wires source target }

-- The next message is read when the one before has been handled.
def deliver (c : Cluster) (source target : PeerId) (index : Nat) : Cluster :=
  match (c.wires source target)[index]?, ((c.services target).connections (.peer source)).stage with
  | some msg, .reading =>
    let wire := (c.wires source target).eraseIdx index
    let c := { c with wires := Function.update c.wires source (Function.update (c.wires source) target wire) }
    c.perform target (.arrive (.peer source) (.message msg))
  | _, _ => c

-- When the task of a peer has returned, the node forgets its socket. A panic leaves it where it is.
def dropPeerSocket (c : Cluster) (nodeId peerId : PeerId) : Cluster :=
  match ((c.services nodeId).connections (.peer peerId)).stage with
  | .closed =>
    let peerConnections := (c.peerConnections nodeId).filter (· ≠ peerId)
    { c with peerConnections := Function.update c.peerConnections nodeId peerConnections }
  | _ => c

-- The other end of a dropped socket reads the end of the stream. What was on the way may be lost.
def hangUp (c : Cluster) (source target : PeerId) : Cluster :=
  if target ∈ peers source ∧ target ∉ c.peerConnections source then
    c.perform target (.arrive (.peer source) .none)
  else
    c

def step (c : Cluster) : Event → Cluster
  | .client nodeId id incoming   => c.perform nodeId (.arrive (.client id) incoming)
  | .proceed nodeId conn         => c.perform nodeId (.proceed conn)
  | .receive nodeId order        => c.perform nodeId (.receive order)
  | .emit nodeId                 => c.perform nodeId .emit
  | .timeout nodeId              => c.perform nodeId .timeout
  | .deliver source target index => c.deliver source target index
  | .drop nodeId peerId          => c.dropPeerSocket nodeId peerId
  | .hangUp source target        => c.hangUp peers source target

end Cluster
end Superliquid

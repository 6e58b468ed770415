import Superliquid.Hotstuff.Replica

namespace Superliquid

-- What comes in on a connection. Queries and control messages change nothing here.
inductive Message
  | hotStuff (msg : HotStuffMessage)
  | submitTransaction (txn : SignedTransaction)
  | other

-- Queries are left out.
inductive ReplicaInBound
  | hotStuff (msg : HotStuffMessage)
  | transaction (txn : SignedTransaction)

-- `broadcasts` and `toReplica` collect what was sent to the peers, and what the replica has yet to read.
structure Node where
  transactions     : List SignedTransaction
  seenTransactions : Finset Sha256Hash
  broadcasts       : List SignedTransaction
  toReplica        : List ReplicaInBound

def Node.new : Node where
  transactions := []
  seenTransactions := ∅
  broadcasts := []
  toReplica := []

open Handler

abbrev NodeM :=
  Handler Node

namespace NodeM

variable [Sha256] [Ed25519]

def broadcastTransaction (txn : SignedTransaction) : NodeM Unit :=
  modify fun node => { node with broadcasts := node.broadcasts ++ [txn] }

def sendToReplica (msg : ReplicaInBound) : NodeM Unit :=
  modify fun node => { node with toReplica := node.toReplica ++ [msg] }

-- Nothing depends on the outcome of `verify_sender`, unless it panics.
def handleTransaction (signedTx : SignedTransaction) : NodeM Unit := do
  let _ ← signedTx.verifySender
  let node ← read id
  if signedTx.tx.hash ∉ node.seenTransactions then
    modify fun node => { node with
      seenTransactions := insert signedTx.tx.hash node.seenTransactions
      transactions := node.transactions ++ [signedTx] }
    broadcastTransaction signedTx
    sendToReplica (.transaction signedTx)
  else
    return

-- One round of the loop.
def handlePeerConnection : Message → NodeM Unit
  | .hotStuff msg          => sendToReplica (.hotStuff msg)
  | .submitTransaction txn => handleTransaction txn
  | .other                 => return

def handleClientConnection : Message → NodeM Unit
  | .submitTransaction txn => handleTransaction txn
  | _                      => return

end NodeM

-- A node with its replica.
structure Server where
  node : Node
  task : Task

inductive ServerEvent
  | peer (msg : Message)
  | client (msg : Message)
  | receive (order : HotStuffReplica.TallyOrder)
  | timeout

namespace Server

variable [Sha256] [Ed25519]

def new (c : Config) (nodeId : PeerId) : Server where
  node := .new
  task := .new c nodeId

-- A panic on a connection ends that connection only.
def step (s : Server) : ServerEvent → Server
  | .peer msg   => { s with node := (NodeM.handlePeerConnection msg s.node).2 }
  | .client msg => { s with node := (NodeM.handleClientConnection msg s.node).2 }
  | .receive order =>
    match s.node.toReplica with
    | [] => s
    | msg :: toReplica =>
      let e := match msg with
        | .hotStuff msg    => .hotStuff msg order
        | .transaction txn => .transaction txn
      { node := { s.node with toReplica }, task := s.task.step e }
  | .timeout => { s with task := s.task.step .timeout }

end Server
end Superliquid

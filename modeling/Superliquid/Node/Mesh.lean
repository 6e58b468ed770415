import Mathlib.Logic.Function.Basic
import Superliquid.Hotstuff.Replica
import Superliquid.Lib.Steps

-- The replicas of a network, with the messages that are on the way between them. Messages do not get lost,
-- but they may overtake each other.

namespace Superliquid

open HotStuffReplica

structure Mesh where
  tasks  : PeerId → Task
  flight : List (PeerId × HotStuffMessage)

namespace Mesh

inductive Event
  | transaction (nodeId : PeerId) (txn : SignedTransaction)
  | timeout (nodeId : PeerId)
  | deliver (index : Nat) (order : TallyOrder)

-- `handle_replica_outbound`. A node has no connection to itself.
def dispatch (numValidators : Nat) (nodeId : PeerId) : Outbound → List (PeerId × HotStuffMessage)
  | .sendToSelf msg        => [(nodeId, msg)]
  | .broadcast msg         => ((List.range numValidators).filter (· ≠ nodeId)).map (·, msg)
  | .sendToNode peerId msg => if peerId = nodeId then [] else [(peerId, msg)]

variable [Sha256] [Ed25519] (c : Config)

def new : Mesh where
  tasks := fun nodeId => .new c nodeId
  flight := []

def perform (m : Mesh) (nodeId : PeerId) (e : Superliquid.Event) : Mesh :=
  let t := m.tasks nodeId
  let sent := (t.step e).replica.repNodeChannel.drop t.replica.repNodeChannel.length
  { tasks := Function.update m.tasks nodeId (t.step e)
    flight := m.flight ++ sent.flatMap (dispatch c.numValidators nodeId) }

def step (m : Mesh) : Event → Mesh
  | .transaction nodeId txn => m.perform c nodeId (.transaction txn)
  | .timeout nodeId         => m.perform c nodeId .timeout
  | .deliver index order =>
    match m.flight[index]? with
    | some (nodeId, msg) =>
      { m with flight := m.flight.eraseIdx index }.perform c nodeId (.hotStuff msg order)
    | none => m

-- What happens until all validators are in a later view than `view`. Clients submit transactions that they have
-- signed, and messages arrive in any order, but before the timers of later views run out.
def Prompt (view : Nat) (m : Mesh) : Event → Prop
  | .transaction _ txn => txn.verifySender = .ok true
  | .timeout nodeId    => nodeId < c.numValidators ∧ (m.tasks nodeId).replica.pacemaker.currView ≤ view
  | .deliver _ _       => True

structure Over (view : Nat) (m : Mesh) : Prop where
  flight  : m.flight = []
  entered : ∀ i < c.numValidators, view < (m.tasks i).replica.pacemaker.currView

-- The network is faster than the timers.
inductive Rounds : Nat → Mesh → Prop
  | start : Rounds 0 (.new c)
  | next {es : List Event} :
    (Rounds v m) → (Admits (step c) (Prompt c v) m es) → (es.foldl (step c) m = m') → (Over c v m') → Rounds (v + 1) m'

end Mesh
end Superliquid

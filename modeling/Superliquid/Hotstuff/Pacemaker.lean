import Superliquid.Types.Transaction

namespace Superliquid

-- The pacemaker without its clock: timeouts come in as events.
structure Pacemaker where
  currView         : Nat
  lastCommitedView : Nat
  replicaIds       : List Nat
  deriving DecidableEq

namespace Pacemaker

def new (numValidators : Nat) : Pacemaker where
  currView := 0
  lastCommitedView := 0
  replicaIds := List.range numValidators

-- The part of `get_current_timeout` that can fail.
def failedViews (p : Pacemaker) : Checked Nat :=
  Checked.sub p.currView p.lastCommitedView

def setLastCommittedView (p : Pacemaker) (view : Nat) : Pacemaker :=
  { p with lastCommitedView := view }

def advanceView (p : Pacemaker) : Checked Pacemaker := do
  return { p with currView := ← U64.add p.currView 1 }

def fastForwardView (p : Pacemaker) (incomingView : Nat) : Pacemaker × Bool :=
  if incomingView ≤ p.currView then (p, false) else ({ p with currView := incomingView }, true)

def getLeaderForView (p : Pacemaker) (incomingView : Nat) : Checked Nat := do
  Checked.index p.replicaIds (← Checked.rem incomingView p.replicaIds.length)

def currentLeader (p : Pacemaker) : Checked Nat :=
  p.getLeaderForView p.currView

end Pacemaker
end Superliquid

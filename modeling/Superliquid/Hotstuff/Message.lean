import Superliquid.Hotstuff.Block

namespace Superliquid

abbrev PeerId := Nat

structure HashableMessage where
  viewNumber : Nat
  blockHash  : BlockHash
  quorumHash : Sha256Hash
  deriving DecidableEq

-- Everything that the program hashes.
class Sha256 where
  digestTransaction : UnsignedTransaction → Sha256Hash
  digestPair        : Sha256Hash × Sha256Hash → Sha256Hash
  digestPartialSig  : HashablePartialSig → Sha256Hash
  digestQC          : HashableQC → Sha256Hash
  digestBlock       : HashableBlock → Sha256Hash
  digestMessage     : HashableMessage → Sha256Hash

section

variable [Sha256]

instance : Digest UnsignedTransaction         := ⟨Sha256.digestTransaction⟩
instance : Digest (Sha256Hash × Sha256Hash) := ⟨Sha256.digestPair⟩
instance : Digest HashablePartialSig          := ⟨Sha256.digestPartialSig⟩
instance : Digest HashableQC                  := ⟨Sha256.digestQC⟩
instance : Digest HashableBlock               := ⟨Sha256.digestBlock⟩
instance : Digest HashableMessage             := ⟨Sha256.digestMessage⟩

end

inductive HotStuffMessage
  | proposal (node : Block) (view : Nat) (sender : PeerId) (senderView : Nat)
  | vote (node : Block) (partialSig : PartialSig) (view : Nat) (sender : PeerId)
      (senderView : Nat)
  | newView (justify : QuorumCertificate) (view : Nat) (sender : PeerId)
      (senderView : Nat)
  deriving DecidableEq

-- What a vote for the block with the hash `blockHash` in `view` signs.
def voteHash [Digest HashableMessage] (view : Nat) (blockHash : BlockHash) : Sha256Hash :=
  digest { viewNumber := view, blockHash, quorumHash := 0 : HashableMessage }

structure UnsignedVote where
  node : Block
  view : Nat

def UnsignedVote.hash [Sha256] (v : UnsignedVote) : Sha256Hash :=
  voteHash v.view v.node.hash

namespace HotStuffMessage

def createVote [Sha256] [Ed25519] (node : Block) (view : Nat) (sender : PeerId)
    (senderView : Nat) (signingKey : SigningKey) : HotStuffMessage :=
  let messageHash := UnsignedVote.hash { node, view }
  let partialSig := {
    signerId := Ed25519.verifyingKey signingKey
    signature := Ed25519.sign signingKey messageHash }
  vote node partialSig view sender senderView

def hash [Sha256] : HotStuffMessage → Sha256Hash
  | proposal node view _ _ => voteHash view node.hash
  | vote node _ view _ _   => voteHash view node.hash
  | newView justify view _ _ =>
    digest { viewNumber := view, blockHash := 0, quorumHash := justify.hash : HashableMessage }

def getViewNumber : HotStuffMessage → Nat
  | proposal _ view _ _ => view
  | vote _ _ view _ _   => view
  | newView _ view _ _  => view

def isVoteFor (view : Nat) : HotStuffMessage → Bool
  | vote _ _ v _ _ => v = view
  | _              => false

def isNewViewFor (view : Nat) : HotStuffMessage → Bool
  | newView _ v _ _ => v = view
  | _               => false

end HotStuffMessage

-- The messages by view, from `lowestView` on.
structure MessageWindow where
  messages   : List (List HotStuffMessage)
  lowestView : Nat

namespace MessageWindow

def new (viewNumber : Nat) : MessageWindow where
  messages := []
  lowestView := viewNumber

def pruneBeforeView (w : MessageWindow) (view : Nat) : Checked MessageWindow := do
  if view < w.lowestView then
    return w
  else
    let highestView ← U64.add w.lowestView w.messages.length
    if highestView < view then
      return { messages := [], lowestView := view }
    else
      return { messages := w.messages.drop (view - w.lowestView), lowestView := view }

-- Views between the last one in the window and a new one get empty entries.
def push (w : MessageWindow) (msg : HotStuffMessage) : MessageWindow :=
  if msg.getViewNumber < w.lowestView then
    w
  else
    let index := msg.getViewNumber - w.lowestView
    match w.messages[index]? with
    | some vector => { w with messages := w.messages.set index (vector ++ [msg]) }
    | none => { w with
        messages := w.messages ++ List.replicate (index - w.messages.length) [] ++ [[msg]] }

def getMessagesForView (w : MessageWindow) (view : Nat) :
    Checked (Option (List HotStuffMessage)) := do
  if view < w.lowestView then
    return none
  else
    let highestView ← U64.add w.lowestView w.messages.length
    if highestView < view then
      return none
    else
      return w.messages[view - w.lowestView]?

def iter (w : MessageWindow) : List HotStuffMessage :=
  w.messages.flatten

-- The last one among the certificates of the highest view.
def getHighestQCFromVotes (votes : MessageWindow) : Option QuorumCertificate :=
  votes.iter.foldl highest none
where
  highest (best : Option QuorumCertificate) : HotStuffMessage → Option QuorumCertificate
    | .newView justify _ _ _ =>
      match best with
      | some qc => if qc.viewNumber ≤ justify.viewNumber then some justify else best
      | none    => some justify
    | _ => best

end MessageWindow

def hasQuorumVotesForView (messages : Option (List HotStuffMessage)) (currView : Nat)
    (quorumThreshold : Nat) : Bool :=
  match messages with
  | none      => false
  | some msgs => quorumThreshold ≤ msgs.countP (·.isVoteFor currView)

def hasQuorumForNewView (messages : Option (List HotStuffMessage)) (currView : Nat)
    (quorumThreshold : Nat) : Bool :=
  match messages with
  | none      => false
  | some msgs => quorumThreshold ≤ msgs.countP (·.isNewViewFor currView)

end Superliquid

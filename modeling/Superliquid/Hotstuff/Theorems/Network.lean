import Superliquid.Hotstuff.Theorems.Execution
import Superliquid.Hotstuff.Theorems.Lock
import Superliquid.Hotstuff.Theorems.Votes

namespace Superliquid

open HotStuffReplica ReplicaM

-- The replicas of a network. Only correct replicas take steps. What they receive is up to the
-- network and to the faulty ones: messages may be lost, repeated, reordered or made up.
abbrev Network :=
  PeerId → Observed

namespace Network

variable [Sha256] [Ed25519]

def new (c : Config) : Network :=
  fun i => .new c i

def step (net : Network) (e : PeerId × Event) : Network :=
  Function.update net e.1 ((net e.1).step e.2)

end Network

variable [Sha256] [Ed25519]

-- `3 * f + 1` replicas with different keys, at most `f` of them faulty.
structure Faults (c : Config) where
  f      : Nat
  faulty : Finset PeerId
  size   : c.numValidators = 3 * f + 1
  keys   : c.validatorSet.card = c.numValidators
  few    : faulty.card ≤ f

section

variable {c : Config} {faults : Faults c} {net : Network} {qc : QuorumCertificate} {e : PeerId × Event}

def Faults.Correct (faults : Faults c) (i : PeerId) : Prop :=
  i < c.numValidators ∧ i ∉ faults.faulty

instance {i : PeerId} : Decidable (faults.Correct i) :=
  inferInstanceAs (Decidable (_ ∧ _))

-- Signatures of correct replicas cannot be forged: if one is valid in a certificate, the replica has
-- sent a vote with the message hash of the certificate.
def Unforged (faults : Faults c) (net : Network) (qc : QuorumCertificate) : Prop :=
  ∀ sig ∈ qc.partialSigs, ∀ i < c.numValidators, i ∉ faults.faulty → sig.signerId = c.publicKey i →
    Ed25519.verifyStrict sig.signerId qc.messageHash sig.signature = true →
    ∃ vote ∈ (net i).task.replica.votes, voteHash vote.1 vote.2.hash = qc.messageHash

instance : Decidable (Unforged faults net qc) :=
  inferInstanceAs (Decidable (∀ sig ∈ qc.partialSigs, ∀ i < c.numValidators, _))

-- The steps that the network can take.
def Possible (faults : Faults c) (net : Network) (e : PeerId × Event) : Prop :=
  faults.Correct e.1 ∧ ∀ x ∈ (net e.1).task.takenUp e.2, Unforged faults net x.2.justify

instance : Decidable (Possible faults net e) :=
  inferInstanceAs (Decidable (_ ∧ ∀ x ∈ (net e.1).task.takenUp e.2, _))

end

-- The hash of a genesis block does not cover its view.
def Block.view (b : Block) : Nat :=
  if b.parentId = none then 0 else b.viewNumber

-- What the checks on a proposal leave open. `b''` is the block that `node` is justified by.
structure Regular (o : Observed) (r : HotStuffReplica) (node b'' : Block) : Prop where
  -- The votes in the certificate are for its own block and view.
  bound    : node.justify.IsGenesis ∨
    node.justify.messageHash = voteHash node.justify.viewNumber node.justify.blockHash
  -- The certificate is for the parent.
  parent   : node.parentId = some node.justify.blockHash
  view     : node.viewNumber = r.pacemaker.currView
  -- There was no other vote in this view.
  once     : ∀ y ∈ o.history, (y.1.accepts y.2).isSome →
    y.1.pacemaker.currView = r.pacemaker.currView → y.2.hash = node.hash
  -- The grandparent is at hand and not older than the lock.
  lock     : b''.parentId = none ∨ ∃ b' ∈ (r.store node).getJustifiedBlock b'', b''.isParent b' ∧
    b''.justify.viewNumber = b'.view ∧
    (r.lockedQC.blockHash = b''.justify.blockHash ∨ r.lockedQC.viewNumber < b''.justify.viewNumber)
  -- Blocks are only executed because of blocks of the next two views.
  commit   : ∀ b' ∈ (r.store node).getJustifiedBlock b'', ∀ b ∈ (r.store node).getJustifiedBlock b',
    b''.isParent b' → b'.isParent b → b.parentId ≠ none →
    b'.viewNumber = b.viewNumber + 1 ∧ b''.viewNumber = b'.viewNumber + 1

instance {o : Observed} {r : HotStuffReplica} {node b'' : Block} : Decidable (Regular o r node b'') :=
  decidable_of_iff ((_ ∨ _) ∧ _ ∧ _ ∧ (∀ y ∈ o.history, _) ∧
      (_ ∨ ∃ b' ∈ (r.store node).getJustifiedBlock b'', _) ∧
      ∀ b' ∈ (r.store node).getJustifiedBlock b'', ∀ b ∈ (r.store node).getJustifiedBlock b', _)
    ⟨fun ⟨h₁, h₂, h₃, h₄, h₅, h₆⟩ => ⟨h₁, h₂, h₃, h₄, h₅, h₆⟩,
     fun ⟨h₁, h₂, h₃, h₄, h₅, h₆⟩ => ⟨h₁, h₂, h₃, h₄, h₅, h₆⟩⟩

def AcceptsRegular (o : Observed) (e : Event) : Prop :=
  ∀ x ∈ o.task.takenUp e, ∀ b'' ∈ x.1.accepts x.2, Regular o x.1 x.2 b''

instance {o : Observed} {e : Event} : Decidable (AcceptsRegular o e) :=
  inferInstanceAs (Decidable (∀ x ∈ o.task.takenUp e, ∀ b'' ∈ x.1.accepts x.2, _))

-- Two blocks lie on one chain. A block is known by its hash.
def Block.SameChain (a b : Block) : Prop :=
  a.hash = b.hash ∨ a.Ancestor b ∨ b.Ancestor a

-- Blocks that correct replicas execute lie on one chain.
def Agreement {c : Config} (faults : Faults c) (net : Network) : Prop :=
  ∀ i j, faults.Correct i → faults.Correct j →
    ∀ a ∈ (net i).task.replica.applied, ∀ b ∈ (net j).task.replica.applied, a.SameChain b

end Superliquid

import Superliquid.Hotstuff.Crypto
import Superliquid.State.Ledger

namespace Superliquid

-- The variant `Genesis` is the one without a parent.
structure Block where
  parentId     : Option BlockHash
  transactions : List SignedTransaction
  viewNumber   : Nat
  justify      : QuorumCertificate
  merkleRoot   : Sha256Hash
  deriving DecidableEq

structure HashableBlock where
  parentId   : BlockHash
  merkleRoot : Sha256Hash
  viewNumber : Nat
  deriving DecidableEq

abbrev Blockstore :=
  Map BlockHash Block

def createGenesisBlock : Block where
  parentId := none
  transactions := []
  viewNumber := 0
  justify := .createGenesisQC
  merkleRoot := 0

namespace Block

variable [Digest UnsignedTransaction] [Digest (Sha256Hash × Sha256Hash)] [Digest HashableBlock]

-- One round of the loop: every two neighbours are replaced by the digest of both, in place.
def hashPairs : List Sha256Hash → List Sha256Hash
  | h :: h' :: hashes => digest (h, h') :: hashPairs hashes
  | hashes            => hashes

-- The last hash is repeated if their number is odd.
def padHashes (hashes : List Sha256Hash) : List Sha256Hash :=
  if hashes.length % 2 = 1 then hashes ++ hashes.getLast?.toList else hashes

-- The loop `while len > 1`. `fuel` bounds its rounds, each of which shortens the list.
def merkleLoop : Nat → List Sha256Hash → Sha256Hash
  | _, []  => 0
  | _, [h] => h
  | 0, h :: _ => h
  | fuel + 1, hashes =>
    let hashes := hashPairs hashes
    merkleLoop fuel (if 1 < hashes.length then padHashes hashes else hashes)

def computeMerkleRoot (hashes : List Sha256Hash) : Sha256Hash :=
  if hashes.length ≤ 1 then hashes.headD 0 else merkleLoop hashes.length (padHashes hashes)

def hashTransactions (transactions : List SignedTransaction) : Sha256Hash :=
  computeMerkleRoot (transactions.map (·.tx.hash))

def hashBlockTransaction (b : Block) : Sha256Hash :=
  hashTransactions b.transactions

-- Neither the transactions nor the justification enter the hash, only the claimed Merkle root.
def hash (b : Block) : BlockHash :=
  match b.parentId with
  | none => QuorumCertificate.genesisBlockHash
  | some parentId =>
    digest { parentId, merkleRoot := b.merkleRoot, viewNumber := b.viewNumber : HashableBlock }

def createLeaf (parent : Block) (transactions : List SignedTransaction) (viewNumber : Nat)
    (justify : QuorumCertificate) : Block where
  parentId := parent.hash
  transactions
  viewNumber
  justify
  merkleRoot := hashTransactions transactions

def isParent (child parent : Block) : Prop :=
  child.parentId = some parent.hash

instance {child parent : Block} : Decidable (isParent child parent) :=
  inferInstanceAs (Decidable (child.parentId = some parent.hash))

end Block

namespace Block

-- Whether the block `lockedBlockHash` is among the next `n` ancestors.
def extendsWithin (lockedBlockHash : BlockHash) (blockStore : Blockstore) : Nat → Block → Bool
  | 0, _ => false
  | n + 1, b =>
    match b.parentId with
    | none => false
    | some parentId =>
      if parentId = lockedBlockHash then
        true
      else
        match blockStore.lookup parentId with
        | some parent => extendsWithin lockedBlockHash blockStore n parent
        | none        => false

def extendsFrom (b : Block) (lockedBlockHash : BlockHash) (blockStore : Blockstore) : Bool :=
  extendsWithin lockedBlockHash blockStore 3 b

end Block

-- Executing a block leaves the outcome of each transaction in the block.
def LedgerState.applyBlock (l : LedgerState) (block : Block) :
    Checked (LedgerState × Block × List (Option (PublicKeyHash × Nat))) := do
  let (l, transactions, accountNonces) ← l.apply block.transactions
  return (l, { block with transactions }, accountNonces)

end Superliquid

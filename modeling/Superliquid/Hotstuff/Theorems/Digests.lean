import Mathlib.Algebra.Ring.Parity
import Mathlib.Data.Nat.Pairing
import Mathlib.Logic.Equiv.Basic
import Mathlib.Tactic.Ring
import Superliquid.Hotstuff.Replica
import Superliquid.Types.Theorems.Authenticity

namespace Superliquid

-- What is assumed of SHA-256 on blocks: no collisions, neither among them nor with `GENESIS`.
class BlockDigest [Sha256] : Prop extends CollisionFree HashableBlock where
  ne_genesis : ∀ b : HashableBlock, digest b ≠ QuorumCertificate.genesisBlockHash

namespace Block

variable [Sha256] {b b' : Block}

theorem hash_normal {p : BlockHash} (h : b.parentId = some p) :
    b.hash = digest { parentId := p, merkleRoot := b.merkleRoot, viewNumber := b.viewNumber : HashableBlock } := by
  simp [hash, h]

theorem hash_genesis (h : b.parentId = none) : b.hash = QuorumCertificate.genesisBlockHash := by
  simp [hash, h]

variable [BlockDigest]

theorem hash_eq_genesis_iff : b.hash = QuorumCertificate.genesisBlockHash ↔ b.parentId = none := by
  cases h : b.parentId
  case none   => simp [hash_genesis h]
  case some p => simpa [hash_normal h] using BlockDigest.ne_genesis _

theorem hash_inj_parentId (h : b.hash = b'.hash) : b.parentId = b'.parentId := by
  cases hp : b.parentId <;> cases hp' : b'.parentId
  case none.none => rfl
  case none.some => exact absurd (h.symm.trans (hash_genesis hp)) (by simp [hash_eq_genesis_iff, hp'])
  case some.none => exact absurd (h.trans (hash_genesis hp')) (by simp [hash_eq_genesis_iff, hp])
  case some.some =>
    rw [hash_normal hp, hash_normal hp'] at h
    simpa using congrArg HashableBlock.parentId (CollisionFree.injective h)

theorem hash_inj_viewNumber {p : BlockHash} (h : b.hash = b'.hash) (hp : b.parentId = some p) :
    b.viewNumber = b'.viewNumber := by
  have hp' := hash_inj_parentId h ▸ hp
  rw [hash_normal hp, hash_normal hp'] at h
  simpa using congrArg HashableBlock.viewNumber (CollisionFree.injective h)

end Block

-- A pairing that grows slowly with its second component.
def oddPair (a b : Nat) : Nat :=
  2 ^ a * (2 * b + 1)

theorem oddPair_injective {a b a' b' : Nat} (h : oddPair a b = oddPair a' b') : a = a' ∧ b = b' := by
  unfold oddPair at h
  induction a generalizing a' <;> cases a' <;> simp only [pow_succ, pow_zero, one_mul] at h
  case zero.zero    => omega
  case zero.succ a' => have := Nat.mul_assoc (2 ^ a') 2 (2 * b' + 1); grind
  case succ.zero    => grind
  case succ.succ hi => grind

section

deriving instance Encodable for VerifyingKey
deriving instance Encodable for HashablePartialSig
deriving instance Encodable for HashableQC

end

-- Digests without collisions exist. Block hashes are kept short, so that chains can be computed.
@[reducible]
def Sha256.encoding : Sha256 where
  digestTransaction := Encodable.encode
  digestPair := Encodable.encode
  digestPartialSig := Encodable.encode
  digestQC := Encodable.encode
  digestBlock b := oddPair (b.viewNumber + 2) (oddPair b.merkleRoot b.parentId)
  digestMessage m := oddPair m.viewNumber (Nat.pair m.quorumHash m.blockHash)

theorem Sha256.encoding_message : let _ := Sha256.encoding; CollisionFree HashableMessage := by
  intro _
  refine ⟨fun m m' h => ?_⟩
  have ⟨hv, h⟩ := oddPair_injective h
  have ⟨hq, hb⟩ := Nat.pair_eq_pair.mp h
  cases m
  cases m'
  simp_all

-- Block hashes are divisible by four, the hash of `GENESIS` is not.
theorem Sha256.encoding_block : let _ := Sha256.encoding; BlockDigest := by
  intro _
  refine @BlockDigest.mk _ ⟨fun b b' h => ?_⟩ fun b h => ?_
  · have ⟨hv, h⟩ := oddPair_injective h
    have ⟨hm, hp⟩ := oddPair_injective h
    cases b
    cases b'
    simp_all
  · have h : 4 * (2 ^ b.viewNumber * (2 * oddPair b.merkleRoot b.parentId + 1)) =
        QuorumCertificate.genesisBlockHash := by
      rw [← h]
      show _ = 2 ^ (b.viewNumber + 2) * (2 * oddPair b.merkleRoot b.parentId + 1)
      ring
    unfold QuorumCertificate.genesisBlockHash at h
    omega

-- A digest without collisions that is short for the transaction `t`.
@[reducible]
def Sha256.naming (t : UnsignedTransaction) : Sha256 :=
  { Sha256.encoding with digestTransaction t' := Equiv.swap (Encodable.encode t) 1 (Encodable.encode t') }

theorem Sha256.naming_transaction (t : UnsignedTransaction) :
    let _ := Sha256.naming t; CollisionFree UnsignedTransaction := by
  intro _
  exact ⟨(Equiv.injective _).comp Encodable.encode_injective⟩

theorem Sha256.naming_pair (t : UnsignedTransaction) :
    let _ := Sha256.naming t; CollisionFree (Sha256Hash × Sha256Hash) := by
  intro _
  exact ⟨Encodable.encode_injective⟩

theorem Sha256.naming_message (t : UnsignedTransaction) :
    let _ := Sha256.naming t; CollisionFree HashableMessage := by
  intro _
  exact ⟨Sha256.encoding_message.injective⟩

theorem Sha256.naming_block (t : UnsignedTransaction) : let _ := Sha256.naming t; BlockDigest := by
  intro _
  exact @BlockDigest.mk _ ⟨Sha256.encoding_block.injective⟩ Sha256.encoding_block.ne_genesis

-- A scheme in which every key signs every message in exactly one way.
@[reducible]
def Ed25519.encoding : Ed25519 where
  fromBytes bytes := some { bytes }
  verifyingKey k := { bytes := k.bytes }
  sign k m := { bytes := oddPair k.bytes m }
  verifyStrict pk m σ := σ.bytes = oddPair pk.bytes m
  verify_sign _ _ := by simp

-- Validators whose keys are their numbers.
def Config.ofSize (numValidators : Nat) : @Config .encoding :=
  let _ := Ed25519.encoding
  { numValidators
    faucet := numValidators
    secretKey := SigningKey.mk
    publicKey := VerifyingKey.mk
    checked := fun _ _ => rfl }

variable [Sha256] [Ed25519]

-- A certificate made of votes of `signers`.
def Config.certify (c : Config) (signers : List Nat) (view : Nat) (blockHash : BlockHash) :
    QuorumCertificate where
  viewNumber := view
  blockHash
  messageHash := voteHash view blockHash
  partialSigs := signers.map fun i => {
    signerId := c.publicKey i
    signature := Ed25519.sign (c.secretKey i) (voteHash view blockHash) }

-- The arrival of a message, with hash maps listed in the order of insertion.
def Event.deliver (msg : HotStuffMessage) : Event :=
  .hotStuff msg { order := id, perm := fun _ => .rfl }

-- The same order for hash maps of any kind.
def MapOrder.inserted {α : Type} : MapOrder α where
  order := id
  perm _ := .rfl

def Event.propose (b : Block) (sender : PeerId) : Event :=
  .deliver (.proposal b b.viewNumber sender b.viewNumber)

-- A block on top of `parent`, justified by the votes of `signers`.
def Config.extend (c : Config) (signers : List Nat) (parent : Block) (view : Nat) : Block :=
  parent.createLeaf [] view
    (if parent.parentId = none then .createGenesisQC else c.certify signers parent.viewNumber parent.hash)

-- Proposals of the given views by their leaders, each on top of the one before.
def Config.chain (c : Config) (signers : List Nat) (parent : Block) : List Nat → List Event
  | []            => []
  | view :: views =>
    let block := c.extend signers parent view
    .propose block (view % c.numValidators) :: c.chain signers block views

-- A transfer from the faucet of seven validators.
def firstTransfer : UnsignedTransaction :=
  .transfer { source := 7, target := 1, amount := 5, assetId := 0, status := .pending, nonce := 0 }

def Config.transferBlock (c : Config) : Block :=
  createGenesisBlock.createLeaf [firstTransfer.sign (c.secretKey 7)] 1 .createGenesisQC

end Superliquid

import Mathlib.Data.Finset.Insert
import Superliquid.Types.Transaction

namespace Superliquid

structure PartialSig where
  signerId  : VerifyingKey
  signature : Signature
  deriving DecidableEq

structure HashablePartialSig where
  signerIdBytes  : PublicKeyHash
  signatureBytes : Nat

def PartialSig.hash [Digest HashablePartialSig] (σ : PartialSig) : Sha256Hash :=
  digest { signerIdBytes := σ.signerId.bytes, signatureBytes := σ.signature.bytes : HashablePartialSig }

structure HashableQC where
  viewNumber  : Nat
  blockHash   : BlockHash
  messageHash : Sha256Hash
  sigHashes   : List Sha256Hash

structure QuorumCertificate where
  viewNumber  : Nat
  blockHash   : BlockHash
  messageHash : Sha256Hash
  partialSigs : List PartialSig
  deriving DecidableEq

namespace QuorumCertificate

-- The bytes of the SHA-256 digest of `GENESIS`.
def genesisBlockHash : BlockHash :=
  0x901131d838b17aac0f7885b81e03cbdc9f5157a00343d30ab22083685ed1416a

def createGenesisQC : QuorumCertificate where
  viewNumber := 0
  blockHash := genesisBlockHash
  messageHash := 0
  partialSigs := []

-- `verify` takes these for genesis certificates, whatever they carry otherwise.
def IsGenesis (qc : QuorumCertificate) : Prop :=
  qc.viewNumber = 0 ∧ qc.blockHash = genesisBlockHash

instance : DecidablePred IsGenesis :=
  fun qc => inferInstanceAs (Decidable (qc.viewNumber = 0 ∧ qc.blockHash = genesisBlockHash))

def fromSignatures (viewNumber : Nat) (blockHash : BlockHash) (messageHash : Sha256Hash)
    (partialSigs : List PartialSig) : Checked QuorumCertificate :=
  if partialSigs = [] then
    .error (.expect "from_signatures requires at least one partial signature")
  else
    .ok { viewNumber, blockHash, messageHash, partialSigs }

section

variable [Ed25519]

-- The loop of `verify`. A signer is marked as seen before its signature is checked.
def validSigCount (validatorSet : Finset VerifyingKey) (messageHash : Sha256Hash) :
    List PartialSig → Finset VerifyingKey → Nat
  | [], _ => 0
  | sig :: sigs, uniqueSigners =>
    if sig.signerId ∉ validatorSet then
      validSigCount validatorSet messageHash sigs uniqueSigners
    else if sig.signerId ∈ uniqueSigners then
      validSigCount validatorSet messageHash sigs uniqueSigners
    else if Ed25519.verifyStrict sig.signerId messageHash sig.signature then
      validSigCount validatorSet messageHash sigs (insert sig.signerId uniqueSigners) + 1
    else
      validSigCount validatorSet messageHash sigs (insert sig.signerId uniqueSigners)

def verify (qc : QuorumCertificate) (validatorSet : Finset VerifyingKey) (quorumSize : Nat) : Bool :=
  qc.IsGenesis ∨ quorumSize ≤ validSigCount validatorSet qc.messageHash qc.partialSigs ∅

end

def hash [Digest HashablePartialSig] [Digest HashableQC] (qc : QuorumCertificate) : Sha256Hash :=
  digest {
    viewNumber := qc.viewNumber, blockHash := qc.blockHash, messageHash := qc.messageHash
    sigHashes := qc.partialSigs.map PartialSig.hash : HashableQC }

end QuorumCertificate
end Superliquid

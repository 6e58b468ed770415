import Mathlib.Logic.Equiv.List
import Mathlib.Tactic.DeriveEncodable
import Superliquid.Types.Transaction

namespace Superliquid

-- A scheme in which all signatures up to `bound` that `accepts` lists are valid for `m` and for
-- nothing else. All other signatures are longer.
@[reducible]
def Ed25519.accepting (m : Sha256Hash) (accepts : VerifyingKey → Signature → Bool) (bound : Nat) :
    Ed25519 where
  fromBytes bytes := some { bytes }
  verifyingKey k := { bytes := k.bytes }
  sign _ m' := { bytes := bound + 1 + m' }
  verifyStrict pk m' σ := m' = m ∧ accepts pk σ ∨ σ.bytes = bound + 1 + m'
  verify_sign _ _ := by simp

theorem Ed25519.accepting_verifyStrict
    {m m' : Sha256Hash} {accepts : VerifyingKey → Signature → Bool} {bound : Nat}
    {pk : VerifyingKey} {σ : Signature} (h : σ.bytes ≤ bound) :
    (Ed25519.accepting m accepts bound).verifyStrict pk m' σ = true ↔ m' = m ∧ accepts pk σ := by
  show decide (m' = m ∧ accepts pk σ ∨ σ.bytes = bound + 1 + m') = true ↔ _
  rw [decide_eq_true_iff, or_iff_left]
  omega

theorem verifySignature_eq_true [Ed25519] {account : PublicKeyHash} {h : Sha256Hash}
    {s : SignatureString} :
    verifySignature account h s = .ok true ↔
      ∃ pk σ, Ed25519.fromBytes account = some pk ∧ s.stringToSig = some σ ∧
        Ed25519.verifyStrict pk h σ = true := by
  simp only [verifySignature, asPublicKey, Checked.bind_ok, Checked.expect_ok, Checked.pure_ok]
  constructor
  · rintro ⟨pk, hp, σ, hs, hv⟩
    exact ⟨pk, σ, hp, hs, hv⟩
  · rintro ⟨pk, σ, hp, hs, hv⟩
    exact ⟨pk, hp, σ, hs, hv⟩

namespace SignedTransaction

variable [Digest UnsignedTransaction]

def IsTransfer (t : SignedTransaction) : Prop :=
  ∃ transaction, t.tx = .transfer transaction

-- The hash against which the signature is checked.
def checkedHash (t : SignedTransaction) : Sha256Hash :=
  match t.tx with
  | .transfer _ => t.hash
  | _           => t.tx.hash

theorem verifySender_eq [Ed25519] (t : SignedTransaction) :
    t.verifySender = verifySignature t.getFromAccount t.checkedHash t.signature := by
  unfold verifySender getFromAccount checkedHash
  split <;> simp_all

theorem checkedHash_eq_iff {t : SignedTransaction} :
    t.checkedHash = t.tx.hash ↔ ¬t.IsTransfer ∨ t.hash = t.tx.hash := by
  unfold checkedHash IsTransfer
  split <;> simp_all

-- The check that a block's transactions pass shows that the holder of the sender's key signed the
-- transaction as it stands.
def Authentic (t : SignedTransaction) : Prop :=
  ∀ (_ : Ed25519) (signed : VerifyingKey → Sha256Hash → Prop),
    (∀ pk σ, t.signature.stringToSig = some σ → σ.Genuine signed pk) →
    t.verifySender = .ok true →
    ∃ pk, Ed25519.fromBytes t.getFromAccount = some pk ∧ signed pk t.tx.hash

theorem authentic_of_checkedHash {t : SignedTransaction} (h : t.checkedHash = t.tx.hash) :
    t.Authentic := by
  intro _ signed genuine verified
  rw [verifySender_eq, verifySignature_eq_true, h] at verified
  have ⟨pk, σ, hp, hs, hv⟩ := verified
  exact ⟨pk, hp, genuine pk σ hs _ hv⟩

theorem authentic_of_stringToSig_none {t : SignedTransaction} (h : t.signature.stringToSig = none) :
    t.Authentic := by
  intro _ _ _ verified
  rw [verifySender_eq, verifySignature_eq_true] at verified
  have ⟨_, _, _, hs, _⟩ := verified
  simp [h] at hs

-- An attacker attaches the signature of another transaction together with its hash.
theorem not_authentic {t : SignedTransaction} {σ : Signature}
    (hs : t.signature.stringToSig = some σ) (h : t.checkedHash ≠ t.tx.hash) : ¬t.Authentic := by
  intro authentic
  let _ := Ed25519.accepting t.checkedHash (fun _ σ' => σ' = σ) σ.bytes
  have genuine : ∀ pk σ', t.signature.stringToSig = some σ' →
      σ'.Genuine (fun _ m => m = t.checkedHash) pk := by
    intro pk σ' hs' m hv
    cases hs.symm.trans hs'
    exact (Ed25519.accepting_verifyStrict le_rfl |>.mp hv).1
  have verified : t.verifySender = .ok true := by
    rw [verifySender_eq, verifySignature_eq_true]
    exact ⟨_, σ, rfl, hs, Ed25519.accepting_verifyStrict le_rfl |>.mpr ⟨rfl, by simp⟩⟩
  have ⟨_, _, hsigned⟩ := authentic _ _ genuine verified
  exact h hsigned.symm

theorem authentic_iff (t : SignedTransaction) :
    t.Authentic ↔ ¬t.IsTransfer ∨ t.hash = t.tx.hash ∨ t.signature.stringToSig = none := by
  rw [← or_assoc, ← checkedHash_eq_iff]
  constructor
  · intro authentic
    by_contra h
    push Not at h
    have ⟨σ, hs⟩ := Option.ne_none_iff_exists'.mp h.2
    exact not_authentic hs h.1 authentic
  · rintro (h | h)
    · exact authentic_of_checkedHash h
    · exact authentic_of_stringToSig_none h

end SignedTransaction

section

instance encodableChar : Encodable Char :=
  Encodable.ofLeftInjection Char.toNat (fun n => some (Char.ofNat n)) (by simp)

instance encodableString : Encodable String :=
  Encodable.ofLeftInjection String.toList (fun cs => some (String.ofList cs)) (by simp)

deriving instance Encodable for Resource
deriving instance Encodable for ExecError
deriving instance Encodable for TransactionStatus
deriving instance Encodable for OrderDirection
deriving instance Encodable for OrderType
deriving instance Encodable for TransferTransaction
deriving instance Encodable for OrderTransaction
deriving instance Encodable for CancelOrderTransaction
deriving instance Encodable for UnsignedTransaction

end

-- A digest without collisions: the number of a value in an enumeration of its type.
@[reducible]
def Digest.ofEncodable (α : Type) [Encodable α] : Digest α where
  digest := Encodable.encode

theorem Digest.ofEncodable_collisionFree (α : Type) [Encodable α] :
    @CollisionFree α (.ofEncodable α) :=
  @CollisionFree.mk α (.ofEncodable α) Encodable.encode_injective

def transferOf (amount : Nat) : UnsignedTransaction :=
  .transfer { source := 1, target := 2, amount, assetId := 0, status := .pending, nonce := 0 }

-- The amount is raised; signature and hash are those of the original.
def raisedTransfer [Digest UnsignedTransaction] : SignedTransaction where
  tx := transferOf 1000
  signature := .sigToString { bytes := 0 }
  hash := (transferOf 1).hash

theorem raisedTransfer_not_authentic :
    ∃ _ : Digest UnsignedTransaction, CollisionFree UnsignedTransaction ∧
      ¬SignedTransaction.Authentic raisedTransfer := by
  let _ := Digest.ofEncodable UnsignedTransaction
  refine ⟨_, Digest.ofEncodable_collisionFree UnsignedTransaction, ?_⟩
  have hs : raisedTransfer.signature.stringToSig = some { bytes := 0 } := by decide +kernel
  have hh : raisedTransfer.checkedHash ≠ raisedTransfer.tx.hash := by
    intro h
    have := Encodable.encode_injective h
    simp [transferOf, raisedTransfer] at this
  exact SignedTransaction.not_authentic hs hh

end Superliquid

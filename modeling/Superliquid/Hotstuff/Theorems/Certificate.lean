import Mathlib.Data.Finset.Card
import Mathlib.Data.List.MinMax
import Superliquid.Hotstuff.Theorems.Digests

namespace Superliquid.QuorumCertificate

-- The validators among the signers of a certificate.
def knownSigners (qc : QuorumCertificate) (validatorSet : Finset VerifyingKey) : Finset VerifyingKey :=
  validatorSet.filter (· ∈ qc.partialSigs.map PartialSig.signerId)

section

variable [Ed25519] {validatorSet seen : Finset VerifyingKey} {m : Sha256Hash} {sigs : List PartialSig}

-- A valid signature of `pk`.
def SignedBy (m : Sha256Hash) (pk : VerifyingKey) (sig : PartialSig) : Prop :=
  sig.signerId = pk ∧ Ed25519.verifyStrict pk m sig.signature = true

instance {pk : VerifyingKey} : DecidablePred (SignedBy m pk) :=
  fun sig => inferInstanceAs (Decidable (sig.signerId = pk ∧ _))

-- Of all entries of `pk`, the first one is valid.
def FirstValid (m : Sha256Hash) (sigs : List PartialSig) (pk : VerifyingKey) : Prop :=
  ∃ sig ∈ sigs.find? (·.signerId = pk), SignedBy m pk sig

instance : DecidablePred (FirstValid m sigs) :=
  fun pk => inferInstanceAs (Decidable (∃ sig ∈ sigs.find? (·.signerId = pk), SignedBy m pk sig))

theorem FirstValid.signedBy {pk : VerifyingKey} (h : FirstValid m sigs pk) : ∃ sig ∈ sigs, SignedBy m pk sig := by
  have ⟨sig, hs, h⟩ := h
  exact ⟨sig, List.mem_of_find?_eq_some hs, h⟩

@[simp]
theorem not_firstValid_nil {pk : VerifyingKey} : ¬FirstValid m [] pk := by
  simp [FirstValid]

theorem firstValid_cons_self {sig : PartialSig} :
    FirstValid m (sig :: sigs) sig.signerId ↔ Ed25519.verifyStrict sig.signerId m sig.signature = true := by
  simp [FirstValid, SignedBy]

theorem firstValid_cons_ne {sig : PartialSig} {pk : VerifyingKey} (h : pk ≠ sig.signerId) :
    FirstValid m (sig :: sigs) pk ↔ FirstValid m sigs pk := by
  simp [FirstValid, h.symm]

-- What the loop counts: validators that were not seen before, if the first signature of each is valid.
theorem validSigCount_eq (validatorSet : Finset VerifyingKey) (m : Sha256Hash) (sigs : List PartialSig)
    (seen : Finset VerifyingKey) :
    validSigCount validatorSet m sigs seen = ((validatorSet \ seen).filter (FirstValid m sigs)).card := by
  induction sigs generalizing seen
  case nil => simp [validSigCount, Finset.filter_false_of_mem]
  case cons sig sigs hi =>
    have skip : sig.signerId ∉ validatorSet \ seen →
        validSigCount validatorSet m sigs seen =
          ((validatorSet \ seen).filter (FirstValid m (sig :: sigs))).card := by
      intro hn
      rw [hi]
      congr 1
      refine Finset.filter_congr fun pk hpk => (firstValid_cons_ne fun he => hn ?_).symm
      exact he ▸ hpk
    -- The next round never looks at the signer again.
    have next : ((validatorSet \ insert sig.signerId seen).filter (FirstValid m sigs)) =
        ((validatorSet \ seen).filter (FirstValid m (sig :: sigs))).erase sig.signerId := by
      ext pk
      by_cases hp : pk = sig.signerId
      case pos => simp [hp]
      case neg => simp [hp, firstValid_cons_ne hp]
    unfold validSigCount
    split
    case isTrue hk => exact skip (by simp [hk])
    split
    case isTrue hn => exact skip (by simp [hn])
    case isFalse hk hn =>
    rw [hi, next]
    split
    case isTrue hv =>
      have hmem : sig.signerId ∈ (validatorSet \ seen).filter (FirstValid m (sig :: sigs)) := by
        simp [not_not.mp hk, hn, firstValid_cons_self, hv]
      exact Finset.card_erase_add_one hmem
    case isFalse hv =>
      rw [Finset.erase_eq_of_notMem]
      simp [firstValid_cons_self, hv]

theorem validSigCount_signers (validatorSet : Finset VerifyingKey) (m : Sha256Hash)
    (sigs : List PartialSig) (seen : Finset VerifyingKey) :
    ∃ s ⊆ validatorSet, s.card = validSigCount validatorSet m sigs seen ∧ Disjoint s seen ∧
      ∀ pk ∈ s, ∃ sig ∈ sigs, sig.signerId = pk ∧ Ed25519.verifyStrict pk m sig.signature = true := by
  have hsub := Finset.filter_subset (FirstValid m sigs) (validatorSet \ seen)
  refine ⟨_, hsub.trans Finset.sdiff_subset, (validSigCount_eq ..).symm, ?_, fun pk hpk => ?_⟩
  · exact Finset.disjoint_of_subset_left hsub Finset.sdiff_disjoint
  · exact (Finset.mem_filter.mp hpk).2.signedBy

-- If all signatures are valid, everyone who was not seen before is counted.
theorem validSigCount_eq_of_valid
    (h : ∀ sig ∈ sigs, Ed25519.verifyStrict sig.signerId m sig.signature = true) :
    validSigCount validatorSet m sigs seen =
      ((validatorSet \ seen).filter (· ∈ sigs.map PartialSig.signerId)).card := by
  rw [validSigCount_eq]
  congr 1
  refine Finset.filter_congr fun pk _ => ⟨fun hf => ?_, fun hm => ?_⟩
  · have ⟨sig, hs, he, _⟩ := hf.signedBy
    exact List.mem_map.mpr ⟨sig, hs, he⟩
  · have ⟨sig, hs, he⟩ := List.mem_map.mp hm
    have hsome : (sigs.find? (·.signerId = pk)).isSome := List.find?_isSome.mpr ⟨sig, hs, by simpa using he⟩
    have ⟨sig', hs'⟩ := Option.isSome_iff_exists.mp hsome
    have he' : sig'.signerId = pk := by simpa using List.find?_some hs'
    exact ⟨sig', hs', he', he' ▸ h sig' (List.mem_of_find?_eq_some hs')⟩

-- The validators that have a valid signature in the certificate, wherever it stands.
def validSigners (qc : QuorumCertificate) (validatorSet : Finset VerifyingKey) : Finset VerifyingKey :=
  validatorSet.filter fun pk => ∃ sig ∈ qc.partialSigs, SignedBy qc.messageHash pk sig

-- No invalid entry of a validator stands before its first valid one.
def Unmasked (qc : QuorumCertificate) (validatorSet : Finset VerifyingKey) : Prop :=
  ∀ pk ∈ qc.validSigners validatorSet, FirstValid qc.messageHash qc.partialSigs pk

theorem verify_iff {qc : QuorumCertificate} (hg : ¬qc.IsGenesis) (q : Nat) :
    qc.verify validatorSet q = true ↔
      q ≤ (validatorSet.filter (FirstValid qc.messageHash qc.partialSigs)).card := by
  simp [verify, hg, validSigCount_eq]

theorem filter_firstValid_subset (qc : QuorumCertificate) (validatorSet : Finset VerifyingKey) :
    validatorSet.filter (FirstValid qc.messageHash qc.partialSigs) ⊆ qc.validSigners validatorSet :=
  Finset.monotone_filter_right _ fun _ _ => FirstValid.signedBy

theorem Unmasked.filter_eq {qc : QuorumCertificate} (h : qc.Unmasked validatorSet) :
    validatorSet.filter (FirstValid qc.messageHash qc.partialSigs) = qc.validSigners validatorSet := by
  refine (qc.filter_firstValid_subset validatorSet).antisymm fun pk hpk => ?_
  exact Finset.mem_filter.mpr ⟨(Finset.mem_filter.mp hpk).1, h pk hpk⟩

theorem unmasked_of_card {qc : QuorumCertificate}
    (h : (qc.validSigners validatorSet).card ≤
      (validatorSet.filter (FirstValid qc.messageHash qc.partialSigs)).card) :
    qc.Unmasked validatorSet := by
  intro pk hpk
  rw [← Finset.eq_of_subset_of_card_le (qc.filter_firstValid_subset validatorSet) h] at hpk
  exact (Finset.mem_filter.mp hpk).2

theorem verify_counts_valid_signers (qc : QuorumCertificate) (validatorSet : Finset VerifyingKey)
    (hg : ¬qc.IsGenesis) :
    ((∀ q, qc.verify validatorSet q = true ↔ q ≤ (qc.validSigners validatorSet).card) ↔
      qc.Unmasked validatorSet) ∧
    (∀ sigs, qc.partialSigs ⊆ sigs → { qc with partialSigs := sigs }.Unmasked validatorSet →
      ∀ q, qc.verify validatorSet q = true → { qc with partialSigs := sigs }.verify validatorSet q = true) := by
  refine ⟨⟨fun h => ?_, fun h q => ?_⟩, fun sigs hs h q hv => ?_⟩
  · have hall := (h (qc.validSigners validatorSet).card).mpr le_rfl
    exact unmasked_of_card ((verify_iff hg _).mp hall)
  · rw [verify_iff hg, h.filter_eq]
  · rw [verify_iff (by exact hg), h.filter_eq]
    refine ((verify_iff hg q).mp hv).trans (Finset.card_le_card ?_)
    refine (qc.filter_firstValid_subset validatorSet).trans ?_
    refine Finset.monotone_filter_right _ fun pk _ ⟨sig, hm, hsig⟩ => ⟨sig, hs hm, hsig⟩

omit [Ed25519] in
theorem verify_counts_valid_signers_one :
    ∃ (_ : Ed25519) (qc : QuorumCertificate), qc.verify {⟨2⟩} 1 = true ∧
      verify { qc with partialSigs := ⟨⟨3⟩, ⟨0⟩⟩ :: qc.partialSigs } {⟨2⟩} 1 = true := by
  refine ⟨.encoding, ?_⟩
  let _ := Ed25519.encoding
  let qc : QuorumCertificate := ⟨1, 4, 5, [⟨⟨2⟩, Ed25519.sign ⟨2⟩ 5⟩]⟩
  have hu : Unmasked { qc with partialSigs := ⟨⟨3⟩, ⟨0⟩⟩ :: qc.partialSigs } {⟨2⟩} := by
    unfold Unmasked
    decide
  have ⟨hc, hm⟩ := verify_counts_valid_signers qc {⟨2⟩} (by decide)
  have hv := (hc.mpr (by unfold Unmasked; decide) 1).mpr (by decide)
  exact ⟨qc, hv, hm _ (List.subset_cons_self _ _) hu 1 hv⟩

omit [Ed25519] in
-- Whoever forwards the certificate puts a broken copy of a signature in front of it.
theorem verify_not_counts_valid_signers :
    ∃ (_ : Ed25519) (qc : QuorumCertificate) (validatorSet : Finset VerifyingKey),
      ¬qc.IsGenesis ∧ 1 ≤ (qc.validSigners validatorSet).card ∧ qc.verify validatorSet 1 = false := by
  refine ⟨.encoding, ?_⟩
  let _ := Ed25519.encoding
  let sig : PartialSig := ⟨⟨2⟩, Ed25519.sign ⟨2⟩ 5⟩
  exact ⟨⟨1, 4, 5, [{ sig with signature := ⟨0⟩ }, sig]⟩, {⟨2⟩}, by decide, by decide, by decide⟩

theorem signers_of_verify {qc : QuorumCertificate} {q : Nat} {signed : VerifyingKey → Sha256Hash → Prop}
    (genuine : ∀ sig ∈ qc.partialSigs, sig.signature.Genuine signed sig.signerId)
    (hg : ¬qc.IsGenesis) (hv : qc.verify validatorSet q = true) :
    ∃ s ⊆ qc.knownSigners validatorSet, q ≤ s.card ∧ ∀ pk ∈ s, signed pk qc.messageHash := by
  have ⟨s, hs, hc, _, hval⟩ := validSigCount_signers validatorSet qc.messageHash qc.partialSigs ∅
  have hq : q ≤ s.card := by simpa [verify, hg, hc] using hv
  refine ⟨s, fun pk hpk => ?_, hq, fun pk hpk => ?_⟩
  all_goals have ⟨sig, hm, he, hsig⟩ := hval pk hpk
  · simp only [knownSigners, Finset.mem_filter, List.mem_map]
    exact ⟨hs hpk, sig, hm, he⟩
  · exact he ▸ genuine sig hm _ (he.symm ▸ hsig)

end

variable [Sha256]

-- A certificate that passes `verify` shows that `quorumSize` validators voted for its block in its
-- view.
def Certifies (qc : QuorumCertificate) (validatorSet : Finset VerifyingKey) (quorumSize : Nat) : Prop :=
  ∀ (_ : Ed25519) (signed : VerifyingKey → Sha256Hash → Prop),
    (∀ sig ∈ qc.partialSigs, sig.signature.Genuine signed sig.signerId) →
    qc.verify validatorSet quorumSize = true →
    ∃ s ⊆ validatorSet, quorumSize ≤ s.card ∧
      ∀ pk ∈ s, signed pk (voteHash qc.viewNumber qc.blockHash)

variable {qc : QuorumCertificate} {validatorSet : Finset VerifyingKey} {q : Nat}

def bound (qc : QuorumCertificate) : Nat :=
  (qc.partialSigs.map (·.signature.bytes)).foldr max 0

omit [Sha256] in
theorem le_bound {sig : PartialSig} (h : sig ∈ qc.partialSigs) : sig.signature.bytes ≤ qc.bound :=
  List.le_max_of_le' 0 (List.mem_map_of_mem h) le_rfl

-- Nobody signed anything, and the certificate passes as one for the genesis block.
theorem not_certifies_of_isGenesis (h : qc.IsGenesis) (hq : 0 < q) : ¬qc.Certifies validatorSet q := by
  intro certifies
  let _ := Ed25519.accepting 0 (fun _ _ => false) qc.bound
  have genuine : ∀ sig ∈ qc.partialSigs, sig.signature.Genuine (fun _ _ => False) sig.signerId := by
    intro sig hs m hv
    simpa using (Ed25519.accepting_verifyStrict (le_bound hs)).mp hv
  have ⟨s, _, hc, hs⟩ := certifies _ _ genuine (by simp [verify, h])
  have ⟨pk, hpk⟩ := Finset.card_pos.mp (hq.trans_le hc)
  exact hs pk hpk

-- The signatures are genuine votes, but for another block or view.
theorem not_certifies_of_messageHash (hm : qc.messageHash ≠ voteHash qc.viewNumber qc.blockHash)
    (hq : 0 < q) (hk : q ≤ (qc.knownSigners validatorSet).card) : ¬qc.Certifies validatorSet q := by
  intro certifies
  let _ := Ed25519.accepting qc.messageHash
    (fun pk σ => { signerId := pk, signature := σ } ∈ qc.partialSigs) qc.bound
  have genuine : ∀ sig ∈ qc.partialSigs,
      sig.signature.Genuine (fun _ m => m = qc.messageHash) sig.signerId := by
    intro sig hs m hv
    exact ((Ed25519.accepting_verifyStrict (le_bound hs)).mp hv).1
  have valid : ∀ sig ∈ qc.partialSigs,
      Ed25519.verifyStrict sig.signerId qc.messageHash sig.signature = true := by
    intro sig hs
    exact (Ed25519.accepting_verifyStrict (le_bound hs)).mpr ⟨rfl, by simpa using hs⟩
  have hv : qc.verify validatorSet q = true := by
    simp only [verify, decide_eq_true_eq, validSigCount_eq_of_valid valid, Finset.sdiff_empty]
    exact .inr hk
  have ⟨s, _, hc, hs⟩ := certifies _ _ genuine hv
  have ⟨pk, hpk⟩ := Finset.card_pos.mp (hq.trans_le hc)
  exact hm (hs pk hpk).symm

theorem certifies_iff (qc : QuorumCertificate) (validatorSet : Finset VerifyingKey) (q : Nat) :
    qc.Certifies validatorSet q ↔
      q = 0 ∨ ¬qc.IsGenesis ∧
        (qc.messageHash = voteHash qc.viewNumber qc.blockHash ∨
          (qc.knownSigners validatorSet).card < q) := by
  constructor
  · intro certifies
    by_contra h
    push Not at h
    have ⟨hq, h⟩ := h
    by_cases hg : qc.IsGenesis
    case pos => exact not_certifies_of_isGenesis hg (Nat.pos_of_ne_zero hq) certifies
    case neg =>
      have ⟨hm, hk⟩ := h hg
      exact not_certifies_of_messageHash hm (Nat.pos_of_ne_zero hq) hk certifies
  · rintro (rfl | ⟨hg, h⟩) _ signed genuine hv
    · exact ⟨∅, by simp⟩
    have ⟨s, hs, hc, hsigned⟩ := signers_of_verify genuine hg hv
    cases h
    case inl h => exact ⟨s, hs.trans (Finset.filter_subset _ _), hc, h ▸ hsigned⟩
    case inr h => exact absurd (hc.trans (Finset.card_le_card hs)) (Nat.not_le.mpr h)

-- Three votes for the block 4 in view 1, in a certificate for the block 5 in view 7.
def reusedVotes : QuorumCertificate where
  viewNumber := 7
  blockHash := 5
  messageHash := voteHash 1 4
  partialSigs := [0, 1, 2].map fun i => { signerId := { bytes := i }, signature := { bytes := i } }

omit [Sha256] in
theorem reusedVotes_not_certifies :
    ∃ _ : Sha256, CollisionFree HashableMessage ∧ reusedVotes ≠ createGenesisQC ∧
      ¬reusedVotes.Certifies ((Finset.range 4).image VerifyingKey.mk) 3 := by
  let _ := Sha256.encoding
  refine ⟨_, Sha256.encoding_message, by decide, ?_⟩
  exact not_certifies_of_messageHash (by decide) (by decide) (by decide)

end Superliquid.QuorumCertificate

import Superliquid.Hotstuff.Theorems.Certificate
import Superliquid.Hotstuff.Theorems.Provenance

namespace Superliquid

open HotStuffReplica ReplicaM

variable [Ed25519]

section Tally

variable {validatorSet : Finset VerifyingKey} {t : Tally} {msg : HotStuffMessage}

-- The signatures that were collected under a key are valid votes of different validators.
structure Collected (validatorSet : Finset VerifyingKey) (seen : List PublicKeyHash)
    (messageHash : Sha256Hash) (sigs : List PartialSig) : Prop where
  known    : ∀ sig ∈ sigs, sig.signerId ∈ validatorSet
  valid    : ∀ sig ∈ sigs, Ed25519.verifyStrict sig.signerId messageHash sig.signature = true
  seen     : ∀ sig ∈ sigs, sig.signerId.bytes ∈ seen
  distinct : (sigs.map PartialSig.signerId).Nodup

namespace Collected

variable {seen : List PublicKeyHash} {m : Sha256Hash} {sigs : List PartialSig}

theorem nil : Collected validatorSet seen m [] :=
  ⟨by simp, by simp, by simp, by simp⟩

theorem cons (h : Collected validatorSet seen m sigs) (pk : PublicKeyHash) :
    Collected validatorSet (pk :: seen) m sigs :=
  ⟨h.known, h.valid, fun sig hs => List.mem_cons_of_mem _ (h.seen sig hs), h.distinct⟩

theorem append {sig : PartialSig} (h : Collected validatorSet seen m sigs) (hk : sig.signerId ∈ validatorSet)
    (hv : Ed25519.verifyStrict sig.signerId m sig.signature = true) (hn : sig.signerId.bytes ∉ seen) :
    Collected validatorSet (sig.signerId.bytes :: seen) m (sigs ++ [sig]) where
  known    := List.forall_mem_append.mpr ⟨h.known, by simpa using hk⟩
  valid    := List.forall_mem_append.mpr ⟨h.valid, by simpa using hv⟩
  seen     := List.forall_mem_append.mpr ⟨(h.cons _).seen, by simp⟩
  distinct := by
    rw [List.map_append, List.nodup_append_comm]
    refine List.nodup_cons.mpr ⟨fun hmem => ?_, h.distinct⟩
    have ⟨sig', hs, he⟩ := List.mem_map.mp hmem
    exact hn (he ▸ h.seen sig' hs)

-- All of them count.
theorem validSigCount (h : Collected validatorSet seen m sigs) :
    QuorumCertificate.validSigCount validatorSet m sigs ∅ = sigs.length := by
  have hsub : (sigs.map PartialSig.signerId).toFinset ⊆ validatorSet := by
    intro pk hpk
    have ⟨sig, hs, he⟩ := List.mem_map.mp (List.mem_toFinset.mp hpk)
    exact he ▸ h.known sig hs
  rw [QuorumCertificate.validSigCount_eq_of_valid h.valid, Finset.sdiff_empty,
    ← List.length_map PartialSig.signerId, ← List.toFinset_card_of_nodup h.distinct]
  congr 1
  ext pk
  simp only [Finset.mem_filter, List.mem_toFinset]
  exact ⟨And.right, fun hpk => ⟨hsub (List.mem_toFinset.mpr hpk), hpk⟩⟩

end Collected

def SoundTally (validatorSet : Finset VerifyingKey) (t : Tally) : Prop :=
  ∀ key sigs, t.sigs.lookup key = some sigs → Collected validatorSet t.seen key.2 sigs

variable [Sha256]

theorem SoundTally.tallyVote (h : SoundTally validatorSet t) :
    SoundTally validatorSet (tallyVote validatorSet t msg) := by
  unfold HotStuffReplica.tallyVote
  split
  case h_2 => exact h
  case h_1 node partialSig view sender sv =>
    dsimp only
    split
    case isTrue => exact h
    split
    case isTrue => exact h
    split
    case isTrue => exact h
    case isFalse hknown hvalid hnew =>
      intro key sigs hs
      rcases Map.lookup_insert_iff.mp hs with ⟨rfl, rfl⟩ | ⟨_, hs⟩
      · refine .append ?_ (not_not.mp hknown) (not_not.mp hvalid) hnew
        cases hs : t.sigs.lookup (node.hash, HotStuffMessage.hash (.vote node partialSig view sender sv))
        case none      => exact .nil
        case some sigs => exact h _ sigs hs
      · exact (h key sigs hs).cons _

theorem soundTally_foldl (msgs : List HotStuffMessage) :
    SoundTally validatorSet (msgs.foldl (tallyVote validatorSet) { seen := [], sigs := ∅ }) := by
  refine List.foldlRecOn (motive := SoundTally validatorSet) msgs _ ?_ fun _ h _ _ => h.tallyVote
  intro key sigs hs
  simp at hs

end Tally

variable [Sha256]

-- The genesis certificate, or one that passes `verify`.
def HotStuffReplica.Trusts (r : HotStuffReplica) (qc : QuorumCertificate) : Prop :=
  qc = .createGenesisQC ∨ ∃ quorum ∈ r.quorumThreshold.toOption, qc.verify r.validatorSet quorum = true

instance {r : HotStuffReplica} {qc : QuorumCertificate} : Decidable (r.Trusts qc) :=
  inferInstanceAs (Decidable (_ ∨ ∃ quorum ∈ r.quorumThreshold.toOption, _))

omit [Sha256] in
theorem HotStuffReplica.Trusts.of_verify {r : HotStuffReplica} {qc : QuorumCertificate} {quorum : Nat}
    (hq : r.quorumThreshold = .ok quorum) (hv : qc.verify r.validatorSet quorum = true) : r.Trusts qc :=
  .inr ⟨quorum, by simp [hq, Except.toOption], hv⟩

omit [Sha256] in
theorem HotStuffReplica.Trusts.congr {r r' : HotStuffReplica} {qc : QuorumCertificate}
    (h : r.Trusts qc) (hv : r'.validatorSet = r.validatorSet) : r'.Trusts qc := by
  unfold Trusts quorumThreshold at h ⊢
  rwa [hv]

-- A certificate is made of an entry of the tally that is long enough.
theorem tryCreateQCForView_some {r : HotStuffReplica} {order : TallyOrder} {view : Nat} {qc : QuorumCertificate}
    (h : r.tryCreateQCForView order view = .ok (some qc)) :
    ∃ msgs quorum, r.messages.getMessagesForView view = .ok (some msgs) ∧ r.quorumThreshold = .ok quorum ∧
      qc.viewNumber = view ∧ quorum ≤ qc.partialSigs.length ∧
      (msgs.foldl (tallyVote r.validatorSet) { seen := [], sigs := ∅ }).sigs.lookup (qc.blockHash, qc.messageHash) =
        some qc.partialSigs := by
  unfold tryCreateQCForView at h
  simp only [Checked.bind_ok] at h
  have ⟨msgs, hm, h⟩ := h
  cases msgs
  case none => simp [Checked.pure_ok] at h
  case some msgs =>
    simp only [Checked.bind_ok] at h
    have ⟨quorum, hq, h⟩ := h
    split at h
    case h_1 => simp [Checked.pure_ok] at h
    case h_2 blockHash messageHash sigs hfind =>
      rw [Checked.map_ok] at h
      have ⟨qc', hf, h⟩ := h
      cases h
      unfold QuorumCertificate.fromSignatures at hf
      split at hf <;> cases hf
      have hmem := (order.perm _).mem_iff.mp (List.mem_of_find?_eq_some hfind)
      have hlen : quorum ≤ sigs.length := by simpa using List.find?_some hfind
      exact ⟨msgs, quorum, hm, hq, rfl, hlen, AList.mem_lookup_iff.mpr hmem⟩

theorem tryCreateQCForView_verify {r : HotStuffReplica} {order : TallyOrder} {view quorum : Nat}
    {qc : QuorumCertificate} (h : r.tryCreateQCForView order view = .ok (some qc))
    (hq : r.quorumThreshold = .ok quorum) : qc.verify r.validatorSet quorum = true := by
  have ⟨msgs, _, _, hq', _, hlen, hs⟩ := tryCreateQCForView_some h
  cases hq.symm.trans hq'
  simp [QuorumCertificate.verify, (soundTally_foldl msgs _ _ hs).validSigCount, hlen]

theorem tryCreateQCForView_trusts {r : HotStuffReplica} {order : TallyOrder} {view : Nat} {qc : QuorumCertificate}
    (h : r.tryCreateQCForView order view = .ok (some qc)) : r.Trusts qc := by
  have ⟨_, quorum, _, hq, _⟩ := tryCreateQCForView_some h
  exact .of_verify hq (tryCreateQCForView_verify h hq)

structure TrustsOnly (r : HotStuffReplica) : Prop where
  genericQC : r.Trusts r.genericQC
  lockedQC  : r.Trusts r.lockedQC

-- The certificates that messages bring to the replica are genesis certificates, or pass `verify`.
def BringsTrusted (t : Task) (e : Event) : Prop :=
  ∀ msg ∈ e.inbound, ∀ qc ∈ t.replica.inboundQC msg, t.replica.Trusts qc

instance {t : Task} {e : Event} : Decidable (BringsTrusted t e) :=
  inferInstanceAs (Decidable (∀ msg ∈ e.inbound, ∀ qc ∈ t.replica.inboundQC msg, _))

-- A replica holds nothing but certified certificates, also while it takes up a proposal.
structure TrustInvariant (o : Observed) : Prop where
  now  : Holds o.task.replica.Trusts o.task.replica
  past : ∀ x ∈ o.history, Holds x.1.Trusts x.1

omit [Sha256] in
theorem Holds.trustsOnly {r : HotStuffReplica} (h : Holds r.Trusts r) : TrustsOnly r :=
  ⟨h.genericQC, h.lockedQC⟩

theorem Forms.trusts {r : HotStuffReplica} {msg : HotStuffMessage} {order : TallyOrder} {qc : QuorumCertificate}
    (h : Forms r msg order qc) : r.Trusts qc := by
  have ⟨r₁, hr, hq⟩ := h
  exact (tryCreateQCForView_trusts hq).congr (receive_idle hr).validatorSet.symm

theorem TrustInvariant.step {o : Observed} {e : Event} (h : TrustInvariant o) (hc : BringsTrusted o.task e) :
    TrustInvariant (o.step e) := by
  refine ⟨?_, fun x hx => ?_⟩
  · have holds := h.now.step hc fun _ _ _ _ hq => hq.trusts
    exact holds.mono fun _ hq => hq.congr (o.task.step_stepped e).validatorSet
  · rcases List.mem_append.mp hx with hx | hx
    · exact h.past x hx
    · have ⟨msg, order, _, _, _, _, _, he, hs, _, _⟩ := Task.takenUp_cases (Option.mem_toList.mp hx)
      have hm : ∀ qc ∈ msg.newViewQC, o.task.replica.Trusts qc := fun qc hq =>
        hc msg (by simp [he, Event.inbound, Event.delivered]) qc (inboundQC_of_newViewQC hq)
      have holds := h.now.select hm (fun _ hq => hq.trusts) hs
      exact holds.mono fun _ hq => hq.congr (select_selected hs).quiet.validatorSet

theorem trustsOnly_of_bringsTrusted {c : Config} {nodeId : PeerId} {es : List Event} {o : Observed}
    (h : Steps (Guarded Observed.step fun o e => BringsTrusted o.task e) (.new c nodeId) es o) :
    TrustsOnly o.task.replica ∧ ∀ x ∈ o.history, TrustsOnly x.1 := by
  have start : TrustInvariant (.new c nodeId) := ⟨.new (.inl rfl), by simp [Observed.new]⟩
  have inv := h.guarded_invariant start fun hc hi => hi.step hc
  exact ⟨inv.now.trustsOnly, fun x hx => (inv.past x hx).trustsOnly⟩

omit [Sha256] [Ed25519] in
theorem chain_trustsOnly :
    ∃ (_ : Sha256) (_ : Ed25519) (c : Config),
      let es := c.chain [1, 2, 3] createGenesisBlock [1, 2, 3, 5]
      let o := es.foldl Observed.step (.new c 0)
      Admits Observed.step (fun o e => BringsTrusted o.task e) (.new c 0) es ∧
      o.task.replica.lockedQC.viewNumber = 2 ∧
      TrustsOnly o.task.replica ∧ ∀ x ∈ o.history, TrustsOnly x.1 := by
  refine ⟨.encoding, .encoding, .ofSize 4, by decide +kernel, by decide +kernel, ?_⟩
  exact @trustsOnly_of_bringsTrusted .encoding .encoding _ _ _ _ (Admits.steps (by decide +kernel))

-- A certificate without a single vote comes with the new-view messages for the leader of view 2.
def forgedNewViews : List Event :=
  let forged := { QuorumCertificate.createGenesisQC with viewNumber := 7 }
  [.timeout, .timeout] ++ [0, 1, 3].map fun i => .deliver (.newView forged 1 i 1)

omit [Sha256] [Ed25519] in
theorem forgedNewViews_not_trustsOnly :
    ∃ (_ : Sha256) (_ : Ed25519) (c : Config),
      ¬TrustsOnly (forgedNewViews.foldl Task.step (.new c 2)).replica := by
  refine ⟨.encoding, .encoding, .ofSize 4, fun h => ?_⟩
  have trusts := @TrustsOnly.genericQC .encoding _ h
  revert trusts
  decide +kernel

end Superliquid

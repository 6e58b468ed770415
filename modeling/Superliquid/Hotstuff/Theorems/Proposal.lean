import Superliquid.Hotstuff.Replica

namespace Superliquid

-- The part of a replica's state that decides about votes, locks and commits.
@[ext]
structure Core where
  nodeId       : PeerId
  validatorSet : Finset VerifyingKey
  signingKey   : SigningKey
  genericQC    : QuorumCertificate
  lockedQC     : QuorumCertificate
  pacemaker    : Pacemaker
  sent         : List Outbound
  blockstore   : Blockstore
  applied      : List Block

@[simps]
def HotStuffReplica.core (r : HotStuffReplica) : Core where
  nodeId := r.nodeId
  validatorSet := r.validatorSet
  signingKey := r.signingKey
  genericQC := r.genericQC
  lockedQC := r.lockedQC
  pacemaker := r.pacemaker
  sent := r.repNodeChannel
  blockstore := r.blockstore
  applied := r.applied

open HotStuffReplica ReplicaM Handler

section Definitions

variable [Sha256]

-- A block whose certificate is for its own parent, which is at hand.
structure Linked (r : HotStuffReplica) (child parent : Block) : Prop where
  justified : r.getJustifiedBlock child = some parent
  isParent  : child.isParent parent

variable [Ed25519]

-- `node` passes all checks that stand before the vote; `b''` is the block that it is justified by.
structure Accepts (r : HotStuffReplica) (node b'' : Block) : Prop where
  justified    : (r.store node).getJustifiedBlock node = some b''
  safe         : (r.store node).safeNode node node.justify = true
  valid        : ∃ q, r.quorumThreshold = .ok q ∧ node.justify.verify r.validatorSet q = true
  transactions : validateBlockTransactions node = .ok true
  merkleRoot   : node.hashBlockTransaction = node.merkleRoot

def HotStuffReplica.accepts (r : HotStuffReplica) (node : Block) : Option Block :=
  match (r.store node).getJustifiedBlock node, r.quorumThreshold with
  | some b'', .ok quorum =>
    if (r.store node).safeNode node node.justify ∧ node.justify.verify r.validatorSet quorum ∧
        validateBlockTransactions node = .ok true ∧ node.hashBlockTransaction = node.merkleRoot then
      some b''
    else
      none
  | _, _ => none

theorem accepts_iff {r : HotStuffReplica} {node b'' : Block} :
    r.accepts node = some b'' ↔ Accepts r node b'' := by
  unfold HotStuffReplica.accepts
  constructor
  · intro h
    split at h
    case h_2 => contradiction
    case h_1 hj hq =>
      split at h
      case isFalse => contradiction
      case isTrue hc => cases h; exact ⟨hj, hc.1, ⟨_, hq, hc.2.1⟩, hc.2.2.1, hc.2.2.2⟩
  · rintro ⟨hj, hs, ⟨q, hq, hv⟩, ht, hm⟩
    simp [hj, hq, hs, hv, ht, hm]

-- All that taking up a proposal can do: the result and the state that it leaves behind.
inductive Proposal (r : HotStuffReplica) (node : Block) :
    Except Panic (Option HotStuffMessage) → Core → Prop
  | refused :
    (∀ b'', ¬Accepts r node b'') → (∀ msg, res ≠ .ok (some msg)) →
    Proposal r node res (r.store node).core
  | voted :
    (Accepts r node b'') → (¬node.isParent b'') →
    Proposal r node (.ok (some (r.voteMessage node))) (r.store node).core
  | adopted :
    (Accepts r node b'') → (node.isParent b'') →
    ((∃ e, res = .error e) ∨
      res = .ok (some (r.voteMessage node)) ∧ ∀ b', ¬Linked (r.store node) b'' b') →
    Proposal r node res { (r.store node).core with genericQC := node.justify }
  | locked :
    (Accepts r node b'') → (node.isParent b'') → (Linked (r.store node) b'' b') →
    (∀ b, ¬Linked (r.store node) b' b) →
    Proposal r node (.ok (some (r.voteMessage node))) { (r.store node).core with
      genericQC := node.justify
      lockedQC := b''.justify
      pacemaker := r.pacemaker.setLastCommittedView b''.justify.viewNumber }
  | committed :
    (Accepts r node b'') → (node.isParent b'') → (Linked (r.store node) b'' b') →
    (Linked (r.store node) b' b) →
    ((∃ e, res = .error e) ∧ blocks = (r.store node).blockstore ∨
      ∃ l ns executed, r.ledgerState.applyBlock b = .ok (l, executed, ns) ∧
        blocks = (r.store node).blockstore.insert b'.justify.blockHash executed ∧
        res = .ok (some (r.voteMessage node))) →
    Proposal r node res { (r.store node).core with
      genericQC := node.justify
      lockedQC := b''.justify
      pacemaker := r.pacemaker.setLastCommittedView b''.justify.viewNumber
      applied := r.applied ++ [b]
      blockstore := blocks }

end Definitions

variable {r r' : HotStuffReplica} {node b b' b'' : Block} {res : Except Panic Unit}

theorem pruneBeforeView_cases {view : Nat} (h : ReplicaM.pruneBeforeView view r = (res, r')) :
    ∃ messages, r' = { r with messages } := by
  cases update_cases h
  case inl h =>
    have ⟨_, h, _⟩ := h
    simp only [Checked.bind_ok, Checked.pure_ok, Prod.mk.injEq, true_and] at h
    have ⟨messages, _, h⟩ := h
    exact ⟨messages, h.symm⟩
  case inr h =>
    have ⟨_, _, _, h⟩ := h
    exact ⟨r.messages, h⟩

theorem setGenericQC_cases {qc : QuorumCertificate} (h : setGenericQC qc r = (res, r')) :
    ∃ messages, r' = { r with genericQC := qc, messages } := by
  have ⟨messages, h⟩ := pruneBeforeView_cases h
  exact ⟨messages, h⟩

theorem commit_cases {key : BlockHash} (h : commit key b r = (res, r')) :
    (∃ e, res = .error e ∧ r'.core = { r.core with applied := r.applied ++ [b] }) ∨
    (∃ l ns executed, r.ledgerState.applyBlock b = .ok (l, executed, ns) ∧ res = .ok () ∧
      r'.core = { r.core with
        applied := r.applied ++ [b], blockstore := r.blockstore.insert key executed }) := by
  unfold commit at h
  rw [modify_bind] at h
  cases bind_cases h
  case inr h =>
    have ⟨e, h, hr⟩ := h
    cases update_cases h
    case inl h => simp at h
    case inr h =>
      have ⟨_, _, _, h⟩ := h
      exact .inl ⟨e, hr, h ▸ rfl⟩
  case inl h =>
    have ⟨a, r₁, hu, h⟩ := h
    cases update_cases hu
    case inr hu => simp at hu
    case inl hu =>
      have ⟨_, hu, ha⟩ := hu
      cases ha
      simp only [Checked.bind_ok, Checked.pure_ok, Prod.mk.injEq] at hu
      have ⟨⟨l, executed, ns⟩, hu, he, hs⟩ := hu
      cases h
      exact .inr ⟨l, ns, executed, hu, rfl, hs ▸ rfl⟩

variable [Sha256]

theorem Linked.of_store_eq {child parent : Block}
    (h : Linked r child parent) (hs : r'.blockstore = r.blockstore) : Linked r' child parent where
  justified := by simpa [getJustifiedBlock, hs] using h.justified
  isParent  := h.isParent

theorem linked_iff {child parent : Block} (h : r.getJustifiedBlock child = some parent) :
    (∃ parent, Linked r child parent) ↔ child.isParent parent := by
  constructor
  · rintro ⟨parent', hl⟩
    cases h.symm.trans hl.justified
    exact hl.isParent
  · exact fun hp => ⟨parent, h, hp⟩

theorem commitPhase_cases (h : commitPhase b' r = (res, r')) :
    ((∀ b, ¬Linked r b' b) ∧ res = .ok () ∧ r' = r) ∨
    (∃ b, Linked r b' b ∧ commit b'.justify.blockHash b r = (res, r')) := by
  simp only [commitPhase, read_bind, id_eq] at h
  cases hb : r.getJustifiedBlock b' <;> simp only [hb] at h
  case some b =>
    split at h
    case isTrue hp  => exact .inr ⟨b, ⟨hb, hp⟩, h⟩
    case isFalse hp =>
      cases h
      exact .inl ⟨fun b hl => hp <| (linked_iff hb).mp ⟨b, hl⟩, rfl, rfl⟩
  case none =>
    cases h
    exact .inl ⟨fun b hl => (nomatch hb.symm.trans hl.justified), rfl, rfl⟩

-- The state in which the commit phase starts.
def lockOn (b'' : Block) (r : HotStuffReplica) : HotStuffReplica :=
  { r with
    lockedQC := b''.justify
    pacemaker := r.pacemaker.setLastCommittedView b''.justify.viewNumber }

theorem lockPhase_cases (h : lockPhase b'' r = (res, r')) :
    ((∀ b', ¬Linked r b'' b') ∧ res = .ok () ∧ r' = r) ∨
    (∃ b', Linked r b'' b' ∧ commitPhase b' (lockOn b'' r) = (res, r')) := by
  simp only [lockPhase, read_bind, id_eq] at h
  cases hb : r.getJustifiedBlock b'' <;> simp only [hb] at h
  case some b' =>
    split at h
    case isTrue hp  => exact .inr ⟨b', ⟨hb, hp⟩, h⟩
    case isFalse hp =>
      cases h
      exact .inl ⟨fun b hl => hp <| (linked_iff hb).mp ⟨b, hl⟩, rfl, rfl⟩
  case none =>
    cases h
    exact .inl ⟨fun b hl => (nomatch hb.symm.trans hl.justified), rfl, rfl⟩

theorem adoptPhase_cases (h : adoptPhase node b'' r = (res, r')) :
    (¬node.isParent b'' ∧ res = .ok () ∧ r' = r) ∨
    (node.isParent b'' ∧ ∃ messages,
      ((∃ e, res = .error e) ∧ r' = { r with genericQC := node.justify, messages }) ∨
      lockPhase b'' { r with genericQC := node.justify, messages } = (res, r')) := by
  unfold adoptPhase at h
  split at h
  case isFalse hp => cases h; exact .inl ⟨hp, rfl, rfl⟩
  case isTrue hp =>
    refine .inr ⟨hp, ?_⟩
    cases bind_cases h
    case inl h =>
      have ⟨_, r₁, hg, h⟩ := h
      have ⟨messages, hm⟩ := setGenericQC_cases hg
      exact ⟨messages, .inr (hm ▸ h)⟩
    case inr h =>
      have ⟨e, hg, h⟩ := h
      have ⟨messages, hm⟩ := setGenericQC_cases hg
      exact ⟨messages, .inl ⟨⟨e, h⟩, hm⟩⟩

variable [Ed25519]

-- What follows the vote only ever adds to it.
theorem Proposal.of_adoptPhase (ha : Accepts r node b'')
    {pendingTransactions : Map Sha256Hash SignedTransaction}
    (h : adoptPhase node b'' { r.store node with pendingTransactions } = (res, r')) :
    Proposal r node (res.map fun _ => some (r.voteMessage node)) r'.core := by
  cases adoptPhase_cases h
  case inl h =>
    have ⟨hp, hres, hr⟩ := h
    subst hres hr
    exact .voted ha hp
  case inr h =>
    have ⟨hp, messages, h⟩ := h
    cases h
    case inl h =>
      have ⟨⟨e, he⟩, hr⟩ := h
      subst he hr
      exact .adopted ha hp (.inl ⟨e, rfl⟩)
    case inr h =>
      cases lockPhase_cases h
      case inl h =>
        have ⟨hl, hres, hr⟩ := h
        subst hres hr
        exact .adopted ha hp (.inr ⟨rfl, fun b' h => hl b' (h.of_store_eq rfl)⟩)
      case inr h =>
        have ⟨b', hl, h⟩ := h
        cases commitPhase_cases h
        case inl h =>
          have ⟨hc, hres, hr⟩ := h
          subst hres hr
          exact .locked ha hp (hl.of_store_eq rfl) fun b h => hc b (h.of_store_eq rfl)
        case inr h =>
          have ⟨b, hc, h⟩ := h
          have h := commit_cases h
          have hc : Linked (r.store node) b' b := hc.of_store_eq rfl
          cases h
          case inl h =>
            have ⟨e, hres, hr⟩ := h
            subst hres
            rw [hr]
            exact .committed ha hp (hl.of_store_eq rfl) hc (.inl ⟨⟨e, rfl⟩, rfl⟩)
          case inr h =>
            have ⟨l, ns, executed, happly, hres, hr⟩ := h
            subst hres
            rw [hr]
            exact .committed ha hp (hl.of_store_eq rfl) hc (.inr ⟨l, ns, executed, happly, rfl, rfl⟩)

variable {sender : PeerId}

-- The checks before the vote; the block is stored already.
theorem Proposal.of_checks {res : Except Panic (Option HotStuffMessage)}
    (h : checkProposal node (r.store node) = (res, r')) : Proposal r node res r'.core := by
  simp only [checkProposal, read_bind, id_eq] at h
  cases hj : (r.store node).getJustifiedBlock node <;> simp only [hj] at h
  case none =>
    cases h
    exact .refused (fun _ ha => nomatch hj.symm.trans ha.justified) (by simp)
  case some b'' =>
    cases hq : (r.store node).quorumThreshold
    case error e =>
      rw [bind_apply_error (by rw [hq]; rfl)] at h
      cases h
      refine .refused (fun _ ha => ?_) (by simp)
      have ⟨_, hq', _⟩ := ha.valid
      exact nomatch hq.symm.trans hq'
    case ok q =>
      rw [bind_apply_ok (by rw [hq]; rfl)] at h
      split at h
      case isFalse hn =>
        cases h
        refine .refused (fun _ ha => hn ⟨ha.safe, ?_⟩) (by simp)
        have ⟨_, hq', hv⟩ := ha.valid
        cases hq.symm.trans hq'
        exact hv
      case isTrue hn =>
        cases ht : validateBlockTransactions node
        case error e =>
          rw [bind_apply_error (by rw [ht]; rfl)] at h
          cases h
          exact .refused (fun _ ha => nomatch ht.symm.trans ha.transactions) (by simp)
        case ok valid =>
          rw [bind_apply_ok (by rw [ht]; rfl)] at h
          split at h
          case isTrue hv =>
            cases h
            refine .refused (fun _ ha => hv ?_) (by simp)
            simpa using ht.symm.trans ha.transactions
          case isFalse hv =>
            split at h
            case isTrue hm =>
              cases h
              exact .refused (fun _ ha => hm ha.merkleRoot) (by simp)
            case isFalse hm =>
              have ha : Accepts r node b'' := {
                justified := hj
                safe := hn.1
                valid := ⟨q, hq, hn.2⟩
                transactions := by simpa [not_not.mp hv] using ht
                merkleRoot := not_not.mp hm }
              rw [modify_bind] at h
              cases bind_cases h
              case inl h =>
                have ⟨_, _, hphase, h⟩ := h
                cases h
                exact .of_adoptPhase ha hphase
              case inr h =>
                have ⟨e, hphase, h⟩ := h
                subst h
                exact .of_adoptPhase ha hphase

theorem replicaHandleProposal_cases {res : Except Panic (Option HotStuffMessage)}
    (h : replicaHandleProposal node sender r = (res, r')) :
    (r.pacemaker.currentLeader ≠ .ok sender ∧ (∀ msg, res ≠ .ok (some msg)) ∧ r' = r) ∨
    (r.pacemaker.currentLeader = .ok sender ∧ Proposal r node res r'.core) := by
  simp only [replicaHandleProposal, read_bind, id_eq] at h
  cases hl : r.pacemaker.currentLeader
  case error e =>
    rw [bind_apply_error (by rw [hl]; rfl)] at h
    cases h
    exact .inl ⟨by simp, by simp, rfl⟩
  case ok leader =>
    rw [bind_apply_ok (by rw [hl]; rfl)] at h
    split at h
    case isTrue hs =>
      cases h
      exact .inl ⟨by simpa using Ne.symm hs, by simp, rfl⟩
    case isFalse hs =>
      refine .inr ⟨by simpa using (not_not.mp hs).symm, ?_⟩
      rw [modify_bind] at h
      exact .of_checks h

end Superliquid

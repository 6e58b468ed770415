import Superliquid.Hotstuff.Theorems.Digests
import Superliquid.Hotstuff.Theorems.Quorum

namespace Superliquid

open HotStuffReplica ReplicaM Handler

variable [Sha256] [Ed25519]

def Config.leader (c : Config) (view : Nat) : PeerId :=
  view % c.numValidators

def Config.quorum (c : Config) : Nat :=
  2 * ((c.numValidators - 1) / 3) + 1

-- There are at least four validators, with different keys.
structure Config.Sized (c : Config) : Prop where
  size : 4 ≤ c.numValidators
  keys : c.validatorSet.card = c.numValidators

-- The parts of a replica that stay as they were when it was started.
structure Member (c : Config) (i : PeerId) (r : HotStuffReplica) : Prop where
  nodeId       : r.nodeId = i
  validatorSet : r.validatorSet = c.validatorSet
  signingKey   : r.signingKey = c.secretKey i
  replicaIds   : r.pacemaker.replicaIds = List.range c.numValidators

-- A certificate for the block of a view.
structure Certificate (c : Config) (view : Nat) (block : Block) (qc : QuorumCertificate) : Prop where
  viewNumber : qc.viewNumber = view
  blockHash  : qc.blockHash = block.hash
  verify     : qc.verify c.validatorSet c.quorum = true

-- What the leader of the view after `view` proposes on top of the block of that view.
structure NextBlock (c : Config) (view : Nat) (parent node : Block) : Prop where
  parentId     : node.parentId = some parent.hash
  viewNumber   : node.viewNumber = view + 1
  merkleRoot   : node.hashBlockTransaction = node.merkleRoot
  transactions : validateBlockTransactions node = .ok true
  justify      : Certificate c view parent node.justify

-- One block for each view up to `view`, each on top of the one before.
structure IsChain (c : Config) (blocks : Nat → Block) (view : Nat) : Prop where
  genesis : blocks 0 = createGenesisBlock
  next    : ∀ v < view, NextBlock c v (blocks v) (blocks (v + 1))

omit [Ed25519] in
-- What a replica makes of the blocks up to `view`. The last three are not executed yet.
structure Follows (blocks : Nat → Block) (view : Nat) (r : HotStuffReplica) : Prop where
  stored  : ∀ v ≤ view, view ≤ v + 2 → r.blockstore.lookup (blocks v).hash = some (blocks v)
  locked  : r.lockedQC.viewNumber = view - 2 ∧ r.lockedQC.blockHash = (blocks (view - 2)).hash
  applied : r.applied = (List.range (view - 2)).map blocks

section Chain

variable {c : Config} {blocks blocks' : Nat → Block} {v w : Nat} {r r' : HotStuffReplica}

namespace IsChain

theorem parentId (h : IsChain c blocks v) (hw : w ≤ v) : (blocks w).parentId = none ↔ w = 0 := by
  cases w
  case zero   => simp [h.genesis, createGenesisBlock]
  case succ w => simp [(h.next w hw).parentId]

-- The chain with another block.
theorem snoc {node : Block} (h : IsChain c blocks v) (hn : NextBlock c v (blocks v) node) :
    IsChain c (Function.update blocks (v + 1) node) (v + 1) := by
  have same : ∀ w ≤ v, Function.update blocks (v + 1) node w = blocks w :=
    fun w hw => Function.update_of_ne (Nat.ne_of_lt (Nat.lt_succ_of_le hw)) _ _
  refine ⟨(same 0 (Nat.zero_le v)).trans h.genesis, fun w hw => ?_⟩
  rw [same w (Nat.le_of_lt_succ hw)]
  rcases Nat.lt_succ_iff_lt_or_eq.mp hw with hw | rfl
  · rw [same (w + 1) hw]
    exact h.next w hw
  · rw [Function.update_self]
    exact hn

variable [BlockDigest]

theorem hash_inj {u : Nat} (h : IsChain c blocks v) (hw : w ≤ v) (hu : u ≤ v)
    (he : (blocks w).hash = (blocks u).hash) : w = u := by
  have hp := Block.hash_inj_parentId he
  cases w
  case zero => exact ((h.parentId hu).mp (hp ▸ (h.parentId hw).mpr rfl)).symm
  case succ w =>
    have hview := Block.hash_inj_viewNumber he (h.next w hw).parentId
    cases u
    case zero   => exact (h.parentId hw).mp (hp ▸ (h.parentId hu).mpr rfl)
    case succ u => rw [← (h.next w hw).viewNumber, hview, (h.next u hu).viewNumber]

end IsChain

omit [Ed25519] in
theorem Follows.congr (h : Follows blocks v r) (he : ∀ w ≤ v, blocks' w = blocks w) : Follows blocks' v r where
  stored w hw hv := by
    rw [he w hw]
    exact h.stored w hw hv
  locked := by
    rw [he _ (Nat.sub_le v 2)]
    exact h.locked
  applied := by
    rw [h.applied]
    refine List.map_congr_left fun w hw => (he w ?_).symm
    exact (List.mem_range.mp hw).le.trans (Nat.sub_le v 2)

omit [Ed25519] in
theorem Follows.of_same (h : Follows blocks v r) (hs : r'.blockstore = r.blockstore)
    (hl : r'.lockedQC = r.lockedQC) (ha : r'.applied = r.applied) : Follows blocks v r' :=
  ⟨hs ▸ h.stored, hl ▸ h.locked, ha ▸ h.applied⟩

end Chain

section Proposal

variable {c : Config} {i : PeerId} {blocks : Nat → Block} {v : Nat} {r r' : HotStuffReplica}

-- What taking up a block leaves as it was. The messages from before its certificate go.
structure Adopted (view : Nat) (r r' : HotStuffReplica) : Prop where
  nodeId       : r'.nodeId = r.nodeId
  replicaIds   : r'.pacemaker.replicaIds = r.pacemaker.replicaIds
  currView     : r'.pacemaker.currView = r.pacemaker.currView
  viewProgress : r'.viewProgress = r.viewProgress
  sent         : r'.repNodeChannel = r.repNodeChannel
  messages     : r.messages.pruneBeforeView view = .ok r'.messages

omit [Sha256] [Ed25519] in
theorem commit_yields {key : BlockHash} {block : Block} :
    Yields (commit key block) r fun _ r' =>
      (∃ l executed ns, r.ledgerState.applyBlock block = .ok (l, executed, ns) ∧
        r'.blockstore = r.blockstore.insert key executed) ∧
      r'.applied = r.applied ++ [block] ∧ r'.lockedQC = r.lockedQC ∧ r'.nodeId = r.nodeId ∧
      r'.pacemaker = r.pacemaker ∧ r'.viewProgress = r.viewProgress ∧ r'.repNodeChannel = r.repNodeChannel ∧
      r'.messages = r.messages := by
  simp only [commit, Yields.bind_iff, Yields.modify_iff, Yields.update_iff]
  intro a r₁ h
  simp only [Checked.bind_ok, Checked.pure_ok, Prod.mk.injEq] at h
  obtain ⟨⟨l, executed, ns⟩, happly, rfl, rfl⟩ := h
  exact ⟨⟨l, executed, ns, happly, rfl⟩, rfl, rfl, rfl, rfl, rfl, rfl, rfl⟩

omit [Sha256] in
theorem Member.quorumThreshold (h : Member c i r) (hc : c.Sized) : r.quorumThreshold = .ok c.quorum := by
  have hcard : r.validatorSet.card = c.numValidators := h.validatorSet ▸ hc.keys
  have hsize := hc.size
  rw [quorumThreshold_eq (by omega), hcard]
  rfl

omit [Sha256] in
theorem getLeaderForView_eq (hc : c.Sized) (hi : r.pacemaker.replicaIds = List.range c.numValidators) (view : Nat) :
    r.pacemaker.getLeaderForView view = .ok (c.leader view) := by
  have hsize := hc.size
  have hlt : view % c.numValidators < c.numValidators := Nat.mod_lt _ (by omega)
  unfold Pacemaker.getLeaderForView Checked.rem
  rw [hi, List.length_range, if_neg (by omega), Checked.ok_bind, Checked.index_ok]
  simp [Config.leader, hlt]

omit [Ed25519] in
theorem Follows.store_lookup [BlockDigest] {node : Block} {w : Nat} (h : Follows blocks v r)
    (hn : (blocks w).hash ≠ node.hash) (hw : w ≤ v) (hv : v ≤ w + 2) :
    (r.store node).blockstore.lookup (blocks w).hash = some (blocks w) :=
  (AList.lookup_insert_ne hn).trans (h.stored w hw hv)

variable [BlockDigest]

-- The block of the next view passes all checks.
theorem Follows.accepts (h : Follows blocks v r) (member : Member c i r) (hc : c.Sized)
    (chain : IsChain c blocks (v + 1)) : Accepts r (blocks (v + 1)) (blocks v) := by
  have next := chain.next v (Nat.lt_succ_self v)
  have hne : (blocks v).hash ≠ (blocks (v + 1)).hash := fun he =>
    absurd (chain.hash_inj (Nat.le_succ v) le_rfl he) (Nat.ne_of_lt (Nat.lt_succ_self v))
  constructor
  case justified =>
    rw [getJustifiedBlock, next.parentId, next.justify.blockHash]
    exact h.store_lookup hne le_rfl (Nat.le_add_right v 2)
  case safe =>
    have hlocked : (r.store (blocks (v + 1))).lockedQC = r.lockedQC := rfl
    rw [safeNode, hlocked, next.justify.viewNumber, h.locked.1, h.locked.2, decide_eq_true_eq]
    cases v
    case succ => exact .inr (by omega)
    case zero => exact .inl (by simp [Block.extendsFrom, Block.extendsWithin, next.parentId])
  case valid        => exact ⟨c.quorum, member.quorumThreshold hc, member.validatorSet ▸ next.justify.verify⟩
  case transactions => exact next.transactions
  case merkleRoot   => exact next.merkleRoot

omit [Sha256] [Ed25519] [BlockDigest] in
theorem getJustifiedBlock_genesis {block : Block} (h : block.parentId = none) : r.getJustifiedBlock block = none := by
  simp [getJustifiedBlock, h]

omit [BlockDigest] in
theorem NextBlock.getJustifiedBlock {parent node : Block} (h : NextBlock c v parent node) :
    r.getJustifiedBlock node = r.blockstore.lookup parent.hash := by
  rw [HotStuffReplica.getJustifiedBlock, h.parentId, h.justify.blockHash]

omit [Sha256] [Ed25519] [BlockDigest] in
theorem Adopted.trans_same {r₁ : HotStuffReplica} {view : Nat} (h : Adopted v r r₁) (hn : r'.nodeId = r₁.nodeId)
    (hp : r'.pacemaker = r₁.pacemaker.setLastCommittedView view) (hv : r'.viewProgress = r₁.viewProgress)
    (hs : r'.repNodeChannel = r₁.repNodeChannel) (hm : r'.messages = r₁.messages) : Adopted v r r' := by
  refine ⟨hn.trans h.nodeId, ?_, ?_, hv.trans h.viewProgress, hs.trans h.sent, hm ▸ h.messages⟩
  · rw [hp]
    exact h.replicaIds
  · rw [hp]
    exact h.currView

-- The store has the new block already, otherwise nothing has changed.
structure Following (blocks : Nat → Block) (view : Nat) (r : HotStuffReplica) : Prop extends Follows blocks view r where
  newest : r.blockstore.lookup (blocks (view + 1)).hash = some (blocks (view + 1))

theorem Following.lockPhase {s : HotStuffReplica} (h : Following blocks v r) (chain : IsChain c blocks (v + 1))
    (adopted : Adopted v s r) :
    Yields (lockPhase (blocks v)) r fun _ r' => Follows blocks (v + 1) r' ∧ Adopted v s r' := by
  have stored : ∀ w ≤ v + 1, v + 1 ≤ w + 2 → r.blockstore.lookup (blocks w).hash = some (blocks w) := by
    intro w hw hv
    rcases Nat.le_succ_iff.mp hw with hw | rfl
    · exact h.stored w hw (by omega)
    · exact h.newest
  simp only [ReplicaM.lockPhase, Yields.bind_iff, Yields.read_iff, id_eq]
  cases v
  case zero =>
    rw [getJustifiedBlock_genesis (by rw [chain.genesis]; rfl)]
    exact Yields.pure_iff.mpr ⟨⟨stored, h.locked, h.applied⟩, adopted⟩
  case succ v =>
    have next := chain.next v (by omega)
    rw [next.getJustifiedBlock, h.stored v (by omega) (by omega)]
    simp only [Block.isParent, next.parentId, if_true, Yields.bind_iff, Yields.modify_iff, ReplicaM.commitPhase,
      Yields.read_iff, id_eq]
    have locked : (blocks (v + 1)).justify.viewNumber = v + 1 + 1 - 2 ∧
        (blocks (v + 1)).justify.blockHash = (blocks (v + 1 + 1 - 2)).hash :=
      ⟨next.justify.viewNumber, next.justify.blockHash⟩
    cases v
    case zero =>
      rw [getJustifiedBlock_genesis (by rw [chain.genesis]; rfl)]
      exact Yields.pure_iff.mpr ⟨⟨stored, locked, h.applied⟩, adopted.trans_same rfl rfl rfl rfl rfl⟩
    case succ v =>
      have next' := chain.next v (by omega)
      have lookup : r.blockstore.lookup (blocks v).hash = some (blocks v) := h.stored v (by omega) (by omega)
      rw [next'.getJustifiedBlock]
      simp only [lookup, next'.parentId, if_true, next'.justify.blockHash]
      refine commit_yields.mono ?_
      rintro _ r' ⟨⟨l, executed, ns, _, hs⟩, ha, hl, hn, hp, hv, hsent, hm⟩
      refine ⟨⟨fun w hw hv' => ?_, hl ▸ locked, ?_⟩, adopted.trans_same hn hp hv hsent hm⟩
      · have hne : (blocks w).hash ≠ (blocks v).hash := fun he => by
          have := chain.hash_inj hw (by omega) he
          omega
        rw [hs, AList.lookup_insert_ne hne]
        exact stored w hw hv'
      · rw [ha, h.applied]
        exact (List.map_append ..).symm.trans (congrArg _ List.range_succ.symm)

-- The vote of a replica for the block of the next view, and what becomes of the replica.
theorem Follows.replicaHandleProposal (h : Follows blocks v r) (member : Member c i r) (hc : c.Sized)
    (chain : IsChain c blocks (v + 1)) (hview : r.pacemaker.currView = v + 1) :
    Yields (replicaHandleProposal (blocks (v + 1)) (c.leader (v + 1))) r fun out r' =>
      out = some (r.voteMessage (blocks (v + 1))) ∧ Follows blocks (v + 1) r' ∧ Adopted v r r' := by
  have next := chain.next v (Nat.lt_succ_self v)
  have accepts := h.accepts member hc chain
  obtain ⟨q, hq, hverify⟩ := accepts.valid
  have leader : r.pacemaker.currentLeader = .ok (c.leader (v + 1)) := by
    rw [Pacemaker.currentLeader, hview, getLeaderForView_eq hc member.replicaIds]
  simp only [ReplicaM.replicaHandleProposal, Yields.bind_iff, Yields.read_iff, id_eq, Yields.lift_iff, leader,
    Except.ok.injEq, forall_eq', ne_eq, not_true_eq_false, if_false, Yields.modify_iff, checkProposal,
    accepts.justified]
  intro quorum hquorum
  obtain rfl : q = quorum := by simpa using hq.symm.trans hquorum
  have safe := accepts.safe
  rw [if_pos ⟨safe, hverify⟩]
  simp only [Yields.bind_iff, Yields.lift_iff, accepts.transactions, Except.ok.injEq, forall_eq', if_false,
    not_true_eq_false, accepts.merkleRoot, Yields.modify_iff, adoptPhase, Block.isParent, next.parentId,
    if_true, setGenericQC, ReplicaM.pruneBeforeView, Yields.update_iff]
  intro _ r₁ hr
  simp only [Checked.bind_ok, Checked.pure_ok, Prod.mk.injEq] at hr
  obtain ⟨messages, hm, _, rfl⟩ := hr
  have following : Following blocks v { (r.store (blocks (v + 1))).addBlockTransactionsToPending (blocks (v + 1)) with
      genericQC := (blocks (v + 1)).justify, messages } := by
    refine ⟨⟨fun w hw hv => h.store_lookup (fun he => ?_) hw hv, h.locked, h.applied⟩, AList.lookup_insert _⟩
    have := chain.hash_inj (by omega) le_rfl he
    omega
  refine (following.lockPhase chain (s := r) ⟨rfl, rfl, rfl, rfl, rfl, ?_⟩).mono fun _ r' hr' => ?_
  · rw [next.justify.viewNumber] at hm
    exact hm
  · exact Yields.pure_iff.mpr ⟨rfl, hr'⟩

end Proposal

end Superliquid

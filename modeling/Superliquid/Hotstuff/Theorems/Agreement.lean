import Superliquid.Hotstuff.Theorems.Certificate
import Superliquid.Hotstuff.Theorems.Network
import Superliquid.Lib.Voting

namespace Superliquid

open HotStuffReplica ReplicaM Voting

section Tree

variable [Sha256]

-- A block with the given hash.
open Classical in
noncomputable def blockOf (h : BlockHash) : Option Block :=
  if hb : ∃ b : Block, b.hash = h then some hb.choose else none

variable {b b' : Block} {h p : BlockHash}

theorem blockOf_hash (hb : blockOf h = some b) : b.hash = h := by
  unfold blockOf at hb
  split at hb
  case isTrue hb' => cases hb; exact hb'.choose_spec
  case isFalse    => contradiction

theorem blockOf_eq_some (b : Block) : ∃ b', blockOf b.hash = some b' ∧ b'.hash = b.hash := by
  have hb : ∃ b' : Block, b'.hash = b.hash := ⟨b, rfl⟩
  have : blockOf b.hash = some hb.choose := dif_pos hb
  exact ⟨_, this, blockOf_hash this⟩

variable [BlockDigest]

-- All blocks, by their hashes. The genesis block comes before those of view 0.
noncomputable def chain : BlockTree BlockHash where
  root := QuorumCertificate.genesisBlockHash
  parent h := (blockOf h).bind Block.parentId
  view h :=
    match blockOf h with
    | some b => if b.parentId = none then 0 else b.viewNumber + 1
    | none   => 0
  root_parent := by
    have ⟨b, hb, hh⟩ := blockOf_eq_some createGenesisBlock
    have : b.parentId = none := Block.hash_inj_parentId hh
    rw [show QuorumCertificate.genesisBlockHash = createGenesisBlock.hash from rfl, hb]
    exact this

theorem chain_parent (b : Block) : chain.parent b.hash = b.parentId := by
  have ⟨b', hb, hh⟩ := blockOf_eq_some b
  show (blockOf b.hash).bind Block.parentId = _
  rw [hb]
  exact Block.hash_inj_parentId hh

theorem chain_view (hp : b.parentId = some p) : chain.view b.hash = b.viewNumber + 1 := by
  have ⟨b', hb, hh⟩ := blockOf_eq_some b
  have hp' : b'.parentId = some p := (Block.hash_inj_parentId hh).trans hp
  simp [chain, hb, hp', Block.hash_inj_viewNumber hh hp']

theorem chain_view_root : chain.view chain.root = 0 := by
  have ⟨b, hb, hh⟩ := blockOf_eq_some createGenesisBlock
  have : b.parentId = none := Block.hash_inj_parentId hh
  show chain.view createGenesisBlock.hash = 0
  simp [chain, hb, this]

theorem chain_root_iff : b.hash = chain.root ↔ b.parentId = none :=
  Block.hash_eq_genesis_iff

theorem chain_ancestor (he : chain.Extends b.hash h) (hh : b'.hash = h) :
    b.hash = b'.hash ∨ b'.Ancestor b := by
  induction he generalizing b'
  case refl => exact .inl hh.symm
  case tail k h _ hp hi =>
    have ⟨x, hx, hxp⟩ := Option.bind_eq_some_iff.mp hp
    have hxb : x.isParent b' := by rw [Block.isParent, hxp, hh]
    right
    rcases hi (blockOf_hash hx) with he | ha
    · exact .single ((Block.hash_inj_parentId he).trans hxb)
    · exact .tail ha hxb

theorem extendsWithin_extends {store : Blockstore} {n : Nat} (hk : Keyed store)
    (he : b.extendsWithin h store n = true) : chain.Extends b.hash h := by
  induction n generalizing b
  case zero => simp [Block.extendsWithin] at he
  case succ n hi =>
    unfold Block.extendsWithin at he
    split at he
    case h_1 => simp at he
    case h_2 p hp =>
      have hp : chain.parent b.hash = some p := (chain_parent b).trans hp
      split at he
      case isTrue hh => exact .single (hh ▸ hp)
      case isFalse =>
        split at he
        case h_1 parent hl => exact .head hp (hk p parent hl ▸ hi he)
        case h_2 => simp at he

end Tree

-- The view of a certificate is the one of its block.
def QuorumCertificate.Matches [Sha256] [BlockDigest] (qc : QuorumCertificate) : Prop :=
  qc.IsGenesis ∨ chain.view qc.blockHash = qc.viewNumber + 1

theorem QuorumCertificate.Matches.lt [Sha256] [BlockDigest] {qc qc' : QuorumCertificate}
    (h : qc.Matches) (h' : qc'.Matches) (hlt : qc.viewNumber < qc'.viewNumber) :
    chain.view qc.blockHash < chain.view qc'.blockHash := by
  have hv' : chain.view qc'.blockHash = qc'.viewNumber + 1 :=
    h'.resolve_left fun hg => by have := hg.1; omega
  rcases h with hg | hv
  · rw [hg.2, hv']
    have : chain.view QuorumCertificate.genesisBlockHash = 0 := chain_view_root
    omega
  · omega

namespace Faults

variable [Ed25519] {c : Config} (faults : Faults c)

def electorate : Electorate PeerId :=
  .byzantine (Finset.range c.numValidators) faults.faulty faults.f
    (by rw [Finset.card_range, faults.size]) faults.few

theorem correct_iff {i : PeerId} : faults.electorate.Correct i ↔ faults.Correct i := by
  simp [electorate, Electorate.byzantine, Correct]

theorem quorumThreshold {r : HotStuffReplica} (h : r.validatorSet = c.validatorSet) :
    r.quorumThreshold = .ok (2 * faults.f + 1) := by
  have : c.validatorSet.card = 3 * faults.f + 1 := faults.keys.trans faults.size
  simp [HotStuffReplica.quorumThreshold, h, this, Checked.sub]

-- The replicas whose keys are among those of `keys`.
theorem exists_quorum {keys : Finset VerifyingKey} (hk : keys ⊆ c.validatorSet)
    (hc : 2 * faults.f + 1 ≤ keys.card) :
    ∃ s, faults.electorate.Quorum s ∧ ∀ i ∈ s, c.publicKey i ∈ keys := by
  refine ⟨(Finset.range c.numValidators).filter (c.publicKey · ∈ keys), ⟨Finset.filter_subset _ _, ?_⟩, by simp⟩
  refine hc.trans <| (Finset.card_le_card fun pk hpk => ?_).trans (Finset.card_image_le (f := c.publicKey))
  have ⟨i, hi, hpki⟩ := Finset.mem_image.mp (hk hpk)
  exact Finset.mem_image.mpr ⟨i, Finset.mem_filter.mpr ⟨hi, hpki ▸ hpk⟩, hpki⟩

end Faults

variable [Sha256] [Ed25519] [BlockDigest] {c : Config} {faults : Faults c}

-- The ballots of the replica `i` in `log` are the votes that it has cast so far.
structure ReplicaInvariant (faults : Faults c) (log : List (Ballot PeerId BlockHash)) (i : PeerId)
    (o : Observed) : Prop where
  validatorSet : o.task.replica.validatorSet = c.validatorSet
  keyed        : Keyed o.task.replica.blockstore
  votes        : ∀ vote ∈ o.task.replica.votes, ∃ x ∈ log, x.voter = i ∧ x.block = vote.2.hash ∧
    chain.view x.block = vote.1 + 1
  history      : ∀ x ∈ log, x.voter = i → ∃ y ∈ o.history, (y.1.accepts y.2).isSome ∧
    y.2.hash = x.block ∧ chain.view x.block = y.1.pacemaker.currView + 1 ∧
    y.1.pacemaker.currView ≤ o.task.replica.pacemaker.currView
  certified    : Certified chain faults.electorate log o.task.replica.lockedQC.blockHash
  matched      : o.task.replica.lockedQC.Matches
  -- A replica that panicked does not vote again.
  locked       : o.task.panicked = false → ∀ x ∈ log, x.voter = i → ∀ p g,
    chain.parent x.block = some p → chain.parent p = some g →
    chain.view g ≤ chain.view o.task.replica.lockedQC.blockHash
  applied      : ∀ b ∈ o.task.replica.applied, Committed chain faults.electorate log b.hash

structure NetworkInvariant (faults : Faults c) (log : List (Ballot PeerId BlockHash)) (net : Network) :
    Prop where
  legal    : Legal chain faults.electorate log
  replicas : ∀ i, faults.Correct i → ReplicaInvariant faults log i (net i)

variable {log : List (Ballot PeerId BlockHash)} {net : Network} {i : PeerId} {o : Observed} {e : Event}
         {r : HotStuffReplica} {node b'' : Block}

-- A replica that does nothing does not care for the votes of others.
theorem ReplicaInvariant.cast {x : Ballot PeerId BlockHash} (h : ReplicaInvariant faults log i o)
    (hx : x.voter ≠ i) : ReplicaInvariant faults (x :: log) i o where
  validatorSet := h.validatorSet
  keyed := h.keyed
  votes vote hv := by
    have ⟨y, hy, hv⟩ := h.votes vote hv
    exact ⟨y, List.mem_cons_of_mem _ hy, hv⟩
  history y hy hi := h.history y ((List.mem_cons.mp hy).resolve_left fun he => hx (he ▸ hi)) hi
  certified := h.certified.mono (List.subset_cons_self _ _)
  matched := h.matched
  locked hp y hy hi := h.locked hp y ((List.mem_cons.mp hy).resolve_left fun he => hx (he ▸ hi)) hi
  applied b hb := (h.applied b hb).mono (List.subset_cons_self _ _)

variable [CollisionFree HashableMessage]

-- The certificates of accepted proposals are backed by votes.
theorem NetworkInvariant.certified (h : NetworkInvariant faults log net) {qc : QuorumCertificate}
    (hq : qc.IsGenesis ∨ qc.messageHash = voteHash qc.viewNumber qc.blockHash)
    (hu : Unforged faults net qc) (hv : qc.verify c.validatorSet (2 * faults.f + 1) = true) :
    Certified chain faults.electorate log qc.blockHash ∧ qc.Matches := by
  by_cases hg : qc.IsGenesis
  case pos => exact ⟨.inl hg.2, .inl hg⟩
  obtain ⟨keys, hk, hc, _, hsigned⟩ :=
    QuorumCertificate.validSigCount_signers c.validatorSet qc.messageHash qc.partialSigs ∅
  have hcard : 2 * faults.f + 1 ≤ keys.card := by simpa [QuorumCertificate.verify, hg, hc] using hv
  obtain ⟨s, hs, hkeys⟩ := faults.exists_quorum hk hcard
  have ballots : ∀ i ∈ s, faults.electorate.Correct i → ∃ x ∈ log, x.voter = i ∧
      x.block = qc.blockHash ∧ chain.view x.block = qc.viewNumber + 1 := by
    intro i hi hcorrect
    have hcorrect := faults.correct_iff.mp hcorrect
    obtain ⟨sig, hsig, hpk, hverify⟩ := hsigned _ (hkeys i hi)
    obtain ⟨vote, hvote, hm⟩ := hu sig hsig i hcorrect.1 hcorrect.2 hpk (hpk ▸ hverify)
    have hm := CollisionFree.injective (hm.trans (hq.resolve_left hg))
    simp only [HashableMessage.mk.injEq, and_true] at hm
    obtain ⟨x, hx, hxi, hxb, hxv⟩ := (h.replicas i hcorrect).votes vote hvote
    exact ⟨x, hx, hxi, hxb.trans hm.2, hxv.trans (by rw [hm.1])⟩
  refine ⟨.inr ⟨s, hs, fun i hi hc => ?_⟩, .inr ?_⟩
  · obtain ⟨x, hx, hxi, hxb, _⟩ := ballots i hi hc
    exact ⟨x, hx, hxi, hxb⟩
  · obtain ⟨i, hi, _, hc⟩ := faults.electorate.meet hs hs
    obtain ⟨x, _, _, hxb, hxv⟩ := ballots i hi hc
    exact hxb ▸ hxv

-- What is known of an accepted proposal and the block that it is justified by.
structure Backed (faults : Faults c) (log : List (Ballot PeerId BlockHash)) (r : HotStuffReplica)
    (node b'' : Block) : Prop where
  keyed     : Keyed (r.store node).blockstore
  hash      : b''.hash = node.justify.blockHash
  isParent  : node.isParent b''
  certified : Certified chain faults.electorate log b''.hash
  matched   : node.justify.Matches

theorem NetworkInvariant.backed (h : NetworkInvariant faults log net) (hi : faults.Correct i)
    (hup : (net i).task.takenUp e = some (r, node)) (hu : Unforged faults net node.justify)
    (ha : Accepts r node b'') (hr : Regular (net i) r node b'') : Backed faults log r node b'' := by
  have inv := h.replicas i hi
  have quiet := Task.takenUp_quiet hup
  have validators : r.validatorSet = c.validatorSet := quiet.validatorSet.trans inv.validatorSet
  have ⟨q, hq, hv⟩ := ha.valid
  cases hq.symm.trans (faults.quorumThreshold validators)
  have ⟨certified, matched⟩ := h.certified hr.bound hu (validators ▸ hv)
  have keyed : Keyed (r.store node).blockstore := inv.keyed.takenUp hup
  have hash : b''.hash = node.justify.blockHash := keyed _ _ (getJustifiedBlock_lookup ha.justified)
  exact ⟨keyed, hash, by rw [Block.isParent, hash, hr.parent], hash ▸ certified, matched⟩

omit [CollisionFree HashableMessage] in
theorem NetworkInvariant.lawful (h : NetworkInvariant faults log net) (hi : faults.Correct i)
    (hup : (net i).task.takenUp e = some (r, node)) (ha : Accepts r node b'')
    (hr : Regular (net i) r node b'') (hb : Backed faults log r node b'') :
    Lawful chain faults.electorate log
      { voter := i, block := node.hash, lock := r.lockedQC.blockHash } := by
  have inv := h.replicas i hi
  have quiet := Task.takenUp_quiet hup
  have parent : chain.parent node.hash = some node.justify.blockHash := (chain_parent node).trans hr.parent
  have view : chain.view node.hash = r.pacemaker.currView + 1 := by rw [chain_view hr.parent, hr.view]
  constructor
  case parent => exact ⟨_, parent, hb.hash ▸ hb.certified⟩
  case lock   => exact quiet.lockedQC ▸ inv.certified
  case safe =>
    have hs := ha.safe
    simp only [safeNode, decide_eq_true_eq, Bool.decide_or, Bool.or_eq_true] at hs
    refine hs.imp (fun hs => extendsWithin_extends hb.keyed hs) fun hlt p hp => ?_
    cases parent.symm.trans hp
    exact (quiet.lockedQC ▸ inv.matched).lt hb.matched hlt
  case locked => exact quiet.lockedQC ▸ inv.locked (Task.running_of_takenUp hup)
  case once =>
    intro x hx hxi hv
    have ⟨y, hy, hya, hyb, hyv, _⟩ := inv.history x hx hxi
    have hv : chain.view x.block = chain.view node.hash := hv
    rw [← hyb]
    exact hr.once y hy hya (by omega)
  case ordered =>
    intro x hx hxi
    have ⟨y, _, _, _, hyv, hle⟩ := inv.history x hx hxi
    have := quiet.currView
    show chain.view x.block ≤ chain.view node.hash
    omega
  case view =>
    rw [chain_view_root, view]
    omega

-- The ballot that the step adds to the log.
def Observed.ballot (o : Observed) (i : PeerId) (e : Event) : Option (Ballot PeerId BlockHash) :=
  match o.task.takenUp e with
  | some (r, node) =>
    if (r.accepts node).isSome then
      some { voter := i, block := node.hash, lock := r.lockedQC.blockHash }
    else
      none
  | none => none

omit [BlockDigest] [CollisionFree HashableMessage] in
theorem Observed.ballot_eq (hup : o.task.takenUp e = some (r, node)) (ha : Accepts r node b'') :
    o.ballot i e = some { voter := i, block := node.hash, lock := r.lockedQC.blockHash } := by
  simp [Observed.ballot, hup, accepts_iff.mpr ha]

omit [BlockDigest] [CollisionFree HashableMessage] in
theorem Observed.ballot_some {x : Ballot PeerId BlockHash} (h : o.ballot i e = some x) :
    ∃ r node b'', o.task.takenUp e = some (r, node) ∧ Accepts r node b'' ∧
      x = { voter := i, block := node.hash, lock := r.lockedQC.blockHash } := by
  unfold Observed.ballot at h
  split at h
  case h_2 => contradiction
  case h_1 r node hup =>
    split at h
    case isFalse => contradiction
    case isTrue ha =>
      have ⟨b'', ha⟩ := Option.isSome_iff_exists.mp ha
      cases h
      exact ⟨r, node, b'', hup, accepts_iff.mp ha, rfl⟩

section Step

variable (h : NetworkInvariant faults log net) (hi : faults.Correct i)
         (hu : ∀ x ∈ (net i).task.takenUp e, Unforged faults net x.2.justify)
         (hr : AcceptsRegular (net i) e)

include h hi hu hr

theorem NetworkInvariant.step_lock {log' : List (Ballot PeerId BlockHash)}
    (hlog : log' = ((net i).ballot i e).toList ++ log) :
    Certified chain faults.electorate log' ((net i).step e).task.replica.lockedQC.blockHash ∧
    ((net i).step e).task.replica.lockedQC.Matches ∧
    (((net i).step e).task.panicked = false → ∀ x ∈ log', x.voter = i → ∀ p g,
      chain.parent x.block = some p → chain.parent p = some g →
      chain.view g ≤ chain.view ((net i).step e).task.replica.lockedQC.blockHash) := by
  have inv := h.replicas i hi
  have hsub : log ⊆ log' := fun _ hx => hlog ▸ List.mem_append_right _ hx
  -- The parent and the grandparent of a block that is voted for.
  have parents : ∀ {x p g}, (net i).ballot i e = some x → chain.parent x.block = some p →
      chain.parent p = some g → ∃ r node b'', (net i).task.takenUp e = some (r, node) ∧
        Accepts r node b'' ∧ Backed faults log r node b'' ∧ b''.parentId = some g := by
    intro x p g hx hp hg
    have ⟨r, node, b'', hup, ha, hx⟩ := Observed.ballot_some hx
    have backed := h.backed hi hup (hu _ hup) ha (hr _ hup b'' (accepts_iff.mpr ha))
    subst hx
    cases ((chain_parent node).trans backed.isParent).symm.trans hp
    exact ⟨r, node, b'', hup, ha, backed, (chain_parent b'').symm.trans hg⟩
  rcases ((net i).task.step_stepped e).lockedQC with ⟨hl, _, hn⟩ | ⟨r, node, b'', b', hup, ⟨ha, _, linked⟩, hl, _⟩
  · have hl : ((net i).step e).task.replica.lockedQC = (net i).task.replica.lockedQC := hl
    rw [hl]
    refine ⟨inv.certified.mono hsub, inv.matched, fun hrun x hx hxi p g hp hg => ?_⟩
    subst hlog
    rcases List.mem_append.mp hx with hx | hx
    · have ⟨r, node, b'', hup, ha, backed, hb''⟩ := parents (Option.mem_toList.mp hx) hp hg
      have ⟨b', hj, hlinked, _⟩ := (hr _ hup b'' (accepts_iff.mpr ha)).lock.resolve_left (by simp [hb''])
      exact absurd ⟨ha, backed.isParent, hj, hlinked⟩ (hn r node b'' b' hrun hup)
    · exact inv.locked (Task.running_of_step hrun) x hx hxi p g hp hg
  · have hl : ((net i).step e).task.replica.lockedQC = b''.justify := hl
    rw [hl]
    have regular := hr _ hup b'' (accepts_iff.mpr ha)
    have backed := h.backed hi hup (hu _ hup) ha regular
    have isParent : b''.parentId = some b'.hash := linked.isParent
    have ⟨_, hj, _, hview, hnewer⟩ := regular.lock.resolve_left (by simp [isParent])
    cases linked.justified.symm.trans hj
    have hash : b'.hash = b''.justify.blockHash := backed.keyed _ _ (getJustifiedBlock_lookup linked.justified)
    have certified : Certified chain faults.electorate log b'.hash := by
      have ⟨_, p, hp, hc⟩ := h.legal.parent backed.certified (by simp [chain_root_iff, isParent])
      cases ((chain_parent b'').trans isParent).symm.trans hp
      exact hc
    have matched : b''.justify.Matches := by
      cases hp : b'.parentId
      case none =>
        refine .inl ⟨by simpa [Block.view, hp] using hview, ?_⟩
        rw [← hash]
        exact chain_root_iff.mpr hp
      case some => exact .inr (by rw [← hash, chain_view hp, hview]; simp [Block.view, hp])
    refine ⟨hash ▸ certified.mono hsub, matched, fun hrun x hx hxi p g hp hg => ?_⟩
    subst hlog
    rcases List.mem_append.mp hx with hx | hx
    · have ⟨_, _, _, hup', ha', _, hg⟩ := parents (Option.mem_toList.mp hx) hp hg
      cases hup.symm.trans hup'
      cases ha.unique ha'
      cases isParent.symm.trans hg
      rw [hash]
    · refine (inv.locked (Task.running_of_step hrun) x hx hxi p g hp hg).trans ?_
      rw [(Task.takenUp_quiet hup).lockedQC] at hnewer
      rcases hnewer with heq | hlt
      · rw [heq]
      · exact (inv.matched.lt matched hlt).le

theorem NetworkInvariant.step_replica {log' : List (Ballot PeerId BlockHash)}
    (hlog : log' = ((net i).ballot i e).toList ++ log) :
    ReplicaInvariant faults log' i ((net i).step e) := by
  have inv := h.replicas i hi
  have stepped := (net i).task.step_stepped e
  have hsub : log ⊆ log' := fun _ hx => hlog ▸ List.mem_append_right _ hx
  obtain ⟨certified, matched, locked⟩ := h.step_lock hi hu hr hlog
  refine ⟨?_, inv.keyed.step, ?_, ?_, certified, matched, locked, ?_⟩
  · exact stepped.validatorSet.trans inv.validatorSet
  · intro vote hvote
    rcases stepped.votes with hv | ⟨r, node, b'', hup, ha, hv⟩
    · obtain ⟨x, hx, hvote⟩ := inv.votes vote (hv ▸ hvote)
      exact ⟨x, hsub hx, hvote⟩
    · rw [show ((net i).step e).task.replica.votes = _ from hv, List.mem_append, List.mem_singleton] at hvote
      rcases hvote with hvote | rfl
      · obtain ⟨x, hx, hvote⟩ := inv.votes vote hvote
        exact ⟨x, hsub hx, hvote⟩
      · have regular := hr _ hup b'' (accepts_iff.mpr ha)
        refine ⟨_, by rw [hlog, Observed.ballot_eq hup ha]; exact List.mem_cons_self, rfl, rfl, ?_⟩
        exact (chain_view regular.parent).trans (congrArg (· + 1) regular.view)
  · intro x hx hxi
    rw [hlog] at hx
    rcases List.mem_append.mp hx with hx | hx
    · obtain ⟨r, node, b'', hup, ha, hx⟩ := Observed.ballot_some (Option.mem_toList.mp hx)
      have regular := hr _ hup b'' (accepts_iff.mpr ha)
      subst hx
      refine ⟨(r, node), by simp [Observed.step, hup], by simp [accepts_iff.mpr ha], rfl, ?_, ?_⟩
      · exact (chain_view regular.parent).trans (congrArg (· + 1) regular.view)
      · exact stepped.currView_takenUp hup
    · obtain ⟨y, hy, hya, hyb, hyv, hle⟩ := inv.history x hx hxi
      exact ⟨y, List.mem_append_left _ hy, hya, hyb, hyv, hle.trans stepped.currView⟩
  · intro b hb
    rcases stepped.applied with ha | ⟨r, node, b'', b', b₁, hup, hc, ha⟩
    · exact (inv.applied b (ha ▸ hb)).mono hsub
    · rw [show ((net i).step e).task.replica.applied = _ from ha, List.mem_append, List.mem_singleton] at hb
      rcases hb with hb | rfl
      · exact (inv.applied b hb).mono hsub
      have regular := hr _ hup b'' (accepts_iff.mpr hc.accepts)
      have backed := h.backed hi hup (hu _ hup) hc.accepts regular
      cases hp : b.parentId
      case none => exact .inl (chain_root_iff.mpr hp)
      case some p =>
        have hb' : b'.parentId = some b.hash := hc.linked'.isParent
        have hb'' : b''.parentId = some b'.hash := hc.linked.isParent
        obtain ⟨hv, hv'⟩ := regular.commit b' hc.linked.justified b hc.linked'.justified
          hc.linked.isParent hc.linked'.isParent (by simp [hp])
        refine .inr ⟨b'.hash, b''.hash, (chain_parent b').trans hb', (chain_parent b'').trans hb'', ?_, ?_,
          backed.certified.mono hsub⟩
        · rw [chain_view hb', chain_view hp, hv]
        · rw [chain_view hb'', chain_view hb', hv']

end Step

theorem NetworkInvariant.step {e : PeerId × Event} (h : NetworkInvariant faults log net)
    (hp : Possible faults net e) (hr : AcceptsRegular (net e.1) e.2) :
    ∃ log, NetworkInvariant faults log (net.step e) := by
  have ⟨i, e⟩ := e
  have ⟨hi, hu⟩ := hp
  refine ⟨((net i).ballot i e).toList ++ log, ?_, fun j hj => ?_⟩
  · cases hx : (net i).ballot i e
    case none => exact h.legal
    case some x =>
      have ⟨r, node, b'', hup, ha, hx⟩ := Observed.ballot_some hx
      have regular := hr _ hup b'' (accepts_iff.mpr ha)
      subst hx
      exact .cast h.legal (h.lawful hi hup ha regular (h.backed hi hup (hu _ hup) ha regular))
  · by_cases hji : j = i
    case pos =>
      subst hji
      simp only [Network.step, Function.update_self]
      exact h.step_replica hi hu hr rfl
    case neg =>
      simp only [Network.step, Function.update_of_ne hji]
      cases hx : (net i).ballot i e
      case none => exact h.replicas j hj
      case some x =>
        have ⟨_, _, _, _, _, hx⟩ := Observed.ballot_some hx
        exact (h.replicas j hj).cast (by rw [hx]; exact Ne.symm hji)

theorem agreement_of_acceptsRegular {c : Config} {faults : Faults c} {es : List (PeerId × Event)}
    {net : Network}
    (h : Steps (Guarded Network.step fun net e => Possible faults net e ∧ AcceptsRegular (net e.1) e.2)
      (.new c) es net) :
    Agreement faults net := by
  have start : NetworkInvariant faults [] (.new c) := by
    refine ⟨.nil, fun i _ => ⟨rfl, .new, ?_, by simp, .inl rfl, .inl ⟨rfl, rfl⟩, by simp, ?_⟩⟩
    all_goals simp [Network.new, Observed.new, Task.new, HotStuffReplica.new, HotStuffReplica.votes]
  obtain ⟨log, inv⟩ := h.guarded_invariant (I := fun net => ∃ log, NetworkInvariant faults log net) ⟨[], start⟩
    fun hc hi => hi.choose_spec.step hc.1 hc.2
  intro i j hi hj a ha b hb
  rcases inv.legal.agreement ((inv.replicas i hi).applied a ha) ((inv.replicas j hj).applied b hb) with he | he
  · exact (chain_ancestor he rfl).imp_right .inr
  · exact (chain_ancestor he rfl).imp Eq.symm .inl

omit [Sha256] [Ed25519] [BlockDigest] [CollisionFree HashableMessage] in
-- Three correct replicas get all proposals, and two faulty ones vote for them.
theorem chain_agreement :
    ∃ (_ : Sha256) (_ : Ed25519) (c : Config) (faults : Faults c),
      BlockDigest ∧ CollisionFree HashableMessage ∧
      let es := (c.chain [0, 1, 2, 5, 6] createGenesisBlock [1, 2, 3, 4]).flatMap fun e =>
        [0, 5, 6].map (·, e)
      let net := es.foldl Network.step (.new c)
      Admits Network.step (fun net e => Possible faults net e ∧ AcceptsRegular (net e.1) e.2) (.new c) es ∧
      (∀ i ∈ [0, 5, 6], (net i).task.replica.applied.map Block.viewNumber = [0, 1]) ∧
      Agreement faults net := by
  let c := Config.ofSize 7
  let faults : @Faults .encoding c := @Faults.mk .encoding c 2 {1, 2} rfl rfl (by decide)
  refine ⟨.encoding, .encoding, c, faults, Sha256.encoding_block, Sha256.encoding_message,
    by decide +kernel, by decide +kernel, ?_⟩
  exact @agreement_of_acceptsRegular .encoding .encoding Sha256.encoding_block Sha256.encoding_message _ _ _ _
    (Admits.steps (by decide +kernel))

omit [Ed25519] [CollisionFree HashableMessage] in
theorem Block.ancestor_of_child {a b : Block} (h : a.Ancestor b)
    (hb : b.parentId = some QuorumCertificate.genesisBlockHash) : a.parentId = none := by
  have ⟨x, hx, ha⟩ := Relation.TransGen.head'_iff.mp h
  have hp : x.parentId = none := Block.hash_eq_genesis_iff.mp (Option.some.inj (hx.symm.trans hb))
  rcases ha.cases_head with rfl | ⟨y, hy, _⟩
  · exact hp
  · simp [show x.parentId = _ from hy] at hp

-- Replica 3 is faulty and leads view 3. It uses the votes for its first block, and its own, in the
-- certificates for all others.
def reusedVotes (c : Config) (b : Block) : QuorumCertificate :=
  { c.certify [0, 1, 3] 3 (c.extend [] createGenesisBlock 3).hash with blockHash := b.hash }

def fork (c : Config) (base : Block) : List Block :=
  let b₁ := base.createLeaf [] 3 (reusedVotes c base)
  let b₂ := b₁.createLeaf [] 3 (reusedVotes c b₁)
  let b₃ := b₂.createLeaf [] 3 (reusedVotes c b₂)
  [base, b₁, b₂, b₃]

def conflictingForks (c : Config) : List (PeerId × Event) :=
  let a := c.extend [] createGenesisBlock 3
  let b := c.extend [] createGenesisBlock 2
  (1, .propose a 3) :: (fork c a).map (0, .propose · 3) ++ (fork c b).map (1, .propose · 3)

omit [Sha256] [Ed25519] [BlockDigest] [CollisionFree HashableMessage] in
theorem conflictingForks_not_agreement :
    ∃ (_ : Sha256) (_ : Ed25519) (c : Config) (faults : Faults c),
      BlockDigest ∧ CollisionFree HashableMessage ∧
      Admits Network.step (Possible faults) (.new c) (conflictingForks c) ∧
      ¬Agreement faults ((conflictingForks c).foldl Network.step (.new c)) := by
  let c := Config.ofSize 4
  let faults : @Faults .encoding c := @Faults.mk .encoding c 1 {3} rfl rfl (by decide)
  let a := @Config.extend .encoding .encoding c [] createGenesisBlock 3
  let b := @Config.extend .encoding .encoding c [] createGenesisBlock 2
  refine ⟨.encoding, .encoding, c, faults, Sha256.encoding_block, Sha256.encoding_message,
    by decide +kernel, fun h => ?_⟩
  have chain := h 0 1 (by decide) (by decide) a (by decide +kernel) b (by decide +kernel)
  rcases chain with he | ha | hb
  · revert he
    decide +kernel
  · have := @Block.ancestor_of_child .encoding Sha256.encoding_block _ _ ha (by decide +kernel)
    revert this
    decide +kernel
  · have := @Block.ancestor_of_child .encoding Sha256.encoding_block _ _ hb (by decide +kernel)
    revert this
    decide +kernel

end Superliquid

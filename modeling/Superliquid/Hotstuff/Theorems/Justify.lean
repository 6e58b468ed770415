import Superliquid.Hotstuff.Theorems.Network

namespace Superliquid

open HotStuffReplica ReplicaM

variable [Sha256] [Ed25519]

-- Replicas that have voted for blocks of the same hash store the same certificate with it.
def HashFixesJustify (correct : Finset PeerId) (net : Network) : Prop :=
  ∀ i ∈ correct, ∀ j ∈ correct, ∀ vote ∈ (net i).task.replica.votes, ∀ vote' ∈ (net j).task.replica.votes,
    vote.2.hash = vote'.2.hash →
    ∃ b ∈ (net i).task.replica.blockstore.lookup vote.2.hash,
    ∃ b' ∈ (net j).task.replica.blockstore.lookup vote.2.hash,
      b.justify.viewNumber = b'.justify.viewNumber ∧ b.justify.blockHash = b'.justify.blockHash

instance {correct : Finset PeerId} {net : Network} : Decidable (HashFixesJustify correct net) :=
  inferInstanceAs (Decidable (∀ i ∈ correct, ∀ j ∈ correct, ∀ vote ∈ (net i).task.replica.votes,
    ∀ vote' ∈ (net j).task.replica.votes, _ → ∃ b ∈ (net i).task.replica.blockstore.lookup vote.2.hash,
    ∃ b' ∈ (net j).task.replica.blockstore.lookup vote.2.hash, _))

-- A proposal that is voted for, or replaces one that was, carries a certificate for its parent, with the
-- view of the parent.
def JustifiedByParent (o : Observed) (e : Event) : Prop :=
  ∀ x ∈ o.task.takenUp e,
    (x.1.accepts x.2 ≠ none ∨ ∃ vote ∈ o.task.replica.votes, vote.2.hash = x.2.hash) →
    x.2.parentId = some x.2.justify.blockHash ∧
    ∀ parent ∈ (x.1.store x.2).blockstore.lookup x.2.justify.blockHash,
      x.2.justify.viewNumber = parent.view

instance {o : Observed} {e : Event} : Decidable (JustifiedByParent o e) :=
  inferInstanceAs (Decidable (∀ x ∈ o.task.takenUp e, _ → _ ∧
    ∀ parent ∈ (x.1.store x.2).blockstore.lookup x.2.justify.blockHash, _))

-- The certificate of a block is for its parent, which is in the store.
structure Anchored (blockstore : Blockstore) (b : Block) : Prop where
  parentId : b.parentId = some b.justify.blockHash
  parent   : ∃ parent, blockstore.lookup b.justify.blockHash = some parent ∧ b.justify.viewNumber = parent.view

omit [Sha256] [Ed25519] in
theorem Anchored.of_eraseStatus {blockstore : Blockstore} {b b' : Block} (h : Anchored blockstore b)
    (he : b'.eraseStatus = b.eraseStatus) : Anchored blockstore b' := by
  have hj := Block.justify_of_eraseStatus he
  refine ⟨?_, hj ▸ h.parent⟩
  rw [Block.parentId_of_eraseStatus he, hj]
  exact h.parentId

variable [BlockDigest]

omit [Ed25519] in
theorem Block.view_of_hash {b b' : Block} (h : b.hash = b'.hash) : b.view = b'.view := by
  have hp := Block.hash_inj_parentId h
  cases hb : b.parentId
  case none   => simp [Block.view, hb, ← hp]
  case some p => simp [Block.view, hb, ← hp, Block.hash_inj_viewNumber h hb]

variable {t : Task} {o : Observed} {e : Event}

-- Parents may be replaced, but not by blocks of other views.
theorem Anchored.step {b : Block} (hk : Keyed t.replica.blockstore) (h : Anchored t.replica.blockstore b) :
    Anchored (t.step e).replica.blockstore b := by
  have ⟨parent, hparent, hview⟩ := h.parent
  have hs := (t.step_stepped e).lookup_isSome (.inl (Option.isSome_iff_exists.mpr ⟨parent, hparent⟩))
  have ⟨parent', hparent'⟩ := Option.isSome_iff_exists.mp hs
  refine ⟨h.parentId, parent', hparent', hview.trans (Block.view_of_hash ?_)⟩
  rw [hk _ _ hparent, hk.step _ _ hparent']

structure JustifyInvariant (o : Observed) : Prop where
  keyed : Keyed o.task.replica.blockstore
  votes : ∀ vote ∈ o.task.replica.votes, ∃ b, o.task.replica.blockstore.lookup vote.2.hash = some b ∧
    Anchored o.task.replica.blockstore b

section Step

variable {r : HotStuffReplica} {node : Block} (hk : Keyed o.task.replica.blockstore)
  (hc : JustifiedByParent o e) (hup : o.task.takenUp e = some (r, node))

include hk hc hup

theorem JustifiedByParent.anchored
    (hv : r.accepts node ≠ none ∨ ∃ vote ∈ o.task.replica.votes, vote.2.hash = node.hash)
    (hp : ∃ parent, (r.store node).blockstore.lookup node.justify.blockHash = some parent) :
    Anchored (o.step e).task.replica.blockstore node := by
  have ⟨hid, hview⟩ := hc (r, node) hup hv
  have ⟨parent, hparent⟩ := hp
  have stored : (o.task.replica.blockstore.lookup node.justify.blockHash).isSome ∨
      ∃ r node', o.task.takenUp e = some (r, node') ∧ node.justify.blockHash = node'.hash := by
    rcases (Task.takenUp_lookup_iff hup).mp hparent with ⟨hh, _⟩ | ⟨_, hh⟩
    · exact .inr ⟨r, node, hup, hh⟩
    · exact .inl (Option.isSome_iff_exists.mpr ⟨parent, hh⟩)
  have ⟨parent', hparent'⟩ := Option.isSome_iff_exists.mp ((o.task.step_stepped e).lookup_isSome stored)
  refine ⟨hid, parent', hparent', (hview parent hparent).trans (Block.view_of_hash ?_)⟩
  rw [hk.takenUp hup _ _ hparent, hk.step _ _ hparent']

-- The parent of a block that was voted for is still at hand when the block is replaced.
theorem JustifiedByParent.anchored_again {b : Block} (hv : ∃ vote ∈ o.task.replica.votes, vote.2.hash = node.hash)
    (hb : o.task.replica.blockstore.lookup node.hash = some b) (ha : Anchored o.task.replica.blockstore b) :
    Anchored (o.step e).task.replica.blockstore node := by
  refine hc.anchored hk hup (.inr hv) ?_
  have ⟨hid, _⟩ := hc (r, node) hup (.inr hv)
  have hparent : b.justify.blockHash = node.justify.blockHash := by
    have := Block.hash_inj_parentId (hk _ _ hb)
    rw [ha.parentId, hid] at this
    exact Option.some.inj this
  have ⟨parent, hp, _⟩ := ha.parent
  by_cases hh : node.justify.blockHash = node.hash
  case pos => exact ⟨node, (Task.takenUp_lookup_iff hup).mpr (.inl ⟨hh, rfl⟩)⟩
  case neg => exact ⟨parent, (Task.takenUp_lookup_iff hup).mpr (.inr ⟨hh, hparent ▸ hp⟩)⟩

end Step

theorem JustifyInvariant.vote_step {vote : Nat × Block} (h : JustifyInvariant o) (hc : JustifiedByParent o e)
    (hvote : vote ∈ o.task.replica.votes) :
    ∃ b, (o.step e).task.replica.blockstore.lookup vote.2.hash = some b ∧
      Anchored (o.step e).task.replica.blockstore b := by
  have stepped := o.task.step_stepped e
  have ⟨b, hb, ha⟩ := h.votes vote hvote
  have hs := stepped.lookup_isSome (.inl (Option.isSome_iff_exists.mpr ⟨b, hb⟩))
  have ⟨b', hb'⟩ := Option.isSome_iff_exists.mp hs
  refine ⟨b', hb', ?_⟩
  have ⟨b₀, he, hb₀⟩ := stepped.lookup hb'
  by_cases hup : ∃ r node, o.task.takenUp e = some (r, node) ∧ vote.2.hash = node.hash
  case pos =>
    have ⟨r, node, hup, hh⟩ := hup
    have again := hc.anchored_again h.keyed hup ⟨vote, hvote, hh⟩ (hh ▸ hb) ha
    exact again.of_eraseStatus (stepped.lookup_takenUp hup (hh ▸ hb'))
  case neg =>
    rcases hb₀ with hb₀ | ⟨hh, r, hr⟩
    · cases hb.symm.trans hb₀
      exact (ha.step h.keyed).of_eraseStatus he
    · exact absurd ⟨r, b₀, hr, hh⟩ hup

theorem JustifyInvariant.step (h : JustifyInvariant o) (hc : JustifiedByParent o e) :
    JustifyInvariant (o.step e) := by
  have stepped := o.task.step_stepped e
  refine ⟨h.keyed.step, fun vote hvote => ?_⟩
  rcases stepped.votes with hv | ⟨r, node, b'', hup, ha, hv⟩
  · exact h.vote_step hc (hv ▸ hvote)
  · rw [show (o.step e).task.replica.votes = _ from hv, List.mem_append, List.mem_singleton] at hvote
    rcases hvote with hvote | rfl
    · exact h.vote_step hc hvote
    · have ⟨b, hb⟩ := Option.isSome_iff_exists.mp (stepped.lookup_isSome (.inr ⟨r, node, hup, rfl⟩))
      refine ⟨b, hb, .of_eraseStatus ?_ (stepped.lookup_takenUp hup hb)⟩
      refine hc.anchored h.keyed hup (.inl (by simp [accepts_iff.mpr ha])) ⟨b'', ?_⟩
      exact getJustifiedBlock_lookup ha.justified

omit [Ed25519] in
-- Anchored blocks of the same hash have the same certificate, wherever they are stored.
theorem Anchored.unique {store store' : Blockstore} {b b' : Block} (hk : Keyed store) (hk' : Keyed store')
    (h : Anchored store b) (h' : Anchored store' b') (hh : b.hash = b'.hash) :
    b.justify.viewNumber = b'.justify.viewNumber ∧ b.justify.blockHash = b'.justify.blockHash := by
  have hp : b.justify.blockHash = b'.justify.blockHash := by
    have := Block.hash_inj_parentId hh
    rw [h.parentId, h'.parentId] at this
    exact Option.some.inj this
  have ⟨parent, hparent, hview⟩ := h.parent
  have ⟨parent', hparent', hview'⟩ := h'.parent
  refine ⟨?_, hp⟩
  rw [hview, hview']
  refine Block.view_of_hash ?_
  rw [hk _ _ hparent, hk' _ _ hparent', hp]

theorem hashFixesJustify_of_justifiedByParent {c : Config} {correct : Finset PeerId}
    {es : List (PeerId × Event)} {net : Network}
    (h : Steps (Guarded Network.step fun net e => e.1 ∈ correct ∧ JustifiedByParent (net e.1) e.2) (.new c) es net) :
    HashFixesJustify correct net := by
  have start : ∀ i, JustifyInvariant (Network.new c i) := by
    intro i
    refine ⟨.new, ?_⟩
    simp [Network.new, Observed.new, Task.new, HotStuffReplica.new, HotStuffReplica.votes]
  have inv := h.guarded_invariant (I := fun net => ∀ i, JustifyInvariant (net i)) start fun hc hi j => by
    simp only [Network.step, Function.update_apply]
    split
    case isTrue hj => exact (hi _).step hc.2
    case isFalse   => exact hi j
  intro i _ j _ vote hvote vote' hvote' hh
  obtain ⟨b, hb, ha⟩ := (inv i).votes vote hvote
  obtain ⟨b', hb', ha'⟩ := (inv j).votes vote' hvote'
  refine ⟨b, hb, b', hh ▸ hb', ha.unique (inv i).keyed (inv j).keyed ha' ?_⟩
  rw [(inv i).keyed _ _ hb, (inv j).keyed _ _ hb', hh]

omit [Sha256] [Ed25519] [BlockDigest] in
theorem chain_hashFixesJustify :
    ∃ (_ : Sha256) (_ : Ed25519) (c : Config), BlockDigest ∧
      let es := (c.chain [0, 2, 3] createGenesisBlock [1, 2]).flatMap fun e => [0, 3].map (·, e)
      let net := es.foldl Network.step (.new c)
      Admits Network.step (fun net e => e.1 ∈ ({0, 1, 3} : Finset PeerId) ∧ JustifiedByParent (net e.1) e.2)
        (.new c) es ∧
      (∀ i ∈ [0, 3], (net i).task.replica.votes.map Prod.fst = [1, 2]) ∧ HashFixesJustify {0, 1, 3} net := by
  refine ⟨.encoding, .encoding, .ofSize 4, Sha256.encoding_block, by decide +kernel, by decide +kernel, ?_⟩
  exact @hashFixesJustify_of_justifiedByParent .encoding .encoding Sha256.encoding_block _ _ _ _
    (Admits.steps (by decide +kernel))

-- The faulty leader of view 2 sends the same block with two different certificates.
def twoCertificates (c : Config) : List (PeerId × Event) :=
  let a := Block.createLeaf createGenesisBlock [] 1 .createGenesisQC
  [(0, .propose a 1), (3, .propose a 1), (0, .propose (a.createLeaf [] 2 .createGenesisQC) 2),
    (3, .propose (a.createLeaf [] 2 (c.certify [0, 2, 3] 1 a.hash)) 2)]

omit [Sha256] [Ed25519] [BlockDigest] in
theorem twoCertificates_not_hashFixesJustify :
    ∃ (_ : Sha256) (_ : Ed25519) (c : Config), BlockDigest ∧
      (∀ e ∈ twoCertificates c, e.1 ∈ ({0, 1, 3} : Finset PeerId)) ∧
      ¬HashFixesJustify {0, 1, 3} ((twoCertificates c).foldl Network.step (.new c)) := by
  refine ⟨.encoding, .encoding, .ofSize 4, Sha256.encoding_block, by decide +kernel, ?_⟩
  decide +kernel

end Superliquid

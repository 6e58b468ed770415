import Mathlib.Logic.Relation
import Superliquid.Hotstuff.Theorems.Digests
import Superliquid.Hotstuff.Theorems.Store
import Superliquid.Lib.Steps

namespace Superliquid

open HotStuffReplica ReplicaM

variable [Sha256] [Ed25519] {o : Observed} {e : Event}

-- Blocks are stored under their own hash.
def Keyed (blockstore : Blockstore) : Prop :=
  ∀ k b, blockstore.lookup k = some b → b.hash = k

theorem Keyed.step {t : Task} (h : Keyed t.replica.blockstore) : Keyed (t.step e).replica.blockstore := by
  intro k b hb
  have ⟨b₀, he, hb₀⟩ := (t.step_stepped e).lookup hb
  rw [Block.hash_of_eraseStatus he]
  cases hb₀
  case inl hb₀ => exact h k b₀ hb₀
  case inr hb₀ => exact hb₀.1.symm

theorem Keyed.takenUp {r : HotStuffReplica} {node : Block} (h : Keyed o.task.replica.blockstore)
    (hup : o.task.takenUp e = some (r, node)) : Keyed (r.store node).blockstore := by
  intro k b hb
  rcases (Task.takenUp_lookup_iff hup).mp hb with ⟨hk, rfl⟩ | ⟨_, hb⟩
  · exact hk.symm
  · exact h k b hb

theorem Keyed.new {c : Config} {nodeId : PeerId} : Keyed (Task.new c nodeId).replica.blockstore := by
  intro k b hb
  rcases Map.lookup_insert_iff.mp hb with ⟨rfl, rfl⟩ | ⟨_, hb⟩
  · rfl
  · simp at hb

section Once

-- No two proposals extend the same block, and no proposal is taken up twice.
def ExtendsNew (o : Observed) (e : Event) : Prop :=
  ∀ x ∈ o.task.takenUp e, x.2.parentId ≠ none → ∀ y ∈ o.history, y.2.parentId ≠ x.2.parentId

instance : Decidable (ExtendsNew o e) :=
  inferInstanceAs (Decidable (∀ x ∈ o.task.takenUp e, _))

-- Each block is executed at most once.
def AppliedOnce (r : HotStuffReplica) : Prop :=
  (r.applied.map Block.hash).Nodup

instance {r : HotStuffReplica} : Decidable (AppliedOnce r) :=
  inferInstanceAs (Decidable (List.Nodup _))

structure OnceInvariant (o : Observed) : Prop where
  once    : AppliedOnce o.task.replica
  -- Every block has at most one child among the proposals.
  unique  : ∀ x ∈ o.history, ∀ y ∈ o.history,
    x.2.parentId = y.2.parentId → x.2.parentId ≠ none → x.2 = y.2
  stored  : ∀ k b, o.task.replica.blockstore.lookup k = some b → b.parentId ≠ none →
    ∃ x ∈ o.history, x.2.hash = b.hash
  applied : ∀ b ∈ o.task.replica.applied, ∃ x ∈ o.history, ∃ y ∈ o.history, ∃ z ∈ o.history,
    x.2.parentId = some y.2.hash ∧ y.2.parentId = some z.2.hash ∧ z.2.parentId = some b.hash

variable [BlockDigest]

theorem OnceInvariant.step (h : OnceInvariant o) (hc : ExtendsNew o e) : OnceInvariant (o.step e) := by
  have stepped := o.task.step_stepped e
  have stored : ∀ k b, (o.step e).task.replica.blockstore.lookup k = some b → b.parentId ≠ none →
      ∃ x ∈ (o.step e).history, x.2.hash = b.hash := by
    intro k b hb hn
    have ⟨b₀, he, hb₀⟩ := stepped.lookup hb
    rw [Block.hash_of_eraseStatus he]
    cases hb₀
    case inl hb₀ =>
      have ⟨x, hx, hh⟩ := h.stored k b₀ hb₀ (Block.parentId_of_eraseStatus he ▸ hn)
      exact ⟨x, List.mem_append_left _ hx, hh⟩
    case inr hb₀ =>
      have ⟨_, r, hup⟩ := hb₀
      exact ⟨(r, b₀), by simp [Observed.step, hup], rfl⟩
  have unique : ∀ x ∈ (o.step e).history, ∀ y ∈ (o.step e).history,
      x.2.parentId = y.2.parentId → x.2.parentId ≠ none → x.2 = y.2 := by
    intro x hx y hy hxy hn
    simp only [Observed.step, List.mem_append, Option.mem_toList] at hx hy
    rcases hx with hx | hx <;> rcases hy with hy | hy
    · exact h.unique x hx y hy hxy hn
    · exact absurd hxy (hc y hy (hxy ▸ hn) x hx)
    · exact absurd hxy.symm (hc x hx hn y hy)
    · rw [Option.mem_unique hx hy]
  cases stepped.applied
  case inl ha =>
    have ha : (o.step e).task.replica.applied = o.task.replica.applied := ha
    refine ⟨?_, unique, stored, fun b hb => ?_⟩
    · rw [AppliedOnce, ha]
      exact h.once
    · have ⟨x, hx, y, hy, z, hz, hxyz⟩ := h.applied b (ha ▸ hb)
      exact ⟨x, List.mem_append_left _ hx, y, List.mem_append_left _ hy, z, List.mem_append_left _ hz, hxyz⟩
  case inr ha =>
    have ⟨r, node, b'', b', b, hup, hcommits, ha⟩ := ha
    have ha : (o.step e).task.replica.applied = o.task.replica.applied ++ [b] := ha
    have hnode : (r, node) ∈ (o.step e).history := by simp [Observed.step, hup]
    -- The blocks between the proposal and `b` come from the history.
    have history : ∀ {k b}, (r.store node).blockstore.lookup k = some b → b.parentId ≠ none →
        ∃ x ∈ (o.step e).history, x.2.hash = b.hash := by
      intro k b hb hn
      rcases (Task.takenUp_lookup_iff hup).mp hb with ⟨_, rfl⟩ | ⟨_, hb⟩
      · exact ⟨(r, node), hnode, rfl⟩
      · have ⟨x, hx, hh⟩ := h.stored k b hb hn
        exact ⟨x, List.mem_append_left _ hx, hh⟩
    have hb'' : b''.parentId = some b'.hash := hcommits.linked.isParent
    have hb' : b'.parentId = some b.hash := hcommits.linked'.isParent
    have ⟨y, hy, hyb⟩ := history (getJustifiedBlock_lookup hcommits.accepts.justified) (by simp [hb''])
    have ⟨z, hz, hzb⟩ := history (getJustifiedBlock_lookup hcommits.linked.justified) (by simp [hb'])
    have hnp : node.parentId = some y.2.hash := hyb ▸ hcommits.isParent
    have hyp : y.2.parentId = some z.2.hash := by rw [Block.hash_inj_parentId hyb, hzb, hb'']
    have hzp : z.2.parentId = some b.hash := by rw [Block.hash_inj_parentId hzb, hb']
    refine ⟨?_, unique, stored, fun b₁ hb₁ => ?_⟩
    · rw [AppliedOnce, ha, List.map_append, List.map_singleton, List.nodup_append]
      refine ⟨h.once, by simp, ?_⟩
      intro k hk k' hk' he
      have ⟨b₀, hb₀, hk⟩ := List.mem_map.mp hk
      have ⟨x₀, hx₀, y₀, hy₀, z₀, hz₀, hx₀p, hy₀p, hz₀p⟩ := h.applied b₀ hb₀
      have hz₀z : z₀.2 = z.2 := by
        refine unique z₀ (List.mem_append_left _ hz₀) z hz ?_ (by simp [hz₀p])
        rw [hz₀p, hzp, hk, he, List.mem_singleton.mp hk']
      have hy₀y : y₀.2 = y.2 := by
        refine unique y₀ (List.mem_append_left _ hy₀) y hy ?_ (by simp [hy₀p])
        rw [hy₀p, hyp, hz₀z]
      exact hc (r, node) hup (by simp [hnp]) x₀ hx₀ (by rw [hx₀p, hnp, hy₀y])
    · rw [ha, List.mem_append, List.mem_singleton] at hb₁
      rcases hb₁ with hb₁ | rfl
      · have ⟨x, hx, y, hy, z, hz, hxyz⟩ := h.applied b₁ hb₁
        exact ⟨x, List.mem_append_left _ hx, y, List.mem_append_left _ hy, z, List.mem_append_left _ hz, hxyz⟩
      · exact ⟨_, hnode, y, hy, z, hz, hnp, hyp, hzp⟩

theorem appliedOnce_of_extendsNew {c : Config} {nodeId : PeerId} {es : List Event}
    (h : Steps (Guarded Observed.step ExtendsNew) (.new c nodeId) es o) : AppliedOnce o.task.replica := by
  have start : OnceInvariant (.new c nodeId) := by
    refine ⟨by simp [AppliedOnce, Observed.new, Task.new, HotStuffReplica.new], by simp [Observed.new], ?_,
      by simp [Observed.new, Task.new, HotStuffReplica.new]⟩
    intro k b hb hn
    rcases Map.lookup_insert_iff.mp hb with ⟨_, rfl⟩ | ⟨_, hb⟩
    · simp [createGenesisBlock] at hn
    · simp at hb
  exact (h.guarded_invariant start fun hc hi => hi.step hc).once

omit [Sha256] [Ed25519] [BlockDigest] in
theorem chain_appliedOnce :
    ∃ (_ : Sha256) (_ : Ed25519) (c : Config), BlockDigest ∧
      let es := c.chain [1, 2, 3] createGenesisBlock [1, 2, 3, 5, 6]
      let o := es.foldl Observed.step (.new c 0)
      Admits Observed.step ExtendsNew (.new c 0) es ∧
      o.task.replica.applied.map Block.viewNumber = [0, 1, 2] ∧ AppliedOnce o.task.replica := by
  refine ⟨.encoding, .encoding, .ofSize 4, Sha256.encoding_block, by decide +kernel, by decide +kernel, ?_⟩
  exact @appliedOnce_of_extendsNew .encoding .encoding _ Sha256.encoding_block _ _ _
    (Admits.steps (by decide +kernel))

-- The last proposal of a chain arrives twice.
def repeatedProposal (c : Config) : List Event :=
  let es := c.chain [1, 2, 3] createGenesisBlock [1, 2, 3, 5]
  es ++ es.drop 3

omit [Sha256] [Ed25519] [BlockDigest] in
theorem repeatedProposal_not_appliedOnce :
    ∃ (_ : Sha256) (_ : Ed25519) (c : Config),
      ¬AppliedOnce ((repeatedProposal c).foldl Task.step (.new c 0)).replica := by
  refine ⟨.encoding, .encoding, .ofSize 4, ?_⟩
  decide +kernel

end Once

section Gaps

def Block.Ancestor (a b : Block) : Prop :=
  Relation.TransGen Block.isParent b a

-- Whenever a block is executed, all its ancestors have been executed before. As this goes for the
-- ancestors as well, parents come before their children.
def AncestorsApplied (r : HotStuffReplica) : Prop :=
  ∀ pre b post, r.applied = pre ++ b :: post → ∀ a : Block, a.Ancestor b → a.parentId ≠ none →
    a.hash ∈ pre.map Block.hash

-- The same for parents.
def ParentsApplied (applied : List Block) : Prop :=
  ∀ pre b post, applied = pre ++ b :: post → ∀ p, b.parentId = some p →
    p = QuorumCertificate.genesisBlockHash ∨ p ∈ pre.map Block.hash

-- Every proposal is justified by its own parent. If it passes the checks, the parent is the genesis
-- block or has passed the checks before.
def FollowsChain (o : Observed) (e : Event) : Prop :=
  ∀ x ∈ o.task.takenUp e,
    (x.2.parentId ≠ none → x.2.parentId = some x.2.justify.blockHash) ∧
    ∀ _ ∈ x.1.accepts x.2,
      x.2.parentId = some QuorumCertificate.genesisBlockHash ∨
      ∃ y ∈ o.history, (y.1.accepts y.2).isSome ∧ x.2.parentId = some y.2.hash

instance : Decidable (FollowsChain o e) :=
  inferInstanceAs (Decidable (∀ x ∈ o.task.takenUp e, _ ∧ ∀ _ ∈ x.1.accepts x.2, _))

-- What is known of a proposal that passed the checks.
structure Followed (o : Observed) (node : Block) : Prop where
  parent   : ∃ p, node.parentId = some p ∧ (o.task.replica.blockstore.lookup p).isSome ∧
    (p = QuorumCertificate.genesisBlockHash ∨
      ∃ y ∈ o.history, (y.1.accepts y.2).isSome ∧ p = y.2.hash)
  executed : o.task.panicked = false → ∀ b' b p, node.isParent b' → b'.isParent b → b.parentId = some p →
    p ∈ o.task.replica.applied.map Block.hash

structure GapsInvariant (o : Observed) : Prop where
  parents  : ParentsApplied o.task.replica.applied
  keyed    : Keyed o.task.replica.blockstore
  linked   : ∀ k b, o.task.replica.blockstore.lookup k = some b → b.parentId ≠ none →
    b.parentId = some b.justify.blockHash
  followed : ∀ x ∈ o.history, (x.1.accepts x.2).isSome → Followed o x.2

omit [Ed25519] in
theorem ParentsApplied.snoc {applied : List Block} {b : Block} (h : ParentsApplied applied)
    (hb : ∀ p, b.parentId = some p →
      p = QuorumCertificate.genesisBlockHash ∨ p ∈ applied.map Block.hash) :
    ParentsApplied (applied ++ [b]) := by
  intro pre b₁ post he
  rcases List.eq_nil_or_concat post with rfl | ⟨post, b₂, rfl⟩
  · have ⟨ha, hb₁⟩ := List.append_inj' he rfl
    cases hb₁
    exact ha ▸ hb
  · rw [List.concat_eq_append, ← List.cons_append, ← List.append_assoc] at he
    have ⟨ha, _⟩ := List.append_inj' he rfl
    exact h pre b₁ post ha

variable [BlockDigest]

omit [Ed25519] in
theorem ParentsApplied.ancestors {r : HotStuffReplica} (h : ParentsApplied r.applied) :
    AncestorsApplied r := by
  intro pre b post he a ha hn
  induction ha
  case single a ha =>
    refine (h pre b post he _ ha).resolve_left fun hg => hn ?_
    exact Block.hash_eq_genesis_iff.mp hg
  case tail a' a _ ha hi =>
    -- `a'` was executed before `b`, and its parent `a` before that.
    have ⟨a₁, ha₁, hh⟩ := List.mem_map.mp (hi (by simp [show a'.parentId = _ from ha]))
    have ⟨pre₁, pre₂, hpre⟩ := List.append_of_mem ha₁
    have hp : a₁.parentId = some a.hash := (Block.hash_inj_parentId hh).trans ha
    have := h pre₁ a₁ (pre₂ ++ b :: post) (by simp [he, hpre]) _ hp
    have := this.resolve_left fun hg => hn (Block.hash_eq_genesis_iff.mp hg)
    rw [hpre, List.map_append]
    exact List.mem_append_left _ this

variable {r : HotStuffReplica} {node : Block}

-- The blocks below one that has passed the checks are at hand, so the replica finds its parent.
theorem GapsInvariant.parent (h : GapsInvariant o) (hc : FollowsChain o e)
    (hup : o.task.takenUp e = some (r, node)) {y : HotStuffReplica × Block} (hy : y ∈ o.history)
    (ha : (y.1.accepts y.2).isSome) {b : Block} {k p : BlockHash}
    (hb : (r.store node).blockstore.lookup k = some b) (hh : b.hash = y.2.hash)
    (hp : b.parentId = some p) :
    (∃ b', Linked (r.store node) b b' ∧ b'.hash = p) ∧
    (p = QuorumCertificate.genesisBlockHash ∨
      ∃ z ∈ o.history, (z.1.accepts z.2).isSome ∧ p = z.2.hash) := by
  have ⟨q, hq, hstored, hz⟩ := (h.followed y hy ha).parent
  cases hp.symm.trans ((Block.hash_inj_parentId hh).trans hq)
  have justified : b.justify.blockHash = p := by
    rcases (Task.takenUp_lookup_iff hup).mp hb with ⟨_, rfl⟩ | ⟨_, hb⟩
    · exact (Option.some.inj (hp.symm.trans ((hc _ hup).1 (by simp [hp])))).symm
    · exact (Option.some.inj (hp.symm.trans (h.linked k b hb (by simp [hp])))).symm
  have ⟨b', hb'⟩ : ∃ b', (r.store node).blockstore.lookup p = some b' := by
    have ⟨b₀, hb₀⟩ := Option.isSome_iff_exists.mp hstored
    by_cases hk : p = node.hash
    case pos => exact ⟨node, (Task.takenUp_lookup_iff hup).mpr (.inl ⟨hk, rfl⟩)⟩
    case neg => exact ⟨b₀, (Task.takenUp_lookup_iff hup).mpr (.inr ⟨hk, hb₀⟩)⟩
  have hash : b'.hash = p := h.keyed.takenUp hup p b' hb'
  refine ⟨⟨b', ⟨?_, hp.trans (congrArg some hash.symm)⟩, hash⟩, hz⟩
  rw [getJustifiedBlock, hp, justified]
  exact hb'

-- A proposal that passes the checks executes the block three steps below, if there is one.
theorem GapsInvariant.commits (h : GapsInvariant o) (hc : FollowsChain o e)
    (hup : o.task.takenUp e = some (r, node)) {b'' : Block} (ha : Accepts r node b'')
    {b' b : Block} {p : BlockHash} (hb' : node.isParent b') (hb : b'.isParent b)
    (hp : b.parentId = some p) :
    ∃ β γ, Commits r node b'' β γ ∧ γ.hash = p := by
  have hstore := getJustifiedBlock_lookup ha.justified
  have isParent : node.isParent b'' := by
    have hj := (hc _ hup).1 (by simp [show node.parentId = _ from hb'])
    rw [Block.isParent, h.keyed.takenUp hup _ _ hstore]
    exact hj
  have hash : b''.hash = b'.hash := Option.some.inj (isParent.symm.trans hb')
  have hb'' : b''.parentId = some b.hash := (Block.hash_inj_parentId hash).trans hb
  -- Neither `b''` nor its parent is the genesis block, so both have passed the checks.
  have ⟨y, hy, hya, hyp⟩ : ∃ y ∈ o.history, (y.1.accepts y.2).isSome ∧ node.parentId = some y.2.hash := by
    refine ((hc _ hup).2 b'' (accepts_iff.mpr ha)).resolve_left fun hg => ?_
    have := Block.hash_eq_genesis_iff.mp (Option.some.inj (isParent.symm.trans hg))
    simp [hb''] at this
  have hyb : b''.hash = y.2.hash := Option.some.inj (isParent.symm.trans hyp)
  have ⟨⟨β, linked, hβ⟩, hz⟩ := h.parent hc hup hy hya hstore hyb hb''
  have hβp : β.parentId = some p := (Block.hash_inj_parentId hβ).trans hp
  have ⟨z, hz, hza, hzb⟩ := hz.resolve_left fun hg => by
    have := Block.hash_eq_genesis_iff.mp hg
    simp [hp] at this
  have ⟨⟨γ, linked', hγ⟩, _⟩ :=
    h.parent hc hup hz hza (getJustifiedBlock_lookup linked.justified) (hβ.trans hzb) hβp
  exact ⟨β, γ, ⟨ha, isParent, linked, linked'⟩, hγ⟩

theorem GapsInvariant.step (h : GapsInvariant o) (hc : FollowsChain o e) : GapsInvariant (o.step e) := by
  have stepped := o.task.step_stepped e
  have kept : ∀ b ∈ o.task.replica.applied.map Block.hash,
      b ∈ (o.step e).task.replica.applied.map Block.hash := by
    intro b hb
    rcases stepped.applied with ha | ⟨_, _, _, _, _, _, _, ha⟩
    · exact (congrArg (b ∈ List.map Block.hash ·) ha).mpr hb
    · refine (congrArg (b ∈ List.map Block.hash ·) ha).mpr ?_
      rw [List.map_append]
      exact List.mem_append_left _ hb
  constructor
  case keyed => exact h.keyed.step
  case linked =>
    intro k b hb hn
    obtain ⟨b₀, he, hb₀⟩ := stepped.lookup hb
    rw [Block.parentId_of_eraseStatus he, Block.justify_of_eraseStatus he]
    rw [Block.parentId_of_eraseStatus he] at hn
    rcases hb₀ with hb₀ | ⟨_, r, hup⟩
    · exact h.linked k b₀ hb₀ hn
    · exact (hc _ hup).1 hn
  case parents =>
    rcases stepped.applied with ha | ⟨r, node, b'', b', b, hup, hcommits, ha⟩
    · exact (congrArg ParentsApplied ha).mpr h.parents
    · refine (congrArg ParentsApplied ha).mpr (h.parents.snoc fun p hp => .inr ?_)
      have hb'' : b''.isParent b' := hcommits.linked.isParent
      obtain ⟨y, hy, hya, hyp⟩ := ((hc _ hup).2 b'' (accepts_iff.mpr hcommits.accepts)).resolve_left fun hg => by
        have := Block.hash_eq_genesis_iff.mp (Option.some.inj (hcommits.isParent.symm.trans hg))
        simp [show b''.parentId = _ from hb''] at this
      have hyb : b''.hash = y.2.hash := Option.some.inj (hcommits.isParent.symm.trans hyp)
      exact (h.followed y hy hya).executed (Task.running_of_takenUp hup) b' b p
        ((Block.hash_inj_parentId hyb).symm.trans hb'') hcommits.linked'.isParent hp
  case followed =>
    intro x hx ha
    rcases List.mem_append.mp hx with hx | hx
    · have hf := h.followed x hx ha
      refine ⟨?_, fun hn b' b p hb' hb hp => kept _ (hf.executed (Task.running_of_step hn) b' b p hb' hb hp)⟩
      obtain ⟨p, hp, hs, hy⟩ := hf.parent
      refine ⟨p, hp, stepped.lookup_isSome (.inl hs), hy.imp_right ?_⟩
      rintro ⟨y, hy, hp⟩
      exact ⟨y, List.mem_append_left _ hy, hp⟩
    · have hup := Option.mem_toList.mp hx
      obtain ⟨b'', haccepts⟩ := Option.isSome_iff_exists.mp ha
      have haccepts := accepts_iff.mp haccepts
      constructor
      case parent =>
        have hn : x.2.parentId ≠ none := fun hn => by
          simpa [getJustifiedBlock, hn] using haccepts.justified
        refine ⟨x.2.justify.blockHash, (hc x hup).1 hn, ?_, ?_⟩
        · have hl := getJustifiedBlock_lookup haccepts.justified
          refine stepped.lookup_isSome ?_
          rcases (Task.takenUp_lookup_iff hup).mp hl with ⟨hk, _⟩ | ⟨_, hl⟩
          · exact .inr ⟨x.1, x.2, hup, hk⟩
          · exact .inl (by simp [hl])
        · have hp := (hc x hup).1 hn
          refine ((hc x hup).2 b'' (accepts_iff.mpr haccepts)).imp ?_ ?_
          · exact fun hg => Option.some.inj (hp.symm.trans hg)
          · rintro ⟨y, hy, hya, hyp⟩
            exact ⟨y, List.mem_append_left _ hy, hya, Option.some.inj (hp.symm.trans hyp)⟩
      case executed =>
        intro hn b' b p hb' hb hp
        obtain ⟨β, γ, hcommits, hγ⟩ := h.commits hc hup haccepts hb' hb hp
        have happlied := stepped.applied_of_commits hup hcommits hn
        refine (congrArg (p ∈ List.map Block.hash ·) happlied).mpr ?_
        simp [hγ]

theorem ancestorsApplied_of_followsChain {c : Config} {nodeId : PeerId} {es : List Event}
    (h : Steps (Guarded Observed.step FollowsChain) (.new c nodeId) es o) :
    AncestorsApplied o.task.replica := by
  have start : GapsInvariant (.new c nodeId) := by
    refine ⟨?_, .new, ?_, by simp [Observed.new]⟩
    · intro pre b post he
      simp [Observed.new, Task.new, HotStuffReplica.new] at he
    · intro k b hb hn
      rcases Map.lookup_insert_iff.mp hb with ⟨_, rfl⟩ | ⟨_, hb⟩
      · simp [createGenesisBlock] at hn
      · simp at hb
  exact (h.guarded_invariant start fun hc hi => hi.step hc).parents.ancestors

omit [Sha256] [Ed25519] [BlockDigest] in
theorem chain_ancestorsApplied :
    ∃ (_ : Sha256) (_ : Ed25519) (c : Config), BlockDigest ∧
      let es := c.chain [1, 2, 3] createGenesisBlock [1, 2, 3, 5, 6]
      let o := es.foldl Observed.step (.new c 0)
      Admits Observed.step FollowsChain (.new c 0) es ∧
      o.task.replica.applied.map Block.viewNumber = [0, 1, 2] ∧ AncestorsApplied o.task.replica := by
  refine ⟨.encoding, .encoding, .ofSize 4, Sha256.encoding_block, by decide +kernel, by decide +kernel, ?_⟩
  exact @ancestorsApplied_of_followsChain .encoding .encoding _ Sha256.encoding_block _ _ _
    (Admits.steps (by decide +kernel))

def lostBlock (c : Config) : Block :=
  [1, 2, 3, 5].foldl (c.extend [1, 2, 3]) createGenesisBlock

-- The proposal of `lostBlock` never arrives, but those before and after it do.
def lostProposal (c : Config) : List Event :=
  c.chain [1, 2, 3] createGenesisBlock [1, 2, 3] ++ c.chain [1, 2, 3] (lostBlock c) [6, 7, 9, 10]

omit [Sha256] [Ed25519] [BlockDigest] in
theorem lostProposal_not_ancestorsApplied :
    ∃ (_ : Sha256) (_ : Ed25519) (c : Config),
      ¬AncestorsApplied ((lostProposal c).foldl Task.step (.new c 0)).replica := by
  refine ⟨.encoding, .encoding, .ofSize 4, fun h => ?_⟩
  let lost := @lostBlock .encoding .encoding (.ofSize 4)
  let child := @Config.extend .encoding .encoding (.ofSize 4) [1, 2, 3] lost 6
  have applied := h [createGenesisBlock] child [] (by decide +kernel) lost (.single (by decide +kernel))
    (by decide +kernel)
  revert applied
  decide +kernel

end Gaps
end Superliquid

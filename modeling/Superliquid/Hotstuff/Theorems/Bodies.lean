import Superliquid.Hotstuff.Theorems.Digests
import Superliquid.Hotstuff.Theorems.Store
import Superliquid.Lib.Steps

namespace Superliquid

open HotStuffReplica ReplicaM

variable [Sha256] [Ed25519]

-- The checks that a proposal has to pass before a vote for it.
structure Block.Validated (b : Block) : Prop where
  transactions : validateBlockTransactions b = .ok true
  merkleRoot   : b.hashBlockTransaction = b.merkleRoot

instance {b : Block} : Decidable b.Validated :=
  decidable_of_iff (validateBlockTransactions b = .ok true ∧ b.hashBlockTransaction = b.merkleRoot)
    ⟨fun ⟨h, h'⟩ => ⟨h, h'⟩, fun ⟨h, h'⟩ => ⟨h, h'⟩⟩

theorem createGenesisBlock_validated : createGenesisBlock.Validated :=
  ⟨rfl, rfl⟩

-- A validated block that the replica has taken up, or the genesis block, of which `b` is a version
-- with other outcomes.
def Observed.Received (o : Observed) (b : Block) : Prop :=
  ∃ node ∈ createGenesisBlock :: o.history.map Prod.snd, node.Validated ∧
    b.eraseStatus = node.eraseStatus

-- Only validated bodies reach the ledger.
def ValidatedBodies (o : Observed) : Prop :=
  ∀ b ∈ o.task.replica.applied, o.Received b

instance {o : Observed} : Decidable (ValidatedBodies o) :=
  inferInstanceAs (Decidable (∀ b ∈ o.task.replica.applied,
    ∃ node ∈ createGenesisBlock :: o.history.map Prod.snd, _))

-- What was taken up last under a hash.
def Observed.latest (o : Observed) (k : BlockHash) : Option Block :=
  ((o.history.map Prod.snd).filter (·.hash = k)).getLast?

-- A body that fails the checks is not under a hash that a certificate names: neither the certificate of a
-- block that was taken up before, nor one that comes later, as long as the body has not been replaced.
def RefusedUncertified (o : Observed) (e : Event) : Prop :=
  ∀ x ∈ o.task.takenUp e,
    (¬x.2.Validated → ∀ b ∈ x.2 :: o.history.map Prod.snd, b.justify.blockHash ≠ x.2.hash) ∧
    ∀ b ∈ o.latest x.2.justify.blockHash, b.Validated

instance {o : Observed} {e : Event} : Decidable (RefusedUncertified o e) :=
  inferInstanceAs (Decidable (∀ x ∈ o.task.takenUp e, _ ∧ ∀ b ∈ o.latest x.2.justify.blockHash, _))

variable {o : Observed} {e : Event}

structure BodiesInvariant (o : Observed) : Prop where
  applied : ValidatedBodies o
  stored  : ∀ k b, o.task.replica.blockstore.lookup k = some b →
    b.eraseStatus = ((o.latest k).getD createGenesisBlock).eraseStatus
  named   : ∀ y ∈ o.history, ∀ b ∈ o.latest y.2.justify.blockHash, b.Validated

theorem Observed.Received.step {b : Block} (h : o.Received b) : (o.step e).Received b := by
  have ⟨node, hn, h⟩ := h
  refine ⟨node, ?_, h⟩
  simp only [Observed.step, List.map_append, ← List.cons_append]
  exact List.mem_append_left _ hn

omit [Ed25519] in
theorem Observed.mem_of_latest {k : BlockHash} {b : Block} (h : o.latest k = some b) :
    b ∈ o.history.map Prod.snd :=
  (List.mem_filter.mp (List.mem_of_getLast? h)).1

section TakenUp

variable {r : HotStuffReplica} {node : Block} (hup : o.task.takenUp e = some (r, node))

include hup

theorem Observed.history_takenUp : (o.step e).history = o.history ++ [(r, node)] := by
  simp [Observed.step, hup]

theorem Observed.latest_takenUp (k : BlockHash) :
    (o.step e).latest k = if node.hash = k then some node else o.latest k := by
  rw [latest, history_takenUp hup, List.map_append, List.filter_append]
  by_cases hk : node.hash = k
  case pos => simp [hk]
  case neg => simp [hk, latest]

-- What is in the store when a proposal is looked at is what was taken up last.
theorem BodiesInvariant.stored_takenUp {k : BlockHash} {b : Block} (h : BodiesInvariant o)
    (hb : (r.store node).blockstore.lookup k = some b) :
    b.eraseStatus = (((o.step e).latest k).getD createGenesisBlock).eraseStatus := by
  rw [Observed.latest_takenUp hup]
  rcases (Task.takenUp_lookup_iff hup).mp hb with ⟨rfl, rfl⟩ | ⟨hk, hb⟩
  · simp
  · rw [if_neg (Ne.symm hk)]
    exact h.stored k b hb

theorem BodiesInvariant.named_takenUp (h : BodiesInvariant o) (hc : RefusedUncertified o e) :
    ∀ y ∈ (o.step e).history, ∀ b ∈ (o.step e).latest y.2.justify.blockHash, b.Validated := by
  have ⟨refused, named⟩ := hc _ hup
  intro y hy b hb
  rw [Observed.latest_takenUp hup] at hb
  rw [Observed.history_takenUp hup, List.mem_append, List.mem_singleton] at hy
  split at hb
  case isTrue hk =>
    cases hb
    by_contra hn
    refine refused hn y.2 ?_ hk.symm
    rcases hy with hy | rfl
    · exact List.mem_cons_of_mem _ (List.mem_map_of_mem hy)
    · exact List.mem_cons_self
  case isFalse =>
    rcases hy with hy | rfl
    · exact h.named y hy b hb
    · exact named b hb

end TakenUp

-- The block that is executed is named by the certificate of a block that was taken up.
theorem BodiesInvariant.received {r : HotStuffReplica} {node b'' b' b : Block} (h : BodiesInvariant o)
    (hc : RefusedUncertified o e) (hup : o.task.takenUp e = some (r, node)) (commits : Commits r node b'' b' b) :
    (o.step e).Received b := by
  have hb' := h.stored_takenUp hup (getJustifiedBlock_lookup commits.linked.justified)
  have hn := parentId_ne_none commits.linked'.justified
  have ⟨y, hy, hjustify⟩ : ∃ y ∈ (o.step e).history, y.2.justify = b'.justify := by
    cases hl : (o.step e).latest b''.justify.blockHash
    case none   => rw [hl] at hb'; exact absurd (Block.parentId_of_eraseStatus hb') hn
    case some z =>
      rw [hl] at hb'
      have ⟨y, hy, hz⟩ := List.mem_map.mp (Observed.mem_of_latest hl)
      exact ⟨y, hy, by rw [hz, Block.justify_of_eraseStatus hb']; rfl⟩
  have hb := h.stored_takenUp hup (getJustifiedBlock_lookup commits.linked'.justified)
  rw [← hjustify] at hb
  cases hl : (o.step e).latest y.2.justify.blockHash
  case none   => exact ⟨createGenesisBlock, by simp, createGenesisBlock_validated, by simpa [hl] using hb⟩
  case some z =>
    refine ⟨z, List.mem_cons_of_mem _ (Observed.mem_of_latest hl), ?_, by simpa [hl] using hb⟩
    exact h.named_takenUp hup hc y hy z hl

theorem BodiesInvariant.step (h : BodiesInvariant o) (hc : RefusedUncertified o e) :
    BodiesInvariant (o.step e) := by
  have stepped := o.task.step_stepped e
  refine ⟨fun b hb => ?_, fun k b hb => ?_, ?_⟩
  · cases stepped.applied
    case inl ha => exact (h.applied b (ha ▸ hb)).step
    case inr ha =>
      have ⟨r, node, b'', b', b₁, hup, commits, ha⟩ := ha
      rw [show (o.step e).task.replica.applied = _ from ha, List.mem_append, List.mem_singleton] at hb
      rcases hb with hb | rfl
      · exact (h.applied b hb).step
      · exact h.received hc hup commits
  · have ⟨b₀, he, hb₀⟩ := stepped.lookup hb
    cases hup : o.task.takenUp e
    case none =>
      have same : (o.step e).latest k = o.latest k := by simp [Observed.latest, Observed.step, hup]
      rw [hup] at hb₀
      rw [he, same]
      exact h.stored k b₀ (hb₀.resolve_right (by simp))
    case some x =>
      have ⟨r, node⟩ := x
      rw [Observed.latest_takenUp hup]
      by_cases hk : node.hash = k
      case pos =>
        subst hk
        rw [if_pos rfl]
        exact stepped.lookup_takenUp hup hb
      case neg =>
        rw [he, if_neg hk]
        refine h.stored k b₀ (hb₀.resolve_right fun ⟨hk', r', hup'⟩ => hk ?_)
        cases hup.symm.trans hup'
        exact hk'.symm
  · cases hup : o.task.takenUp e
    case none   => simpa [Observed.latest, Observed.step, hup] using h.named
    case some x => exact h.named_takenUp hup hc

theorem BodiesInvariant.new {c : Config} {nodeId : PeerId} : BodiesInvariant (.new c nodeId) := by
  refine ⟨by simp [ValidatedBodies, Observed.new, Task.new, HotStuffReplica.new], fun k b hb => ?_, ?_⟩
  · rcases Map.lookup_insert_iff.mp hb with ⟨_, rfl⟩ | ⟨_, hb⟩
    · rfl
    · simp at hb
  · simp [Observed.new]

theorem validatedBodies_of_refusedUncertified {c : Config} {nodeId : PeerId} {es : List Event}
    (h : Steps (Guarded Observed.step RefusedUncertified) (.new c nodeId) es o) : ValidatedBodies o :=
  (h.guarded_invariant BodiesInvariant.new fun hc hi => hi.step hc).applied

-- A transfer that nobody has signed.
def stolen : SignedTransaction where
  tx := .transfer { source := 4, target := 0, amount := 1000, assetId := 0, status := .pending, nonce := 0 }
  signature := .sigToString { bytes := 0 }
  hash := 0

-- A block with a transfer is executed. Another one of its view is refused.
def refusedBody (c : Config) : List Event :=
  let refused := { c.transferBlock with transactions := [stolen], merkleRoot := stolen.hash }
  [.propose c.transferBlock 1, .propose refused 1] ++ c.chain [0, 1, 2, 5, 6] c.transferBlock [2, 3, 4]

omit [Sha256] [Ed25519] in
theorem refusedBody_validatedBodies :
    ∃ (_ : Sha256) (_ : Ed25519) (c : Config),
      let o := (refusedBody c).foldl Observed.step (.new c 0)
      Admits Observed.step RefusedUncertified (.new c 0) (refusedBody c) ∧
      (∃ y ∈ o.history, ¬y.2.Validated) ∧
      o.task.replica.applied.map (·.transactions.length) = [0, 1] ∧
      o.task.replica.ledgerState.expectedNonce 7 = 1 ∧ ValidatedBodies o := by
  refine ⟨.naming firstTransfer, .encoding, .ofSize 7, by decide +kernel, by decide +kernel, by decide +kernel,
    by decide +kernel, ?_⟩
  exact @validatedBodies_of_refusedUncertified (.naming firstTransfer) .encoding _ _ _ _
    (Admits.steps (by decide +kernel))

-- The body of a block that was voted for is replaced by one that is refused.
def replacedBody (c : Config) : List Event :=
  let a := c.extend [1, 2, 3] createGenesisBlock 1
  let forged := { a with transactions := [stolen] }
  [.propose a 1, .propose forged 1] ++ c.chain [1, 2, 3] a [2, 3, 5]

omit [Sha256] [Ed25519] in
theorem replacedBody_not_validatedBodies :
    ∃ (_ : Sha256) (_ : Ed25519) (c : Config),
      ¬ValidatedBodies ((replacedBody c).foldl Observed.step (.new c 0)) := by
  refine ⟨.encoding, .encoding, .ofSize 4, ?_⟩
  decide +kernel

end Superliquid

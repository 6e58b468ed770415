import Superliquid.Hotstuff.Theorems.Agreement
import Superliquid.Hotstuff.Theorems.Bodies
import Superliquid.Hotstuff.Theorems.Merkle
import Superliquid.Hotstuff.Theorems.Replay
import Superliquid.Lib.Lineage

namespace Superliquid

open HotStuffReplica ReplicaM Voting

section Bodies

theorem Block.body_of_eraseStatus {b b' : Block} (h : b'.eraseStatus = b.eraseStatus) : b'.body = b.body := by
  have bodies : ∀ b : Block, b.body = b.eraseStatus.transactions.map (·.tx) := by
    intro b
    rw [Block.eraseStatus, List.map_map]
    rfl
  rw [bodies, bodies, h]

-- Blocks with the same bodies lead to the same ledger.
theorem LedgerState.apply_bodies {l l₁ l₂ : LedgerState} {bs₁ bs₂ : List Block} {ts₁ ts₂ : List SignedTransaction}
    {ns₁ ns₂ : List (Option (PublicKeyHash × Nat))} (hb : bs₁.map Block.body = bs₂.map Block.body)
    (h₁ : l.apply (bs₁.flatMap Block.transactions) = .ok (l₁, ts₁, ns₁))
    (h₂ : l.apply (bs₂.flatMap Block.transactions) = .ok (l₂, ts₂, ns₂)) : l₁ = l₂ := by
  have bodies : ∀ bs : List Block,
      (bs.flatMap Block.transactions).map SignedTransaction.body = (bs.map Block.body).flatten := by
    intro bs
    rw [List.map_flatMap, List.flatMap_def]
    rfl
  have hl₁ := l.apply_after (bs₁.flatMap Block.transactions)
  have hl₂ := l.apply_after (bs₂.flatMap Block.transactions)
  rw [h₁, bodies, hb] at hl₁
  rw [h₂, bodies] at hl₂
  exact Except.ok.inj (hl₁.trans hl₂.symm)

theorem map_eq_of_map_eq {f : α → β} {g : α → γ} {l l' : List α} (h : l.map f = l'.map f)
    (hg : ∀ a ∈ l, ∀ b ∈ l', f a = f b → g a = g b) : l.map g = l'.map g := by
  induction l generalizing l'
  case nil => rw [List.map_eq_nil_iff.mp h.symm]
  case cons a l hi =>
    cases l'
    case nil => simp at h
    case cons b l' =>
      simp only [List.map_cons, List.cons.injEq] at h
      rw [List.map_cons, List.map_cons, hg a (by simp) b (by simp) h.1]
      rw [hi h.2 fun a ha b hb => hg a (by simp [ha]) b (by simp [hb])]

end Bodies

variable [Sha256] [Ed25519] {c : Config} {faults : Faults c} {net : Network} {e : PeerId × Event}

section Definitions

-- The steps of the network that leave no gaps and execute nothing twice.
structure Orderly (faults : Faults c) (net : Network) (e : PeerId × Event) : Prop where
  possible : Possible faults net e
  regular  : AcceptsRegular (net e.1) e.2
  follows  : FollowsChain (net e.1) e.2
  new      : ExtendsNew (net e.1) e.2

instance : Decidable (Orderly faults net e) :=
  decidable_of_iff (Possible faults net e ∧ AcceptsRegular (net e.1) e.2 ∧
      FollowsChain (net e.1) e.2 ∧ ExtendsNew (net e.1) e.2)
    ⟨fun ⟨h₁, h₂, h₃, h₄⟩ => ⟨h₁, h₂, h₃, h₄⟩, fun ⟨h₁, h₂, h₃, h₄⟩ => ⟨h₁, h₂, h₃, h₄⟩⟩

-- The blocks that a replica may have stored.
def Observed.known (o : Observed) : List Block :=
  createGenesisBlock :: o.history.map Prod.snd

-- Blocks with the same hash have bodies of the same length. The Merkle root does not say how often the
-- last transactions are repeated, and the hash of a genesis block does not cover its body.
def Observed.SameLengths (o o' : Observed) : Prop :=
  ∀ a ∈ o.known, ∀ b ∈ o'.known, a.hash = b.hash → a.transactions.length = b.transactions.length

instance {o o' : Observed} : Decidable (o.SameLengths o') :=
  inferInstanceAs (Decidable (∀ a ∈ o.known, ∀ b ∈ o'.known, _))

def SameLengths (faults : Faults c) (net : Network) : Prop :=
  ∀ i j, faults.Correct i → faults.Correct j → (net i).SameLengths (net j)

instance : Decidable (SameLengths faults net) :=
  decidable_of_iff (∀ i < c.numValidators, ∀ j < c.numValidators, faults.Correct i → faults.Correct j →
      (net i).SameLengths (net j))
    ⟨fun h i j hi hj => h i hi.1 j hj.1 hi hj, fun h i _ j _ => h i j⟩

end Definitions

-- What each replica keeps by its own steps, all of them keep.
theorem Network.invariant {I : PeerId → Observed → Prop} {cond : Network → PeerId × Event → Prop}
    {es : List (PeerId × Event)} (h : Steps (Guarded Network.step cond) (.new c) es net)
    (start : ∀ i, I i (.new c i))
    (step : ∀ {net e}, cond net e → I e.1 (net e.1) → I e.1 ((net e.1).step e.2)) : ∀ i, I i (net i) := by
  refine h.guarded_invariant (I := fun net => ∀ i, I i (net i)) start fun {net e} hc hi j => ?_
  by_cases hj : j = e.1
  case pos => subst hj; simpa [Network.step] using step hc (hi e.1)
  case neg => simpa [Network.step, hj] using hi j

variable [BlockDigest]

-- By the time a block is executed, its parent has been.
theorem GapsInvariant.parent_applied {o : Observed} {e : Event} {r : HotStuffReplica} {node b'' b' b : Block}
    (h : GapsInvariant o) (hc : FollowsChain o e) (hup : o.task.takenUp e = some (r, node))
    (hcommits : Commits r node b'' b' b) {p : BlockHash} (hp : b.parentId = some p) :
    p ∈ o.task.replica.applied.map Block.hash := by
  have hb'' : b''.parentId = some b'.hash := hcommits.linked.isParent
  obtain ⟨y, hy, hya, hyp⟩ := ((hc _ hup).2 b'' (accepts_iff.mpr hcommits.accepts)).resolve_left fun hg => by
    have := Block.hash_eq_genesis_iff.mp (Option.some.inj (hcommits.isParent.symm.trans hg))
    simp [hb''] at this
  have hyb : b''.hash = y.2.hash := Option.some.inj (hcommits.isParent.symm.trans hyp)
  exact (h.followed y hy hya).executed (Task.running_of_takenUp hup) b' b p
    ((Block.hash_inj_parentId hyb).symm.trans hb'') hcommits.linked'.isParent hp

-- What a correct replica has executed is a path from the genesis block on.
structure OrderInvariant (o : Observed) : Prop where
  gaps    : GapsInvariant o
  once    : OnceInvariant o
  lineage : Lineage chain.parent (o.task.replica.applied.map Block.hash)

structure ReplicationInvariant (faults : Faults c) (net : Network) : Prop where
  network  : ∃ log, NetworkInvariant faults log net
  replicas : ∀ i, faults.Correct i → OrderInvariant (net i)

theorem OrderInvariant.step {o : Observed} {e : Event} (h : OrderInvariant o) (hf : FollowsChain o e)
    (hn : ExtendsNew o e)
    (related : ∀ a ∈ (o.step e).task.replica.applied, ∀ b ∈ (o.step e).task.replica.applied,
      chain.Extends a.hash b.hash ∨ chain.Extends b.hash a.hash) : OrderInvariant (o.step e) := by
  have once := h.once.step hn
  refine ⟨h.gaps.step hf, once, ?_⟩
  rcases (o.task.step_stepped e).applied with ha | ⟨r, node, b'', b', b, hup, hcommits, ha⟩
  case inl =>
    have ha : (o.step e).task.replica.applied = o.task.replica.applied := ha
    exact ha ▸ h.lineage
  case inr =>
    have ha : (o.step e).task.replica.applied = o.task.replica.applied ++ [b] := ha
    have nodup := once.once
    rw [AppliedOnce, ha, List.map_append, List.map_singleton, List.nodup_append] at nodup
    rw [ha, List.map_append, List.map_singleton]
    refine h.lineage.snoc_of_mem ?_ ?_ ?_
    · exact fun hb => nodup.2.2 _ hb _ (List.mem_singleton_self _) rfl
    · intro p hp
      exact h.gaps.parent_applied hf hup hcommits ((chain_parent b).symm.trans hp)
    · intro k hk
      obtain ⟨a, hal, rfl⟩ := List.mem_map.mp hk
      exact related a (ha ▸ List.mem_append_left _ hal) b (ha ▸ by simp)

theorem NetworkInvariant.related {log : List (Ballot PeerId BlockHash)} (h : NetworkInvariant faults log net)
    {i j : PeerId} (hi : faults.Correct i) (hj : faults.Correct j) :
    ∀ a ∈ (net i).task.replica.applied, ∀ b ∈ (net j).task.replica.applied,
      chain.Extends a.hash b.hash ∨ chain.Extends b.hash a.hash := by
  intro a ha b hb
  exact h.legal.agreement ((h.replicas i hi).applied a ha) ((h.replicas j hj).applied b hb)

theorem OrderInvariant.new {i : PeerId} : OrderInvariant (.new c i) := by
  have stored : ∀ k b, (Observed.new c i).task.replica.blockstore.lookup k = some b → b.parentId = none := by
    intro k b hb
    rcases Map.lookup_insert_iff.mp hb with ⟨_, rfl⟩ | ⟨_, hb⟩
    · rfl
    · simp at hb
  have nothing : (Observed.new c i).task.replica.applied = [] := rfl
  refine ⟨⟨?_, .new, ?_, by simp [Observed.new]⟩, ⟨?_, by simp [Observed.new], ?_, by simp [nothing]⟩, .nil⟩
  · intro pre b post he
    simp [nothing] at he
  · exact fun k b hb hn => absurd (stored k b hb) hn
  · simp [AppliedOnce, nothing]
  · exact fun k b hb hn => absurd (stored k b hb) hn

theorem ReplicationInvariant.new : ReplicationInvariant faults (.new c) := by
  refine ⟨⟨[], .nil, fun i _ => ⟨rfl, .new, ?_, by simp, .inl rfl, .inl ⟨rfl, rfl⟩, by simp, ?_⟩⟩, fun i _ => .new⟩
  · simp [Network.new, Observed.new, Task.new, HotStuffReplica.new, HotStuffReplica.votes]
  · simp [Network.new, Observed.new, Task.new, HotStuffReplica.new]

variable [CollisionFree HashableMessage]

theorem ReplicationInvariant.step (h : ReplicationInvariant faults net) (ho : Orderly faults net e) :
    ReplicationInvariant faults (net.step e) := by
  have ⟨_, network⟩ := h.network
  have ⟨log, network⟩ := network.step ho.possible ho.regular
  refine ⟨⟨log, network⟩, fun j hj => ?_⟩
  by_cases hji : j = e.1
  case neg => simpa [Network.step, hji] using h.replicas j hj
  case pos =>
    subst hji
    have related := network.related hj hj
    simp only [Network.step, Function.update_self] at related ⊢
    exact (h.replicas e.1 hj).step ho.follows ho.new related

omit [CollisionFree HashableMessage] in
theorem ReplicationInvariant.comparable (h : ReplicationInvariant faults net) {i j : PeerId}
    (hi : faults.Correct i) (hj : faults.Correct j) :
    (net i).task.replica.applied.map Block.hash <+: (net j).task.replica.applied.map Block.hash ∨
    (net j).task.replica.applied.map Block.hash <+: (net i).task.replica.applied.map Block.hash := by
  have ⟨_, network⟩ := h.network
  refine (h.replicas i hi).lineage.comparable (h.replicas j hj).lineage fun k hk k' hk' => ?_
  obtain ⟨a, ha, rfl⟩ := List.mem_map.mp (List.mem_of_getLast? hk)
  obtain ⟨b, hb, rfl⟩ := List.mem_map.mp (List.mem_of_getLast? hk')
  exact network.related hi hj a ha b hb

-- Every block is executed right after its parent, and the first one has none.
def InChainOrder (applied : List Block) : Prop :=
  ∀ pre b post, applied = pre ++ b :: post → b.parentId = pre.getLast?.map Block.hash

omit [Ed25519] [CollisionFree HashableMessage] in
theorem inChainOrder_of_lineage {applied : List Block} (h : Lineage chain.parent (applied.map Block.hash)) :
    InChainOrder applied := by
  intro pre b post he
  have before : Lineage chain.parent (pre.map Block.hash ++ [b.hash]) :=
    h.of_prefix ⟨post.map Block.hash, by simp [he]⟩
  rw [← chain_parent, before.last.2, List.getLast?_map]

theorem executed_comparable {es : List (PeerId × Event)}
    (h : Steps (Guarded Network.step (Orderly faults)) (.new c) es net) :
    ∀ i j, faults.Correct i → faults.Correct j →
      InChainOrder (net i).task.replica.applied ∧
      ((net i).task.replica.applied.map Block.hash <+: (net j).task.replica.applied.map Block.hash ∨
        (net j).task.replica.applied.map Block.hash <+: (net i).task.replica.applied.map Block.hash) := by
  intro i j hi hj
  have invariant := h.guarded_invariant ReplicationInvariant.new fun ho hi => hi.step ho
  exact ⟨inChainOrder_of_lineage (invariant.replicas i hi).lineage, invariant.comparable hi hj⟩

-- A block with a transfer from the faucet, and blocks without transactions on top of it. Replica 5 does
-- not take up the last one, which it should have proposed itself.
def transferRun (c : Config) : List (PeerId × Event) :=
  (Event.propose c.transferBlock 1 :: c.chain [0, 1, 2, 5, 6] c.transferBlock [2, 3, 4, 5]).flatMap fun e =>
    [0, 5, 6].map (·, e)

omit [Sha256] [Ed25519] [BlockDigest] [CollisionFree HashableMessage] in
theorem transferRun_executed :
    ∃ (_ : Sha256) (_ : Ed25519) (c : Config) (faults : Faults c),
      BlockDigest ∧ CollisionFree HashableMessage ∧
      let net := (transferRun c).foldl Network.step (.new c)
      Admits Network.step (Orderly faults) (.new c) (transferRun c) ∧
      (net 5).task.replica.applied.map Block.viewNumber = [0, 1] ∧
      (net 0).task.replica.applied.map Block.viewNumber = [0, 1, 2] ∧
      ((net 5).task.replica.applied.map Block.hash <+: (net 0).task.replica.applied.map Block.hash ∨
        (net 0).task.replica.applied.map Block.hash <+: (net 5).task.replica.applied.map Block.hash) := by
  let c := Config.ofSize 7
  let faults : @Faults .encoding c := @Faults.mk .encoding c 2 {1, 2} rfl rfl (by decide)
  refine ⟨.naming firstTransfer, .encoding, c, faults, Sha256.naming_block _, Sha256.naming_message _,
    by decide +kernel, by decide +kernel, by decide +kernel, ?_⟩
  exact (@executed_comparable (.naming firstTransfer) .encoding c faults _ (Sha256.naming_block _)
    (Sha256.naming_message _) _ (Admits.steps (by decide +kernel)) 5 0 (by decide) (by decide)).2

section Ledgers

variable [CollisionFree UnsignedTransaction] [CollisionFree (Sha256Hash × Sha256Hash)]

omit [CollisionFree HashableMessage] in
theorem SameLengths.body_eq (h : SameLengths faults net) {i j : PeerId} (hi : faults.Correct i)
    (hj : faults.Correct j) {a b : Block} (ha : (net i).Received a) (hb : (net j).Received b)
    (hh : a.hash = b.hash) : a.body = b.body := by
  obtain ⟨x, hx, hxv, hxa⟩ := ha
  obtain ⟨y, hy, hyv, hyb⟩ := hb
  rw [Block.body_of_eraseStatus hxa, Block.body_of_eraseStatus hyb]
  have hxy : x.hash = y.hash := by
    rw [← Block.hash_of_eraseStatus hxa, ← Block.hash_of_eraseStatus hyb, hh]
  have hlen := h i j hi hj x hx y hy hxy
  by_cases hp : x.parentId = none
  case pos =>
    have hgenesis : x.hash = createGenesisBlock.hash := Block.hash_genesis hp
    have hzero : x.transactions.length = 0 := h i i hi hi x hx createGenesisBlock (by simp [Observed.known]) hgenesis
    rw [Block.body, Block.body, List.length_eq_zero_iff.mp hzero, List.length_eq_zero_iff.mp (hlen.symm.trans hzero)]
  case neg =>
    have hroot := Block.merkleRoot_eq_of_hash_eq hp (Block.hash_inj_parentId hxy ▸ hp) hxy
    have htx := Block.transactions_eq_of_hashTransactions_eq hlen
      (hxv.merkleRoot.trans (hroot.trans hyv.merkleRoot.symm))
    have bodies : ∀ b : Block, b.body = (b.transactions.map (·.tx)).map (·.withStatus .pending) := by
      intro b
      rw [List.map_map]
      rfl
    rw [bodies, bodies, htx]

theorem ledgers_agree {es : List (PeerId × Event)}
    (h : Steps (Guarded Network.step fun net e => Orderly faults net e ∧ RefusedUncertified (net e.1) e.2)
      (.new c) es net)
    (hlen : SameLengths faults net) :
    ∀ i j, faults.Correct i → faults.Correct j →
      (net i).task.panicked = false → (net j).task.panicked = false →
      (net i).task.replica.applied.length ≤ (net j).task.replica.applied.length →
      ∃ same rest ts ns, (net j).task.replica.applied = same ++ rest ∧
        same.map Block.hash = (net i).task.replica.applied.map Block.hash ∧
        (net i).task.replica.ledgerState.apply (rest.flatMap Block.transactions) =
          .ok ((net j).task.replica.ledgerState, ts, ns) := by
  intro i j hi hj hpi hpj hle
  have invariant := h.guarded_invariant ReplicationInvariant.new fun ho hi => hi.step ho.1
  have executes := Network.invariant (I := fun i o => o.task.panicked = false → Executes (.new c i) o.task.replica) h
    (fun i _ => .of_same rfl rfl rfl) fun _ hi hp => (hi (Task.running_of_step hp)).trans (.step hp)
  have bodies := Network.invariant (I := fun _ o => BodiesInvariant o) h (fun i => .new) fun hc hi => hi.step hc.2
  have executed : (net i).task.replica.applied.map Block.hash <+: (net j).task.replica.applied.map Block.hash := by
    rcases invariant.comparable hi hj with hp | hp
    · exact hp
    · rw [hp.eq_of_length_le (by simpa using hle)]
  obtain ⟨same, rest, happlied, hsame, _⟩ := List.map_eq_append_iff.mp executed.choose_spec.symm
  obtain ⟨bs, ts₁, ns₁, ha₁, hl₁, _⟩ := executes i hpi
  obtain rfl : (net i).task.replica.applied = bs := ha₁
  obtain ⟨bs, ts₂, ns₂, ha₂, hl₂, _⟩ := executes j hpj
  obtain rfl : (net j).task.replica.applied = bs := ha₂
  rw [happlied, List.flatMap_append, LedgerState.apply_append] at hl₂
  simp only [Checked.bind_ok, Checked.pure_ok, Prod.exists, Prod.mk.injEq] at hl₂
  obtain ⟨l, ts, ns, hl, l', ts', ns', hl', rfl, _, _⟩ := hl₂
  have hl₁ : (HotStuffReplica.new c j).ledgerState.apply
      ((net i).task.replica.applied.flatMap Block.transactions) =
        .ok ((net i).task.replica.ledgerState, ts₁, ns₁) := hl₁
  have same_body : same.map Block.body = (net i).task.replica.applied.map Block.body := by
    refine map_eq_of_map_eq hsame fun a ha b hb hab => ?_
    exact hlen.body_eq hj hi ((bodies j).applied a (happlied ▸ List.mem_append_left _ ha)) ((bodies i).applied b hb) hab
  refine ⟨same, rest, ts', ns', happlied, hsame, ?_⟩
  rw [← LedgerState.apply_bodies same_body hl hl₁]
  exact hl'

omit [Sha256] [Ed25519] [BlockDigest] [CollisionFree HashableMessage] [CollisionFree UnsignedTransaction]
     [CollisionFree (Sha256Hash × Sha256Hash)] in
theorem transferRun_ledgers_agree :
    ∃ (_ : Sha256) (_ : Ed25519) (c : Config) (faults : Faults c),
      BlockDigest ∧ CollisionFree HashableMessage ∧ CollisionFree UnsignedTransaction ∧
      CollisionFree (Sha256Hash × Sha256Hash) ∧
      let net := (transferRun c).foldl Network.step (.new c)
      Admits Network.step (fun net e => Orderly faults net e ∧ RefusedUncertified (net e.1) e.2) (.new c)
        (transferRun c) ∧
      SameLengths faults net ∧
      (net 0).task.replica.ledgerState.expectedNonce 7 = 1 ∧
      ∃ same rest ts ns, (net 0).task.replica.applied = same ++ rest ∧
        same.map Block.hash = (net 5).task.replica.applied.map Block.hash ∧
        (net 5).task.replica.ledgerState.apply (rest.flatMap Block.transactions) =
          .ok ((net 0).task.replica.ledgerState, ts, ns) := by
  let c := Config.ofSize 7
  let faults : @Faults .encoding c := @Faults.mk .encoding c 2 {1, 2} rfl rfl (by decide)
  refine ⟨.naming firstTransfer, .encoding, c, faults, Sha256.naming_block _, Sha256.naming_message _,
    Sha256.naming_transaction _, Sha256.naming_pair _, by decide +kernel, by decide +kernel, by decide +kernel, ?_⟩
  exact @ledgers_agree (.naming firstTransfer) .encoding c faults _ (Sha256.naming_block _)
    (Sha256.naming_message _) (Sha256.naming_transaction _) (Sha256.naming_pair _) _
    (Admits.steps (by decide +kernel)) (by decide +kernel) 5 0 (by decide) (by decide) (by decide +kernel)
    (by decide +kernel) (by decide +kernel)

end Ledgers

end Superliquid

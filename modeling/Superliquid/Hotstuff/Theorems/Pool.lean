import Mathlib.Data.List.ReduceOption
import Superliquid.Hotstuff.Theorems.Mempool
import Superliquid.Hotstuff.Theorems.Routine
import Superliquid.Lib.Steps
import Superliquid.State.Theorems.Nonces

namespace Superliquid

-- A block moves the expected nonces on, and every nonce on the way is reported.
theorem LedgerState.applyBlock_reported {l l' : LedgerState} {b b' : Block}
    {ns : List (Option (PublicKeyHash × Nat))} (h : l.applyBlock b = .ok (l', b', ns)) :
    (∀ k, l.expectedNonce k ≤ l'.expectedNonce k) ∧
    ∀ k n, (k, n) ∈ ns.reduceOption ↔ l.expectedNonce k < n ∧ n ≤ l'.expectedNonce k := by
  simp only [applyBlock, Checked.bind_ok, Checked.pure_ok, Prod.exists, Prod.mk.injEq] at h
  obtain ⟨_, ts, _, happly, hl, _, hns⟩ := h
  subst hl hns
  obtain ⟨hreport, hk⟩ := apply_numbered happly
  refine ⟨fun k => ?_, fun k n => ?_⟩
  · rw [(hk k).2]
    omega
  · obtain ⟨hnonces, hcount⟩ := hk k
    have member : (k, n) ∈ (ts.map report).reduceOption ↔
        ∃ m ∈ (executedBy k ts).map (·.getNonce), m + 1 = n := by
      simp only [List.reduceOption_mem_iff, List.mem_map, executedBy, List.mem_filter]
      constructor
      · rintro ⟨t, ht, hr⟩
        unfold report at hr
        split at hr
        case isTrue hs => cases hr; exact ⟨_, ⟨t, ⟨ht, by simpa using hs⟩, rfl⟩, rfl⟩
        case isFalse   => contradiction
      · rintro ⟨_, ⟨t, ⟨ht, hs⟩, rfl⟩, rfl⟩
        obtain ⟨hk, hs⟩ : t.getFromAccount = k ∧ t.getStatus = .executed := by simpa using hs
        exact ⟨t, ht, by simp [report, hs, hk]⟩
    rw [hreport, member, hnonces, hcount]
    simp only [List.mem_range'_1]
    constructor
    · rintro ⟨m, hm, rfl⟩
      omega
    · intro hn
      exact ⟨n - 1, by omega, by omega⟩

-- Nonces that a block moves on from are those of its transactions.
theorem LedgerState.applyBlock_executes {l l' : LedgerState} {b b' : Block} {ns : List (Option (PublicKeyHash × Nat))}
    {key : PriorityIndex} (h : l.applyBlock b = .ok (l', b', ns)) (hle : l.expectedNonce key.1 ≤ key.2)
    (hlt : key.2 < l'.expectedNonce key.1) : ∃ t ∈ b.transactions, PriorityMempool.keyOf t = key := by
  simp only [applyBlock, Checked.bind_ok, Checked.pure_ok, Prod.exists, Prod.mk.injEq] at h
  obtain ⟨_, ts, _, happly, rfl, _, _⟩ := h
  have ⟨_, hk⟩ := apply_numbered happly
  have ⟨hnonces, hcount⟩ := hk key.1
  have : key.2 ∈ (executedBy key.1 ts).map (·.getNonce) := by
    rw [hnonces, List.mem_range'_1]
    omega
  have ⟨t, ht, hnonce⟩ := List.mem_map.mp this
  have ⟨ht, hfrom⟩ := List.mem_filter.mp ht
  have mem : key ∈ ts.map fun t => (t.getFromAccount, t.getNonce) :=
    List.mem_map.mpr ⟨t, ht, Prod.ext (of_decide_eq_true hfrom).1 hnonce⟩
  rw [apply_accounts happly] at mem
  exact List.mem_map.mp mem

-- The part of a replica that handles transactions.
structure Pool where
  ledgerState : LedgerState
  mempool     : PriorityMempool

inductive PoolOp
  | handleTransaction (txn : SignedTransaction)
  | popNextN (n : Nat)
  | commit (block : Block)

namespace Pool

open PriorityMempool

def new (faucet : PublicKeyHash) : Pool where
  ledgerState := .new faucet
  mempool := .new

def step (p : Pool) : PoolOp → Checked Pool
  | .handleTransaction txn =>
    let accountInfo := p.ledgerState.getAccountInfoOrDefault txn.getFromAccount
    return { p with mempool := p.mempool.insert txn accountInfo.expectedNonce }
  | .popNextN n => do
    let (mempool, _) ← p.mempool.popNextN n
    return { p with mempool }
  | .commit block => do
    let (ledgerState, _, accountNonces) ← p.ledgerState.applyBlock block
    return { ledgerState, mempool := p.mempool.updateAfterExecution accountNonces }

-- The nonce that the ledger expects next from an account.
def expected (p : Pool) (k : PublicKeyHash) : Nat :=
  p.ledgerState.expectedNonce k

-- All that an operation can do to the mempool and to the nonces.
inductive Stepped (p p' : Pool) : PoolOp → Prop
  | inserted :
    (p'.ledgerState = p.ledgerState) → (p'.mempool = p.mempool.insert txn (p.expected txn.getFromAccount)) →
    Stepped p p' (.handleTransaction txn)
  | popped   :
    (p'.ledgerState = p.ledgerState) → (Pops popped p.mempool p'.mempool ts) → Stepped p p' (.popNextN n)
  | executed :
    (p.ledgerState.applyBlock block = .ok (p'.ledgerState, executed, nonces)) →
    (p'.mempool = p.mempool.updateAfterExecution nonces) → Stepped p p' (.commit block)

theorem step_stepped {p p' : Pool} {op : PoolOp} (h : p.step op = .ok p') : Stepped p p' op := by
  cases op
  case handleTransaction txn => cases h; exact .inserted rfl rfl
  case popNextN n =>
    simp only [step, Checked.bind_ok, Checked.pure_ok, Prod.exists] at h
    have ⟨mempool, ts, hpop, hp⟩ := h
    subst hp
    have ⟨_, pops⟩ := popNextN_pops hpop
    exact .popped rfl pops
  case commit block =>
    simp only [step, Checked.bind_ok, Checked.pure_ok, Prod.exists] at h
    have ⟨_, _, _, happly, hp⟩ := h
    subst hp
    exact .executed happly rfl

-- The buckets agree with the ledger.
structure Indexed (p : Pool) : Prop where
  -- Queues are by account and nonce.
  own      : ∀ key t, p.mempool.queued key = some t → keyOf t = key
  sound    : ∀ key ∈ p.mempool.keys, key.2 ≤ p.expected key.1
  complete : ∀ key t, p.mempool.queued key = some t → t.getNonce = p.expected t.getFromAccount →
    key ∈ p.mempool.keys

variable {p p' : Pool} {op : PoolOp}

theorem Indexed.step (h : Indexed p) (hs : p.step op = .ok p') : Indexed p' := by
  cases step_stepped hs
  case inserted txn hl hm =>
    have same : ∀ k, p'.expected k = p.expected k := fun k => by rw [expected, hl, expected]
    refine ⟨fun key t ht => ?_, fun key hk => ?_, fun key t ht hn => ?_⟩
    · rw [hm, insert_queued] at ht
      split at ht
      case isTrue hc => cases ht; exact hc.2.symm
      case isFalse   => exact h.own key t ht
    · rw [hm, insert_keys] at hk
      rw [same]
      rcases hk with hk | ⟨hn, rfl⟩
      · exact h.sound key hk
      · exact hn.le
    · rw [hm, insert_queued] at ht
      rw [hm, insert_keys]
      rw [same] at hn
      split at ht
      case isTrue hc => cases ht; exact .inr ⟨hn, hc.2⟩
      case isFalse   => exact .inl (h.complete key t ht hn)
  case popped popped ts _ hl pops =>
    have same : ∀ k, p'.expected k = p.expected k := fun k => by rw [expected, hl, expected]
    have still : ∀ {key t}, p'.mempool.queued key = some t → key ∉ popped ∧ p.mempool.queued key = some t := by
      intro key t ht
      rw [pops.queued] at ht
      split at ht
      case isTrue     => contradiction
      case isFalse hn => exact ⟨hn, ht⟩
    refine ⟨fun key t ht => h.own key t (still ht).2, fun key hk => ?_, fun key t ht hn => ?_⟩
    · rw [same]
      exact h.sound key ((pops.keys key).mpr (.inr hk))
    · have ⟨hpop, ht⟩ := still ht
      rw [same] at hn
      exact ((pops.keys key).mp (h.complete key t ht hn)).resolve_left hpop
  case executed nonces happly hm =>
    have ⟨hmono, hreported⟩ := LedgerState.applyBlock_reported happly
    have hqueued : ∀ key, p'.mempool.queued key = p.mempool.queued key := fun key => by
      rw [hm, updateAfterExecution_queued]
    refine ⟨fun key t ht => h.own key t (hqueued key ▸ ht), fun key hk => ?_, fun key t ht hn => ?_⟩
    · rw [hm, (updateAfterExecution_spec nonces).2] at hk
      rcases hk with hk | ⟨hk, _⟩
      · exact (h.sound key hk).trans (hmono key.1)
      · exact ((hreported key.1 key.2).mp hk).2
    · rw [hqueued] at ht
      have hkey := h.own key t ht
      subst hkey
      rw [hm, (updateAfterExecution_spec nonces).2]
      have hle := hmono t.getFromAccount
      by_cases hold : t.getNonce = p.expected t.getFromAccount
      case pos => exact .inl (h.complete _ t ht hold)
      case neg =>
        refine .inr ⟨(hreported _ _).mpr ⟨?_, hn.le⟩, by simp [ht]⟩
        exact lt_of_le_of_ne (hle.trans hn.ge) (Ne.symm hold)

theorem Indexed.new {faucet : PublicKeyHash} : Indexed (new faucet) := by
  refine ⟨?_, ?_, ?_⟩ <;> simp [Pool.new, PriorityMempool.new, queued, keys]

-- What is popped does not come too early.
theorem Indexed.selected {n : Nat} {m : PriorityMempool} {ts : List SignedTransaction} (h : Indexed p)
    (hp : p.mempool.popNextN n = .ok (m, ts)) : ∀ t ∈ ts, t.getNonce ≤ p.expected t.getFromAccount := by
  intro t ht
  have ⟨popped, pops⟩ := popNextN_pops hp
  have ⟨key, hk, hq⟩ := pops.results t ht
  have hkey := h.own key t hq
  subst hkey
  exact h.sound _ ((pops.keys _).mpr (.inl hk))

theorem indexed_of_run {faucet : PublicKeyHash} {ops : List PoolOp}
    (h : ops.foldlM Pool.step (.new faucet) = .ok p) :
    p.Indexed ∧ ∀ n m ts, p.mempool.popNextN n = .ok (m, ts) →
      ∀ t ∈ ts, t.getNonce ≤ p.expected t.getFromAccount := by
  have indexed : Indexed p := foldlM_invariant h .new fun hs hi => hi.step hs
  exact ⟨indexed, fun _ _ _ hp => indexed.selected hp⟩

def blockOf (transactions : List SignedTransaction) : Block :=
  { createGenesisBlock with parentId := some QuorumCertificate.genesisBlockHash, transactions }

-- The second transfer is there before the first is executed.
def outOfOrder : List PoolOp := [
  .handleTransaction (.transfer 1 7 0 500 1), .handleTransaction (.transfer 1 7 0 500 0), .popNextN 16,
  .commit (blockOf [.transfer 1 7 0 500 0])
]

theorem outOfOrder_indexed :
    ∃ p, outOfOrder.foldlM Pool.step (.new 1) = .ok p ∧ p.expected 1 = 1 ∧ p.mempool.keys = [(1, 1)] ∧ p.Indexed :=
  ⟨_, rfl, rfl, rfl, (indexed_of_run (rfl : outOfOrder.foldlM Pool.step (.new 1) = .ok _)).1⟩

-- Nothing that is executed already is left in the mempool.
structure Clean (p : Pool) : Prop where
  queues  : ∀ key t, p.mempool.queued key = some t → p.expected key.1 ≤ key.2
  buckets : ∀ key ∈ p.mempool.keys, p.expected key.1 ≤ key.2

-- None of the transactions in a block that is committed is still in the mempool.
def CommitsAbsent (p : Pool) : PoolOp → Prop
  | .commit block =>
    ∀ t ∈ block.transactions, p.mempool.queued (keyOf t) = none ∧ keyOf t ∉ p.mempool.keys
  | _ => True

instance : Decidable (CommitsAbsent p op) :=
  match op with
  | .handleTransaction _ => inferInstanceAs (Decidable True)
  | .popNextN _          => inferInstanceAs (Decidable True)
  | .commit block        => inferInstanceAs (Decidable (∀ t ∈ block.transactions, _))

theorem Clean.step (h : Clean p) (hc : CommitsAbsent p op) (hs : p.step op = .ok p') : Clean p' := by
  cases step_stepped hs
  case inserted txn hl hm =>
    have same : ∀ k, p'.expected k = p.expected k := fun k => by rw [expected, hl, expected]
    refine ⟨fun key t ht => ?_, fun key hk => ?_⟩ <;> rw [same]
    · rw [hm, insert_queued] at ht
      split at ht
      case isTrue hc => rw [hc.2]; exact hc.1
      case isFalse   => exact h.queues key t ht
    · rw [hm, insert_keys] at hk
      rcases hk with hk | ⟨hn, rfl⟩
      · exact h.buckets key hk
      · exact hn.ge
  case popped popped ts _ hl pops =>
    have same : ∀ k, p'.expected k = p.expected k := fun k => by rw [expected, hl, expected]
    refine ⟨fun key t ht => ?_, fun key hk => ?_⟩ <;> rw [same]
    · rw [pops.queued] at ht
      split at ht
      case isTrue  => contradiction
      case isFalse => exact h.queues key t ht
    · exact h.buckets key ((pops.keys key).mpr (.inr hk))
  case executed nonces happly hm =>
    -- A nonce that is not expected any more, but was before, is that of a transaction in the block.
    have absent : ∀ key : PriorityIndex, p.expected key.1 ≤ key.2 → ¬p'.expected key.1 ≤ key.2 →
        p.mempool.queued key = none ∧ key ∉ p.mempool.keys := by
      intro key hle hn
      have ⟨t, ht, hkey⟩ := LedgerState.applyBlock_executes happly hle (Nat.lt_of_not_le hn)
      exact hkey ▸ hc t ht
    have queues : ∀ key t, p'.mempool.queued key = some t → p'.expected key.1 ≤ key.2 := by
      intro key t ht
      rw [hm, updateAfterExecution_queued] at ht
      by_contra hn
      have := (absent key (h.queues key t ht) hn).1
      simp [ht] at this
    refine ⟨queues, fun key hk => ?_⟩
    rw [hm, (updateAfterExecution_spec nonces).2] at hk
    rcases hk with hk | ⟨_, hq⟩
    · by_contra hn
      exact (absent key (h.buckets key hk) hn).2 hk
    · have ⟨t, ht⟩ := Option.isSome_iff_exists.mp hq
      exact queues key t (by rw [hm, updateAfterExecution_queued, ht])

theorem clean_of_commitsAbsent {faucet : PublicKeyHash} {ops : List PoolOp}
    (h : Steps (Runs Pool.step CommitsAbsent) (.new faucet) ops p) : Clean p := by
  have start : Clean (new faucet) := by
    refine ⟨?_, ?_⟩ <;> simp [Pool.new, PriorityMempool.new, queued, keys]
  exact h.invariant start fun hr hi => hi.step hr.1 hr.2

theorem outOfOrder_clean : ∃ p, Steps (Runs Pool.step CommitsAbsent) (.new 1) outOfOrder p ∧
    p.expected 1 = 1 ∧ Clean p := by
  have run : Steps (Runs Pool.step CommitsAbsent) (.new 1) outOfOrder _ :=
    .of_foldlM (rfl : outOfOrder.foldlM Pool.step (.new 1) = .ok _) (by decide +kernel)
  exact ⟨_, run, rfl, clean_of_commitsAbsent run⟩

-- A transfer is executed through the block of another leader.
def executedElsewhere : List PoolOp :=
  [.handleTransaction (.transfer 1 7 0 500 0), .commit (blockOf [.transfer 1 7 0 500 0])]

theorem executedElsewhere_not_clean :
    ∃ p, executedElsewhere.foldlM Pool.step (.new 1) = .ok p ∧ ¬Clean p := by
  refine ⟨_, rfl, fun h => ?_⟩
  have := h.buckets (1, 0) (by decide +kernel)
  revert this
  decide +kernel

end Pool

open ReplicaM Handler

def HotStuffReplica.pool (r : HotStuffReplica) : Pool where
  ledgerState := r.ledgerState
  mempool := r.mempool

-- What a replica does to its ledger and its mempool is a run of the operations above.
def PoolSteps (r r' : HotStuffReplica) : Prop :=
  ∃ ops : List PoolOp, ops.foldlM Pool.step r.pool = .ok r'.pool

namespace PoolSteps

variable {r r₁ r₂ r₃ : HotStuffReplica}

theorem of_pool (h : r₂.pool = r₁.pool) : PoolSteps r₁ r₂ :=
  ⟨[], by rw [h]; rfl⟩

theorem single (op : PoolOp) (h : r₁.pool.step op = .ok r₂.pool) : PoolSteps r₁ r₂ :=
  ⟨[op], by rw [List.foldlM_cons, h]; rfl⟩

theorem trans (h₁ : PoolSteps r₁ r₂) (h₂ : PoolSteps r₂ r₃) : PoolSteps r₁ r₃ := by
  have ⟨ops₁, h₁⟩ := h₁
  have ⟨ops₂, h₂⟩ := h₂
  refine ⟨ops₁ ++ ops₂, ?_⟩
  rw [List.foldlM_append, h₁]
  exact h₂

theorem routine : Routine False PoolSteps where
  refl _          := of_pool rfl
  trans _ _ _     := trans
  moved _         := of_pool rfl
  sent _          := of_pool rfl
  pruned _        := of_pool rfl
  noted           := of_pool rfl
  locked          := of_pool rfl
  voted           := of_pool rfl
  selected {_ n _ _} h := single (.popNextN n) (by
    simp only [Pool.step, HotStuffReplica.pool, h]
    rfl)
  committed {_ block _ _ _ _ _} h := single (.commit block) (by
    simp only [Pool.step, HotStuffReplica.pool, h]
    rfl)
  interrupted _   := of_pool rfl

end PoolSteps

variable [Sha256] [Ed25519]

theorem Task.step_pool (t : Task) (e : Event) : PoolSteps t.replica (t.step e).replica := by
  rcases PoolSteps.routine.step (.of_pool rfl) (.of_pool rfl) t e False.elim with h | ⟨txn, _, h⟩
  · exact h
  · exact .single (.handleTransaction txn) (by rw [h]; rfl)

theorem Task.run_indexed (c : Config) (nodeId : PeerId) (es : List Event) :
    (es.foldl Task.step (.new c nodeId)).replica.pool.Indexed := by
  have start : (Task.new c nodeId).replica.pool.Indexed := Pool.Indexed.new
  refine List.foldlRecOn (motive := fun t => t.replica.pool.Indexed) es Task.step start fun t h e _ => ?_
  have ⟨_, hs⟩ := t.step_pool e
  exact foldlM_invariant hs h fun hs hi => hi.step hs

end Superliquid

import Superliquid.Hotstuff.Theorems.Digests
import Superliquid.Hotstuff.Theorems.Routine
import Superliquid.Lib.Map
import Superliquid.State.Theorems.Nonces

namespace Superliquid

-- What the execution of a transaction looks at: not its status, its signature or the hash it carries.
def SignedTransaction.body (t : SignedTransaction) : UnsignedTransaction :=
  t.tx.withStatus .pending

def Block.body (b : Block) : List UnsignedTransaction :=
  b.transactions.map SignedTransaction.body

namespace LedgerState

variable {l : LedgerState}

theorem apply_ok_append {l₁ l₂ : LedgerState} {ts₁ ts₂ ts₁' ts₂' : List SignedTransaction}
    {ns₁ ns₂ : List (Option (PublicKeyHash × Nat))} (h₁ : l.apply ts₁ = .ok (l₁, ts₁', ns₁))
    (h₂ : l₁.apply ts₂ = .ok (l₂, ts₂', ns₂)) : l.apply (ts₁ ++ ts₂) = .ok (l₂, ts₁' ++ ts₂', ns₁ ++ ns₂) := by
  simp only [apply_append, h₁, Checked.ok_bind, h₂]
  rfl

theorem handleCancelOrderTransaction_withStatus (t : CancelOrderTransaction) (status : TransactionStatus) :
    (l.handleCancelOrderTransaction { t with status }).map (·.1) = (l.handleCancelOrderTransaction t).map (·.1) := by
  unfold handleCancelOrderTransaction
  simp only
  split
  case isTrue => rfl
  split
  case isTrue => rfl
  split
  case h_1 => rfl
  split
  case h_1 => rfl
  simp only [bind, Except.bind]
  split
  case h_1 => rfl
  split
  case h_1 => rfl
  case h_2 => rfl
  case h_3 => rfl

-- The ledger that a transaction leads to.
def after (l : LedgerState) : UnsignedTransaction → Checked LedgerState
  | .transfer transaction    => (l.handleTransferTransaction transaction).map (·.1)
  | .order transaction       => (l.handleOrderTransaction transaction).map (·.1)
  | .cancelOrder transaction => (l.handleCancelOrderTransaction transaction).map (·.1)

theorem after_withStatus (tx : UnsignedTransaction) (status : TransactionStatus) :
    l.after (tx.withStatus status) = l.after tx := by
  cases tx
  case transfer    => rfl
  case order       => rfl
  case cancelOrder => exact handleCancelOrderTransaction_withStatus ..

theorem applyTransaction_after (t : SignedTransaction) : (l.applyTransaction t).map (·.1) = l.after t.body := by
  rw [SignedTransaction.body, after_withStatus]
  obtain ⟨tx, _, _⟩ := t
  cases tx
  case transfer transaction =>
    simp only [applyTransaction, after]
    cases l.handleTransferTransaction transaction <;> rfl
  case order transaction =>
    simp only [applyTransaction, after]
    cases l.handleOrderTransaction transaction <;> rfl
  case cancelOrder transaction =>
    simp only [applyTransaction, after]
    cases l.handleCancelOrderTransaction transaction <;> rfl

theorem apply_after (ts : List SignedTransaction) :
    (l.apply ts).map (·.1) = (ts.map SignedTransaction.body).foldlM after l := by
  induction ts generalizing l
  case nil => rfl
  case cons t ts hi =>
    rw [apply, List.map_cons, List.foldlM_cons, ← applyTransaction_after]
    rcases l.applyTransaction t with _ | ⟨l', _, _⟩
    · rfl
    · simp only [Except.map, Checked.ok_bind, ← hi]
      rcases l'.apply ts with _ | ⟨_, _, _⟩
      · rfl
      · rfl

end LedgerState

-- Transactions by their hashes. Of several with the same hash the last one counts.
def indexed (m : Map Sha256Hash SignedTransaction) (ts : List SignedTransaction) : Map Sha256Hash SignedTransaction :=
  ts.foldl (fun m t => m.insert t.hash t) m

theorem indexed_append {m : Map Sha256Hash SignedTransaction} {ts ts' : List SignedTransaction} :
    indexed m (ts ++ ts') = indexed (indexed m ts) ts' :=
  List.foldl_append

theorem indexed_lookup (m : Map Sha256Hash SignedTransaction) (ts : List SignedTransaction) (h : Sha256Hash) :
    (indexed m ts).lookup h = (ts.reverse.find? (·.hash = h)).or (m.lookup h) := by
  induction ts using List.reverseRecOn
  case nil => rfl
  case append_singleton ts t hi =>
    rw [indexed_append, List.reverse_concat, List.find?_cons]
    show ((indexed m ts).insert t.hash t).lookup h = _
    by_cases ht : t.hash = h
    case pos =>
      subst ht
      simp
    case neg =>
      rw [AList.lookup_insert_ne (Ne.symm ht), hi]
      simp [ht]

open HotStuffReplica ReplicaM Handler

-- The ledger and the index of transactions change only by the execution of blocks, all of which are noted.
def Executes (r r' : HotStuffReplica) : Prop :=
  ∃ bs ts ns, r'.applied = r.applied ++ bs ∧
    r.ledgerState.apply (bs.flatMap Block.transactions) = .ok (r'.ledgerState, ts, ns) ∧
    r'.committedTransactions = indexed r.committedTransactions ts

namespace Executes

variable {r r₁ r₂ r₃ : HotStuffReplica}

theorem of_same (ha : r₂.applied = r₁.applied) (hl : r₂.ledgerState = r₁.ledgerState)
    (hc : r₂.committedTransactions = r₁.committedTransactions) : Executes r₁ r₂ :=
  ⟨[], [], [], by simp [ha], by rw [hl]; rfl, hc⟩

theorem trans (h₁ : Executes r₁ r₂) (h₂ : Executes r₂ r₃) : Executes r₁ r₃ := by
  obtain ⟨bs₁, ts₁, ns₁, ha₁, hl₁, hc₁⟩ := h₁
  obtain ⟨bs₂, ts₂, ns₂, ha₂, hl₂, hc₂⟩ := h₂
  refine ⟨bs₁ ++ bs₂, ts₁ ++ ts₂, ns₁ ++ ns₂, ?_, ?_, ?_⟩
  · rw [ha₂, ha₁, List.append_assoc]
  · rw [List.flatMap_append]
    exact LedgerState.apply_ok_append hl₁ hl₂
  · rw [hc₂, hc₁, indexed_append]

instance : IsPreorder HotStuffReplica Executes where
  refl _ := of_same rfl rfl rfl
  trans _ _ _ := trans

theorem routine : Routine True Executes where
  moved _         := of_same rfl rfl rfl
  sent _          := of_same rfl rfl rfl
  pruned _        := of_same rfl rfl rfl
  noted           := of_same rfl rfl rfl
  locked          := of_same rfl rfl rfl
  voted           := of_same rfl rfl rfl
  selected _      := of_same rfl rfl rfl
  committed {_ block _ _ _ _ _} h := by
    simp only [LedgerState.applyBlock, Checked.bind_ok, Checked.pure_ok, Prod.exists, Prod.mk.injEq] at h
    obtain ⟨l, ts, ns, hl, rfl, rfl, rfl⟩ := h
    refine ⟨[block], ts, ns, rfl, ?_, rfl⟩
    rw [List.flatMap_singleton]
    exact hl
  interrupted h   := absurd trivial h

variable [Sha256] [Ed25519]

theorem step {t : Task} {e : Event} (h : (t.step e).panicked = false) : Executes t.replica (t.step e).replica := by
  rcases routine.step (of_same rfl rfl rfl) (of_same rfl rfl rfl) t e (fun _ => h) with h | ⟨txn, _, h⟩
  · exact h
  · rw [h]
    exact of_same rfl rfl rfl

end Executes

variable [Sha256] [Ed25519]

-- As long as a replica has not panicked, its ledger is the outcome of the blocks that it has executed.
theorem Task.run_executes {c : Config} {nodeId : PeerId} {es : List Event} {t : Task}
    (ht : t = es.foldl Task.step (.new c nodeId)) (h : t.panicked = false) :
    Executes (.new c nodeId) t.replica := by
  subst ht
  induction es using List.reverseRecOn
  case nil => exact .of_same rfl rfl rfl
  case append_singleton es e hi =>
    rw [List.foldl_append] at h ⊢
    exact (hi (Task.running_of_step h)).trans (.step h)

theorem replica_state_replayed (c : Config) (nodeId : PeerId) (es : List Event) :
    let t := es.foldl Task.step (.new c nodeId)
    t.panicked = false →
    ∃ ts ns,
      (LedgerState.new c.faucet).apply (t.replica.applied.flatMap Block.transactions) =
        .ok (t.replica.ledgerState, ts, ns) ∧
      ∀ h, t.replica.committedTransactions.lookup h = ts.reverse.find? (·.hash = h) := by
  intro t h
  obtain ⟨bs, ts, ns, ha, hl, hc⟩ := Task.run_executes rfl h
  obtain rfl : t.replica.applied = bs := ha
  refine ⟨ts, ns, hl, fun h => ?_⟩
  rw [hc, indexed_lookup]
  exact Option.or_none

omit [Sha256] [Ed25519] in
theorem transfer_replayed :
    ∃ (_ : Sha256) (_ : Ed25519) (c : Config),
      let transfer := firstTransfer.sign (c.secretKey 7)
      let es := .propose c.transferBlock 1 :: c.chain [0, 1, 2, 5, 6] c.transferBlock [2, 3, 4, 5]
      let t := es.foldl Task.step (.new c 0)
      t.panicked = false ∧ t.replica.applied.map Block.viewNumber = [0, 1, 2] ∧
      t.replica.applied.flatMap Block.transactions = [transfer] ∧
      t.replica.ledgerState.expectedNonce 7 = 1 ∧
      (t.replica.committedTransactions.lookup transfer.hash).isSome ∧
      ∃ ts ns,
        (LedgerState.new c.faucet).apply (t.replica.applied.flatMap Block.transactions) =
          .ok (t.replica.ledgerState, ts, ns) ∧
        ∀ h, t.replica.committedTransactions.lookup h = ts.reverse.find? (·.hash = h) := by
  refine ⟨.naming firstTransfer, .encoding, .ofSize 7, by decide +kernel, by decide +kernel, by decide +kernel,
    by decide +kernel, by decide +kernel, ?_⟩
  exact @replica_state_replayed (.naming firstTransfer) .encoding _ _ _ (by decide +kernel)

end Superliquid

import Superliquid.Hotstuff.Theorems.Bodies
import Superliquid.Hotstuff.Theorems.Mempool
import Superliquid.Hotstuff.Theorems.Propose
import Superliquid.Node.Handler

namespace Superliquid

open HotStuffReplica ReplicaM Handler PriorityMempool

-- Transactions only leave the queues.
def Drains (r r' : HotStuffReplica) : Prop :=
  ∀ key t, r'.mempool.queued key = some t → r.mempool.queued key = some t

theorem Drains.routine : Routine False Drains where
  refl _ _ _ h               := h
  trans _ _ _ h₁ h₂ key t h  := h₁ key t (h₂ key t h)
  moved _ _ _ h              := h
  sent _ _ _ h               := h
  pruned _ _ _ h             := h
  noted _ _ h                := h
  locked _ _ h               := h
  voted _ _ h                := h
  selected hp key t h        := by
    have ⟨_, pops⟩ := popNextN_pops hp
    rw [pops.queued] at h
    split at h
    case isTrue  => contradiction
    case isFalse => exact h
  committed _ key t h        := by rwa [updateAfterExecution_queued] at h
  interrupted _ _ _ h        := h

-- For blocks with transactions, whose Merkle roots are too large for the powers in `Sha256.encoding`.
@[reducible]
def Sha256.pairing : Sha256 :=
  { Sha256.encoding with digestBlock := fun b => Nat.pair b.viewNumber (Nat.pair b.merkleRoot b.parentId) }

variable [Sha256] [Ed25519]

-- All transactions in the mempool pass the check on the sender.
def VerifiedPool (r : HotStuffReplica) : Prop :=
  ∀ key t, r.mempool.queued key = some t → t.verifySender = .ok true

theorem VerifiedPool.drains {r r' : HotStuffReplica} (h : VerifiedPool r) (hd : Drains r r') : VerifiedPool r' :=
  fun key t ht => h key t (hd key t ht)

theorem validateBlockTransactions_ok {node : Block} (h : ∀ t ∈ node.transactions, t.verifySender = .ok true) :
    validateBlockTransactions node = .ok true := by
  unfold validateBlockTransactions
  generalize node.transactions = ts at h
  induction ts
  case nil => rfl
  case cons t ts hi =>
    have ⟨ht, hts⟩ := List.forall_mem_cons.mp h
    rw [validateBlockTransactions.go, ht]
    exact hi hts

-- A leader that finds only verified transactions makes a block that is accepted everywhere.
theorem MakesLeaf.validated {r s : HotStuffReplica} {parent node : Block} (h : MakesLeaf r s parent node)
    (hv : VerifiedPool r) : node.Validated := by
  have ⟨_, transactions, hpop, hnode⟩ := h.leaf
  subst hnode
  refine ⟨validateBlockTransactions_ok fun t ht => ?_, rfl⟩
  have ⟨_, pops⟩ := popNextN_pops hpop
  have ⟨key, _, hq⟩ := pops.results t ht
  refine hv key t ?_
  cases h.caughtUp <;> exact hq

section Replica

variable {t : Task} {e : Event}

-- What is added to the mempool is what is handed to the replica.
theorem VerifiedPool.step (h : VerifiedPool t.replica)
    (hc : ∀ txn, e = .transaction txn → txn.verifySender = .ok true) : VerifiedPool (t.step e).replica := by
  rcases Drains.routine.step (fun _ _ h => h) (fun _ _ h => h) t e False.elim with hd | ⟨txn, he, ht⟩
  · exact h.drains hd
  · rw [ht]
    intro key t' hq
    simp only [handleTransaction, modify_apply, insert_queued] at hq
    split at hq
    case isTrue  => cases hq; exact hc txn he
    case isFalse => exact h key t' hq

theorem validated_step (hv : VerifiedPool t.replica) (h : ∀ p ∈ t.replica.proposals, p.2.Validated) :
    ∀ p ∈ (t.step e).replica.proposals, p.2.Validated := by
  cases t.step_proposes e
  case none steady => rwa [steady.proposals]
  case one msg _ _ _ _ _ _ hr makes hp _ =>
    have drained := (Drains.routine.receive (fun _ _ h => h) msg).apply t.replica
    rw [hr] at drained
    rw [hp]
    refine List.forall_mem_append.mpr ⟨h, ?_⟩
    simpa using makes.validated (hv.drains drained)

end Replica

namespace Server

-- A transaction that is new to the node is not turned down by `verify_sender`.
def SubmitsVerified (s : Server) : ServerEvent → Prop
  | .peer (.submitTransaction txn) | .client (.submitTransaction txn) =>
    txn.verifySender ≠ .ok false ∨ txn.tx.hash ∈ s.node.seenTransactions
  | _ => True

instance {s : Server} {e : ServerEvent} : Decidable (s.SubmitsVerified e) :=
  match e with
  | .peer (.submitTransaction _) | .client (.submitTransaction _) => inferInstanceAs (Decidable (_ ∨ _))
  | .peer (.hotStuff _) | .peer .other | .client (.hotStuff _) | .client .other => inferInstanceAs (Decidable True)
  | .receive _ | .timeout => inferInstanceAs (Decidable True)

-- Every block that the replica proposes passes the checks of any replica.
def ProposesValidated (s : Server) : Prop :=
  ∀ p ∈ s.task.replica.proposals, p.2.Validated

instance {s : Server} : Decidable s.ProposesValidated :=
  inferInstanceAs (Decidable (∀ p ∈ s.task.replica.proposals, _))

structure AdmissionInvariant (s : Server) : Prop where
  channel   : ∀ txn, .transaction txn ∈ s.node.toReplica → txn.verifySender = .ok true
  pool      : VerifiedPool s.task.replica
  proposals : s.ProposesValidated

theorem handleTransaction_toReplica {node : Node} {txn : SignedTransaction}
    (hc : txn.verifySender ≠ .ok false ∨ txn.tx.hash ∈ node.seenTransactions)
    (h : ∀ txn, .transaction txn ∈ node.toReplica → txn.verifySender = .ok true) :
    ∀ txn', .transaction txn' ∈ (NodeM.handleTransaction txn node).2.toReplica →
      txn'.verifySender = .ok true := by
  unfold NodeM.handleTransaction
  cases hv : txn.verifySender
  case error e => exact h
  case ok valid =>
    rw [bind_apply_ok (by rfl), read_bind]
    simp only [id_eq]
    split
    case isFalse => exact h
    case isTrue hnew =>
      intro txn' hmem
      rcases List.mem_append.mp hmem with hmem | hmem
      · exact h txn' hmem
      · cases List.mem_singleton.mp hmem
        have hvalid : valid = true := by simpa [hv] using hc.resolve_right hnew
        rw [hv, hvalid]

variable {s : Server} {e : ServerEvent}

theorem AdmissionInvariant.step (h : AdmissionInvariant s) (hc : s.SubmitsVerified e) :
    AdmissionInvariant (s.step e) := by
  -- The replica reads what is in the channel.
  have replica : ∀ {toReplica e'}, (∀ msg ∈ toReplica, msg ∈ s.node.toReplica) →
      (∀ txn, e' = .transaction txn → txn.verifySender = .ok true) →
      AdmissionInvariant { node := { s.node with toReplica }, task := s.task.step e' } := by
    intro toReplica e' hsub he
    exact ⟨fun txn hm => h.channel txn (hsub _ hm), h.pool.step he, validated_step h.pool h.proposals⟩
  have node : ∀ {txn}, (txn.verifySender ≠ .ok false ∨ txn.tx.hash ∈ s.node.seenTransactions) →
      AdmissionInvariant { s with node := (NodeM.handleTransaction txn s.node).2 } :=
    fun hc => ⟨handleTransaction_toReplica hc h.channel, h.pool, h.proposals⟩
  cases e
  case peer msg =>
    cases msg
    case submitTransaction txn => exact node hc
    case other                 => exact h
    case hotStuff msg =>
      refine ⟨fun txn hm => ?_, h.pool, h.proposals⟩
      exact h.channel txn (by simpa [Server.step, NodeM.handlePeerConnection, NodeM.sendToReplica] using hm)
  case client msg =>
    cases msg
    case submitTransaction txn => exact node hc
    case other                 => exact h
    case hotStuff              => exact h
  case timeout => exact replica (fun _ hm => hm) (by simp)
  case receive order =>
    simp only [Server.step]
    split
    case h_1 => exact h
    case h_2 msg toReplica hch =>
      refine replica (fun m hm => hch ▸ List.mem_cons_of_mem _ hm) fun txn he => ?_
      cases msg
      case hotStuff => simp at he
      case transaction txn' =>
        cases he
        exact h.channel txn (by rw [hch]; exact List.mem_cons_self)

theorem AdmissionInvariant.of_steps {c : Config} {nodeId : PeerId} {es : List ServerEvent}
    (h : Steps (Guarded Server.step SubmitsVerified) (.new c nodeId) es s) : AdmissionInvariant s := by
  refine h.guarded_invariant ⟨?_, ?_, ?_⟩ fun hc hi => hi.step hc
  · simp [Server.new, Node.new]
  · intro key t hq
    simp [Server.new, Task.new, HotStuffReplica.new, PriorityMempool.new, queued] at hq
  · simp [ProposesValidated, Server.new, Task.new, HotStuffReplica.new, HotStuffReplica.proposals]

theorem proposesValidated_of_submitsVerified {c : Config} {nodeId : PeerId} {es : List ServerEvent}
    (h : Steps (Guarded Server.step SubmitsVerified) (.new c nodeId) es s) : s.ProposesValidated :=
  (AdmissionInvariant.of_steps h).proposals

-- A client submits a transfer to the leader of view 1, which then gets its new-view messages.
def proposesTransfer (signature : Nat) : List ServerEvent :=
  let transfer : SignedTransaction := {
    tx := .transfer { source := 4, target := 0, amount := 1000, assetId := 0, status := .pending, nonce := 0 }
    signature := .sigToString { bytes := signature }
    hash := 0 }
  let newViews := [0, 2, 3].flatMap fun i => [.peer (.hotStuff (.newView .createGenesisQC 0 i 0)), .receive .inserted]
  [.client (.submitTransaction transfer), .receive .inserted, .timeout] ++ newViews

omit [Sha256] [Ed25519] in
theorem proposesTransfer_proposesValidated :
    ∃ (_ : Sha256) (_ : Ed25519) (c : Config),
      let es := proposesTransfer (oddPair 4 0)
      let s := es.foldl Server.step (.new c 1)
      Admits Server.step SubmitsVerified (.new c 1) es ∧
      s.task.replica.proposals.map (·.2.transactions.length) = [1] ∧ s.ProposesValidated := by
  refine ⟨.pairing, .encoding, .ofSize 4, by decide +kernel, by decide +kernel, ?_⟩
  exact @proposesValidated_of_submitsVerified .pairing .encoding _ _ _ _ (Admits.steps (by decide +kernel))

-- The signature is not one of the account.
omit [Sha256] [Ed25519] in
theorem proposesTransfer_not_proposesValidated :
    ∃ (_ : Sha256) (_ : Ed25519) (c : Config),
      ¬((proposesTransfer 1).foldl Server.step (.new c 1)).ProposesValidated := by
  refine ⟨.pairing, .encoding, .ofSize 4, ?_⟩
  decide +kernel

end Server

end Superliquid

import Superliquid.Node.Theorems.Admission
import Superliquid.Node.Theorems.Gossip

-- A node with its connections does nothing that a server without them could not do. A transaction gets to the
-- server when it is handed over to the replica.

namespace Superliquid

namespace Service

-- What the replica reads from the channel, apart from queries.
def handedOver : Service.ReplicaInBound → Option Superliquid.ReplicaInBound
  | .hotStuff msg    => some (.hotStuff msg)
  | .transaction txn => some (.transaction txn)
  | .query _ _       => none

-- The task of a connection has noted a transaction that it has not handed over yet.
def InHand (s : Service) (k : Conn) (txn : SignedTransaction) : Prop :=
  s.Broadcasting k txn ∨ (s.connections k).stage = .forwarding (.transaction txn)

-- The transactions that are submitted to the server are noted.
def Submits (s : Service) : ServerEvent → Prop
  | .peer (.submitTransaction txn) | .client (.submitTransaction txn) => txn ∈ s.transactions
  | _ => True

variable [Sha256] [Ed25519] {s s' : Service} {v v' : Server} {k : Conn} {txn : SignedTransaction}

structure Refines (s : Service) (v : Server) : Prop where
  task      : v.task = s.task
  toReplica : v.node.toReplica = s.mailbox.filterMap handedOver
  seen      : v.node.seenTransactions ⊆ s.seenTransactions
  noted     : ∀ k txn, s.InHand k txn → txn ∈ s.transactions
  verified  : ∀ k txn, s.InHand k txn → ∃ valid, txn.verifySender = .ok valid
  fresh     : ∀ k txn, s.InHand k txn → txn.tx.hash ∉ v.node.seenTransactions
  single    : ∀ k k' txn txn', s.InHand k txn → s.InHand k' txn' → txn.tx.hash = txn'.tx.hash → k = k'

omit [Sha256] [Ed25519] in
theorem Submits.mono {e : ServerEvent} (h : s.Submits e) (hp : s.transactions <+: s'.transactions) : s'.Submits e := by
  unfold Submits at h ⊢
  split
  case h_1 => exact hp.subset h
  case h_2 => exact hp.subset h
  case h_3 => exact True.intro

-- What is broadcast next has just been noted.
theorem Noted.of_broadcasting (h : Noted s s') (hk : s'.Broadcasting k txn) (hn : ¬s.Broadcasting k txn) :
    txn.tx.hash ∉ s.seenTransactions ∧ txn ∈ s'.transactions ∧ (∃ valid, txn.verifySender = .ok valid) ∧
      ∀ k' txn', s'.Broadcasting k' txn' → ¬s.Broadcasting k' txn' → k' = k := by
  cases h
  case none hq => exact absurd ((hq k txn).mp hk) hn
  case told hq => exact absurd ((hq k txn).mp hk).2 hn
  case new hv hnew _ ht _ _ hq =>
    obtain ⟨rfl, rfl⟩ := ((hq k txn).mp hk).resolve_right hn
    refine ⟨hnew, by simp [ht], ⟨_, hv⟩, fun k' txn' hk' hn' => ?_⟩
    exact (((hq k' txn').mp hk').resolve_right hn').1

-- A task that hands over a transaction has had it in hand before.
theorem Stepped.inHand (h : Stepped s s') (hs : (s'.connections k).stage = .forwarding (.transaction txn)) :
    s.InHand k txn := by
  cases h
  case turn conn turned =>
    by_cases hk : k = conn
    case neg => exact .inr (turned.others k hk ▸ hs)
    case pos =>
      subst hk
      obtain ⟨_, turn, -⟩ := turned.turn
      generalize s'.connections k = c' at turn hs
      cases turn
      case none => exact .inr hs
      case told ht =>
        cases hs
        exact .inl ht
      case handled hs' =>
        subst hs
        simp at hs'
      all_goals simp_all
  case answered rest query conn _ _ _ _ hw =>
    by_cases hk : k = conn
    case neg => exact .inr (by simpa [setStage, setConnection, hk] using hs)
    case pos => simp [setStage, setConnection, hk] at hs
  all_goals exact .inr hs

namespace Refines

-- The server does not note anything in this step.
theorem keep (h : Refines s v) (once : NotedOnce s) (hs : Stepped s s') (ht : v'.task = s'.task)
    (hm : v'.node.toReplica = s'.mailbox.filterMap handedOver)
    (hv : v'.node.seenTransactions = v.node.seenTransactions) : Refines s' v' := by
  have hand {k : Conn} {txn : SignedTransaction} (hk : s'.InHand k txn) :
      s.InHand k txn ∨ s'.Broadcasting k txn ∧ ¬s.Broadcasting k txn := by
    by_cases hb : s.Broadcasting k txn
    case pos => exact .inl (.inl hb)
    case neg => exact hk.elim (fun hk => .inr ⟨hk, hb⟩) fun hk => .inl (hs.inHand hk)
  have known {k : Conn} {txn : SignedTransaction} (hk : s.InHand k txn) : txn.tx.hash ∈ s.seenTransactions :=
    once.seen_of_mem (h.noted k txn hk)
  refine ⟨ht, hm, hv ▸ h.seen.trans hs.noted.seen_mono, fun k txn hk => ?_, fun k txn hk => ?_,
    fun k txn hk => ?_, fun k k' txn txn' hk hk' he => ?_⟩
  · rcases hand hk with hk | ⟨hk, hn⟩
    · exact hs.noted.transactions.subset (h.noted k txn hk)
    · exact (hs.noted.of_broadcasting hk hn).2.1
  · rcases hand hk with hk | ⟨hk, hn⟩
    · exact h.verified k txn hk
    · exact (hs.noted.of_broadcasting hk hn).2.2.1
  · rw [hv]
    rcases hand hk with hk | ⟨hk, hn⟩
    · exact h.fresh k txn hk
    · exact fun hm => (hs.noted.of_broadcasting hk hn).1 (h.seen hm)
  · rcases hand hk with hk | ⟨hk, hn⟩ <;> rcases hand hk' with hk' | ⟨hk', hn'⟩
    · exact h.single k k' txn txn' hk hk' he
    · exact absurd (he ▸ known hk) (hs.noted.of_broadcasting hk' hn').1
    · exact absurd (he ▸ known hk') (hs.noted.of_broadcasting hk hn).1
    · exact (hs.noted.of_broadcasting hk' hn').2.2.2 k txn hk hn

-- A task hands a transaction over to the replica.
theorem submit (h : Refines s v) (once : NotedOnce s) (ht : Turned s k s')
    (hs : (s.connections k).stage = .forwarding (.transaction txn)) (hs' : (s'.connections k).stage = .reading)
    (hm : s'.mailbox = s.mailbox ++ [.transaction txn]) :
    Refines s' (v.step (.client (.submitTransaction txn))) := by
  have inHand : s.InHand k txn := .inr hs
  obtain ⟨valid, hv⟩ := h.verified k txn inHand
  have node : (NodeM.handleTransaction txn v.node).2 = { v.node with
      seenTransactions := insert txn.tx.hash v.node.seenTransactions
      transactions := v.node.transactions ++ [txn]
      broadcasts := v.node.broadcasts ++ [txn]
      toReplica := v.node.toReplica ++ [.transaction txn] } := by
    unfold NodeM.handleTransaction
    rw [hv, Handler.bind_apply_ok (by rfl), Handler.read_bind]
    simp only [id_eq, if_pos (h.fresh k txn inHand)]
    rfl
  have idle {txn' : SignedTransaction} : ¬s'.InHand k txn' := by
    simp [InHand, Broadcasting, hs']
  -- All other tasks hold what they held before.
  have hand {k' : Conn} {txn' : SignedTransaction} (hk : s'.InHand k' txn') : k' ≠ k ∧ s.InHand k' txn' := by
    have hne : k' ≠ k := fun he => idle (he ▸ hk)
    rw [InHand, Broadcasting, ht.others k' hne] at hk
    exact ⟨hne, hk⟩
  have hseen : txn.tx.hash ∈ s'.seenTransactions :=
    ht.noted.seen_mono (once.seen_of_mem (h.noted k txn inHand))
  constructor
  case task      => exact h.task.trans ht.task.symm
  case noted     => exact fun k' txn' hk => ht.noted.transactions.subset (h.noted k' txn' (hand hk).2)
  case verified  => exact fun k' txn' hk => h.verified k' txn' (hand hk).2
  case single    => exact fun k₁ k₂ txn₁ txn₂ h₁ h₂ => h.single k₁ k₂ txn₁ txn₂ (hand h₁).2 (hand h₂).2
  case toReplica =>
    rw [Server.step, NodeM.handleClientConnection, node, hm, List.filterMap_append, ← h.toReplica]
    rfl
  case seen =>
    rw [Server.step, NodeM.handleClientConnection, node]
    exact Finset.insert_subset hseen (h.seen.trans ht.noted.seen_mono)
  case fresh =>
    intro k' txn' hk
    obtain ⟨hne, hk⟩ := hand hk
    rw [Server.step, NodeM.handleClientConnection, node, Finset.mem_insert, not_or]
    exact ⟨fun he => hne (h.single k' k txn' txn hk inHand he), h.fresh k' txn' hk⟩

theorem turned (h : Refines s v) (once : NotedOnce s) (ht : Turned s k s') :
    ∃ es : List ServerEvent, Refines s' (es.foldl Server.step v) ∧ ∀ e ∈ es, s'.Submits e := by
  obtain ⟨sent, turn, hm⟩ := ht.turn
  have keep (hsent : sent.filterMap handedOver = []) :
      ∃ es : List ServerEvent, Refines s' (es.foldl Server.step v) ∧ ∀ e ∈ es, s'.Submits e := by
    refine ⟨[], h.keep once (.turn ht) (h.task.trans ht.task.symm) ?_ rfl, by simp⟩
    rw [hm, List.filterMap_append, hsent, List.append_nil]
    exact h.toReplica
  generalize hc : s'.connections k = c' at turn
  cases turn
  case passed msg hs =>
    cases msg
    case query       => exact keep rfl
    case transaction txn =>
      refine ⟨[.client (.submitTransaction txn)], h.submit once ht hs (by rw [hc]) hm, ?_⟩
      simpa [Submits] using ht.noted.transactions.subset (h.noted k txn (.inr hs))
    case hotStuff msg =>
      refine ⟨[.peer (.hotStuff msg)], ?_, by simp [Submits]⟩
      refine h.keep once (.turn ht) (h.task.trans ht.task.symm) ?_ rfl
      rw [hm, List.filterMap_append, ← h.toReplica]
      rfl
  all_goals exact keep rfl

theorem stepped (h : Refines s v) (once : NotedOnce s) (hs : Stepped s s') :
    ∃ es : List ServerEvent, Refines s' (es.foldl Server.step v) ∧ ∀ e ∈ es, s'.Submits e := by
  have step := hs
  cases hs
  case turn ht => exact h.turned once ht
  case answered hl hm hw =>
    refine ⟨[], h.keep once step h.task ?_ rfl, by simp⟩
    rw [List.foldl_nil, h.toReplica, hm]
    rfl
  case dropped rest _ _ _ hl hm hd =>
    have hrest : v.node.toReplica = rest.filterMap handedOver := by
      rw [h.toReplica, hm]
      rfl
    rcases hd with ⟨⟨err, hf⟩, rfl⟩ | ⟨_, rfl⟩
    · -- The loop panics before it looks at what has come in.
      refine ⟨[.timeout], h.keep once step ?_ hrest rfl, by simp [Submits]⟩
      have hrun : ReplicaM.runReplica .timeout s.task.replica = (.error err, s.task.replica) := by
        simp only [ReplicaM.runReplica, Handler.read_bind, hf]
        rfl
      simp [Server.step, h.task, Task.step, hl.1, hrun]
    · exact ⟨[], h.keep once step h.task hrest rfl, by simp⟩
  case handled rest _ hl ht =>
    have htask {e : Superliquid.Event} : v.task.step e = s.task.step e := by rw [h.task]
    cases ht
    case timeout => exact ⟨[.timeout], h.keep once step htask h.toReplica rfl, by simp [Submits]⟩
    case hotStuff msg order hm =>
      have hch : v.node.toReplica = .hotStuff msg :: rest.filterMap handedOver := by
        rw [h.toReplica, hm]
        rfl
      refine ⟨[.receive order], h.keep once step ?_ ?_ ?_, by simp [Submits]⟩ <;>
        simp only [List.foldl_cons, List.foldl_nil, Server.step, hch]
      · exact htask
      · rfl
    case transaction txn hm =>
      have hch : v.node.toReplica = .transaction txn :: rest.filterMap handedOver := by
        rw [h.toReplica, hm]
        rfl
      refine ⟨[.receive .inserted], h.keep once step ?_ ?_ ?_, by simp [Submits]⟩ <;>
        simp only [List.foldl_cons, List.foldl_nil, Server.step, hch]
      · exact htask
      · rfl
  case kept rest msg _ _ =>
    refine ⟨[.peer (.hotStuff msg)], h.keep once step h.task ?_ rfl, by simp [Submits]⟩
    rw [List.filterMap_append, ← h.toReplica]
    rfl
  case sent => exact ⟨[], h.keep once step h.task h.toReplica rfl, by simp⟩

theorem new {c : Config} {nodeId : PeerId} {faucetKey : SigningKey} :
    Refines (.new c nodeId faucetKey) (.new c nodeId) := by
  constructor
  all_goals simp [Service.new, Server.new, Node.new, Connection.new, InHand, Broadcasting]

end Refines

-- Every run of a node is one of the server, as far as the replica is concerned.
theorem refines_run (c : Config) (nodeId : PeerId) (faucetKey : SigningKey) (es : List Event) :
    let s := es.foldl step (.new c nodeId faucetKey)
    ∃ es' : List ServerEvent, Refines s (es'.foldl Server.step (.new c nodeId)) ∧ ∀ e ∈ es', s.Submits e := by
  induction es using List.reverseRecOn
  case nil => exact ⟨[], .new, by simp⟩
  case append_singleton es e hi =>
    simp only [List.foldl_append, List.foldl_cons, List.foldl_nil]
    obtain ⟨es₁, refines, submits⟩ := hi
    have stepped := step_stepped (es.foldl step (.new c nodeId faucetKey)) e
    obtain ⟨es₂, refines', submits'⟩ := refines.stepped (.run c nodeId faucetKey es) stepped
    refine ⟨es₁ ++ es₂, by rwa [List.foldl_append], fun e he => ?_⟩
    rcases List.mem_append.mp he with he | he
    · exact (submits e he).mono stepped.noted.transactions
    · exact submits' e he

-- What holds of the server holds of the node: with verified transactions only, the replica proposes blocks that
-- pass the checks of any replica.
theorem proposals_validated (c : Config) (nodeId : PeerId) (faucetKey : SigningKey) (es : List Event) :
    let s := es.foldl step (.new c nodeId faucetKey)
    (∀ txn ∈ s.transactions, txn.verifySender = .ok true) → ∀ p ∈ s.task.replica.proposals, p.2.Validated := by
  intro s hv
  obtain ⟨es', refines, submits⟩ := refines_run c nodeId faucetKey es
  have admits (v : Server) : Admits Server.step Server.SubmitsVerified v es' := by
    clear refines
    induction es' generalizing v
    case nil => exact True.intro
    case cons e es' hi =>
      have ⟨he, hes⟩ := List.forall_mem_cons.mp submits
      refine ⟨?_, hi hes _⟩
      unfold Server.SubmitsVerified
      split
      case h_1 => exact .inl (by simp [hv _ he])
      case h_2 => exact .inl (by simp [hv _ he])
      case h_3 => exact True.intro
  have validated := (Server.AdmissionInvariant.of_steps (admits (.new c nodeId)).steps).proposals
  rw [Server.ProposesValidated, refines.task] at validated
  exact validated

end Service
end Superliquid

import Superliquid.Hotstuff.Theorems.Step
import Superliquid.Node.Service

namespace Superliquid.Service

open ReplicaM

variable [Sha256] [Ed25519] {s s' : Service} {k : Conn} {c : Connection}

omit [Sha256] [Ed25519] in
theorem setConnection_connections : (s.setConnection k c).connections k = c := by
  simp [setConnection]

omit [Sha256] [Ed25519] in
theorem setConnection_setConnection {c' : Connection} :
    (s.setConnection k c).setConnection k c' = s.setConnection k c' := by
  simp [setConnection]

-- All that one step of the task of a connection can do to the connection, and what it hands to the replica.
inductive Turn (s : Service) (k : Conn) (c : Connection) : Connection → List ReplicaInBound → Prop
  | none    : Turn s k c c []
  | closed  :
    (s.replicaGone ∨ c.stage = .reading ∨ ∃ query purpose res n, c.stage = .answered query purpose res n) →
    Turn s k c { c with stage := .closed } []
  | failed  :
    (c.stage = .reading ∨ ∃ query pk assetId res n, c.stage = .answered query (.drip pk assetId) res n) →
    Turn s k c { c with stage := .panicked } []
  | handled :
    (c.stage = .reading ∨ ∃ query pk assetId res n, c.stage = .answered query (.drip pk assetId) res n) →
    (stage = .reading ∨ (∃ txn, stage = .broadcasting txn) ∨ ∃ msg, stage = .forwarding (.hotStuff msg)) →
    Turn s k c { c with stage } []
  | listed  :
    (c.stage = .reading) →
    Turn s k c { c with
      requests := c.requests ++ [{ msg := .query, executed := s.executed, noted := s.transactions.length }]
      written := c.written ++ [(.response s.transactions, s.executed)] } []
  | asked   :
    (c.stage = .reading) → (queryOf msg = some query) →
    (request = { msg, executed := s.executed, noted := s.transactions.length }) →
    Turn s k c { c with stage := .asking query (.client request), requests := c.requests ++ [request] } []
  | dripped :
    (c.stage = .reading) → Turn s k c { c with stage := .asking (.accountQuery s.faucet) (.drip pk assetId) } []
  | queried :
    (c.stage = .asking query purpose) →
    Turn s k c { c with stage := .waiting query purpose } [.query query k]
  | told    :
    (c.stage = .broadcasting txn) → Turn s k c { c with stage := .forwarding (.transaction txn) } []
  | passed  : (c.stage = .forwarding msg) → Turn s k c { c with stage := .reading } [msg]
  | replied :
    (c.stage = .answered query (.client request) response n) → (replyTo query response = some msg) →
    Turn s k c { c with stage := .reading, written := c.written ++ [(msg, n)] } []

-- The task of a connection has noted a transaction that it is yet to broadcast.
def Broadcasting (s : Service) (k : Conn) (txn : SignedTransaction) : Prop :=
  (s.connections k).stage = .broadcasting txn

-- What a step does to the transactions of a node. It notes one at most, and only if there was none with its
-- hash before.
inductive Noted (s s' : Service) : Prop
  | none :
    (s'.seenTransactions = s.seenTransactions) → (s'.transactions = s.transactions) →
    (s'.broadcasts = s.broadcasts) → (∀ k txn, s'.Broadcasting k txn ↔ s.Broadcasting k txn) → Noted s s'
  | new :
    (txn.verifySender = .ok valid) → (txn.tx.hash ∉ s.seenTransactions) →
    (s'.seenTransactions = insert txn.tx.hash s.seenTransactions) →
    (s'.transactions = s.transactions ++ [txn]) → (s'.broadcasts = s.broadcasts) →
    (∀ txn', ¬s.Broadcasting conn txn') →
    (∀ k txn', s'.Broadcasting k txn' ↔ (k = conn ∧ txn' = txn) ∨ s.Broadcasting k txn') → Noted s s'
  | told :
    (s.Broadcasting conn txn) → (s'.seenTransactions = s.seenTransactions) →
    (s'.transactions = s.transactions) → (s'.broadcasts = s.broadcasts ++ [txn]) →
    (∀ k txn', s'.Broadcasting k txn' ↔ k ≠ conn ∧ s.Broadcasting k txn') → Noted s s'

-- A drip is made from the response to a query.
def Dripped (s s' : Service) : Prop :=
  s'.drips = s.drips ∨
  ∃ k query publicKey assetId info n,
    (s.connections k).stage = .answered query (.drip publicKey assetId) (.accountQueryReponse info) n ∧
    s'.drips = s.drips ++ [(s.dripTxn publicKey assetId info.accountInfo.expectedNonce, n)]

-- A step of a connection, with the rest of the node.
structure Turned (s : Service) (k : Conn) (s' : Service) : Prop where
  turn         : ∃ sent, Turn s k (s.connections k) (s'.connections k) sent ∧ s'.mailbox = s.mailbox ++ sent
  others       : ∀ k' ≠ k, s'.connections k' = s.connections k'
  task         : s'.task = s.task
  pending      : s'.pending = s.pending
  outbox       : s'.outbox = s.outbox
  capacity     : s'.capacity = s.capacity
  faucetKey    : s'.faucetKey = s.faucetKey
  noted        : Noted s s'
  drips        : Dripped s s'
  room         : s'.mailbox = s.mailbox ∨ s.mailbox.length < s.capacity

-- Steps that only take notes besides.
theorem Turned.of_setConnection {transactions broadcasts : List SignedTransaction} {c : Connection}
    {seenTransactions : Finset Sha256Hash} {drips : List (SignedTransaction × Nat)}
    (h : Turn s k (s.connections k) c [])
    (hn : Noted s ({ s with transactions, seenTransactions, broadcasts, drips }.setConnection k c))
    (hd : Dripped s ({ s with transactions, seenTransactions, broadcasts, drips }.setConnection k c)) :
    Turned s k ({ s with transactions, seenTransactions, broadcasts, drips }.setConnection k c) where
  turn := ⟨[], by simpa [setConnection] using h, by simp [setConnection]⟩
  others k' hk := by simp [setConnection, hk]
  task := rfl
  pending := rfl
  outbox := rfl
  capacity := rfl
  faucetKey := rfl
  noted := hn
  drips := hd
  room := .inl rfl

-- Nothing is noted or broadcast by a step between two stages that have nothing to do with it.
theorem Noted.of_stages (hs : s'.seenTransactions = s.seenTransactions) (ht : s'.transactions = s.transactions)
    (hb : s'.broadcasts = s.broadcasts) (ho : ∀ k' ≠ k, s'.connections k' = s.connections k')
    (h : ∀ txn, ¬s.Broadcasting k txn) (h' : ∀ txn, ¬s'.Broadcasting k txn) : Noted s s' := by
  refine .none hs ht hb fun k' txn => ?_
  by_cases hk : k' = k
  case pos => simp [hk, h, h']
  case neg => simp only [Broadcasting, ho k' hk]

theorem Turned.of_turn {c : Connection} (h : Turn s k (s.connections k) c []) (hb : ∀ txn, ¬s.Broadcasting k txn)
    (hb' : ∀ txn, c.stage ≠ .broadcasting txn) : Turned s k (s.setConnection k c) := by
  refine .of_setConnection h (.of_stages (k := k) rfl rfl rfl ?_ hb ?_) (.inl rfl)
  · intro k' hk
    simp [setConnection, hk]
  · simpa [Broadcasting, setConnection] using hb'

theorem Turned.refl : Turned s k s := by
  have := Turned.of_setConnection (.none (s := s) (k := k)) (.none rfl rfl rfl (by simp [Broadcasting, setConnection]))
    (.inl rfl)
  simpa [setConnection] using this

theorem close_turned (h : s.replicaGone ∨ (s.connections k).stage = .reading ∨
    ∃ query purpose res n, (s.connections k).stage = .answered query purpose res n)
    (hb : ∀ txn, ¬s.Broadcasting k txn) : Turned s k (s.close k) :=
  .of_turn (.closed h) hb (by simp)

-- A transaction comes from the connection, or from the faucet.
theorem handleTransaction_turned {txn : SignedTransaction} {drips : List (SignedTransaction × Nat)}
    (h : (s.connections k).stage = .reading ∨
      ∃ query pk assetId res n, (s.connections k).stage = .answered query (.drip pk assetId) res n)
    (hd : Dripped s { s with drips }) : Turned s k ({ s with drips }.handleTransaction k txn) := by
  have quiet (txn : SignedTransaction) : ¬s.Broadcasting k txn := by
    rcases h with h | ⟨_, _, _, _, _, h⟩ <;> simp [Broadcasting, h]
  have others {s' : Service} {c : Connection} (k' : Conn) (hk : k' ≠ k) (hs : s'.connections = s.connections) :
      (s'.setConnection k c).connections k' = s.connections k' := by
    simp [setConnection, hk, hs]
  unfold handleTransaction
  split
  case h_1 =>
    refine .of_setConnection (.failed h) ?_ hd
    exact .of_stages (k := k) rfl rfl rfl (fun k' hk => others k' hk rfl) quiet (by simp [Broadcasting, setConnection])
  case h_2 hv =>
    split
    case isTrue hnew =>
      refine .of_setConnection (.handled h (.inr (.inl ⟨txn, rfl⟩))) ?_ hd
      refine .new hv hnew rfl rfl rfl quiet fun k' txn' => ?_
      by_cases hk : k' = k
      case pos =>
        subst hk
        rw [or_iff_left (quiet txn')]
        simp [Broadcasting, setConnection, eq_comm]
      case neg => simp [Broadcasting, others k' hk, hk]
    case isFalse =>
      refine .of_setConnection (.handled h (.inl rfl)) ?_ hd
      exact .of_stages (k := k) rfl rfl rfl (fun k' hk => others k' hk rfl) quiet
        (by simp [Broadcasting, setConnection])

theorem handleClientConnection_turned {msg : Message} (h : (s.connections k).stage = .reading) :
    Turned s k (s.handleClientConnection k msg) := by
  have quiet (txn : SignedTransaction) : ¬s.Broadcasting k txn := by
    simp [Broadcasting, h]
  unfold handleClientConnection
  split
  case h_1 txn => exact handleTransaction_turned (.inl h) (.inl rfl)
  case h_2 =>
    simp only [noteRequest, write, setConnection_connections, setConnection_setConnection]
    exact .of_turn (h ▸ .listed h) quiet (by simp)
  case h_3 => exact .of_turn (.dripped h) quiet (by simp)
  case h_4 msg _ _ _ =>
    split
    case h_1 query hq =>
      simp only [noteRequest, setStage, setConnection_connections, setConnection_setConnection]
      exact .of_turn (.asked h hq rfl) quiet (by simp)
    case h_2 => exact .refl
  case h_5 => exact close_turned (.inr (.inl h)) quiet
  case h_6 => exact .refl

theorem handlePeerConnection_turned {msg : Message} (h : (s.connections k).stage = .reading) :
    Turned s k (s.handlePeerConnection k msg) := by
  unfold handlePeerConnection
  split
  case h_1 msg => exact .of_turn (.handled (.inl h) (.inr (.inr ⟨msg, rfl⟩))) (by simp [Broadcasting, h]) (by simp)
  case h_2 txn => exact handleTransaction_turned (.inl h) (.inl rfl)
  case h_3     => exact .refl

theorem read_turned {incoming : Incoming} (h : (s.connections k).stage = .reading) :
    Turned s k (s.read k incoming) := by
  have quiet (txn : SignedTransaction) : ¬s.Broadcasting k txn := by
    simp [Broadcasting, h]
  cases incoming
  case error => exact close_turned (.inr (.inl h)) quiet
  case none =>
    cases k
    case client => exact .refl
    case peer   => exact close_turned (.inr (.inl h)) quiet
  case message msg =>
    cases k
    case client => exact handleClientConnection_turned h
    case peer   => exact handlePeerConnection_turned h

theorem sendToReplica_turned {msg : ReplicaInBound} {next : Stage}
    (ht : Turn s k (s.connections k) { s.connections k with stage := next } [msg])
    (hb : ∀ txn, ¬s.Broadcasting k txn) (hb' : ∀ txn, next ≠ .broadcasting txn) :
    Turned s k (s.sendToReplica k msg next) := by
  unfold sendToReplica
  split
  case isTrue h => exact close_turned (.inl h) hb
  case isFalse =>
    split
    case isFalse => exact .refl
    case isTrue hroom =>
      have others (k' : Conn) (hk : k' ≠ k) :
          ({ s with mailbox := s.mailbox ++ [msg] }.setStage k next).connections k' = s.connections k' := by
        simp [setStage, setConnection, hk]
      refine ⟨⟨[msg], by simpa [setStage, setConnection] using ht, rfl⟩, others, rfl, rfl, rfl, rfl, rfl,
        .of_stages rfl rfl rfl others hb ?_, .inl rfl, .inr hroom⟩
      simpa [Broadcasting, setStage, setConnection] using hb'

theorem broadcastTransaction_turned {txn : SignedTransaction} (h : s.Broadcasting k txn) :
    Turned s k (s.broadcastTransaction k txn) := by
  refine .of_setConnection (.told h) ?_ (.inl rfl)
  refine .told h rfl rfl rfl fun k' txn' => ?_
  by_cases hk : k' = k
  case pos => simp [Broadcasting, setConnection, hk]
  case neg => simp [Broadcasting, setConnection, hk]

theorem proceed_turned : Turned s k (s.proceed k) := by
  unfold proceed
  split
  case h_1 query purpose h => exact sendToReplica_turned (.queried h) (by simp [Broadcasting, h]) (by simp)
  case h_2 txn h           => exact broadcastTransaction_turned h
  case h_3 msg h           => exact sendToReplica_turned (.passed h) (by simp [Broadcasting, h]) (by simp)
  case h_4 h =>
    split
    case isTrue hg => exact close_turned (.inl hg) (by simp [Broadcasting, h])
    case isFalse   => exact .refl
  case h_5 query purpose response n h =>
    have quiet (txn : SignedTransaction) : ¬s.Broadcasting k txn := by
      simp [Broadcasting, h]
    cases purpose
    case drip pk assetId =>
      simp only
      unfold handleDrip
      split
      case h_1 info => exact handleTransaction_turned (.inr ⟨_, _, _, _, _, h⟩) (.inr ⟨k, _, _, _, _, _, h, rfl⟩)
      case h_2      => exact close_turned (.inr (.inr ⟨_, _, _, _, h⟩)) quiet
    case client request =>
      simp only
      split
      case h_1 msg hr => exact .of_turn (.replied h hr) quiet (by simp)
      case h_2        => exact close_turned (.inr (.inr ⟨_, _, _, _, h⟩)) quiet
  all_goals exact .refl

-- What the replica handles next: the message in front of the channel, or its timer.
inductive Taken (s : Service) : List ReplicaInBound → Superliquid.Event → Prop
  | hotStuff    : (s.mailbox = .hotStuff msg :: rest) → Taken s rest (.hotStuff msg order)
  | transaction : (s.mailbox = .transaction txn :: rest) → Taken s rest (.transaction txn)
  | timeout     : Taken s s.mailbox .timeout

omit [Sha256] [Ed25519] in
theorem Taken.suffix {rest : List ReplicaInBound} {e : Superliquid.Event} (h : Taken s rest e) :
    rest <:+ s.mailbox := by
  cases h
  case hotStuff hm    => exact hm ▸ List.suffix_cons _ _
  case transaction hm => exact hm ▸ List.suffix_cons _ _
  case timeout        => exact List.suffix_refl _

-- All that a step of a node can do.
inductive Stepped (s : Service) : Service → Prop
  | turn     : (Turned s conn next) → Stepped s next
  | answered :
    (s.Listening) → (s.mailbox = .query query conn :: rest) →
    ((s.connections conn).stage = .waiting query' purpose) →
    Stepped s ({ s with mailbox := rest }.setStage conn
      (.answered query purpose (s.task.replica.ledgerState.handleQuery query) s.executed))
  | dropped  :
    (s.Listening) → (s.mailbox = .query query conn :: rest) →
    ((∃ err, s.task.replica.pacemaker.failedViews = .error err) ∧ panicked = true ∨
      (∀ query purpose, (s.connections conn).stage ≠ .waiting query purpose) ∧ panicked = s.task.panicked) →
    Stepped s { s with mailbox := rest, task := { s.task with panicked } }
  | handled  :
    (s.Listening) → (Taken s rest e) → Stepped s ({ s with mailbox := rest }.handleEvent e)
  | kept     :
    (s.pending = .sendToSelf msg :: rest) → (s.mailbox.length < s.capacity) →
    Stepped s { s with mailbox := s.mailbox ++ [.hotStuff msg], pending := rest }
  | sent     :
    (s.pending = out :: rest) → (∀ msg, out ≠ .sendToSelf msg) →
    Stepped s { s with pending := rest, outbox := s.outbox ++ [out] }

theorem Stepped.refl : Stepped s s :=
  .turn (Turned.refl (k := .client 0))

theorem emit_stepped : Stepped s s.emit := by
  unfold emit
  split
  case h_1 => exact .refl
  case h_2 msg pending h =>
    split
    case isTrue hroom => exact .kept h hroom
    case isFalse      => exact .refl
  case h_3 out pending hn h => exact .sent h hn

theorem receive_stepped {order : HotStuffReplica.TallyOrder} (h : s.Listening) : Stepped s (s.receive order) := by
  unfold receive
  split
  case h_1 => exact .refl
  case h_2 msg mailbox hm =>
    cases msg
    case hotStuff    => exact .handled h (.hotStuff hm)
    case transaction => exact .handled h (.transaction hm)
    case query query k =>
      simp only [answerQuery]
      split
      case h_1 err hf => exact .dropped h hm (.inl ⟨⟨err, hf⟩, rfl⟩)
      case h_2 =>
        split
        case h_1 hs => exact .answered h hm hs
        case h_2 hs => exact .dropped h hm (.inr ⟨hs, rfl⟩)

theorem step_stepped (s : Service) (e : Event) : Stepped s (s.step e) := by
  cases e
  case arrive k incoming =>
    simp only [step]
    split
    case h_1 h => exact .turn (read_turned h)
    case h_2   => exact .refl
  case proceed k => exact .turn proceed_turned
  case emit => exact emit_stepped
  case receive order =>
    simp only [step]
    split
    case isTrue h => exact receive_stepped h
    case isFalse  => exact .refl
  case timeout =>
    simp only [step]
    split
    case isTrue h => exact .handled h .timeout
    case isFalse  => exact .refl

theorem Stepped.noted (h : Stepped s s') : Noted s s' := by
  cases h
  case turn turned => exact turned.noted
  case answered rest query conn _ _ _ _ hw =>
    refine .of_stages (k := conn) rfl rfl rfl (fun k' hk => ?_) (by simp [Broadcasting, hw]) ?_
    · simp [setStage, setConnection, hk]
    · simp [Broadcasting, setStage, setConnection]
  all_goals exact .none rfl rfl rfl fun _ _ => .rfl

theorem Stepped.dripped (h : Stepped s s') : Dripped s s' := by
  cases h
  case turn turned => exact turned.drips
  all_goals exact .inl rfl

-- A task that has returned stays so.
theorem Stepped.closed (h : Stepped s s') (hc : (s.connections k).stage = .closed) :
    (s'.connections k).stage = .closed := by
  cases h
  case turn conn turned =>
    by_cases hk : k = conn
    case neg => rw [turned.others k hk, hc]
    case pos =>
      subst hk
      obtain ⟨_, turn, _⟩ := turned.turn
      generalize s'.connections k = c' at turn
      cases turn
      case none    => exact hc
      case closed  => rfl
      all_goals simp_all
  case answered rest query conn _ _ _ _ hw =>
    have hk : k ≠ conn := by
      rintro rfl
      simp [hw] at hc
    simpa [setStage, setConnection, hk] using hc
  all_goals exact hc

theorem Noted.transactions (h : Noted s s') : s.transactions <+: s'.transactions := by
  cases h
  case none ht _ _    => exact ht ▸ List.prefix_refl _
  case new ht _ _ _   => exact ht ▸ List.prefix_append _ _
  case told ht _ _    => exact ht ▸ List.prefix_refl _

theorem Noted.seen_mono (h : Noted s s') : s.seenTransactions ⊆ s'.seenTransactions := by
  cases h
  case none hs _ _ _  => exact hs ▸ subset_rfl
  case new hs _ _ _ _ => exact hs ▸ Finset.subset_insert _ _
  case told hs _ _ _  => exact hs ▸ subset_rfl

theorem Stepped.panicked (h : Stepped s s') (hn : s'.task.panicked = false) : s.task.panicked = false := by
  cases h
  case turn turned       => exact turned.task ▸ hn
  case answered hl _ _   => exact hl.1
  case dropped hl _ _    => exact hl.1
  case handled hl _      => exact hl.1
  case kept              => exact hn
  case sent              => exact hn

end Superliquid.Service

import Superliquid.Hotstuff.Theorems.Replay
import Superliquid.Hotstuff.Theorems.Store
import Superliquid.Lib.Steps
import Superliquid.Node.Theorems.Turns

namespace Superliquid.Service

section Definitions

variable [Ed25519]

-- The ledger as it was after the first `n` blocks.
def LedgerAfter (c : Config) (s : Service) (n : Nat) (l : LedgerState) : Prop :=
  ∃ ts ns, (LedgerState.new c.faucet).apply ((s.task.replica.applied.take n).flatMap Block.transactions) =
    .ok (l, ts, ns)

-- The response is what the ledger had to say after the first `n` blocks.
structure Read (c : Config) (s : Service) (query : ClientQuery) (response : ClientResponse) (n : Nat) : Prop where
  executed : n ≤ s.executed
  response : ∃ l, LedgerAfter c s n l ∧ response = l.handleQuery query

-- What a client gets for a request: the transactions that the node had noted when it read the request, or
-- what the ledger had to say at that time or later.
inductive Answers (c : Config) (s : Service) (request : Request) : AppMessage × Nat → Prop
  | listed :
    (request.msg = .query) → (request.noted ≤ s.transactions.length) → (request.executed ≤ s.executed) →
    Answers c s request (.response (s.transactions.take request.noted), request.executed)
  | read   :
    (queryOf request.msg = some query) → (request.executed ≤ n) → (Read c s query response n) →
    (replyTo query response = some msg) → Answers c s request (msg, n)

def Stage.outstanding : Stage → List Request
  | .asking _ (.client request) | .waiting _ (.client request) | .answered _ (.client request) _ _ => [request]
  | _ => []

-- The query that the replica has to answer.
def Stage.query : Stage → List ClientQuery
  | .waiting query _ => [query]
  | _                => []

def queryFrom (k : Conn) : ReplicaInBound → Option ClientQuery
  | .query query k' => if k' = k then some query else none
  | _               => none

def Purpose.For (s : Service) (query : ClientQuery) : Purpose → Prop
  | .client request => queryOf request.msg = some query ∧ request.executed ≤ s.executed
  | .drip _ _       => query = .accountQuery s.faucet

def Purpose.since : Purpose → Nat
  | .client request => request.executed
  | .drip _ _       => 0

def Stage.Sound (c : Config) (s : Service) : Stage → Prop
  | .asking query purpose | .waiting query purpose => purpose.For s query
  | .answered query purpose response n =>
    purpose.For s query ∧ purpose.since ≤ n ∧ Read c s query response n
  | .forwarding msg => ∀ k, queryFrom k msg = none
  | .reading | .broadcasting _ | .closed | .panicked => True

-- The task has returned or panicked.
def Stage.Ended (stage : Stage) : Prop :=
  stage = .closed ∨ stage = .panicked

-- The requests in `answered` are those that have been answered, in this order.
structure Session (c : Config) (s : Service) (conn : Connection) (answered : List Request) : Prop where
  requests : ∃ rest, conn.requests = answered ++ rest ∧ rest.length ≤ 1 ∧
    (¬conn.stage.Ended → rest = conn.stage.outstanding) ∧ ∀ r ∈ rest, ∀ w ∈ conn.written, w.2 ≤ r.executed
  answers  : List.Forall₂ (Answers c s) answered conn.written
  ordered  : (answered.zip conn.written).Pairwise fun a b => a.2.2 ≤ b.1.executed
  sound    : conn.stage.Sound c s

end Definitions

variable [Sha256] [Ed25519] {c : Config} {s s' : Service} {k : Conn}

-- What has been executed or noted stays.
structure Grows (s s' : Service) : Prop where
  applied      : s.task.replica.applied <+: s'.task.replica.applied
  transactions : s.transactions <+: s'.transactions
  faucetKey    : s'.faucetKey = s.faucetKey

namespace Grows

omit [Sha256] [Ed25519] in
theorem of_same (ha : s'.task.replica.applied = s.task.replica.applied) (ht : s'.transactions = s.transactions)
    (hf : s'.faucetKey = s.faucetKey) : Grows s s' :=
  ⟨ha ▸ List.prefix_refl _, ht ▸ List.prefix_refl _, hf⟩

variable (h : Grows s s')

include h

omit [Sha256] [Ed25519] in
theorem executed : s.executed ≤ s'.executed :=
  h.applied.length_le

omit [Sha256] in
theorem ledgerAfter {n : Nat} {l : LedgerState} (hn : n ≤ s.executed) (hl : LedgerAfter c s n l) :
    LedgerAfter c s' n l := by
  obtain ⟨ts, ns, hl⟩ := hl
  obtain ⟨bs, hb⟩ := h.applied
  refine ⟨ts, ns, ?_⟩
  rw [← hl, ← hb, List.take_append_of_le_length hn]

omit [Sha256] in
theorem read {query : ClientQuery} {response : ClientResponse} {n : Nat} (hr : Read c s query response n) :
    Read c s' query response n := by
  obtain ⟨hn, l, hl, hq⟩ := hr
  exact ⟨hn.trans h.executed, l, h.ledgerAfter hn hl, hq⟩

omit [Sha256] in
theorem answers {request : Request} {w : AppMessage × Nat} (ha : Answers c s request w) : Answers c s' request w := by
  cases ha
  case listed hm hn he =>
    obtain ⟨txs, ht⟩ := h.transactions
    rw [← List.take_append_of_le_length hn, ht]
    exact .listed hm (hn.trans h.transactions.length_le) (he.trans h.executed)
  case read hq he hr hm => exact .read hq he (h.read hr) hm

omit [Sha256] in
theorem purpose {query : ClientQuery} {purpose : Purpose} (hp : purpose.For s query) : purpose.For s' query := by
  cases purpose
  case client => exact ⟨hp.1, hp.2.trans h.executed⟩
  case drip =>
    simp only [Purpose.For, faucet, h.faucetKey] at hp ⊢
    exact hp

omit [Sha256] in
theorem sound {stage : Stage} (hs : stage.Sound c s) : stage.Sound c s' := by
  cases stage
  case forwarding => exact hs
  case asking     => exact h.purpose hs
  case waiting    => exact h.purpose hs
  case answered   => exact ⟨h.purpose hs.1, hs.2.1, h.read hs.2.2⟩
  all_goals exact True.intro

omit [Sha256] in
theorem session {conn : Connection} {answered : List Request} (hs : Session c s conn answered) :
    Session c s' conn answered where
  requests := hs.requests
  answers  := hs.answers.imp fun _ _ => h.answers
  ordered  := hs.ordered
  sound    := h.sound hs.sound

end Grows

omit [Sha256] in
theorem Answers.executed {request : Request} {w : AppMessage × Nat} (h : Answers c s request w) :
    w.2 ≤ s.executed := by
  cases h
  case listed he => exact he
  case read hr _ => exact hr.executed

namespace Session

variable {conn : Connection} {answered : List Request}

omit [Sha256] in
theorem new (c : Config) (s : Service) : Session c s .new [] where
  requests := ⟨[], rfl, Nat.zero_le _, fun _ => rfl, by simp⟩
  answers  := .nil
  ordered  := .nil
  sound    := True.intro

omit [Sha256] in
theorem written_executed (h : Session c s conn answered) : ∀ w ∈ conn.written, w.2 ≤ s.executed := by
  have answers := h.answers
  clear h
  generalize conn.written = written at answers
  induction answers
  case nil         => simp
  case cons h _ hi => exact List.forall_mem_cons.mpr ⟨h.executed, hi⟩

omit [Sha256] in
theorem outstanding (h : Session c s conn answered) (hc : ¬conn.stage.Ended) :
    conn.requests = answered ++ conn.stage.outstanding ∧
      ∀ r ∈ conn.stage.outstanding, ∀ w ∈ conn.written, w.2 ≤ r.executed := by
  obtain ⟨rest, hr, _, hrest, hw⟩ := h.requests
  cases hrest hc
  exact ⟨hr, hw⟩

omit [Sha256] in
-- A request gets its answer.
theorem answer (h : Session c s conn answered) {request : Request} {w : AppMessage × Nat}
    (hw : ∀ w ∈ conn.written, w.2 ≤ request.executed) (ha : Answers c s request w) :
    Session c s { stage := .reading, requests := answered ++ [request], written := conn.written ++ [w] }
      (answered ++ [request]) where
  requests := ⟨[], by simp, Nat.zero_le _, fun _ => rfl, by simp⟩
  answers  := List.rel_append h.answers (.cons ha .nil)
  ordered  := by
    rw [List.zip_append h.answers.length_eq, List.pairwise_append]
    refine ⟨h.ordered, List.pairwise_singleton _ _, ?_⟩
    rintro ⟨r, w'⟩ hz ⟨_, _⟩ hx
    cases List.mem_singleton.mp hx
    exact hw w' (List.of_mem_zip hz).2
  sound    := True.intro

omit [Sha256] in
-- A step that answers nothing.
theorem restage (h : Session c s conn answered) {stage : Stage} (hc : ¬conn.stage.Ended)
    (ho : stage.outstanding = conn.stage.outstanding) (hs : stage.Sound c s) :
    Session c s { conn with stage } answered where
  requests := by
    obtain ⟨rest, hr, hl, hrest, hw⟩ := h.requests
    exact ⟨rest, hr, hl, fun _ => ho ▸ hrest hc, hw⟩
  answers  := h.answers
  ordered  := h.ordered
  sound    := hs

omit [Sha256] in
theorem turn {conn' : Connection} {sent : List ReplicaInBound} (h : Session c s conn answered)
    (ht : Turn s k conn conn' sent) : ∃ answered', Session c s conn' answered' := by
  cases ht
  case none => exact ⟨_, h⟩
  case closed =>
    obtain ⟨rest, hr, hl, _, hw⟩ := h.requests
    exact ⟨answered, ⟨rest, hr, hl, by simp [Stage.Ended], hw⟩, h.answers, h.ordered, True.intro⟩
  case failed =>
    obtain ⟨rest, hr, hl, _, hw⟩ := h.requests
    exact ⟨answered, ⟨rest, hr, hl, by simp [Stage.Ended], hw⟩, h.answers, h.ordered, True.intro⟩
  case handled stage hs hs' =>
    refine ⟨answered, h.restage ?_ ?_ ?_⟩
    · rcases hs with hs | ⟨_, _, _, _, _, hs⟩ <;> simp [hs, Stage.Ended]
    · rcases hs with hs | ⟨_, _, _, _, _, hs⟩ <;> rcases hs' with rfl | ⟨_, rfl⟩ | ⟨_, rfl⟩ <;>
        simp [hs, Stage.outstanding]
    · rcases hs' with rfl | ⟨_, rfl⟩ | ⟨_, rfl⟩ <;> simp [Stage.Sound, queryFrom]
  case listed hs =>
    obtain ⟨hr, _⟩ := h.outstanding (by simp [hs, Stage.Ended])
    simp only [hs, Stage.outstanding, List.append_nil] at hr ⊢
    rw [hr]
    refine ⟨_, h.answer h.written_executed ?_⟩
    have listed : Answers c s ⟨.query, s.executed, s.transactions.length⟩ _ := .listed rfl le_rfl le_rfl
    rwa [List.take_length] at listed
  case asked msg query request hs hq hreq =>
    subst hreq
    obtain ⟨hr, _⟩ := h.outstanding (by simp [hs, Stage.Ended])
    refine ⟨answered, ⟨[_], ?_, le_rfl, fun _ => rfl, ?_⟩, h.answers, h.ordered, hq, le_rfl⟩
    · simp [hr, hs, Stage.outstanding]
    · simpa using fun w n hw => h.written_executed (w, n) hw
  case dripped hs => exact ⟨answered, h.restage (by simp [hs, Stage.Ended]) (by simp [hs, Stage.outstanding]) rfl⟩
  case queried query purpose hs =>
    refine ⟨answered, h.restage (by simp [hs, Stage.Ended]) (by cases purpose <;> simp [hs, Stage.outstanding]) ?_⟩
    have sound := h.sound
    rw [hs] at sound
    exact sound
  case told hs =>
    refine ⟨answered, h.restage (by simp [hs, Stage.Ended]) (by simp [hs, Stage.outstanding]) ?_⟩
    simp [Stage.Sound, queryFrom]
  case passed hs => exact ⟨answered, h.restage (by simp [hs, Stage.Ended]) (by simp [hs, Stage.outstanding]) True.intro⟩
  case replied query request response n msg hs hm =>
    obtain ⟨hr, hw⟩ := h.outstanding (by simp [hs, Stage.Ended])
    obtain ⟨⟨hq, _⟩, hn, read⟩ : Stage.Sound c s (.answered query (.client request) response n) := hs ▸ h.sound
    simp only [hs, Stage.outstanding, List.mem_singleton, forall_eq] at hr hw
    rw [hr]
    exact ⟨_, h.answer hw (.read hq hn read hm)⟩

end Session

theorem Stepped.grows (h : Stepped s s') : Grows s s' := by
  cases h
  case turn turned =>
    refine ⟨?_, turned.noted.transactions, turned.faucetKey⟩
    rw [turned.task]
  case answered => exact .of_same rfl rfl rfl
  case dropped  => exact .of_same rfl rfl rfl
  case kept     => exact .of_same rfl rfl rfl
  case sent     => exact .of_same rfl rfl rfl
  case handled e _ _ =>
    refine ⟨?_, List.prefix_refl _, rfl⟩
    rcases (s.task.step_stepped e).applied with h | ⟨_, _, _, _, _, _, _, h⟩
    · exact h ▸ List.prefix_refl _
    · exact h ▸ List.prefix_append _ _

section Mailbox

variable {conn conn' : Connection} {sent : List ReplicaInBound} (ht : Turn s k conn conn' sent)
  (hs : conn.stage.Sound c s)

include ht hs

omit [Sha256] in
theorem Turn.queries_of_ne {k' : Conn} (hk : k' ≠ k) : sent.filterMap (queryFrom k') = [] := by
  cases ht
  case queried => simp [queryFrom, hk.symm]
  case passed h =>
    rw [h] at hs
    simp [hs k']
  all_goals rfl

omit [Sha256] in
-- There is no query on the way but the one whose response the task waits for.
theorem Turn.queries {l : List ClientQuery} (hn : s.task.panicked = false) (hl : l.Sublist conn.stage.query) :
    (l ++ sent.filterMap (queryFrom k)).Sublist conn'.stage.query := by
  cases ht
  case none => simpa using hl
  case closed h =>
    rcases h with h | h | ⟨_, _, _, _, h⟩
    · simp [replicaGone, hn] at h
    · simpa [h, Stage.query] using hl
    · simpa [h, Stage.query] using hl
  case failed h =>
    have hl : l = [] := by rcases h with h | ⟨_, _, _, _, _, h⟩ <;> simpa [h, Stage.query] using hl
    simp [hl]
  case handled h h' =>
    have hl : l = [] := by rcases h with h | ⟨_, _, _, _, _, h⟩ <;> simpa [h, Stage.query] using hl
    simp [hl]
  case listed      => simpa using hl
  case asked h _ _ => simpa [h, Stage.query] using hl
  case dripped h   => simpa [h, Stage.query] using hl
  case replied h _ => simpa [h, Stage.query] using hl
  case queried h =>
    have hl : l = [] := by simpa [h, Stage.query] using hl
    simp [hl, queryFrom, Stage.query]
  case told h => simpa [h, Stage.query] using hl
  case passed h =>
    have hl : l = [] := by simpa [h, Stage.query] using hl
    rw [h] at hs
    simp [hl, hs k]

end Mailbox

structure SessionInvariant (c : Config) (nodeId : PeerId) (s : Service) : Prop where
  executes : s.task.panicked = false → Executes (.new c nodeId) s.task.replica
  mailbox  : s.task.panicked = false → ∀ k, (s.mailbox.filterMap (queryFrom k)).Sublist (s.connections k).stage.query
  sessions : ∀ k, ∃ answered, Session c s (s.connections k) answered

namespace SessionInvariant

variable {nodeId : PeerId}

theorem turned (h : SessionInvariant c nodeId s) (ht : Turned s k s') (hg : Grows s s') :
    SessionInvariant c nodeId s' := by
  obtain ⟨⟨sent, turn, hm⟩, others, task, _⟩ := ht
  obtain ⟨answered, session⟩ := h.sessions k
  refine ⟨by rw [task]; exact h.executes, fun hn k' => ?_, fun k' => ?_⟩
  · rw [task] at hn
    rw [hm, List.filterMap_append]
    by_cases hk : k' = k
    case pos => exact hk ▸ turn.queries session.sound hn (h.mailbox hn k)
    case neg =>
      rw [turn.queries_of_ne session.sound hk, List.append_nil, others k' hk]
      exact h.mailbox hn k'
  · by_cases hk : k' = k
    case pos =>
      obtain ⟨answered', session'⟩ := session.turn turn
      exact ⟨answered', hk ▸ hg.session session'⟩
    case neg =>
      obtain ⟨answered, session⟩ := h.sessions k'
      exact ⟨answered, others k' hk ▸ hg.session session⟩

-- The step leaves the connections as they are, and hands no query to the replica.
theorem of_connections (h : SessionInvariant c nodeId s) (hg : Grows s s') (hc : s'.connections = s.connections)
    (hp : s'.task.panicked = false → s.task.panicked = false)
    (he : s'.task.panicked = false → Executes s.task.replica s'.task.replica)
    (hm : ∀ k, (s'.mailbox.filterMap (queryFrom k)).Sublist (s.mailbox.filterMap (queryFrom k))) :
    SessionInvariant c nodeId s' where
  executes hn := (h.executes (hp hn)).trans (he hn)
  mailbox hn k := hc ▸ (hm k).trans (h.mailbox (hp hn) k)
  sessions k := by
    obtain ⟨answered, session⟩ := h.sessions k
    exact ⟨answered, hc ▸ hg.session session⟩

theorem read (h : SessionInvariant c nodeId s) (hn : s.task.panicked = false) (query : ClientQuery) :
    Read c s query (s.task.replica.ledgerState.handleQuery query) s.executed := by
  obtain ⟨bs, ts, ns, ha, hl, _⟩ := h.executes hn
  refine ⟨le_rfl, _, ⟨ts, ns, ?_⟩, rfl⟩
  rw [executed, List.take_length, ha]
  exact hl

theorem answered (h : SessionInvariant c nodeId s) {query query' : ClientQuery} {purpose : Purpose}
    {rest : List ReplicaInBound} (hl : s.Listening) (hm : s.mailbox = .query query k :: rest)
    (hs : (s.connections k).stage = .waiting query' purpose) :
    SessionInvariant c nodeId ({ s with mailbox := rest }.setStage k
      (.answered query purpose (s.task.replica.ledgerState.handleQuery query) s.executed)) := by
  have mailbox := h.mailbox hl.1 k
  simp only [hm, hs, queryFrom, Stage.query, List.filterMap_cons, ↓reduceIte, List.sublist_singleton,
    reduceCtorEq, false_or, List.cons.injEq] at mailbox
  obtain ⟨rfl, hrest⟩ := mailbox
  have hg : Grows s ({ s with mailbox := rest }.setStage k
      (.answered query purpose (s.task.replica.ledgerState.handleQuery query) s.executed)) := .of_same rfl rfl rfl
  refine ⟨h.executes, fun _ k' => ?_, fun k' => ?_⟩
  · by_cases hk : k' = k
    case pos =>
      subst hk
      show (rest.filterMap _).Sublist _
      rw [hrest]
      exact List.nil_sublist _
    case neg =>
      have mailbox := h.mailbox hl.1 k'
      simp only [hm, queryFrom, List.filterMap_cons, Ne.symm hk, ↓reduceIte] at mailbox
      simpa [setStage, setConnection, hk, queryFrom] using mailbox
  · obtain ⟨answered, session⟩ := h.sessions k'
    refine ⟨answered, hg.session ?_⟩
    by_cases hk : k' = k
    case neg => simpa [setStage, setConnection, hk] using session
    case pos =>
      subst hk
      have sound : purpose.For s query := by
        have sound := session.sound
        rwa [hs] at sound
      have since : purpose.since ≤ s.executed := by
        cases purpose
        case client => exact sound.2
        case drip   => exact Nat.zero_le _
      have outstanding : ∀ response n, Stage.outstanding (.answered query purpose response n) =
          (s.connections k').stage.outstanding := by
        intro response n
        cases purpose <;> simp [hs, Stage.outstanding]
      simpa [setStage, setConnection] using
        session.restage (by simp [hs, Stage.Ended]) (outstanding _ _) ⟨sound, since, h.read hl.1 query⟩

theorem stepped (h : SessionInvariant c nodeId s) (hs : Stepped s s') : SessionInvariant c nodeId s' := by
  have hg := hs.grows
  cases hs
  case turn turned         => exact h.turned turned hg
  case answered hl hm hs   => exact h.answered hl hm hs
  case dropped hl hm hd =>
    refine h.of_connections hg rfl (fun _ => hl.1) (fun _ => .of_same rfl rfl rfl) fun k => ?_
    rw [hm]
    exact (List.sublist_cons_self _ _).filterMap _
  case handled hl hm =>
    exact h.of_connections hg rfl (fun _ => hl.1) Executes.step fun k => hm.suffix.sublist.filterMap _
  case kept =>
    refine h.of_connections hg rfl id (fun _ => .of_same rfl rfl rfl) fun k => ?_
    simp [queryFrom]
  case sent => exact h.of_connections hg rfl id (fun _ => .of_same rfl rfl rfl) fun k => List.Sublist.refl _

theorem new (c : Config) (nodeId : PeerId) (faucetKey : SigningKey) :
    SessionInvariant c nodeId (.new c nodeId faucetKey) where
  executes _ := .of_same rfl rfl rfl
  mailbox _ _ := List.nil_sublist _
  sessions _ := ⟨[], .new _ _⟩

theorem run (c : Config) (nodeId : PeerId) (faucetKey : SigningKey) (es : List Event) :
    SessionInvariant c nodeId (es.foldl step (.new c nodeId faucetKey)) := by
  induction es using List.reverseRecOn
  case nil => exact new c nodeId faucetKey
  case append_singleton es e hi =>
    rw [List.foldl_append]
    exact hi.stepped (step_stepped _ e)

end SessionInvariant

-- The requests of a client are answered one after the other, and what a later answer tells is at least as
-- new as what an earlier one told.
theorem clients_read_forward (c : Config) (nodeId : PeerId) (faucetKey : SigningKey) (es : List Event) (k : Conn) :
    let s := es.foldl step (.new c nodeId faucetKey)
    ∃ answered rest,
      (s.connections k).requests = answered ++ rest ∧ rest.length ≤ 1 ∧
      ((s.connections k).stage = .reading → rest = []) ∧
      List.Forall₂ (Answers c s) answered (s.connections k).written ∧
      (answered.zip (s.connections k).written).Pairwise fun a b => a.2.2 ≤ b.1.executed := by
  intro s
  obtain ⟨answered, session⟩ := (SessionInvariant.run c nodeId faucetKey es).sessions k
  obtain ⟨rest, hr, hl, hrest, _⟩ := session.requests
  refine ⟨answered, rest, hr, hl, fun hs => ?_, session.answers, session.ordered⟩
  rw [hs] at hrest
  exact hrest (by simp [Stage.Ended])

end Superliquid.Service

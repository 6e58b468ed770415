import Superliquid.Hotstuff.Theorems.Digests
import Superliquid.Node.Cluster
import Superliquid.Node.Theorems.Turns

namespace Superliquid

namespace Service

variable [Sha256] [Ed25519] {s s' : Service} {k : Conn}

omit [Sha256] [Ed25519] in
theorem Broadcasting.unique {txn txn' : SignedTransaction} (h : s.Broadcasting k txn) (h' : s.Broadcasting k txn') :
    txn = txn' :=
  Stage.broadcasting.inj (h.symm.trans h')

-- A node has noted nothing twice. What it has noted it has broadcast once, or one of its tasks is about to.
structure NotedOnce (s : Service) : Prop where
  nodup     : (s.transactions.map (·.tx.hash)).Nodup
  seen      : ∀ h, h ∈ s.seenTransactions ↔ h ∈ s.transactions.map (·.tx.hash)
  once      : s.broadcasts.Nodup
  accounted : ∀ txn, txn ∈ s.transactions ↔ txn ∈ s.broadcasts ∨ ∃ k, s.Broadcasting k txn
  pending   : ∀ k txn, s.Broadcasting k txn → txn ∉ s.broadcasts
  single    : ∀ k k' txn, s.Broadcasting k txn → s.Broadcasting k' txn → k = k'

namespace NotedOnce

omit [Ed25519] in
theorem seen_of_mem (h : NotedOnce s) {txn : SignedTransaction} (ht : txn ∈ s.transactions) :
    txn.tx.hash ∈ s.seenTransactions :=
  (h.seen _).mpr (List.mem_map_of_mem ht)

omit [Ed25519] in
theorem new_transaction {conn : Conn} {txn : SignedTransaction} (h : NotedOnce s)
    (hnew : txn.tx.hash ∉ s.seenTransactions)
    (hs : s'.seenTransactions = insert txn.tx.hash s.seenTransactions)
    (ht : s'.transactions = s.transactions ++ [txn]) (hb : s'.broadcasts = s.broadcasts)
    (hq : ∀ k txn', s'.Broadcasting k txn' ↔ (k = conn ∧ txn' = txn) ∨ s.Broadcasting k txn') : NotedOnce s' := by
  have fresh : txn ∉ s.transactions := fun hm => hnew (h.seen_of_mem hm)
  have idle (k : Conn) : ¬s.Broadcasting k txn := fun hk => fresh ((h.accounted txn).mpr (.inr ⟨k, hk⟩))
  constructor
  case nodup =>
    rw [h.seen] at hnew
    rw [ht, List.map_append, List.map_singleton, List.nodup_append_comm]
    exact List.nodup_cons.mpr ⟨hnew, h.nodup⟩
  case seen =>
    intro x
    rw [hs, ht, Finset.mem_insert, h.seen, List.map_append, List.mem_append, or_comm]
    simp
  case once => exact hb ▸ h.once
  case accounted =>
    intro txn'
    simp only [ht, hb, hq, List.mem_append, List.mem_singleton, h.accounted txn', exists_or, or_assoc]
    refine or_congr_right ?_
    rw [or_comm]
    simp
  case pending =>
    intro k txn' hk
    rw [hb]
    rcases (hq k txn').mp hk with ⟨_, rfl⟩ | hk
    · exact fun hm => fresh ((h.accounted txn').mpr (.inl hm))
    · exact h.pending k txn' hk
  case single =>
    intro k k' txn' hk hk'
    rcases (hq k txn').mp hk with ⟨rfl, rfl⟩ | hk <;> rcases (hq k' txn').mp hk' with ⟨rfl, hx⟩ | hk'
    · rfl
    · exact absurd hk' (idle k')
    · exact absurd (hx ▸ hk) (idle k)
    · exact h.single k k' txn' hk hk'

omit [Ed25519] in
theorem told {conn : Conn} {txn : SignedTransaction} (h : NotedOnce s) (hc : s.Broadcasting conn txn)
    (hs : s'.seenTransactions = s.seenTransactions) (ht : s'.transactions = s.transactions)
    (hb : s'.broadcasts = s.broadcasts ++ [txn])
    (hq : ∀ k txn', s'.Broadcasting k txn' ↔ k ≠ conn ∧ s.Broadcasting k txn') : NotedOnce s' := by
  constructor
  case nodup => exact ht ▸ h.nodup
  case seen  => exact hs ▸ ht ▸ h.seen
  case once =>
    rw [hb, List.nodup_append_comm]
    exact List.nodup_cons.mpr ⟨h.pending conn txn hc, h.once⟩
  case accounted =>
    intro txn'
    rw [ht, h.accounted, hb, List.mem_append, List.mem_singleton, or_assoc]
    refine or_congr_right ⟨?_, ?_⟩
    · rintro ⟨k, hk⟩
      by_cases hkc : k = conn
      case pos => exact .inl (Broadcasting.unique (hkc ▸ hk) hc)
      case neg => exact .inr ⟨k, (hq k txn').mpr ⟨hkc, hk⟩⟩
    · rintro (rfl | ⟨k, hk⟩)
      · exact ⟨conn, hc⟩
      · exact ⟨k, ((hq k txn').mp hk).2⟩
  case pending =>
    intro k txn' hk
    have ⟨hkc, hk⟩ := (hq k txn').mp hk
    rw [hb, List.mem_append, List.mem_singleton]
    rintro (hm | rfl)
    · exact h.pending k txn' hk hm
    · exact hkc (h.single k conn txn' hk hc)
  case single =>
    intro k k' txn' hk hk'
    exact h.single k k' txn' ((hq k txn').mp hk).2 ((hq k' txn').mp hk').2

theorem of_noted (h : NotedOnce s) (hn : Noted s s') : NotedOnce s' := by
  cases hn
  case none hs ht hb hq =>
    constructor
    case nodup     => exact ht ▸ h.nodup
    case seen      => exact hs ▸ ht ▸ h.seen
    case once      => exact hb ▸ h.once
    case accounted => simpa only [ht, hb, hq] using h.accounted
    case pending   => simpa only [hb, hq] using h.pending
    case single    => simpa only [hq] using h.single
  case new hnew hs ht hb _ hq => exact h.new_transaction hnew hs ht hb hq
  case told hc hs ht hb hq    => exact h.told hc hs ht hb hq

theorem new {c : Config} {nodeId : PeerId} {faucetKey : SigningKey} : NotedOnce (.new c nodeId faucetKey) := by
  constructor <;> simp [Service.new, Connection.new, Broadcasting]

theorem run (c : Config) (nodeId : PeerId) (faucetKey : SigningKey) (es : List Event) :
    NotedOnce (es.foldl step (.new c nodeId faucetKey)) := by
  induction es using List.reverseRecOn
  case nil => exact .new
  case append_singleton es e hi =>
    rw [List.foldl_append]
    exact hi.of_noted (step_stepped _ e).noted

omit [Ed25519] in
-- With as many broadcasts as transactions, no task is about to broadcast one.
theorem idle (h : NotedOnce s) (hl : s.transactions.length ≤ s.broadcasts.length) (k : Conn)
    (txn : SignedTransaction) : ¬s.Broadcasting k txn := by
  intro hk
  have hsub : s.broadcasts ⊆ s.transactions := fun txn ht => (h.accounted txn).mpr (.inl ht)
  have hperm := (h.once.subperm hsub).perm_of_length_le hl
  exact h.pending k txn hk (hperm.mem_iff.mpr ((h.accounted txn).mpr (.inr ⟨k, hk⟩)))

end NotedOnce

-- A transaction counts by what is signed. Whoever signs it first, even wrongly, keeps out all other copies.
theorem transactions_noted_once (c : Config) (nodeId : PeerId) (faucetKey : SigningKey) (es : List Event) :
    let s := es.foldl step (.new c nodeId faucetKey)
    NotedOnce s ∧ ((∀ k txn, ¬s.Broadcasting k txn) → s.broadcasts.Perm s.transactions) := by
  intro s
  have once := NotedOnce.run c nodeId faucetKey es
  refine ⟨once, fun idle => ?_⟩
  rw [List.perm_ext_iff_of_nodup once.once once.nodup.of_map]
  intro txn
  rw [once.accounted, or_iff_left fun ⟨k, hk⟩ => idle k txn hk]

-- The task of a peer never asks the replica for anything.
inductive Stage.OfPeer : Stage → Prop
  | reading      : OfPeer .reading
  | broadcasting : OfPeer (.broadcasting txn)
  | forwarding   : OfPeer (.forwarding msg)
  | closed       : OfPeer .closed

section Peer

variable {i : PeerId} (ho : (s.connections (.peer i)).stage.OfPeer)

include ho

theorem proceed_peer :
    let c := (s.proceed (.peer i)).connections (.peer i)
    c.stage.OfPeer ∧ (c.stage = .closed → (s.connections (.peer i)).stage = .closed ∨ s.task.panicked = true) := by
  generalize hs : (s.connections (.peer i)).stage = stage at ho
  cases ho
  case reading =>
    simp only [proceed, hs]
    exact ⟨.reading, by simp⟩
  case closed =>
    simp only [proceed, hs]
    exact ⟨.closed, by simp⟩
  case broadcasting txn =>
    simp only [proceed, hs, broadcastTransaction, setStage, setConnection, Function.update_self]
    exact ⟨.forwarding, by simp⟩
  case forwarding msg =>
    simp only [proceed, hs, sendToReplica]
    split
    case isTrue hg =>
      refine ⟨?_, fun _ => .inr hg.1⟩
      simpa [close, setStage, setConnection] using .closed
    case isFalse =>
      split
      case isTrue =>
        simp only [setStage, setConnection, Function.update_self]
        exact ⟨.reading, by simp⟩
      case isFalse =>
        rw [hs]
        exact ⟨.forwarding, by simp⟩

theorem receive_peer {order : HotStuffReplica.TallyOrder} :
    (s.receive order).connections (.peer i) = s.connections (.peer i) := by
  unfold receive
  split
  case h_1 => rfl
  case h_2 msg _ _ =>
    cases msg
    case hotStuff    => rfl
    case transaction => rfl
    case query conn _ =>
      simp only [answerQuery]
      split
      case h_1 => rfl
      case h_2 =>
        split
        case h_2 => rfl
        case h_1 hw =>
          have hne : .peer i ≠ conn := by
            rintro rfl
            rw [hw] at ho
            cases ho
          simp [setStage, setConnection, hne]

-- The connection of a peer is closed by the peer, or with the replica.
theorem step_peer {e : Event} (he : ∀ incoming, e ≠ .arrive (.peer i) incoming) :
    let c := (s.step e).connections (.peer i)
    c.stage.OfPeer ∧ (c.stage = .closed → (s.connections (.peer i)).stage = .closed ∨ s.task.panicked = true) := by
  have same {c : Connection} (hc : c = s.connections (.peer i)) : c.stage.OfPeer ∧
      (c.stage = .closed → (s.connections (.peer i)).stage = .closed ∨ s.task.panicked = true) := by
    subst hc
    exact ⟨ho, .inl⟩
  cases e
  case arrive k incoming =>
    simp only [step]
    split
    case h_2 => exact same rfl
    case h_1 hr =>
      refine same ((read_turned hr).others _ ?_)
      rintro rfl
      exact he incoming rfl
  case proceed k =>
    by_cases hk : .peer i = k
    case pos => exact hk ▸ proceed_peer ho
    case neg => exact same (proceed_turned.others _ hk)
  case receive =>
    simp only [step]
    split
    case isTrue  => exact same (receive_peer ho)
    case isFalse => exact same rfl
  case emit =>
    refine same ?_
    simp only [step]
    unfold emit
    split
    case h_1 => rfl
    case h_2 => split <;> rfl
    case h_3 => rfl
  case timeout =>
    simp only [step]
    split <;> exact same rfl

end Peer

-- A message from a peer is handled.
theorem arrive_peer {i : PeerId} {msg : Message} (hr : (s.connections (.peer i)).stage = .reading)
    (hv : ∀ txn, msg = Cluster.submit txn → ∃ valid, txn.verifySender = .ok valid) :
    let s' := s.step (.arrive (.peer i) (.message msg))
    (s'.connections (.peer i)).stage.OfPeer ∧ (s'.connections (.peer i)).stage ≠ .closed ∧
      ∀ txn, msg = Cluster.submit txn → txn.tx.hash ∈ s'.seenTransactions := by
  simp only [step, hr, read]
  unfold handlePeerConnection
  split
  case h_1 =>
    simp only [setStage, setConnection, Function.update_self]
    exact ⟨.forwarding, by simp, by simp [Cluster.submit]⟩
  case h_3 hn =>
    rw [hr]
    exact ⟨.reading, by simp, fun txn he => absurd he (hn txn)⟩
  case h_2 txn =>
    obtain ⟨valid, hv⟩ := hv txn rfl
    simp only [handleTransaction, hv]
    split
    case isTrue =>
      simp only [setStage, setConnection, Function.update_self]
      exact ⟨.broadcasting, by simp, by simp [Cluster.submit]⟩
    case isFalse hs =>
      simp only [setStage, setConnection, Function.update_self]
      refine ⟨.reading, by simp, fun txn' he => ?_⟩
      cases he
      simpa using hs

end Service

namespace Cluster

open Service

variable [Sha256] [Ed25519] {peers : PeerId → List PeerId} {c : Cluster}

-- A node sends to a peer that listens.
def Linked (c : Cluster) (i j : PeerId) : Prop :=
  j ∈ c.peerConnections i ∧ ((c.services j).connections (.peer i)).stage ≠ .closed

-- One of the two replicas is gone.
def Failed (c : Cluster) (i j : PeerId) : Prop :=
  (c.services i).task.panicked = true ∨ (c.services j).task.panicked = true

-- What a node has seen, the peers that it is linked to have seen or are being told. Links break only where a
-- replica is gone.
structure GossipInvariant (peers : PeerId → List PeerId) (c : Cluster) : Prop where
  stages  : ∀ i j, ((c.services j).connections (.peer i)).stage.OfPeer
  closed  : ∀ i j, ((c.services j).connections (.peer i)).stage = .closed → c.Failed i j
  sockets : ∀ i j, j ∈ c.peerConnections i → j ∈ peers i
  dropped : ∀ i j, j ∈ peers i → j ∉ c.peerConnections i → c.Failed i j
  sound   : ∀ i j txn, submit txn ∈ c.wires i j → ∃ valid, txn.verifySender = .ok valid
  pending : ∀ i k txn, (c.services i).Broadcasting k txn → ∃ valid, txn.verifySender = .ok valid
  noted   : ∀ i, NotedOnce (c.services i)
  spread  : ∀ i j, c.Linked i j → ∀ h ∈ (c.services i).seenTransactions, h ∈ (c.services j).seenTransactions ∨
    (∃ txn, submit txn ∈ c.wires i j ∧ txn.tx.hash = h) ∨
    ∃ k txn, (c.services i).Broadcasting k txn ∧ txn.tx.hash = h

theorem perform_services (nodeId k : PeerId) (e : Service.Event) :
    (c.perform nodeId e).services k = if k = nodeId then (c.services nodeId).step e else c.services k := by
  simp only [perform, Function.update_apply]

-- A node takes a step, or stays as it is.
theorem perform_stepped (nodeId k : PeerId) (e : Service.Event) :
    (c.services k).Stepped ((c.perform nodeId e).services k) := by
  rw [perform_services]
  split
  case isTrue hk => exact hk ▸ step_stepped _ e
  case isFalse   => exact .refl

theorem Failed.perform {nodeId i j : PeerId} {e : Service.Event} (h : c.Failed i j) :
    (c.perform nodeId e).Failed i j := by
  have panicked {k : PeerId} (hp : (c.services k).task.panicked = true) :
      ((c.perform nodeId e).services k).task.panicked = true := by
    by_contra hn
    simp [(perform_stepped nodeId k e).panicked (Bool.eq_false_of_not_eq_true hn)] at hp
  exact h.imp panicked panicked

theorem submit_sent {s s' : Service} (h : Noted s s') {txn : SignedTransaction} {peerId : PeerId}
    (ht : submit txn ∈ sent s s' peerId) : ∃ k, s.Broadcasting k txn := by
  have quiet {out : Outbound} : submit txn ∉ addressed peerId out := by
    cases out <;> simp [addressed, submit]
  simp only [sent, List.mem_append, List.mem_map, List.mem_flatMap] at ht
  rcases ht with ⟨txn', ht, he⟩ | ⟨out, _, ht⟩
  · cases he
    cases h
    case none hb _    => simp [hb] at ht
    case new hb _ _   => simp [hb] at ht
    case told hc _ _ hb _ =>
      simp only [hb, List.drop_left, List.mem_singleton] at ht
      exact ht ▸ ⟨_, hc⟩
  · exact absurd ht quiet

theorem perform_wires {nodeId i j : PeerId} {e : Service.Event} {msg : Service.Message} (h : msg ∈ c.wires i j) :
    msg ∈ (c.perform nodeId e).wires i j := by
  simp only [perform]
  split
  case isTrue  => exact List.mem_append_left _ h
  case isFalse => exact h

-- What a node notes is about to be broadcast.
theorem perform_noted {nodeId i : PeerId} {e : Service.Event} {h : Sha256Hash}
    (hh : h ∈ ((c.perform nodeId e).services i).seenTransactions) : h ∈ (c.services i).seenTransactions ∨
      ∃ k txn, ((c.perform nodeId e).services i).Broadcasting k txn ∧ txn.tx.hash = h := by
  cases (perform_stepped nodeId i e).noted
  case none hs _ _ _ => exact .inl (hs ▸ hh)
  case told hs _ _ _ => exact .inl (hs ▸ hh)
  case new txn conn _ _ _ hs _ _ _ hq =>
    rw [hs, Finset.mem_insert] at hh
    rcases hh with rfl | hh
    · exact .inr ⟨conn, txn, (hq conn txn).mpr (.inl ⟨rfl, rfl⟩), rfl⟩
    · exact .inl hh

-- What is about to be broadcast is sent to all peers whose sockets are there.
theorem perform_told {nodeId i j : PeerId} {e : Service.Event} (hj : j ∈ c.peerConnections i) {k : Conn}
    {txn : SignedTransaction} (hk : (c.services i).Broadcasting k txn) :
    ((c.perform nodeId e).services i).Broadcasting k txn ∨ submit txn ∈ (c.perform nodeId e).wires i j := by
  rw [perform_services]
  split
  case isFalse => exact .inl hk
  case isTrue hi =>
    subst hi
    cases (step_stepped (c.services i) e).noted
    case none hq       => exact .inl ((hq k txn).mpr hk)
    case new hq        => exact .inl ((hq k txn).mpr (.inr hk))
    case told conn txn' hc _ _ hb hq =>
      by_cases hkc : k = conn
      case neg => exact .inl ((hq k txn).mpr ⟨hkc, hk⟩)
      case pos =>
        subst hkc
        refine .inr ?_
        simp [perform, hj, sent, hb, hk.unique hc]

theorem perform_pending {nodeId i : PeerId} {e : Service.Event} {k : Conn} {txn : SignedTransaction}
    (h : ((c.perform nodeId e).services i).Broadcasting k txn) :
    (c.services i).Broadcasting k txn ∨ ∃ valid, txn.verifySender = .ok valid := by
  cases (perform_stepped nodeId i e).noted
  case none hq         => exact .inl ((hq k txn).mp h)
  case told hq         => exact .inl ((hq k txn).mp h).2
  case new hv _ _ _ _ _ hq =>
    rcases (hq k txn).mp h with ⟨_, rfl⟩ | h
    · exact .inr ⟨_, hv⟩
    · exact .inl h

-- The invariant after a step of a node, in which something that is on the way may have been read.
theorem GossipInvariant.of_perform {c₀ : Cluster} {nodeId : PeerId} {e : Service.Event} (h : GossipInvariant peers c₀)
    (hc : c.services = c₀.services) (hs : c.peerConnections = c₀.peerConnections)
    (hw : ∀ i j msg, msg ∈ c.wires i j → msg ∈ c₀.wires i j)
    (hpeer : ∀ i, let conn := ((c.services nodeId).step e).connections (.peer i)
      conn.stage.OfPeer ∧ (conn.stage = .closed →
        ((c.services nodeId).connections (.peer i)).stage = .closed ∨ c.Failed i nodeId))
    (hread : ∀ i j txn, submit txn ∈ c₀.wires i j → submit txn ∈ c.wires i j ∨
      txn.tx.hash ∈ ((c.perform nodeId e).services j).seenTransactions) :
    GossipInvariant peers (c.perform nodeId e) := by
  have failed {i j : PeerId} (hf : c₀.Failed i j) : (c.perform nodeId e).Failed i j := by
    refine Failed.perform ?_
    rwa [Failed, hc]
  constructor
  case stages =>
    intro i j
    rw [perform_services]
    split
    case isTrue hj => exact (hpeer i).1
    case isFalse   => exact hc ▸ h.stages i j
  case closed =>
    intro i j hclosed
    rw [perform_services] at hclosed
    split at hclosed
    case isFalse => exact failed (h.closed i j (hc ▸ hclosed))
    case isTrue hj =>
      subst hj
      rcases (hpeer i).2 hclosed with hclosed | hf
      · exact failed (h.closed i j (hc ▸ hclosed))
      · exact hf.perform
  case sockets => exact hs ▸ h.sockets
  case dropped => exact fun i j hj hn => failed (h.dropped i j hj (hs ▸ hn))
  case sound =>
    intro i j txn ht
    simp only [perform] at ht
    split at ht
    case isFalse => exact h.sound i j txn (hw i j _ ht)
    case isTrue =>
      rcases List.mem_append.mp ht with ht | ht
      · exact h.sound i j txn (hw i j _ ht)
      · obtain ⟨k, hk⟩ := submit_sent (step_stepped _ e).noted ht
        exact h.pending nodeId k txn (hc ▸ hk)
  case pending =>
    intro i k txn hk
    rcases perform_pending hk with hk | hv
    · exact h.pending i k txn (hc ▸ hk)
    · exact hv
  case noted => exact fun i => (hc ▸ h.noted i).of_noted (perform_stepped nodeId i e).noted
  case spread =>
    intro i j hl x hx
    have hj : j ∈ c.peerConnections i := hl.1
    have hl₀ : c₀.Linked i j := by
      refine ⟨hs ▸ hj, fun hclosed => hl.2 ((perform_stepped nodeId j e).closed ?_)⟩
      rwa [hc]
    rcases perform_noted hx with hx | hx
    case inr => exact .inr (.inr hx)
    rcases h.spread i j hl₀ x (hc ▸ hx) with hx | ⟨txn, ht, rfl⟩ | ⟨k, txn, hk, rfl⟩
    · exact .inl ((perform_stepped nodeId j e).noted.seen_mono (hc ▸ hx))
    · rcases hread i j txn ht with ht | hx
      · exact .inr (.inl ⟨txn, perform_wires ht, rfl⟩)
      · exact .inl hx
    · have told : ((c.perform nodeId e).services i).Broadcasting k txn ∨ submit txn ∈ (c.perform nodeId e).wires i j :=
        perform_told hj (hc ▸ hk)
      rcases told with hk | ht
      · exact .inr (.inr ⟨k, txn, hk, rfl⟩)
      · exact .inr (.inl ⟨txn, ht, rfl⟩)

theorem GossipInvariant.new {cfg : Config} {faucetKey : SigningKey} :
    GossipInvariant peers (.new peers cfg faucetKey) := by
  constructor
  case stages  => exact fun _ _ => .reading
  case closed  => simp [Cluster.new, Service.new, Connection.new]
  case sockets => exact fun _ _ hj => hj
  case dropped => exact fun i j hj hn => absurd hj hn
  case sound   => simp [Cluster.new]
  case pending => simp [Cluster.new, Service.new, Connection.new, Broadcasting]
  case noted   => exact fun _ => .new
  case spread  => simp [Cluster.new, Service.new]

-- The tasks of the peers that nothing arrives from.
theorem GossipInvariant.stays (h : GossipInvariant peers c) {i nodeId : PeerId} {e : Service.Event}
    (he : ∀ incoming, e ≠ .arrive (.peer i) incoming) :
    let conn := ((c.services nodeId).step e).connections (.peer i)
    conn.stage.OfPeer ∧ (conn.stage = .closed →
      ((c.services nodeId).connections (.peer i)).stage = .closed ∨ c.Failed i nodeId) := by
  obtain ⟨ofPeer, hclosed⟩ := step_peer (h.stages i nodeId) he
  exact ⟨ofPeer, fun hc => (hclosed hc).imp_right .inr⟩

theorem GossipInvariant.local (h : GossipInvariant peers c) (nodeId : PeerId) {e : Service.Event}
    (he : ∀ i incoming, e ≠ .arrive (.peer i) incoming) : GossipInvariant peers (c.perform nodeId e) :=
  h.of_perform rfl rfl (fun _ _ _ hm => hm) (fun i => h.stays (he i)) (fun _ _ _ => .inl)

-- One wire is replaced by what is left on it.
omit [Sha256] [Ed25519] in
theorem mem_wires_of_update {source target i j : PeerId} {wire : List Service.Message} {msg : Service.Message}
    (hw : ∀ m ∈ wire, m ∈ c.wires source target)
    (hm : msg ∈ Function.update c.wires source (Function.update (c.wires source) target wire) i j) :
    msg ∈ c.wires i j := by
  simp only [Function.update_apply] at hm
  split at hm
  case isFalse => exact hm
  case isTrue hi =>
    subst hi
    rw [Function.update_apply] at hm
    split at hm
    case isFalse   => exact hm
    case isTrue hj => exact hj ▸ hw msg hm

theorem GossipInvariant.deliver (h : GossipInvariant peers c) (source target : PeerId) (index : Nat) :
    GossipInvariant peers (c.deliver source target index) := by
  simp only [Cluster.deliver]
  split
  case h_2 => exact h
  case h_1 msg hm hr =>
    have hmem := List.mem_of_getElem? hm
    have arrived := arrive_peer hr (fun txn ht => h.sound source target txn (ht ▸ hmem))
    refine h.of_perform rfl rfl (fun i j _ => mem_wires_of_update fun _ => List.mem_of_mem_eraseIdx) (fun i => ?_) ?_
    · by_cases hi : i = source
      case pos => subst hi; exact ⟨arrived.1, fun hclosed => absurd hclosed arrived.2.1⟩
      case neg => exact h.stays fun _ he => by cases he; exact hi rfl
    · intro i j txn ht
      by_cases hij : i = source ∧ j = target
      case neg =>
        refine .inl ?_
        simp only [Function.update_apply]
        split
        case isFalse => exact ht
        case isTrue hi =>
          subst hi
          rwa [Function.update_of_ne (hij ⟨rfl, ·⟩)]
      case pos =>
        obtain ⟨rfl, rfl⟩ := hij
        -- What was taken off the wire is either this transaction or another message.
        obtain ⟨n, hn⟩ := List.mem_iff_getElem?.mp ht
        by_cases he : n = index
        case pos =>
          subst he
          rw [hm] at hn
          cases hn
          refine .inr ?_
          rw [perform_services, if_pos rfl]
          exact arrived.2.2 txn rfl
        case neg =>
          refine .inl ?_
          simp only [Function.update_self]
          exact List.mem_eraseIdx_iff_getElem?.mpr ⟨n, he, hn⟩

theorem GossipInvariant.dropPeerSocket (h : GossipInvariant peers c) (nodeId peerId : PeerId) :
    GossipInvariant peers (c.dropPeerSocket nodeId peerId) := by
  unfold Cluster.dropPeerSocket
  split
  case h_2 => exact h
  case h_1 hclosed =>
    have fewer {i j : PeerId} (hj : j ∈ Function.update c.peerConnections nodeId
        ((c.peerConnections nodeId).filter (· ≠ peerId)) i) : j ∈ c.peerConnections i := by
      rw [Function.update_apply] at hj
      split at hj
      case isFalse   => exact hj
      case isTrue he => exact he ▸ List.mem_of_mem_filter hj
    refine { h with sockets := fun i j hj => h.sockets i j (fewer hj), dropped := ?_, spread := ?_ }
    · intro i j hj hn
      by_cases hi : i = nodeId ∧ j = peerId
      case pos =>
        obtain ⟨rfl, rfl⟩ := hi
        exact (h.closed j i hclosed).symm
      case neg =>
        refine h.dropped i j hj fun hm => hn ?_
        simp only [Function.update_apply]
        split
        case isFalse => exact hm
        case isTrue he =>
          subst he
          simpa [hm] using fun he => hi ⟨rfl, he⟩
    · exact fun i j hl => h.spread i j ⟨fewer hl.1, hl.2⟩

-- The end of a stream is read only where one of the two replicas is gone.
theorem GossipInvariant.hangUp (h : GossipInvariant peers c) (source target : PeerId) :
    GossipInvariant peers (c.hangUp peers source target) := by
  unfold Cluster.hangUp
  split
  case isFalse => exact h
  case isTrue hd =>
    have failed := h.dropped source target hd.1 hd.2
    refine h.of_perform rfl rfl (fun _ _ _ hm => hm) (fun i => ?_) (fun _ _ _ => .inl)
    by_cases hi : i = source
    case neg => exact h.stays fun _ he => by cases he; exact hi rfl
    case pos =>
      subst hi
      refine ⟨?_, fun _ => .inr failed⟩
      simp only [Service.step]
      split
      case h_2 => exact h.stages i target
      case h_1 =>
        simp only [Service.read, close, setStage, setConnection, Function.update_self]
        exact .closed

theorem GossipInvariant.step (h : GossipInvariant peers c) (e : Event) : GossipInvariant peers (c.step peers e) := by
  cases e
  case deliver => exact h.deliver ..
  case drop    => exact h.dropPeerSocket ..
  case hangUp  => exact h.hangUp ..
  all_goals exact h.local _ (by simp)

theorem GossipInvariant.of_run (cfg : Config) (faucetKey : SigningKey) (es : List Event) :
    GossipInvariant peers (es.foldl (Cluster.step peers) (.new peers cfg faucetKey)) := by
  induction es using List.reverseRecOn
  case nil => exact .new
  case append_singleton es e hi =>
    rw [List.foldl_append]
    exact hi.step e

-- No transaction is on the way over a link, or about to be sent.
def Quiet (c : Cluster) : Prop :=
  ∀ i j, c.Linked i j → ∀ txn, submit txn ∉ c.wires i j ∧ ∀ k, ¬(c.services i).Broadcasting k txn

-- A node passes on what its peers tell it, so that a transaction reaches everyone over any number of links. The
-- links between nodes whose replicas are there are never lost.
theorem gossip_complete (peers : PeerId → List PeerId) (cfg : Config) (faucetKey : SigningKey) (es : List Event) :
    let c := es.foldl (step peers) (.new peers cfg faucetKey)
    (∀ i, ∀ j ∈ peers i, (c.services i).task.panicked = false → (c.services j).task.panicked = false →
      c.Linked i j) ∧
    (c.Quiet → ∀ i j, Relation.ReflTransGen c.Linked i j →
      (c.services i).seenTransactions ⊆ (c.services j).seenTransactions) := by
  intro c
  have invariant : GossipInvariant peers c := .of_run cfg faucetKey es
  constructor
  · intro i j hj hi hj'
    have alive : ¬c.Failed i j := by simp [Failed, hi, hj']
    exact ⟨by_contra fun hn => alive (invariant.dropped i j hj hn), fun hclosed => alive (invariant.closed i j hclosed)⟩
  · intro hq i j hij
    induction hij
    case refl => exact subset_rfl
    case tail j k _ hk hi =>
      refine hi.trans fun x hx => ?_
      rcases invariant.spread j k hk x hx with hx | ⟨txn, ht, _⟩ | ⟨conn, txn, hb, _⟩
      · exact hx
      · exact absurd ht (hq j k hk txn).1
      · exact absurd hb ((hq j k hk txn).2 conn)

-- Three nodes in a row.
def line : PeerId → List PeerId
  | 0 => [1]
  | 1 => [0, 2]
  | 2 => [1]
  | _ => []

def relayed : UnsignedTransaction :=
  .transfer { source := 5, target := 7, amount := 1, assetId := 0, status := .pending, nonce := 0 }

-- A transaction of a client is told along the row, and back.
def relay : List Event := [
  .client 0 5 (.message (submit (relayed.sign { bytes := 5 }))),
  .proceed 0 (.client 5),
  .deliver 0 1 0,
  .proceed 1 (.peer 0),
  .deliver 1 2 0,
  .proceed 2 (.peer 1),
  .deliver 1 0 0,
  .deliver 2 1 0
]

omit [Sha256] [Ed25519] in
theorem relay_complete :
    ∃ (_ : Sha256) (_ : Ed25519) (cfg : Config),
      let c := relay.foldl (step line) (.new line cfg { bytes := 4 })
      relayed.hash ∈ (c.services 0).seenTransactions ∧ c.Linked 0 1 ∧ c.Linked 1 2 ∧
      (c.services 0).seenTransactions ⊆ (c.services 2).seenTransactions := by
  let _ := Sha256.naming relayed
  let _ := Ed25519.encoding
  let cfg := Config.ofSize 4
  refine ⟨.naming relayed, .encoding, cfg, ?_⟩
  have complete := gossip_complete line cfg { bytes := 4 } relay
  have invariant : GossipInvariant line (relay.foldl (step line) (.new line cfg { bytes := 4 })) :=
    .of_run cfg { bytes := 4 } relay
  generalize hc : relay.foldl (step line) (.new line cfg { bytes := 4 }) = c at *
  have noted : relayed.hash ∈ (c.services 0).seenTransactions := by
    subst hc
    decide +kernel
  have empty : ∀ i < 3, ∀ j ∈ line i, (c.wires i j).isEmpty := by
    subst hc
    decide +kernel
  have told : ∀ i < 3, (c.services i).transactions.length ≤ (c.services i).broadcasts.length ∧
      (c.services i).task.panicked = false := by
    subst hc
    decide +kernel
  obtain ⟨linked, complete⟩ := complete
  have linked₁ := linked 0 1 (by decide) (told 0 (by decide)).2 (told 1 (by decide)).2
  have linked₂ := linked 1 2 (by decide) (told 1 (by decide)).2 (told 2 (by decide)).2
  refine ⟨noted, linked₁, linked₂, complete (fun i j hl txn => ?_) 0 2 (.tail (.single linked₁) linked₂)⟩
  have hj := invariant.sockets i j hl.1
  have hi : i < 3 := by
    unfold line at hj
    split at hj
    case h_4 => cases hj
    all_goals decide
  refine ⟨fun ht => ?_, fun k => (invariant.noted i).idle (told i hi).1 k txn⟩
  rw [List.isEmpty_iff.mp (empty i hi j hj)] at ht
  cases ht

end Cluster
end Superliquid

import Mathlib.Data.Multiset.Range
import Mathlib.Data.Nat.ModEq
import Superliquid.Hotstuff.Theorems.Rounds
import Superliquid.Node.Mesh
import Superliquid.Node.Theorems.Admission

namespace Superliquid

open HotStuffReplica ReplicaM Handler

variable [Sha256] [Ed25519] {c : Config}

namespace Config.Sized

omit [Sha256] in
theorem leader_lt (hc : c.Sized) (view : Nat) : c.leader view < c.numValidators :=
  Nat.mod_lt _ (by have := hc.size; omega)

omit [Sha256] in
-- Nobody leads twice in a row.
theorem leader_ne (hc : c.Sized) (view : Nat) : c.leader (view + 1) ≠ c.leader view := by
  have hsize := hc.size
  intro h
  have := (Nat.modEq_iff_dvd' (Nat.le_succ view)).mp h.symm
  rw [Nat.succ_sub (le_refl view), Nat.sub_self, Nat.dvd_one] at this
  omega

omit [Sha256] in
theorem quorum_bounds (hc : c.Sized) : 2 ≤ c.quorum ∧ c.quorum + 1 ≤ c.numValidators := by
  have hsize := hc.size
  unfold Config.quorum
  omega

end Config.Sized

-- A validator that has followed the blocks up to `view`, with messages up to the view `last`.
structure InStep (c : Config) (blocks : Nat → Block) (view last : Nat) (i : PeerId) (r : HotStuffReplica) : Prop where
  member  : Member c i r
  pool    : VerifiedPool r
  follows : Follows blocks view r
  window  : r.messages.UpTo last

section Tasks

variable {blocks blocks' : Nat → Block} {v v' w w' : Nat} {i : PeerId} {t : Task} {e : Event}

theorem InStep.step (h : InStep c blocks v w i t.replica)
    (he : ∀ txn, e = .transaction txn → txn.verifySender = .ok true)
    (follows : Follows blocks' v' (t.step e).replica) (window : (t.step e).replica.messages.UpTo w') :
    InStep c blocks' v' w' i (t.step e).replica :=
  ⟨h.member.step, h.pool.step he, follows, window⟩

theorem InStep.stepped {r : HotStuffReplica} (h : InStep c blocks v w i t.replica) (hr : (t.step e).replica = r)
    (he : ∀ txn, e = .transaction txn → txn.verifySender = .ok true)
    (follows : Follows blocks' v' r) (window : r.messages.UpTo w') : InStep c blocks' v' w' i (t.step e).replica :=
  h.step he (hr ▸ follows) (hr ▸ window)

-- A transaction goes to the mempool.
theorem Task.step_transaction (t : Task) (txn : SignedTransaction) :
    ∃ mempool, (t.step (.transaction txn)).replica = { t.replica with mempool } := by
  cases t.step_ran (.transaction txn)
  case stopped h       => exact ⟨t.replica.mempool, h⟩
  case timeout he _    => cases he
  case message he _    => cases he
  case transaction h   => exact ⟨_, (Prod.mk.inj h).2.symm⟩

theorem InStep.transaction {txn : SignedTransaction} (h : InStep c blocks v w i t.replica)
    (ht : txn.verifySender = .ok true) : InStep c blocks v w i (t.step (.transaction txn)).replica := by
  obtain ⟨mempool, he⟩ := t.step_transaction txn
  refine h.stepped he ?_ (h.follows.of_same rfl rfl rfl) h.window
  rintro _ ⟨⟩
  exact ht

theorem Task.step_message {msg : HotStuffMessage} {order : TallyOrder} {Q : Unit → HotStuffReplica → Prop}
    (hp : (t.step (.hotStuff msg order)).panicked = false) (hq : Yields (handleMessage order msg) t.replica Q) :
    Q () (t.step (.hotStuff msg order)).replica := by
  refine t.step_yields hp ?_
  simp only [runReplica, Yields.bind_iff, Yields.read_iff, Yields.lift_iff]
  exact fun _ _ => hq

theorem Task.step_timeout (hp : (t.step .timeout).panicked = false) (member : Member c i t.replica) (hc : c.Sized)
    (hview : t.replica.pacemaker.currView = v) :
    (t.step .timeout).replica = { t.replica.enter (v + 1) with
      repNodeChannel := t.replica.repNodeChannel ++
        [.toward i (c.leader (v + 1)) (.newView t.replica.genericQC v i v)] } := by
  refine t.step_yields (Q := fun _ r' => r' = _) hp ?_
  simp only [runReplica, Yields.bind_iff, Yields.read_iff, Yields.lift_iff]
  exact fun _ _ => advanceView_yields member hc hview

omit [Sha256] [Ed25519] in
theorem countP_append_newView {msgs : List HotStuffMessage} {justify : QuorumCertificate} {view sv : Nat} :
    (msgs ++ [HotStuffMessage.newView justify view i sv]).countP (·.isNewViewFor view) =
      msgs.countP (·.isNewViewFor view) + 1 := by
  simp [List.countP_append, HotStuffMessage.isNewViewFor]

-- What is taken from the mempool passes the checks of all replicas.
theorem VerifiedPool.validate {r : HotStuffReplica} (h : VerifiedPool r) {n : Nat} {mempool : PriorityMempool}
    {transactions : List SignedTransaction} (hp : r.mempool.popNextN n = .ok (mempool, transactions))
    {node : Block} (hn : node.transactions = transactions) : validateBlockTransactions node = .ok true := by
  refine validateBlockTransactions_ok fun t ht => ?_
  have ⟨_, pops⟩ := PriorityMempool.popNextN_pops hp
  have ⟨key, _, hq⟩ := pops.results t (hn ▸ ht)
  exact h key t hq

end Tasks

namespace Mesh

variable {m m' : Mesh} {blocks : Nat → Block} {v : Nat} {i j : PeerId}

-- No validator has panicked.
def Healthy (c : Config) (m : Mesh) : Prop :=
  ∀ i < c.numValidators, (m.tasks i).panicked = false

instance : Decidable (Healthy c m) :=
  inferInstanceAs (Decidable (∀ i < c.numValidators, _))

section Steps

variable {e : Superliquid.Event} {outs : List Outbound}

theorem perform_self : (m.perform c i e).tasks i = (m.tasks i).step e :=
  Function.update_self ..

theorem perform_other (h : j ≠ i) : (m.perform c i e).tasks j = m.tasks j :=
  Function.update_of_ne h ..

theorem perform_flight
    (h : ((m.tasks i).step e).replica.repNodeChannel = (m.tasks i).replica.repNodeChannel ++ outs) :
    (m.perform c i e).flight = m.flight ++ outs.flatMap (dispatch c.numValidators i) := by
  simp [perform, h]

omit [Sha256] [Ed25519] in
theorem dispatch_toward {n : Nat} {msg : HotStuffMessage} : dispatch n i (.toward i j msg) = [(j, msg)] := by
  unfold Outbound.toward
  split
  case isTrue h  => simp [dispatch, h]
  case isFalse h => simp [dispatch, Ne.symm h]

theorem perform_quiet
    (h : ((m.tasks i).step e).replica.repNodeChannel = (m.tasks i).replica.repNodeChannel) :
    (m.perform c i e).flight = m.flight := by
  rw [perform_flight (h.trans (List.append_nil _).symm), List.flatMap_nil, List.append_nil]

theorem perform_toward {msg : HotStuffMessage}
    (h : ((m.tasks i).step e).replica.repNodeChannel = (m.tasks i).replica.repNodeChannel ++ [.toward i j msg]) :
    ((m.perform c i e).flight : Multiset _) = (j, msg) ::ₘ (m.flight : Multiset _) := by
  rw [perform_flight h, List.flatMap_singleton, dispatch_toward, Multiset.cons_coe, Multiset.coe_eq_coe]
  exact List.perm_append_singleton _ _

theorem Healthy.of_perform (h : Healthy c (m.perform c i e)) : Healthy c m := by
  intro j hj
  by_cases hji : j = i
  case neg => exact perform_other hji ▸ h j hj
  case pos =>
    subst hji
    exact Task.running_of_step (perform_self ▸ h j hj)

theorem Healthy.stepped (h : Healthy c (m.perform c i e)) (hi : i < c.numValidators) :
    ((m.tasks i).step e).panicked = false :=
  perform_self ▸ h i hi

-- Timers that run out, and messages that arrive.
def activity (m : Mesh) : Event → Nat
  | .transaction _ _ => 0
  | .timeout _       => 1
  | .deliver index _ => if index < m.flight.length then 1 else 0

def activities (c : Config) (m : Mesh) : List Event → Nat
  | []      => 0
  | e :: es => m.activity e + (m.step c e).activities c es

-- Whatever message is on the way may be the next to arrive.
theorem step_deliver (m : Mesh) (index : Nat) (order : TallyOrder) :
    m.activity (.deliver index order) = 0 ∧ m.step c (.deliver index order) = m ∨
    m.activity (.deliver index order) = 1 ∧ ∃ i msg, ∃ rest : List (PeerId × HotStuffMessage),
      (m.flight : Multiset _) = (i, msg) ::ₘ (rest : Multiset _) ∧
      m.step c (.deliver index order) = { m with flight := rest }.perform c i (.hotStuff msg order) := by
  unfold step
  split
  case h_1 => contradiction
  case h_2 => contradiction
  case h_3 index' order' he =>
    cases he
    split
    case h_2 hx => exact .inl ⟨if_neg (Nat.not_lt.mpr (List.getElem?_eq_none_iff.mp hx)), rfl⟩
    case h_1 i msg hx =>
      obtain ⟨hlt, hget⟩ := List.getElem?_eq_some_iff.mp hx
      refine .inr ⟨if_pos hlt, i, msg, m.flight.eraseIdx index, ?_, rfl⟩
      rw [← hget, Multiset.cons_coe, Multiset.coe_eq_coe]
      exact (List.getElem_cons_eraseIdx_perm hlt).symm

theorem Healthy.of_step {e : Event} (h : Healthy c (m.step c e)) : Healthy c m := by
  cases e
  case transaction => exact h.of_perform
  case timeout     => exact h.of_perform
  case deliver index order =>
    rcases m.step_deliver (c := c) index order with ⟨_, he⟩ | ⟨_, i, msg, rest, _, he⟩
    · exact he ▸ h
    · rw [he] at h
      exact h.of_perform (m := { m with flight := rest })

theorem Healthy.of_foldl {es : List Event} (h : Healthy c (es.foldl (step c) m)) : Healthy c m := by
  induction es generalizing m
  case nil         => exact h
  case cons e es hi => exact (hi h).of_step

section Transactions

variable {txn : SignedTransaction}

theorem step_transaction (m : Mesh) (i j : PeerId) (txn : SignedTransaction) :
    ∃ mempool, ((m.step c (.transaction i txn)).tasks j).replica = { (m.tasks j).replica with mempool } := by
  by_cases hj : j = i
  case neg => exact ⟨_, congrArg Task.replica (perform_other hj)⟩
  case pos =>
    subst hj
    obtain ⟨mempool, he⟩ := (m.tasks j).step_transaction txn
    exact ⟨mempool, (congrArg Task.replica perform_self).trans he⟩

theorem step_transaction_flight : (m.step c (.transaction i txn)).flight = m.flight := by
  obtain ⟨mempool, he⟩ := (m.tasks i).step_transaction txn
  exact perform_quiet (by rw [he])

theorem settled_transaction {w : Nat} (h : InStep c blocks v w j (m.tasks j).replica)
    (ht : txn.verifySender = .ok true) : InStep c blocks v w j ((m.step c (.transaction i txn)).tasks j).replica := by
  by_cases hj : j = i
  case neg =>
    rw [step, perform_other hj]
    exact h
  case pos =>
    subst hj
    rw [step, perform_self]
    exact h.transaction ht

end Transactions
end Steps
end Mesh
end Superliquid

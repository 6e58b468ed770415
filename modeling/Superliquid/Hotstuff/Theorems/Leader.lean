import Superliquid.Hotstuff.Theorems.Proposal

namespace Superliquid

open HotStuffReplica ReplicaM Handler

theorem lt_of_advanceView {p p' : Pacemaker} (h : p.advanceView = .ok p') : p.currView < p'.currView := by
  simp only [Pacemaker.advanceView, Checked.bind_ok, Checked.pure_ok, U64.add_ok] at h
  obtain ⟨v, ⟨_, hv⟩, h⟩ := h
  subst h
  simp [← hv]

theorem lt_of_fastForwardView {p : Pacemaker} {view : Nat} (h : (p.fastForwardView view).2 = true) :
    p.currView < (p.fastForwardView view).1.currView := by
  unfold Pacemaker.fastForwardView at h ⊢
  split at h
  case isTrue     => contradiction
  case isFalse hn => rw [if_neg hn]; exact Nat.lt_of_not_le hn

namespace HotStuffReplica

-- The replica is about to run the logic of a leader.
structure Leading (r : HotStuffReplica) : Prop where
  leader : r.pacemaker.currentLeader = .ok r.nodeId
  fresh  : r.viewProgress.leaderHasProposed = false

instance {r : HotStuffReplica} : Decidable r.Leading :=
  decidable_of_iff (r.pacemaker.currentLeader = .ok r.nodeId ∧ r.viewProgress.leaderHasProposed = false)
    ⟨fun ⟨h, h'⟩ => ⟨h, h'⟩, fun ⟨h, h'⟩ => ⟨h, h'⟩⟩

-- There are enough new-view messages of the last view, as the leader counts them.
structure OnNewView (r : HotStuffReplica) (msgs : List HotStuffMessage) (quorum : Nat) : Prop where
  positive  : 1 ≤ r.pacemaker.currView
  messages  : r.messages.getMessagesForView (r.pacemaker.currView - 1) = .ok (some msgs)
  threshold : r.quorumThreshold = .ok quorum
  enough    : quorum ≤ msgs.countP (·.isNewViewFor (r.pacemaker.currView - 1))

-- The certificate that a leader that has fallen behind takes over from a new-view message.
def overdueQC (r : HotStuffReplica) : Option QuorumCertificate :=
  if r.genericQC.viewNumber ≠ r.pacemaker.currView - 1 then
    r.messages.getHighestQCFromVotes.filter (r.genericQC.viewNumber < ·.viewNumber)
  else
    none

end HotStuffReplica

inductive CaughtUp (r : HotStuffReplica) : HotStuffReplica → Prop
  | same    : CaughtUp r r
  | adopted {qc : QuorumCertificate} {messages : MessageWindow} :
    (r.overdueQC = some qc) → CaughtUp r { r with genericQC := qc, messages }

section

variable [Sha256] [Ed25519]

-- All that the handler of a leader can do.
inductive Leads (order : TallyOrder) (r : HotStuffReplica) :
    Except Panic (Option HotStuffMessage) → HotStuffReplica → Prop
  | idle : (∀ msg, res ≠ .ok (some msg)) → Leads order r res r
  | certified {messages : MessageWindow} :
    (1 ≤ r.pacemaker.currView) → (r.tryCreateQCForView order (r.pacemaker.currView - 1) = .ok (some qc)) →
    (∀ msg, res ≠ .ok (some msg)) → Leads order r res { r with genericQC := qc, messages }
  | caughtUp :
    (r.OnNewView msgs quorum) → (CaughtUp r s) → (∀ msg, res ≠ .ok (some msg)) → Leads order r res s
  | proposed {mempool : PriorityMempool} {transactions : List SignedTransaction} :
    (r.OnNewView msgs quorum) → (CaughtUp r s) →
    (s.blockstore.lookup s.genericQC.blockHash = some parent) →
    (s.mempool.popNextN blockTransactionLength = .ok (mempool, transactions)) →
    (node = parent.createLeaf transactions r.pacemaker.currView s.genericQC) →
    Leads order r (.ok (some (.proposal node r.pacemaker.currView r.nodeId r.pacemaker.currView)))
      { s.store node with mempool }

-- What a leader does with its proposal before it handles it as a replica.
def announce (msg : HotStuffMessage) (r : HotStuffReplica) : HotStuffReplica :=
  { r with
    repNodeChannel := r.repNodeChannel ++ [.broadcast msg]
    viewProgress := { r.viewProgress with leaderHasProposed := true }
    messages := r.messages.push msg }

-- All that can happen before the replica logic runs. `r` is the state in which the message has arrived.
inductive Selects (order : TallyOrder) (msg : HotStuffMessage) (r : HotStuffReplica) :
    Except Panic (Option (Role × HotStuffMessage)) → HotStuffReplica → Prop
  | panicked : (r.pacemaker.currentLeader = .error err) → Selects order msg r (.error err) r
  | replica  : (¬r.Leading) → Selects order msg r (.ok (some (.replica, msg))) r
  | waiting  :
    (r.Leading) → (leaderHandleMessage order r = (res, r')) → (∀ m, res ≠ .ok (some m)) →
    (∀ m, chosen ≠ .ok (some m)) → Selects order msg r chosen r'
  | leader   :
    (r.Leading) → (leaderHandleMessage order r = (.ok (some m), r')) →
    Selects order msg r (.ok (some (.leader, m))) (announce m r')

end

variable {r r' : HotStuffReplica}

theorem catchUp_caughtUp {res : Except Panic Unit} (h : catchUp r.pacemaker.currView r = (res, r')) :
    CaughtUp r r' := by
  simp only [catchUp, read_bind, id_eq] at h
  split at h
  case isFalse => cases h; exact .same
  case isTrue hv =>
    cases hq : r.messages.getHighestQCFromVotes <;> simp only [hq] at h
    case none => cases h; exact .same
    case some qc =>
      split at h
      case isFalse => cases h; exact .same
      case isTrue hlt =>
        obtain ⟨messages, hr⟩ := setGenericQC_cases h
        subst hr
        exact .adopted (by simp [overdueQC, hv, hq, Option.filter, hlt])

variable [Sha256] [Ed25519]

theorem leaderPropose_leads {s : HotStuffReplica} {order : TallyOrder} {msgs : List HotStuffMessage}
    {quorum : Nat} {res : Except Panic (Option HotStuffMessage)} (hn : r.OnNewView msgs quorum) (hs : CaughtUp r s)
    (h : leaderPropose s = (res, r')) : Leads order r res r' := by
  have hview : s.pacemaker.currView = r.pacemaker.currView := by cases hs <;> rfl
  have hid : s.nodeId = r.nodeId := by cases hs <;> rfl
  simp only [leaderPropose, read_bind, id_eq] at h
  cases hp : s.blockstore.lookup s.genericQC.blockHash <;> simp only [hp] at h
  case none => cases h; exact .caughtUp hn hs (by simp)
  case some parent =>
    cases bind_cases h
    case inr h =>
      obtain ⟨_, hselect, hres⟩ := h
      cases update_cases hselect
      case inl hok  => simp at hok
      case inr herr =>
        obtain ⟨_, _, _, hr⟩ := herr
        subst hr
        exact .caughtUp hn hs (by simp [hres])
    case inl h =>
      obtain ⟨transactions, _, hselect, h⟩ := h
      cases update_cases hselect
      case inr herr => simp at herr
      case inl hok  =>
        obtain ⟨_, hselected, ha⟩ := hok
        cases ha
        simp only [Checked.bind_ok, Checked.pure_ok, Prod.mk.injEq] at hselected
        obtain ⟨⟨mempool, _⟩, hpop, ht, hr⟩ := hselected
        subst ht hr
        cases h
        have leads : Leads order r _ _ := .proposed hn hs hp hpop rfl
        rw [← hview, ← hid] at leads
        exact leads

theorem leaderHandleMessage_leads {order : TallyOrder} {res : Except Panic (Option HotStuffMessage)}
    (h : leaderHandleMessage order r = (res, r')) : Leads order r res r' := by
  simp only [leaderHandleMessage, read_bind, id_eq] at h
  refine lift_bind_elim h (fun _ => .idle (by simp)) fun lastView hv h => ?_
  refine lift_bind_elim h (fun _ => .idle (by simp)) fun messages hm h => ?_
  refine lift_bind_elim h (fun _ => .idle (by simp)) fun quorum hq h => ?_
  obtain ⟨hpos, hlast⟩ := Checked.sub_ok.mp hv
  subst hlast
  split at h
  case isTrue hnew =>
    obtain ⟨msgs, hmsgs, hn⟩ : ∃ msgs, messages = some msgs ∧ r.OnNewView msgs quorum := by
      cases messages
      case none      => simp [hasQuorumForNewView] at hnew
      case some msgs => exact ⟨msgs, rfl, hpos, hm, hq, by simpa [hasQuorumForNewView] using hnew⟩
    cases bind_cases h
    case inr h =>
      obtain ⟨_, hc, hres⟩ := h
      exact .caughtUp hn (catchUp_caughtUp hc) (by simp [hres])
    case inl h =>
      obtain ⟨_, _, hc, h⟩ := h
      exact leaderPropose_leads hn (catchUp_caughtUp hc) h
  case isFalse =>
    split at h
    case isFalse => cases h; exact .idle (by simp)
    case isTrue =>
      refine lift_bind_elim h (fun _ => .idle (by simp)) fun qc hcreate h => ?_
      cases qc
      case none => cases h; exact .idle (by simp)
      case some qc =>
        cases bind_cases h
        case inr h =>
          obtain ⟨_, hs, hres⟩ := h
          obtain ⟨messages, hr⟩ := setGenericQC_cases hs
          exact hr ▸ .certified hpos hcreate (by simp [hres])
        case inl h =>
          obtain ⟨_, _, hs, hret⟩ := h
          obtain ⟨messages, hr⟩ := setGenericQC_cases hs
          cases hret
          exact hr ▸ .certified hpos hcreate (by simp)

theorem select_cases {order : TallyOrder} {msg : HotStuffMessage}
    {chosen : Except Panic (Option (Role × HotStuffMessage))} (h : select order msg r = (chosen, r')) :
    (∃ err, receive msg r = (.error err, r') ∧ chosen = .error err) ∨
    (∃ r₁, receive msg r = (.ok (), r₁) ∧ Selects order msg r₁ chosen r') := by
  cases bind_cases h
  case inr h => exact .inl h
  case inl h =>
    have ⟨_, r₁, hr, h⟩ := h
    refine .inr ⟨r₁, hr, ?_⟩
    simp only [read_bind, id_eq] at h
    cases hl : r₁.pacemaker.currentLeader
    case error err =>
      rw [bind_apply_error (by rw [hl]; rfl)] at h
      cases h
      exact .panicked hl
    case ok leader =>
      rw [bind_apply_ok (by rw [hl]; rfl)] at h
      split at h
      case isFalse hn =>
        cases h
        refine .replica fun hlead => hn ?_
        rw [hlead.leader] at hl
        cases hl
        exact ⟨rfl, by simp [hlead.fresh]⟩
      case isTrue hc =>
        have leading : r₁.Leading := ⟨by rw [hl, hc.1], by simpa using hc.2⟩
        cases bind_cases h
        case inr h =>
          have ⟨_, hh, hres⟩ := h
          exact .waiting leading hh (by simp) (by simp [hres])
        case inl h =>
          have ⟨out, r₂, hh, h⟩ := h
          cases out
          case none =>
            cases h
            exact .waiting leading hh (by simp) (by simp)
          case some m =>
            cases h
            exact .leader leading hh

theorem Leads.onNewView {order : TallyOrder} {m : HotStuffMessage} (h : Leads order r (.ok (some m)) r') :
    ∃ msgs quorum, r.OnNewView msgs quorum := by
  cases h
  case idle h                => exact absurd rfl (h _)
  case certified h           => exact absurd rfl (h _)
  case caughtUp h _          => exact absurd rfl (h _)
  case proposed hn _ _ _ _   => exact ⟨_, _, hn⟩

theorem Selects.chosen {order : TallyOrder} {msg m : HotStuffMessage} {role : Role}
    (h : Selects order msg r (.ok (some (role, m))) r') :
    (m = msg ∧ r' = r ∧ ¬r.Leading) ∨
    (r.Leading ∧ ∃ s, leaderHandleMessage order r = (.ok (some m), s) ∧ r' = announce m s) := by
  cases h
  case replica h           => exact .inl ⟨rfl, rfl, h⟩
  case waiting h _         => exact absurd rfl (h _)
  case leader leading lead => exact .inr ⟨leading, _, lead, rfl⟩

omit [Sha256] [Ed25519] in
theorem syncView_pacemaker {msg : HotStuffMessage} {res : Except Panic Unit} (h : syncView msg r = (res, r')) :
    r'.pacemaker = (r.pacemaker.fastForwardView msg.getViewNumber).1 := by
  simp only [syncView, read_bind, id_eq] at h
  split at h
  case isFalse hn =>
    cases h
    unfold Pacemaker.fastForwardView at hn ⊢
    split at hn <;> simp_all
  case isTrue =>
    rw [modify_bind] at h
    refine lift_bind_elim h (fun _ => rfl) fun leader _ h => ?_
    split at h
    case isFalse => cases h; rfl
    case isTrue  =>
      refine lift_bind_elim h (fun _ => rfl) fun newView hn h => ?_
      cases h
      rfl

omit [Sha256] [Ed25519] in
theorem receive_pacemaker {msg : HotStuffMessage} {res : Except Panic Unit} (h : receive msg r = (res, r')) :
    r'.pacemaker = (r.pacemaker.fastForwardView msg.getViewNumber).1 := by
  cases bind_cases h
  case inr h => have ⟨_, hs, _⟩ := h; exact syncView_pacemaker hs
  case inl h =>
    have ⟨_, r₁, hs, h⟩ := h
    have synced := syncView_pacemaker hs
    refine lift_bind_elim h (fun _ => synced) fun _ _ h => ?_
    cases h
    exact synced

omit [Sha256] [Ed25519] in
theorem le_of_receive {msg : HotStuffMessage} {res : Except Panic Unit} (h : receive msg r = (res, r')) :
    msg.getViewNumber ≤ r'.pacemaker.currView := by
  rw [receive_pacemaker h]
  unfold Pacemaker.fastForwardView
  split <;> simp [*]

omit [Sha256] [Ed25519] in
-- A message that is not late leads into its own view.
theorem currView_of_receive {msg : HotStuffMessage} {res : Except Panic Unit} (h : receive msg r = (res, r'))
    (hle : r.pacemaker.currView ≤ msg.getViewNumber) : r'.pacemaker.currView = msg.getViewNumber := by
  rw [receive_pacemaker h]
  unfold Pacemaker.fastForwardView
  split
  case isTrue hge => exact hle.antisymm hge
  case isFalse    => rfl

end Superliquid

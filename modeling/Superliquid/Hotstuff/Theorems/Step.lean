import Superliquid.Hotstuff.Theorems.Leader

namespace Superliquid

open HotStuffReplica ReplicaM Handler

def HotStuffMessage.IsVote : HotStuffMessage → Prop
  | vote .. => True
  | _       => False

theorem getLeaderForView_congr {p p' : Pacemaker} (h : p.replicaIds = p'.replicaIds) (view : Nat) :
    p.getLeaderForView view = p'.getLeaderForView view := by
  simp [Pacemaker.getLeaderForView, h]

-- What a replica does outside of the proposal handler. It may move on to a later view and send
-- messages, but no votes.
structure Quiet (r r' : HotStuffReplica) : Prop where
  nodeId           : r'.nodeId = r.nodeId
  validatorSet     : r'.validatorSet = r.validatorSet
  signingKey       : r'.signingKey = r.signingKey
  lockedQC         : r'.lockedQC = r.lockedQC
  applied          : r'.applied = r.applied
  replicaIds       : r'.pacemaker.replicaIds = r.pacemaker.replicaIds
  lastCommitedView : r'.pacemaker.lastCommitedView = r.pacemaker.lastCommitedView
  currView         : r.pacemaker.currView ≤ r'.pacemaker.currView
  sent             : ∃ out, r'.repNodeChannel = r.repNodeChannel ++ out ∧ ∀ o ∈ out, ¬o.msg.IsVote

namespace Quiet

variable {r r₁ r₂ r₃ : HotStuffReplica}

theorem refl : Quiet r r := by
  constructor <;> first | rfl | exact le_rfl | exact ⟨[], by simp⟩

theorem trans (h₁ : Quiet r₁ r₂) (h₂ : Quiet r₂ r₃) : Quiet r₁ r₃ where
  nodeId           := h₂.nodeId.trans h₁.nodeId
  validatorSet     := h₂.validatorSet.trans h₁.validatorSet
  signingKey       := h₂.signingKey.trans h₁.signingKey
  lockedQC         := h₂.lockedQC.trans h₁.lockedQC
  applied          := h₂.applied.trans h₁.applied
  replicaIds       := h₂.replicaIds.trans h₁.replicaIds
  lastCommitedView := h₂.lastCommitedView.trans h₁.lastCommitedView
  currView         := h₁.currView.trans h₂.currView
  sent             := by
    have ⟨out₁, hs₁, hn₁⟩ := h₁.sent
    have ⟨out₂, hs₂, hn₂⟩ := h₂.sent
    refine ⟨out₁ ++ out₂, by simp [hs₁, hs₂], fun o ho => ?_⟩
    exact (List.mem_append.mp ho).elim (hn₁ o) (hn₂ o)

-- The fields that are of no interest here.
theorem same {genericQC : QuorumCertificate} {mempool : PriorityMempool} {messages : MessageWindow}
    {blockstore : Blockstore} {viewProgress : ViewProgress} :
    Quiet r { r with genericQC, mempool, messages, blockstore, viewProgress } := by
  constructor <;> first | rfl | exact le_rfl | exact ⟨[], by simp⟩

theorem of_pacemaker {pacemaker : Pacemaker} {viewProgress : ViewProgress}
    (hi : pacemaker.replicaIds = r.pacemaker.replicaIds)
    (hl : pacemaker.lastCommitedView = r.pacemaker.lastCommitedView)
    (hv : r.pacemaker.currView ≤ pacemaker.currView) :
    Quiet r { r with pacemaker, viewProgress } := by
  constructor <;> first | rfl | assumption | exact ⟨[], by simp⟩

theorem of_send {out : Outbound} (h : ¬out.msg.IsVote) :
    Quiet r { r with repNodeChannel := r.repNodeChannel ++ [out] } := by
  constructor <;> first | rfl | exact le_rfl | exact ⟨[out], rfl, by simpa using h⟩

end Quiet

variable {r r' : HotStuffReplica} {res : Except Panic (Option HotStuffMessage)}

-- Moving between views and sending new-view messages.
structure Idle (r r' : HotStuffReplica) : Prop extends Quiet r r' where
  genericQC  : r'.genericQC = r.genericQC
  blockstore : r'.blockstore = r.blockstore

namespace Idle

theorem refl : Idle r r :=
  ⟨.refl, rfl, rfl⟩

theorem trans {r₁ r₂ r₃ : HotStuffReplica} (h₁ : Idle r₁ r₂) (h₂ : Idle r₂ r₃) : Idle r₁ r₃ where
  toQuiet    := h₁.toQuiet.trans h₂.toQuiet
  genericQC  := h₂.genericQC.trans h₁.genericQC
  blockstore := h₂.blockstore.trans h₁.blockstore

theorem of_send {out : Outbound} (h : ¬out.msg.IsVote) :
    Idle r { r with repNodeChannel := r.repNodeChannel ++ [out] } :=
  ⟨.of_send h, rfl, rfl⟩

end Idle

theorem createNewView_isVote {msg : HotStuffMessage} (h : r.createNewView = .ok msg) :
    ¬msg.IsVote := by
  simp only [createNewView, Checked.bind_ok, Checked.pure_ok] at h
  have ⟨_, _, h⟩ := h
  cases h
  simp [HotStuffMessage.IsVote]

theorem fastForwardView_idle (v : Nat) (viewProgress : ViewProgress) :
    Idle r { r with pacemaker := (r.pacemaker.fastForwardView v).1, viewProgress } := by
  refine ⟨.of_pacemaker ?_ ?_ ?_, rfl, rfl⟩
  all_goals unfold Pacemaker.fastForwardView; split <;> simp_all
  omega

theorem pacemaker_advanceView_idle {pacemaker : Pacemaker} {viewProgress : ViewProgress}
    (h : r.pacemaker.advanceView = .ok pacemaker) : Idle r { r with pacemaker, viewProgress } := by
  simp only [Pacemaker.advanceView, Checked.bind_ok, Checked.pure_ok, U64.add_ok] at h
  obtain ⟨v, ⟨_, hv⟩, h⟩ := h
  subst h
  exact ⟨.of_pacemaker rfl rfl (by simp [← hv]), rfl, rfl⟩

theorem CaughtUp.cases (h : CaughtUp r r') :
    ∃ genericQC messages, r' = { r with genericQC, messages } ∧
      r.genericQC.viewNumber ≤ genericQC.viewNumber := by
  cases h
  case same => exact ⟨_, _, rfl, le_rfl⟩
  case adopted qc messages hq =>
    refine ⟨qc, messages, rfl, ?_⟩
    unfold overdueQC at hq
    split at hq
    case isFalse => contradiction
    case isTrue  => exact (by simpa using (Option.filter_eq_some_iff.mp hq).2 : _ < _).le

section

variable {res : Except Panic Unit} {msg : HotStuffMessage}

theorem syncView_idle (h : syncView msg r = (res, r')) : Idle r r' := by
  simp only [syncView, read_bind, id_eq] at h
  split at h
  case isFalse => cases h; exact .refl
  case isTrue =>
    rw [modify_bind] at h
    have synced : Idle r _ := fastForwardView_idle msg.getViewNumber .reset
    refine lift_bind_elim h (fun _ => synced) fun leader _ h => ?_
    split at h
    case isFalse => cases h; exact synced
    case isTrue  =>
      refine lift_bind_elim h (fun _ => synced) fun newView hn h => ?_
      cases h
      exact synced.trans (.of_send (createNewView_isVote hn))

theorem receive_idle (h : receive msg r = (res, r')) : Idle r r' := by
  cases bind_cases h
  case inr h => have ⟨_, hs, _⟩ := h; exact syncView_idle hs
  case inl h =>
    have ⟨_, r₁, hs, h⟩ := h
    refine lift_bind_elim h (fun _ => syncView_idle hs) fun _ _ h => ?_
    cases h
    exact (syncView_idle hs).trans ⟨.same, rfl, rfl⟩

theorem advanceView_idle (h : advanceView r = (res, r')) : Idle r r' := by
  simp only [advanceView, read_bind, id_eq] at h
  refine lift_bind_elim h (fun _ => .refl) fun pacemaker hp h => ?_
  rw [modify_bind] at h
  have advanced : Idle r { r with pacemaker, viewProgress := .reset } := pacemaker_advanceView_idle hp
  refine lift_bind_elim h (fun _ => advanced) fun leader _ h => ?_
  refine lift_bind_elim h (fun _ => advanced) fun outboundMsg hm h => ?_
  have sent := fun {out : Outbound} (ho : out.msg = outboundMsg) =>
    advanced.trans (.of_send (ho ▸ createNewView_isVote hm))
  split at h
  all_goals cases h; exact sent rfl

end

theorem replicaHandleVote_idle (h : replicaHandleVote r = (res, r')) :
    Idle r r' ∧ ∀ msg, res = .ok (some msg) → ¬msg.IsVote := by
  have same : ∀ {e : Panic}, Idle r r ∧ ∀ msg, (.error e : Except Panic (Option HotStuffMessage)) =
      .ok (some msg) → ¬msg.IsVote := ⟨.refl, by simp⟩
  simp only [replicaHandleVote, read_bind, id_eq] at h
  refine lift_bind_elim h (fun _ => same) fun _ _ h => ?_
  refine lift_bind_elim h (fun _ => same) fun _ _ h => ?_
  split at h
  case isTrue => cases h; exact ⟨.refl, by simp⟩
  split at h
  case isTrue => cases h; exact ⟨.refl, by simp⟩
  refine lift_bind_elim h (fun _ => same) fun _ _ h => ?_
  refine lift_bind_elim h (fun _ => same) fun _ _ h => ?_
  split at h
  case isTrue => cases h; exact ⟨.refl, by simp⟩
  refine lift_bind_elim h (fun _ => same) fun pacemaker hp h => ?_
  rw [modify_bind] at h
  have advanced : Idle r { r with pacemaker } := pacemaker_advanceView_idle hp
  refine lift_bind_elim h (fun _ => ⟨advanced, by simp⟩) fun newView hm h => ?_
  cases h
  exact ⟨advanced, by simpa using createNewView_isVote hm⟩

theorem reply_cases {v : Nat} {out : HotStuffMessage} {role : Role} {res : Except Panic Unit}
    (h : reply v out role r = (res, r')) :
    r'.core = r.core ∨ ∃ o : Outbound, o.msg = out ∧
      r'.core = { r.core with sent := r.repNodeChannel ++ [o] } := by
  cases role
  all_goals
    simp only [reply, read_bind, id_eq] at h
    refine lift_bind_elim h (fun _ => .inl rfl) fun _ _ h => ?_
    refine lift_bind_elim h (fun _ => .inl rfl) fun nextLeader _ h => ?_
  case leader => cases h; exact .inr ⟨.sendToNode nextLeader out, rfl, rfl⟩
  case replica =>
    rw [modify_bind] at h
    split at h
    case isTrue  => cases h; exact .inr ⟨.sendToSelf out, rfl, rfl⟩
    case isFalse => cases h; exact .inr ⟨.sendToNode nextLeader out, rfl, rfl⟩

theorem reply_idle {v : Nat} {out : HotStuffMessage} {role : Role} {res : Except Panic Unit}
    (hn : ¬out.IsVote) (h : reply v out role r = (res, r')) : Idle r r' := by
  have ⟨sent, hs, hc⟩ : ∃ sent : List Outbound, (∀ o ∈ sent, ¬o.msg.IsVote) ∧
      r'.core = { r.core with sent := r.repNodeChannel ++ sent } := by
    cases reply_cases h
    case inl h => exact ⟨[], by simp, by rw [h, List.append_nil]; rfl⟩
    case inr h => have ⟨o, ho, h⟩ := h; exact ⟨[o], by simpa [ho] using hn, h⟩
  simp only [core, Core.mk.injEq] at hc
  have ⟨hi, hv, hk, hg, hl, hp, hs', hb, ha⟩ := hc
  exact ⟨⟨hi, hv, hk, hl, ha, by rw [hp], by rw [hp], by rw [hp], sent, hs', hs⟩, hg, hb⟩

-- The outcome of a proposal, with the vote sent or not.
def Answered (res : Except Panic (Option HotStuffMessage)) (core core' : Core) : Prop :=
  core' = core ∨ ∃ vote, res = .ok (some vote) ∧ ∃ o : Outbound, o.msg = vote ∧
    core' = { core with sent := core.sent ++ [o] }

theorem Answered.same {out : Except Panic (Option HotStuffMessage)} {c c' : Core}
    (h : Answered out c c') : ∃ sent, c' = { c with sent } := by
  cases h
  case inl h => exact ⟨c.sent, h⟩
  case inr h => have ⟨_, _, o, _, h⟩ := h; exact ⟨_, h⟩

variable [Sha256]

variable [Ed25519]

-- The leader of the current view may replace its certificate and propose a block.
structure Led (order : TallyOrder) (r r' : HotStuffReplica) (res : Except Panic (Option HotStuffMessage)) :
    Prop where
  quiet     : Quiet r r'
  pacemaker : r'.pacemaker = r.pacemaker
  genericQC :
    r.genericQC.viewNumber ≤ r'.genericQC.viewNumber ∨
    r'.genericQC.viewNumber + 1 = r.pacemaker.currView ∧
      r.tryCreateQCForView order (r.pacemaker.currView - 1) = .ok (some r'.genericQC)
  proposed  :
    (r'.blockstore = r.blockstore ∧ ∀ msg, res ≠ .ok (some msg)) ∨
    ∃ node, r'.blockstore = r.blockstore.insert node.hash node ∧
      res = .ok (some (.proposal node r.pacemaker.currView r.nodeId r.pacemaker.currView))

theorem Led.same {order : TallyOrder} (h : ∀ msg, res ≠ .ok (some msg)) : Led order r r res where
  quiet     := .refl
  pacemaker := rfl
  genericQC := .inl le_rfl
  proposed  := .inl ⟨rfl, h⟩

theorem tryCreateQCForView_viewNumber {order : TallyOrder} {view : Nat} {qc : QuorumCertificate}
    (h : r.tryCreateQCForView order view = .ok (some qc)) : qc.viewNumber = view := by
  unfold tryCreateQCForView at h
  simp only [Checked.bind_ok] at h
  have ⟨msgs, _, h⟩ := h
  cases msgs
  case none => simp [Checked.pure_ok] at h
  case some msgs =>
    simp only [Checked.bind_ok] at h
    have ⟨quorum, _, h⟩ := h
    split at h
    case h_1 => simp [Checked.pure_ok] at h
    case h_2 =>
      rw [Checked.map_ok] at h
      have ⟨qc', hf, h⟩ := h
      unfold QuorumCertificate.fromSignatures at hf
      split at hf <;> cases hf
      cases h
      rfl

theorem Leads.led {order : TallyOrder} (h : Leads order r res r') : Led order r r' res := by
  cases h
  case idle h => exact .same h
  case certified hpos hcreate h =>
    refine ⟨.same, rfl, .inr ⟨?_, hcreate⟩, .inl ⟨rfl, h⟩⟩
    rw [tryCreateQCForView_viewNumber hcreate]
    omega
  case caughtUp h hs =>
    have ⟨genericQC, messages, hr, hle⟩ := hs.cases
    subst hr
    exact ⟨.same, rfl, .inl hle, .inl ⟨rfl, h⟩⟩
  case proposed node _ _ _ hs _ _ _ =>
    have ⟨genericQC, messages, hr, hle⟩ := hs.cases
    subst hr
    exact ⟨.same, rfl, .inl hle, .inr ⟨node, rfl, rfl⟩⟩

-- The leader of the current view is about to make a certificate from the votes it was sent.
def LeadsOnVotes (r : HotStuffReplica) (order : TallyOrder) : Prop :=
  r.pacemaker.currentLeader = .ok r.nodeId ∧ r.viewProgress.leaderHasProposed = false ∧
    (r.tryCreateQCForView order (r.pacemaker.currView - 1)).toOption.join ≠ none

instance {r : HotStuffReplica} {order : TallyOrder} : Decidable (LeadsOnVotes r order) :=
  inferInstanceAs (Decidable (_ ∧ _ ∧ _))

def Event.delivered : Event → Option (HotStuffMessage × TallyOrder)
  | hotStuff msg order => some (msg, order)
  | _                  => none

-- The certificate of a leader gets newer, unless it is made from votes.
def GenericStep (r : HotStuffReplica) (msg : HotStuffMessage) (order : TallyOrder)
    (genericQC : QuorumCertificate) : Prop :=
  r.genericQC.viewNumber ≤ genericQC.viewNumber ∨
  LeadsOnVotes (receive msg r).2 order ∧
    genericQC.viewNumber + 1 = (receive msg r).2.pacemaker.currView

-- What happens before the replica logic runs. `chosen` is the message that it gets.
structure Selected (r r' : HotStuffReplica) (msg : HotStuffMessage) (order : TallyOrder)
    (chosen : Except Panic (Option (Role × HotStuffMessage))) : Prop where
  quiet     : Quiet r r'
  genericQC : GenericStep r msg order r'.genericQC
  chosen    :
    r'.blockstore = r.blockstore ∧ (∀ role m, chosen = .ok (some (role, m)) → m = msg) ∨
    ∃ node view, r'.blockstore = r.blockstore.insert node.hash node ∧
      r'.pacemaker.currentLeader = .ok r'.nodeId ∧
      chosen = .ok (some (.leader, .proposal node view r'.nodeId view))

theorem select_selected {order : TallyOrder} {msg : HotStuffMessage}
    {chosen : Except Panic (Option (Role × HotStuffMessage))}
    (h : select order msg r = (chosen, r')) : Selected r r' msg order chosen := by
  cases select_cases h
  case inl h =>
    have ⟨e, hr, hc⟩ := h
    have idle := receive_idle hr
    exact ⟨idle.toQuiet, .inl (by rw [idle.genericQC]), .inl ⟨idle.blockstore, by simp [hc]⟩⟩
  case inr h =>
  have ⟨r₁, hr, selects⟩ := h
  have idle := receive_idle hr
  have same : ∀ {chosen : Except Panic (Option (Role × HotStuffMessage))},
      (∀ role m, chosen = .ok (some (role, m)) → m = msg) → Selected r r₁ msg order chosen :=
    fun hc => ⟨idle.toQuiet, .inl (by rw [idle.genericQC]), .inl ⟨idle.blockstore, hc⟩⟩
  have generic : ∀ {r₂ res}, r₁.Leading → Led order r₁ r₂ res → GenericStep r msg order r₂.genericQC := by
    intro r₂ res leading led
    rw [GenericStep, hr, ← idle.genericQC]
    refine led.genericQC.imp_right fun ⟨hv, hq⟩ => ⟨⟨leading.leader, leading.fresh, ?_⟩, hv⟩
    simp [hq, Except.toOption]
  cases selects
  case panicked => exact same (by simp)
  case replica  => exact same (by simp)
  case waiting leading hres hchosen hh =>
    have led := (leaderHandleMessage_leads hh).led
    refine ⟨idle.toQuiet.trans led.quiet, generic leading led, .inl ⟨?_, fun _ _ h => absurd h (hchosen _)⟩⟩
    cases led.proposed
    case inl h => exact h.1.trans idle.blockstore
    case inr h => have ⟨_, _, h⟩ := h; exact absurd h (hres _)
  case leader r₂ m leading hh _ =>
    have led := (leaderHandleMessage_leads hh).led
    cases led.proposed
    case inl h => exact absurd rfl (h.2 m)
    case inr h =>
      have ⟨node, hs, ho⟩ := h
      cases ho
      have broadcast : ¬(Outbound.broadcast
          (.proposal node r₁.pacemaker.currView r₁.nodeId r₁.pacemaker.currView)).msg.IsVote := id
      have hg : GenericStep r msg order r₂.genericQC := generic leading led
      refine ⟨?_, hg, .inr ⟨node, r₁.pacemaker.currView, ?_, ?_, ?_⟩⟩
      · exact idle.toQuiet.trans led.quiet |>.trans (.of_send broadcast) |>.trans .same
      · rw [← idle.blockstore]
        exact hs
      · show r₂.pacemaker.currentLeader = .ok r₂.nodeId
        rw [led.pacemaker, led.quiet.nodeId, leading.leader]
      · rw [← led.quiet.nodeId]
        rfl

-- The proposal that an event makes a replica take up, delivered or its own, and the state in which
-- that happens. Proposals that are not from the leader of the current view are ignored.
def Task.takenUp (t : Task) (e : Event) : Option (HotStuffReplica × Block) :=
  if t.panicked then
    none
  else
    match t.replica.pacemaker.failedViews, e with
    | .ok _, .hotStuff msg order =>
      match select order msg t.replica with
      | (.ok (some (_, .proposal node _ sender _)), r) =>
        if r.pacemaker.currentLeader = .ok sender then some (r, node) else none
      | _ => none
    | _, _ => none

-- All that a step of a replica can do.
inductive Stepped (t : Task) (e : Event) (t' : Task) : Prop
  | quiet :
    (t.takenUp e = none) → (Quiet t.replica t'.replica) →
    (t'.replica.blockstore = t.replica.blockstore) →
    (t'.replica.genericQC = t.replica.genericQC ∨
      ∃ msg order, e = .hotStuff msg order ∧ GenericStep t.replica msg order t'.replica.genericQC) →
    Stepped t e t'
  | proposal :
    (t.takenUp e = some (s, b)) → (e = .hotStuff msg order) → (Quiet t.replica s) →
    (s.blockstore = t.replica.blockstore ∨
      s.blockstore = t.replica.blockstore.insert b.hash b) →
    (GenericStep t.replica msg order s.genericQC) →
    (Proposal s b out c) → (Answered out c t'.replica.core) →
    (t'.panicked = false → ∃ vote, out = .ok vote) →
    Stepped t e t'

theorem handleSelected_idle {role : Role} {msg : HotStuffMessage} {res : Except Panic Unit}
    (hm : ∀ node view sender sv, msg ≠ .proposal node view sender sv)
    (h : handleSelected role msg r = (res, r')) : Idle r r' := by
  simp only [handleSelected, read_bind] at h
  cases msg
  case proposal => exact absurd rfl (hm _ _ _ _)
  case newView  => cases h; exact .refl
  case vote =>
    cases bind_cases h
    case inr h => have ⟨_, hv, _⟩ := h; exact (replicaHandleVote_idle hv).1
    case inl h =>
      have ⟨out, r₁, hv, h⟩ := h
      have ⟨idle, hn⟩ := replicaHandleVote_idle hv
      cases out
      case none => cases h; exact idle
      case some out => exact idle.trans (reply_idle (hn out rfl) h)

theorem handleSelected_proposal {role : Role} {node : Block} {view sender sv : Nat}
    {res : Except Panic Unit}
    (h : handleSelected role (.proposal node view sender sv) r = (res, r')) :
    (r.pacemaker.currentLeader ≠ .ok sender ∧ r' = r) ∨
    (r.pacemaker.currentLeader = .ok sender ∧ ∃ out c, Proposal r node out c ∧
      Answered out c r'.core ∧ (res = .ok () → ∃ vote, out = .ok vote)) := by
  simp only [handleSelected, read_bind] at h
  cases bind_cases h
  case inr h =>
    have ⟨e, hp, hres⟩ := h
    cases replicaHandleProposal_cases hp
    case inl h => exact .inl ⟨h.1, h.2.2⟩
    case inr h => exact .inr ⟨h.1, _, _, h.2, .inl rfl, by simp [hres]⟩
  case inl h =>
    have ⟨out, r₁, hp, h⟩ := h
    cases replicaHandleProposal_cases hp
    case inl hp =>
      have ⟨hl, hn, hr⟩ := hp
      obtain _ | vote := out
      · cases h; exact .inl ⟨hl, hr⟩
      · exact absurd rfl (hn vote)
    case inr hp =>
      refine .inr ⟨hp.1, _, _, hp.2, ?_, fun _ => ⟨out, rfl⟩⟩
      obtain _ | vote := out
      · cases h; exact .inl rfl
      · exact (reply_cases h).imp_right fun ⟨o, ho, hc⟩ => ⟨vote, rfl, o, ho, hc⟩

theorem Idle.stepped {t t' : Task} {e : Event} (h : Idle t.replica t'.replica)
    (hn : t.takenUp e = none) : Stepped t e t' :=
  .quiet hn h.toQuiet h.blockstore (.inl h.genericQC)

theorem Task.step_cases {t : Task} {e : Event} (hp : ¬t.panicked) :
    ∃ res, runReplica e t.replica = (res, (t.step e).replica) ∧
      ((t.step e).panicked = false → res = .ok ()) := by
  simp only [Task.step, hp, Bool.false_eq_true, if_false]
  rcases runReplica e t.replica with ⟨_ | _, r'⟩
  · exact ⟨_, rfl, by simp⟩
  · exact ⟨_, rfl, by simp⟩

theorem handleMessage_stepped {t t' : Task} {msg : HotStuffMessage} {order : TallyOrder} {n : Nat}
    {res : Except Panic Unit} (hp : ¬t.panicked) (hf : t.replica.pacemaker.failedViews = .ok n)
    (h : handleMessage order msg t.replica = (res, t'.replica)) (hres : t'.panicked = false → res = .ok ()) :
    Stepped t (.hotStuff msg order) t' := by
  have takenUp : t.takenUp (.hotStuff msg order) =
      match select order msg t.replica with
      | (.ok (some (_, .proposal node _ sender _)), r) =>
        if r.pacemaker.currentLeader = .ok sender then some (r, node) else none
      | _ => none := by
    simp [Task.takenUp, hp, hf]
  -- Without a proposal to take up, the block of a leader cannot have been stored.
  have quiet : ∀ {chosen r₁}, select order msg t.replica = (chosen, r₁) → Idle r₁ t'.replica →
      (∀ role node view sender sv, chosen = .ok (some (role, .proposal node view sender sv)) →
        r₁.pacemaker.currentLeader ≠ .ok sender) → Stepped t (.hotStuff msg order) t' := by
    intro chosen r₁ hs idle hn
    have selected := select_selected hs
    refine .quiet ?_ (selected.quiet.trans idle.toQuiet) ?_ (.inr ⟨msg, order, rfl, ?_⟩)
    · rw [takenUp, hs]
      split
      case h_1 hc => cases hc; simpa using hn _ _ _ _ _ rfl
      case h_2 => rfl
    · rw [idle.blockstore]
      cases selected.chosen
      case inl h => exact h.1
      case inr h => have ⟨_, _, _, hl, hc⟩ := h; exact absurd hl (hn _ _ _ _ _ hc)
    · exact idle.genericQC ▸ selected.genericQC
  cases bind_cases h
  case inr h => have ⟨_, hs, _⟩ := h; exact quiet hs .refl (by simp)
  case inl h =>
  have ⟨chosen, r₁, hs, h⟩ := h
  obtain _ | ⟨role, m⟩ := chosen
  · cases h; exact quiet hs .refl (by simp)
  cases m
  case newView => exact quiet hs (handleSelected_idle (by simp) h) (by simp)
  case vote    => exact quiet hs (handleSelected_idle (by simp) h) (by simp)
  case proposal node view sender sv =>
    cases handleSelected_proposal h
    case inl h =>
      have ⟨hl, hr⟩ := h
      exact quiet hs (hr ▸ .refl) (by rintro _ _ _ _ _ ⟨⟩; exact hl)
    case inr h =>
      have ⟨hl, out, c, hprop, ha, hok⟩ := h
      have selected := select_selected hs
      refine .proposal (s := r₁) (b := node) ?_ rfl selected.quiet ?_ selected.genericQC hprop ha ?_
      · simp [takenUp, hs, hl]
      · cases selected.chosen
        case inl h => exact .inl h.1
        case inr h => have ⟨_, _, hb, _, hc⟩ := h; cases hc; exact .inr hb
      · exact fun hn => hok (hres hn)

theorem Task.step_stepped (t : Task) (e : Event) : Stepped t e (t.step e) := by
  by_cases hp : t.panicked
  case pos =>
    have : t.step e = t := by simp [Task.step, hp]
    exact this.symm ▸ Idle.stepped .refl (by simp [Task.takenUp, hp])
  case neg =>
    have ⟨res, hr, hres⟩ := Task.step_cases (e := e) hp
    generalize t.step e = t' at *
    cases hf : t.replica.pacemaker.failedViews
    case error err =>
      -- The loop panics before it looks at the event.
      have hn : runReplica e t.replica = (.error err, t.replica) := by
        simp [runReplica, bind_apply, hf]
      have ht : t'.replica = t.replica := (Prod.mk.inj (hr.symm.trans hn)).2
      exact Idle.stepped (ht ▸ .refl) (by simp [Task.takenUp, hf])
    case ok n =>
      have hrun : runReplica e t.replica =
          match e with
          | .hotStuff msg order => handleMessage order msg t.replica
          | .transaction txn    => handleTransaction txn t.replica
          | .timeout            => advanceView t.replica := by
        cases e <;> simp [runReplica, bind_apply, hf]
      have h := hrun.symm.trans hr
      cases e
      case hotStuff msg order => exact handleMessage_stepped hp hf h hres
      case transaction txn =>
        have ht := (Prod.mk.inj h).2
        exact Idle.stepped (ht ▸ ⟨.same, rfl, rfl⟩) (by simp [Task.takenUp])
      case timeout => exact (advanceView_idle h).stepped (by simp [Task.takenUp])

theorem Task.running_of_step {t : Task} {e : Event} (h : (t.step e).panicked = false) :
    t.panicked = false := by
  cases hp : t.panicked
  case false => rfl
  case true  => simp [Task.step, hp] at h

theorem Task.running_of_takenUp {t : Task} {e : Event} {x : HotStuffReplica × Block}
    (h : t.takenUp e = some x) : t.panicked = false := by
  cases hp : t.panicked
  case false => rfl
  case true  => simp [Task.takenUp, hp] at h

namespace Stepped

variable {t t' : Task} {e : Event}

theorem validatorSet (h : Stepped t e t') : t'.replica.validatorSet = t.replica.validatorSet := by
  cases h
  case quiet hq _ _ => exact hq.validatorSet
  case proposal r node _ _ out c _ _ hq _ _ hp ha _ =>
    have ⟨_, ha⟩ := ha.same
    have hc : t'.replica.validatorSet = c.validatorSet := congrArg Core.validatorSet ha
    have : c.validatorSet = r.validatorSet := by cases hp <;> rfl
    rw [hc, this, hq.validatorSet]

theorem nodeId (h : Stepped t e t') : t'.replica.nodeId = t.replica.nodeId := by
  cases h
  case quiet hq _ _ => exact hq.nodeId
  case proposal r node _ _ out c _ _ hq _ _ hp ha _ =>
    have ⟨_, ha⟩ := ha.same
    have hc : t'.replica.nodeId = c.nodeId := congrArg Core.nodeId ha
    have : c.nodeId = r.nodeId := by cases hp <;> rfl
    rw [hc, this, hq.nodeId]

theorem replicaIds (h : Stepped t e t') : t'.replica.pacemaker.replicaIds = t.replica.pacemaker.replicaIds := by
  cases h
  case quiet hq _ _ => exact hq.replicaIds
  case proposal r node _ _ out c _ _ hq _ _ hp ha _ =>
    have ⟨_, ha⟩ := ha.same
    have hc : t'.replica.pacemaker = c.pacemaker := congrArg Core.pacemaker ha
    have : c.pacemaker.replicaIds = r.pacemaker.replicaIds := by cases hp <;> rfl
    rw [hc, this, hq.replicaIds]

theorem currView_takenUp {r : HotStuffReplica} {node : Block} (h : Stepped t e t')
    (hup : t.takenUp e = some (r, node)) : r.pacemaker.currView ≤ t'.replica.pacemaker.currView := by
  cases h
  case quiet hn _ _ _ => simp [hup] at hn
  case proposal _ _ out c hup' _ _ _ _ hp ha _ =>
    cases hup.symm.trans hup'
    have ⟨_, ha⟩ := ha.same
    have hc : t'.replica.pacemaker = c.pacemaker := congrArg Core.pacemaker ha
    have : c.pacemaker.currView = r.pacemaker.currView := by cases hp <;> rfl
    rw [hc, this]

theorem currView (h : Stepped t e t') : t.replica.pacemaker.currView ≤ t'.replica.pacemaker.currView := by
  cases h
  case quiet hq _ _ => exact hq.currView
  case proposal hup he hq hs hg hp ha hok =>
    exact hq.currView.trans (currView_takenUp (.proposal hup he hq hs hg hp ha hok) hup)

end Stepped

-- A replica together with the proposals that it has taken up so far and the states at that time.
structure Observed where
  task    : Task
  history : List (HotStuffReplica × Block)

namespace Observed

def new (c : Config) (nodeId : PeerId) : Observed where
  task := .new c nodeId
  history := []

def step (o : Observed) (e : Event) : Observed where
  task := o.task.step e
  history := o.history ++ (o.task.takenUp e).toList

end Observed

def Event.inbound (e : Event) : List HotStuffMessage :=
  (e.delivered.map Prod.fst).toList

structure Proposed where
  node   : Block
  view   : Nat
  sender : PeerId

def HotStuffMessage.asProposal : HotStuffMessage → Option Proposed
  | proposal node view sender _ => some { node, view, sender }
  | _                           => none

-- A proposal is ignored unless it names the leader of the view in which it finds the replica.
def HotStuffReplica.HearsOf (r : HotStuffReplica) (p : Proposed) : Prop :=
  (r.pacemaker.fastForwardView p.view).1.currentLeader = .ok p.sender

instance {r : HotStuffReplica} {p : Proposed} : Decidable (r.HearsOf p) :=
  inferInstanceAs (Decidable (_ = _))

-- A replica together with the messages that it was handed and the peers that they came from.
structure Inbox where
  task : Task
  log  : List (PeerId × HotStuffMessage)

namespace Inbox

def new (c : Config) (nodeId : PeerId) : Inbox where
  task := .new c nodeId
  log := []

def step (s : Inbox) (e : PeerId × Event) : Inbox where
  task := s.task.step e.2
  log := s.log ++ e.2.inbound.map (e.1, ·)

end Inbox

end Superliquid

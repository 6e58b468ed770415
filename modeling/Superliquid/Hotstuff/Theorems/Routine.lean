import Superliquid.Hotstuff.Theorems.Step

namespace Superliquid

open HotStuffReplica ReplicaM Handler

section

variable [Sha256] [Ed25519]

-- What a step of a replica runs.
inductive Ran (t : Task) (e : Event) (t' : Task) : Prop
  | stopped     : (t'.replica = t.replica) → Ran t e t'
  | timeout     : (e = .timeout) → (advanceView t.replica = (res, t'.replica)) → Ran t e t'
  | transaction :
    (e = .transaction txn) → (handleTransaction txn t.replica = (res, t'.replica)) → Ran t e t'
  | message     :
    (e = .hotStuff msg order) → (handleMessage order msg t.replica = (res, t'.replica)) → Ran t e t'

theorem Task.step_ran (t : Task) (e : Event) : Ran t e (t.step e) := by
  by_cases hp : t.panicked
  case pos => exact .stopped (by simp [Task.step, hp])
  case neg =>
    obtain ⟨res, hr, _⟩ := Task.step_cases (e := e) hp
    generalize t.step e = t' at *
    cases hf : t.replica.pacemaker.failedViews
    case error err =>
      have hn : runReplica e t.replica = (.error err, t.replica) := by
        simp [runReplica, bind_apply, hf]
      exact .stopped (Prod.mk.inj (hr.symm.trans hn)).2
    case ok n =>
      cases e
      case hotStuff    => exact .message rfl (by simpa [runReplica, bind_apply, hf] using hr)
      case transaction => exact .transaction rfl (by simpa [runReplica, bind_apply, hf] using hr)
      case timeout     => exact .timeout rfl (by simpa [runReplica, bind_apply, hf] using hr)

theorem handleMessage_cases {r r' : HotStuffReplica} {order : TallyOrder} {msg : HotStuffMessage}
    {res : Except Panic Unit} (h : handleMessage order msg r = (res, r')) :
    (∃ chosen, select order msg r = (chosen, r') ∧ ∀ m, chosen ≠ .ok (some m)) ∨
    (∃ role m r₁, select order msg r = (.ok (some (role, m)), r₁) ∧ handleSelected role m r₁ = (res, r')) := by
  cases bind_cases h
  case inr h => have ⟨_, hs, _⟩ := h; exact .inl ⟨_, hs, by simp⟩
  case inl h =>
    have ⟨chosen, r₁, hs, h⟩ := h
    cases chosen
    case none   => cases h; exact .inl ⟨_, hs, by simp⟩
    case some m => exact .inr ⟨m.1, m.2, r₁, hs, h⟩

-- The proposal is what the replica logic gets to see, and it is handled.
theorem Task.takenUp_cases {t : Task} {e : Event} {r : HotStuffReplica} {node : Block}
    (h : t.takenUp e = some (r, node)) :
    ∃ msg order role view sender sv res, e = .hotStuff msg order ∧
      select order msg t.replica = (.ok (some (role, .proposal node view sender sv)), r) ∧
      r.pacemaker.currentLeader = .ok sender ∧
      handleSelected role (.proposal node view sender sv) r = (res, (t.step e).replica) := by
  have hp := Task.running_of_takenUp h
  have ⟨res, hrun, _⟩ := Task.step_cases (e := e) (by simp [hp] : ¬t.panicked)
  unfold Task.takenUp at h
  simp only [hp, Bool.false_eq_true, if_false] at h
  split at h
  case h_2 => contradiction
  case h_1 msg order hf _ =>
    have hrun : handleMessage order msg t.replica = (res, (t.step (.hotStuff msg order)).replica) := by
      simpa [runReplica, bind_apply, hf] using hrun
    split at h
    case h_2 => contradiction
    case h_1 role node' view sender sv r' hs =>
      split at h
      case isFalse => contradiction
      case isTrue hl =>
        cases h
        refine ⟨msg, order, role, view, sender, sv, res, rfl, hs, hl, ?_⟩
        rwa [handleMessage, bind_apply_ok hs] at hrun

theorem Task.takenUp_of_select {t : Task} {order : TallyOrder} {msg : HotStuffMessage} {role : Role} {node : Block}
    {view sender sv : Nat} {r : HotStuffReplica} (hn : (t.step (.hotStuff msg order)).replica ≠ t.replica)
    (hs : select order msg t.replica = (.ok (some (role, .proposal node view sender sv)), r))
    (hl : r.pacemaker.currentLeader = .ok sender) : t.takenUp (.hotStuff msg order) = some (r, node) := by
  have hp : ¬t.panicked := fun hp => hn (by simp [Task.step, hp])
  cases hf : t.replica.pacemaker.failedViews
  case ok n => simp [Task.takenUp, hp, hf, hs, hl]
  case error err =>
    obtain ⟨_, hr, _⟩ := Task.step_cases (e := .hotStuff msg order) hp
    have hstop : runReplica (.hotStuff msg order) t.replica = (.error err, t.replica) := by
      simp [runReplica, bind_apply, hf]
    exact absurd (Prod.mk.inj (hr.symm.trans hstop)).2 hn

end

-- A relation that all parts of the handlers keep, other than those that put a message into the window,
-- broadcast a proposal or take in a transaction. Where the execution of a block panics, the block is noted and nothing
-- else is done.
structure Routine (returning : Prop) (R : HotStuffReplica → HotStuffReplica → Prop) : Prop
    extends IsPreorder HotStuffReplica R where
  moved {r : HotStuffReplica} {pacemaker : Pacemaker} {viewProgress : ViewProgress} :
    (r.pacemaker.currView < pacemaker.currView) → R r { r with pacemaker, viewProgress }
  sent {r : HotStuffReplica} {out : Outbound} :
    (∀ msg, out ≠ .broadcast msg) → R r { r with repNodeChannel := r.repNodeChannel ++ [out] }
  pruned {r : HotStuffReplica} {view : Nat} {messages : MessageWindow} :
    (r.messages.pruneBeforeView view = .ok messages) → R r { r with messages }
  noted {r : HotStuffReplica} {genericQC lockedQC : QuorumCertificate} {blockstore : Blockstore}
    {pendingTransactions : Map Sha256Hash SignedTransaction} :
    R r { r with genericQC, lockedQC, blockstore, pendingTransactions }
  locked {r : HotStuffReplica} {view : Nat} :
    R r { r with pacemaker := r.pacemaker.setLastCommittedView view }
  voted {r : HotStuffReplica} : R r (setVoted r)
  selected {r : HotStuffReplica} {n : Nat} {mempool : PriorityMempool} {transactions : List SignedTransaction} :
    (r.mempool.popNextN n = .ok (mempool, transactions)) → R r { r with mempool }
  committed {r : HotStuffReplica} {block executed : Block} {ledgerState : LedgerState}
    {accountNonces : List (Option (PublicKeyHash × Nat))} {blockstore : Blockstore}
    {pendingTransactions : Map Sha256Hash SignedTransaction} :
    (r.ledgerState.applyBlock block = .ok (ledgerState, executed, accountNonces)) →
    R r { r with
      applied := r.applied ++ [block], ledgerState, blockstore, pendingTransactions,
      committedTransactions := (r.addBlockTransactionsToCommitted executed).committedTransactions,
      mempool := r.mempool.updateAfterExecution accountNonces }
  interrupted {r : HotStuffReplica} {block : Block} :
    (¬returning) → R r { r with applied := r.applied ++ [block] }

namespace Routine

variable {returning : Prop} {R : HotStuffReplica → HotStuffReplica → Prop} (routine : Routine returning R)

include routine

theorem send {out : Outbound} (h : ∀ msg, out ≠ .broadcast msg) : Keeps returning R (ReplicaM.send out) :=
  .modify fun _ => routine.sent h

theorem setGenericQC {qc : QuorumCertificate} : Keeps returning R (ReplicaM.setGenericQC qc) := by
  have := routine.toIsPreorder
  refine .bind (.modify fun _ => routine.noted) fun _ => .update fun h => ?_
  simp only [Checked.bind_ok, Checked.pure_ok, Prod.mk.injEq] at h
  have ⟨messages, hp, _, hr⟩ := h
  exact hr ▸ routine.pruned hp

theorem catchUp {view : Nat} : Keeps returning R (ReplicaM.catchUp view) := by
  have := routine.toIsPreorder
  refine .bind .read fun r => ?_
  split
  case isFalse => exact .pure
  case isTrue =>
    split
    case h_2 => exact .pure
    case h_1 =>
      split
      case isTrue  => exact routine.setGenericQC
      case isFalse => exact .pure

theorem selectTransactions : Keeps returning R ReplicaM.selectTransactions := by
  have := routine.toIsPreorder
  refine .update fun h => ?_
  simp only [Checked.bind_ok, Checked.pure_ok, Prod.mk.injEq] at h
  have ⟨_, hp, _, hr⟩ := h
  exact hr ▸ routine.selected hp

theorem syncView (msg : HotStuffMessage) : Keeps returning R (ReplicaM.syncView msg) := by
  have := routine.toIsPreorder
  refine .read_bind fun r => ?_
  simp only [id_eq]
  split
  case isFalse => exact .pure
  case isTrue ha =>
    refine .modify_bind (routine.moved (lt_of_fastForwardView ha)) ?_
    refine Keeps.bind .lift (fun leader => ?_) _
    split
    case isFalse => exact .pure
    case isTrue  => exact .bind .lift fun _ => routine.send (by simp)

theorem advanceView : Keeps returning R ReplicaM.advanceView := by
  have := routine.toIsPreorder
  refine .read_bind fun r => ?_
  simp only [id_eq]
  refine .lift_bind fun pacemaker hp => .modify_bind (routine.moved (lt_of_advanceView hp)) ?_
  refine Keeps.bind .lift (fun leader => .bind .lift fun msg => ?_) _
  split
  case isTrue  => exact routine.send (by simp)
  case isFalse => exact routine.send (by simp)

theorem commit {key : BlockHash} {block : Block} : Keeps returning R (ReplicaM.commit key block) := by
  intro r returned
  cases ha : r.ledgerState.applyBlock block
  case error e =>
    have panics : ReplicaM.commit key block r = (.error e, { r with applied := r.applied ++ [block] }) := by
      rw [ReplicaM.commit, modify_bind, bind_apply_error (update_apply_error (by rw [ha]; rfl))]
    rw [panics] at returned ⊢
    exact routine.interrupted fun hr => absurd (returned hr) (by simp)
  case ok a =>
    have ⟨ledgerState, executed, accountNonces⟩ := a
    rw [ReplicaM.commit, modify_bind, bind_apply_ok (update_apply_ok (by rw [ha]; rfl))]
    exact routine.committed ha

theorem reply {view : Nat} {out : HotStuffMessage} {role : Role} :
    Keeps returning R (ReplicaM.reply view out role) := by
  have := routine.toIsPreorder
  cases role
  case leader =>
    refine .bind .read fun r => .bind .lift fun _ => .bind .lift fun nextLeader => ?_
    exact .bind (routine.send (by simp)) fun _ => .modify fun _ => routine.voted
  case replica =>
    refine .bind .read fun r => .bind .lift fun _ => .bind .lift fun nextLeader => ?_
    refine .bind (.modify fun _ => routine.voted) fun _ => ?_
    split
    case isTrue  => exact routine.send (by simp)
    case isFalse => exact routine.send (by simp)

theorem replicaHandleVote : Keeps returning R ReplicaM.replicaHandleVote := by
  have := routine.toIsPreorder
  refine .read_bind fun r => ?_
  simp only [id_eq]
  refine .lift_bind fun _ _ => .lift_bind fun _ _ => ?_
  split
  case isTrue => exact .pure
  split
  case isTrue => exact .pure
  refine .lift_bind fun _ _ => .lift_bind fun _ _ => ?_
  split
  case isTrue => exact .pure
  refine .lift_bind fun pacemaker hp => ?_
  have moved : R r { r with pacemaker, viewProgress := r.viewProgress } := routine.moved (lt_of_advanceView hp)
  exact .modify_bind moved (Keeps.bind .lift (fun _ => .pure) _)

variable [Sha256]

theorem commitPhase {bPrime : Block} : Keeps returning R (ReplicaM.commitPhase bPrime) := by
  have := routine.toIsPreorder
  refine .bind .read fun r => ?_
  split
  case h_2 => exact .pure
  case h_1 =>
    split
    case isTrue  => exact routine.commit
    case isFalse => exact .pure

theorem lockPhase {bDoublePrime : Block} : Keeps returning R (ReplicaM.lockPhase bDoublePrime) := by
  have := routine.toIsPreorder
  refine .bind .read fun r => ?_
  split
  case h_2 => exact .pure
  case h_1 =>
    split
    case isFalse => exact .pure
    case isTrue  =>
      refine .bind (.modify fun r => ?_) fun _ => routine.commitPhase
      have locked : R r { r with pacemaker := r.pacemaker.setLastCommittedView bDoublePrime.justify.viewNumber } :=
        routine.locked
      exact IsTrans.trans _ _ _ locked routine.noted

theorem adoptPhase {bStar bDoublePrime : Block} : Keeps returning R (ReplicaM.adoptPhase bStar bDoublePrime) := by
  have := routine.toIsPreorder
  unfold ReplicaM.adoptPhase
  split
  case isTrue  => exact .bind routine.setGenericQC fun _ => routine.lockPhase
  case isFalse => exact .pure

theorem leaderPropose : Keeps returning R ReplicaM.leaderPropose := by
  have := routine.toIsPreorder
  refine .bind .read fun r => ?_
  split
  case h_1 => exact .pure
  case h_2 =>
    refine .bind routine.selectTransactions fun _ => ?_
    exact .bind (.modify fun _ => routine.noted) fun _ => .pure

variable [Ed25519]

theorem leaderHandleMessage (order : TallyOrder) : Keeps returning R (ReplicaM.leaderHandleMessage order) := by
  have := routine.toIsPreorder
  refine .bind .read fun r => .bind .lift fun _ => .bind .lift fun _ => .bind .lift fun _ => ?_
  split
  case isTrue => exact .bind routine.catchUp fun _ => routine.leaderPropose
  split
  case isFalse => exact .pure
  refine .bind .lift fun qc => ?_
  cases qc
  case none    => exact .pure
  case some qc => exact .bind routine.setGenericQC fun _ => .pure

theorem checkProposal {bStar : Block} : Keeps returning R (ReplicaM.checkProposal bStar) := by
  have := routine.toIsPreorder
  refine .bind .read fun r => ?_
  split
  case h_1 => exact .pure
  refine .bind .lift fun _ => ?_
  split
  case isFalse => exact .pure
  refine .bind .lift fun _ => ?_
  split
  case isTrue => exact .pure
  split
  case isTrue => exact .pure
  refine .bind (.modify fun _ => routine.noted) fun _ => ?_
  exact .bind routine.adoptPhase fun _ => .pure

theorem handleSelected (role : Role) (msg : HotStuffMessage) :
    Keeps returning R (ReplicaM.handleSelected role msg) := by
  have := routine.toIsPreorder
  refine .bind .read fun currView => .bind ?_ fun out => ?_
  · cases msg
    case newView => exact .pure
    case vote    => exact routine.replicaHandleVote
    case proposal =>
      refine .bind .read fun r => .bind .lift fun leader => ?_
      split
      case isTrue  => exact .pure
      case isFalse => exact .bind (.modify fun _ => routine.noted) fun _ => routine.checkProposal
  · cases out
    case none   => exact .pure
    case some _ => exact routine.reply

section Select

variable (push : ∀ {r : HotStuffReplica} {msg}, R r { r with messages := r.messages.push msg })

include push

omit [Sha256] [Ed25519] in
theorem receive (msg : HotStuffMessage) : Keeps returning R (ReplicaM.receive msg) := by
  have := routine.toIsPreorder
  exact .bind (routine.syncView msg) fun _ => .bind .lift fun _ => .modify fun _ => push

section

variable (announced : ∀ {msg r}, R r (announce msg r))

include announced

theorem select {order : TallyOrder} {msg : HotStuffMessage} : Keeps returning R (ReplicaM.select order msg) := by
  have := routine.toIsPreorder
  refine .bind (routine.receive push msg) fun _ => .bind .read fun r => .bind .lift fun leader => ?_
  split
  case isFalse => exact .pure
  refine .bind (routine.leaderHandleMessage order) fun out => ?_
  cases out
  case none   => exact .pure
  case some _ => exact fun _ _ => announced

-- Where announcements are routine as well, all steps are, but for new transactions.
theorem step (t : Task) (e : Event) (returned : returning → (t.step e).panicked = false) :
    R t.replica (t.step e).replica ∨
    ∃ txn, e = .transaction txn ∧ (t.step e).replica = (ReplicaM.handleTransaction txn t.replica).2 := by
  have := routine.toIsPreorder
  by_cases hp : t.panicked
  case pos => exact .inl (by simpa [Task.step, hp] using Std.Refl.refl (r := R) t.replica)
  obtain ⟨res, hr, hres⟩ := Task.step_cases (e := e) hp
  have ran (h : Keeps returning R (runReplica e)) : R t.replica (t.step e).replica := by
    have kept := h t.replica fun hr' => ⟨(), by rw [hr, hres (returned hr')]⟩
    rwa [hr] at kept
  cases e
  case timeout => exact .inl (ran (.bind .read fun _ => .bind .lift fun _ => routine.advanceView))
  case hotStuff msg order =>
    refine .inl (ran (.bind .read fun _ => .bind .lift fun _ => ?_))
    refine .bind (routine.select push announced) fun chosen => ?_
    rcases chosen with _ | ⟨role, msg⟩
    · exact .pure
    · exact routine.handleSelected role msg
  case transaction txn =>
    cases t.step_ran (.transaction txn)
    case stopped h            => exact .inl (h ▸ Std.Refl.refl _)
    case timeout he _         => cases he
    case message he _         => cases he
    case transaction _ _ he h => cases he; exact .inr ⟨txn, rfl, by rw [h]⟩

end

end Select

end Routine

namespace Routine

variable {R : HotStuffReplica → HotStuffReplica → Prop} (routine : Routine False R) [Sha256] [Ed25519]

include routine

-- Only the announcement of a proposal is left open.
theorem announces {r r' : HotStuffReplica} {order : TallyOrder} {msg : HotStuffMessage}
    {chosen : Except Panic (Option (Role × HotStuffMessage))}
    (push : ∀ {r : HotStuffReplica} {msg}, R r { r with messages := r.messages.push msg })
    (h : ReplicaM.select order msg r = (chosen, r')) :
    R r r' ∨
    ∃ m r₁ s, ReplicaM.receive msg r = (.ok (), r₁) ∧ r₁.Leading ∧
      ReplicaM.leaderHandleMessage order r₁ = (.ok (some m), s) ∧
      R r s ∧ chosen = .ok (some (.leader, m)) ∧ r' = announce m s := by
  have := routine.toIsPreorder
  have received : R r (ReplicaM.receive msg r).2 := (routine.receive push msg).apply r
  cases select_cases h
  case inl h => have ⟨_, hr, _⟩ := h; rw [hr] at received; exact .inl received
  case inr h =>
    have ⟨r₁, hr, selects⟩ := h
    rw [hr] at received
    have led : R r (ReplicaM.leaderHandleMessage order r₁).2 :=
      IsTrans.trans _ _ _ received ((routine.leaderHandleMessage order).apply r₁)
    cases selects
    case panicked               => exact .inl received
    case replica                => exact .inl received
    case waiting hl             => rw [hl] at led; exact .inl led
    case leader leading hl _    => rw [hl] at led; exact .inr ⟨_, r₁, _, hr, leading, hl, led, rfl, rfl⟩

-- A message is received before anything else happens, if the loop gets that far.
theorem received (announced : ∀ {msg r}, R r (announce msg r)) (t : Task) (msg : HotStuffMessage) (order : TallyOrder) :
    (t.step (.hotStuff msg order)).replica = t.replica ∨
    ∃ res r₁, ReplicaM.receive msg t.replica = (res, r₁) ∧ R r₁ (t.step (.hotStuff msg order)).replica := by
  have := routine.toIsPreorder
  have selected {chosen r'} (h : ReplicaM.select order msg t.replica = (chosen, r')) :
      ∃ res r₁, ReplicaM.receive msg t.replica = (res, r₁) ∧ R r₁ r' := by
    rcases select_cases h with ⟨_, hr, _⟩ | ⟨r₁, hr, selects⟩
    · exact ⟨_, _, hr, Std.Refl.refl _⟩
    · refine ⟨_, _, hr, ?_⟩
      have led := (routine.leaderHandleMessage order).apply r₁
      cases selects
      case panicked   => exact Std.Refl.refl _
      case replica    => exact Std.Refl.refl _
      case waiting hl => rw [hl] at led; exact led
      case leader hl  => rw [hl] at led; exact IsTrans.trans _ _ _ led announced
  cases t.step_ran (.hotStuff msg order)
  case stopped h        => exact .inl h
  case timeout he _     => cases he
  case transaction he _ => cases he
  case message he h =>
    cases he
    cases handleMessage_cases h
    case inl h => have ⟨_, hs, _⟩ := h; exact .inr (selected hs)
    case inr h =>
      have ⟨role, m, r₂, hs, hh⟩ := h
      have ⟨res, r₁, hr, hle⟩ := selected hs
      have kept := (routine.handleSelected role m).apply r₂
      rw [hh] at kept
      exact .inr ⟨res, r₁, hr, IsTrans.trans _ _ _ hle kept⟩

end Routine

-- The view of a replica only moves forward.
theorem currView_routine : Routine False fun r r' => r.pacemaker.currView ≤ r'.pacemaker.currView where
  refl _          := le_rfl
  trans _ _ _     := le_trans
  moved h         := h.le
  sent _          := le_rfl
  pruned _        := le_rfl
  noted           := le_rfl
  locked          := le_rfl
  voted           := le_rfl
  selected _      := le_rfl
  committed _     := le_rfl
  interrupted _   := le_rfl

end Superliquid

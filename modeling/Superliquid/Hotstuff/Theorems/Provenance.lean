import Superliquid.Hotstuff.Theorems.Propose
import Superliquid.Hotstuff.Theorems.Window

namespace Superliquid

open HotStuffReplica ReplicaM Handler

-- All that others have sent for a view.
def sentFor (view : Nat) (msgs : List HotStuffMessage) : List HotStuffMessage :=
  msgs.filter fun msg => msg.asProposal.isNone ∧ msg.getViewNumber = view

-- All messages in the window but proposals were delivered, and none of them more often than it is there.
def Held (log : List HotStuffMessage) (r : HotStuffReplica) : Prop :=
  ∀ view, ((r.messages.ofView view).filter (·.asProposal.isNone)).Sublist (sentFor view log)

section Held

variable {log : List HotStuffMessage} {r r' : HotStuffReplica} {msg : HotStuffMessage}

theorem Held.new [Sha256] [Ed25519] {c : Config} {nodeId : PeerId} : Held log (.new c nodeId) := by
  intro view
  simp [HotStuffReplica.new, MessageWindow.ofView, MessageWindow.new]

theorem Held.prune {view : Nat} (h : Held log r) (hp : r.messages.pruneBeforeView view = .ok r'.messages) :
    Held log r' := by
  intro v
  rcases MessageWindow.ofView_pruneBeforeView hp v with hv | hv <;> rw [hv]
  · exact h v
  · exact List.nil_sublist _

theorem Held.append (h : Held log r) : Held (log ++ [msg]) r := by
  intro view
  rw [sentFor, List.filter_append]
  exact (h view).trans (List.sublist_append_left _ _)

theorem Held.push (h : Held log r) (hm : r'.messages = r.messages.push msg) : Held (log ++ [msg]) r' := by
  intro view
  rw [hm]
  rcases r.messages.ofView_push msg view with hv | ⟨hview, hv⟩ <;> rw [hv]
  · exact h.append view
  · rw [sentFor, List.filter_append, List.filter_append]
    refine (h view).append ?_
    cases hm : msg.asProposal <;> simp [hm, hview]

-- The message that a leader adds is a proposal.
theorem Held.push_of_not (h : Held log r) (hm : r'.messages = r.messages.push msg)
    (hn : msg.asProposal.isSome) : Held log r' := by
  intro view
  have ⟨p, hp⟩ := Option.isSome_iff_exists.mp hn
  have := h.push hm view
  simpa [sentFor, List.filter_append, hp] using this

theorem Held.routine : Routine False fun r r' => Held log r → Held log r' where
  refl _ h                := h
  trans _ _ _ h₁ h₂ h     := h₂ (h₁ h)
  moved _ h               := h
  sent _ h                := h
  pruned hp h             := h.prune hp
  noted h                 := h
  locked h                := h
  voted h                 := h
  selected _ h            := h
  committed _ h           := h
  interrupted _ h         := h

-- The message is counted as delivered even if it does not make it into the window.
theorem Held.receive {res : Except Panic Unit} (h : Held log r) (hr : receive msg r = (res, r')) :
    Held (log ++ [msg]) r' := by
  have synced : Held log (syncView msg r).2 := (Held.routine.syncView msg).apply r h
  cases bind_cases hr
  case inr hr => have ⟨_, hs, _⟩ := hr; rw [hs] at synced; exact synced.append
  case inl hr =>
    have ⟨_, r₁, hs, hr⟩ := hr
    rw [hs] at synced
    refine lift_bind_elim hr (fun _ => synced.append) fun _ _ hr => ?_
    cases hr
    exact synced.push rfl

variable [Sha256] [Ed25519]

theorem select_held {order : TallyOrder} {chosen : Except Panic (Option (Role × HotStuffMessage))}
    (h : Held log r) (hs : select order msg r = (chosen, r')) : Held (log ++ [msg]) r' := by
  cases select_cases hs
  case inl hs => have ⟨_, hr, _⟩ := hs; exact h.receive hr
  case inr hs =>
    have ⟨r₁, hr, selects⟩ := hs
    have received := h.receive hr
    have led : Held (log ++ [msg]) (leaderHandleMessage order r₁).2 :=
      (Held.routine.leaderHandleMessage order).apply r₁ received
    cases selects
    case panicked            => exact received
    case replica             => exact received
    case waiting hl          => rw [hl] at led; exact led
    case leader leading hl _ =>
      rw [hl] at led
      have ⟨_, _, _, _, _, hm⟩ := MakesLeaf.of_leads leading (leaderHandleMessage_leads hl)
      exact led.push_of_not rfl (by simp [hm, HotStuffMessage.asProposal])

theorem Held.step {t : Task} {e : Event} (h : Held log t.replica) :
    Held (log ++ e.inbound) (t.step e).replica := by
  cases t.step_ran e
  case stopped ht =>
    rw [ht]
    cases e
    case hotStuff msg order => exact h.append
    all_goals simpa [Event.inbound, Event.delivered] using h
  case timeout he ht =>
    have kept := Held.routine.advanceView.apply t.replica h
    rw [ht] at kept
    simpa [he, Event.inbound, Event.delivered] using kept
  case transaction txn _ he ht =>
    have kept : Held log (handleTransaction txn t.replica).2 := h
    rw [ht] at kept
    simpa [he, Event.inbound, Event.delivered] using kept
  case message msg order _ he ht =>
    have hin : e.inbound = [msg] := by simp [he, Event.inbound, Event.delivered]
    rw [hin]
    cases handleMessage_cases ht
    case inl ht => have ⟨_, hs, _⟩ := ht; exact select_held h hs
    case inr ht =>
      have ⟨role, m, r₁, hs, hh⟩ := ht
      have kept := (Held.routine.handleSelected role m).apply r₁ (select_held h hs)
      rwa [hh] at kept

theorem Held.inbox {s : Inbox} {e : PeerId × Event} (h : Held (s.log.map Prod.snd) s.task.replica) :
    Held ((s.step e).log.map Prod.snd) (s.step e).task.replica := by
  simpa [Inbox.step, Function.comp_def] using h.step (e := e.2)

end Held

def HotStuffMessage.newViewQC : HotStuffMessage → Option QuorumCertificate
  | newView justify _ _ _ => some justify
  | _                     => none

-- The certificate that a message brings to a replica. Genesis blocks have none.
def HotStuffReplica.inboundQC (r : HotStuffReplica) : HotStuffMessage → Option QuorumCertificate
  | .newView justify _ _ _       => some justify
  | .vote ..                     => none
  | .proposal node view sender _ =>
    if r.HearsOf { node, view, sender } ∧ node.parentId ≠ none then some node.justify else none

theorem inboundQC_of_newViewQC {r : HotStuffReplica} {msg : HotStuffMessage} {qc : QuorumCertificate}
    (h : qc ∈ msg.newViewQC) : qc ∈ r.inboundQC msg := by
  cases msg
  case newView  => exact h
  case vote     => cases h
  case proposal => cases h

-- The certificate that a leader makes of the votes for the last view when it gets a message.
def Forms [Sha256] [Ed25519] (r : HotStuffReplica) (msg : HotStuffMessage) (order : TallyOrder)
    (qc : QuorumCertificate) : Prop :=
  ∃ r₁, receive msg r = (.ok (), r₁) ∧ r₁.tryCreateQCForView order (r₁.pacemaker.currView - 1) = .ok (some qc)

-- All certificates that a replica has, or may still take over, are of some kind.
structure Holds (P : QuorumCertificate → Prop) (r : HotStuffReplica) : Prop where
  genericQC : P r.genericQC
  lockedQC  : P r.lockedQC
  stored    : ∀ k b, r.blockstore.lookup k = some b → b.parentId ≠ none → P b.justify
  newViews  : ∀ msg ∈ r.messages.iter, ∀ qc ∈ msg.newViewQC, P qc

namespace Holds

variable {P Q : QuorumCertificate → Prop} {r r' : HotStuffReplica} {msg : HotStuffMessage}

theorem mono (h : Holds P r) (hq : ∀ qc, P qc → Q qc) : Holds Q r where
  genericQC            := hq _ h.genericQC
  lockedQC             := hq _ h.lockedQC
  stored k b hb hn     := hq _ (h.stored k b hb hn)
  newViews msg hm qc h' := hq _ (h.newViews msg hm qc h')

theorem new [Sha256] [Ed25519] {c : Config} {nodeId : PeerId} (h : P .createGenesisQC) :
    Holds P (.new c nodeId) := by
  refine ⟨h, h, fun k b hb hn => ?_, fun msg hm => ?_⟩
  · rcases Map.lookup_insert_iff.mp hb with ⟨_, rfl⟩ | ⟨_, hb⟩
    · exact absurd rfl hn
    · simp at hb
  · simp [HotStuffReplica.new, MessageWindow.new, MessageWindow.iter] at hm

theorem routine : Routine False fun r r' =>
    (∀ msg ∈ r.messages.iter, ∀ qc ∈ msg.newViewQC, P qc) → ∀ msg ∈ r'.messages.iter, ∀ qc ∈ msg.newViewQC, P qc where
  refl _ h                := h
  trans _ _ _ h₁ h₂ h     := h₂ (h₁ h)
  moved _ h               := h
  sent _ h                := h
  pruned hp h msg hm      := h msg (MessageWindow.mem_iter_pruneBeforeView hp hm)
  noted h                 := h
  locked h                := h
  voted h                 := h
  selected _ h            := h
  committed _ h           := h
  interrupted _ h         := h

theorem of_idle (h : Holds P r) (idle : Idle r r') (newViews : ∀ msg ∈ r'.messages.iter, ∀ qc ∈ msg.newViewQC, P qc) :
    Holds P r' where
  genericQC := idle.genericQC ▸ h.genericQC
  lockedQC  := idle.lockedQC ▸ h.lockedQC
  stored    := idle.blockstore ▸ h.stored
  newViews  := newViews

theorem receive {res : Except Panic Unit} (h : Holds P r) (hm : ∀ qc ∈ msg.newViewQC, P qc)
    (hr : ReplicaM.receive msg r = (res, r')) : Holds P r' := by
  refine h.of_idle (receive_idle hr) ?_
  have synced := (routine.syncView msg).apply r h.newViews
  cases bind_cases hr
  case inr hr => have ⟨_, hs, _⟩ := hr; rw [hs] at synced; exact synced
  case inl hr =>
    have ⟨_, r₁, hs, hr⟩ := hr
    rw [hs] at synced
    refine lift_bind_elim hr (fun _ => synced) fun _ _ hr => ?_
    cases hr
    intro m hpush
    rcases MessageWindow.mem_iter_push hpush with hold | rfl
    · exact synced m hold
    · exact hm

theorem overdueQC {qc : QuorumCertificate} (h : Holds P r) (hq : r.overdueQC = some qc) : P qc := by
  unfold HotStuffReplica.overdueQC at hq
  split at hq
  case isFalse => contradiction
  case isTrue =>
    have ⟨view, sender, sv, hm⟩ := MessageWindow.getHighestQCFromVotes_mem (Option.filter_eq_some_iff.mp hq).1
    exact h.newViews _ hm qc rfl

theorem caughtUp (h : Holds P r) (hc : CaughtUp r r') : P r'.genericQC := by
  cases hc
  case same       => exact h.genericQC
  case adopted hq => exact h.overdueQC hq

variable [Sha256]

theorem store {node : Block} (h : Holds P r) (hn : node.parentId ≠ none → P node.justify) : Holds P (r.store node) where
  genericQC := h.genericQC
  lockedQC  := h.lockedQC
  newViews  := h.newViews
  stored k b hb hp := by
    rcases Map.lookup_insert_iff.mp hb with ⟨_, rfl⟩ | ⟨_, hb⟩
    · exact hn hp
    · exact h.stored k b hb hp

variable [Ed25519]

-- A leader makes a certificate from votes or takes over one from a new-view message. Its block carries what it
-- has then.
theorem leaderHandleMessage {order : TallyOrder} {res : Except Panic (Option HotStuffMessage)} (h : Holds P r)
    (formed : ∀ qc, r.tryCreateQCForView order (r.pacemaker.currView - 1) = .ok (some qc) → P qc)
    (hl : ReplicaM.leaderHandleMessage order r = (res, r')) : Holds P r' := by
  have newViews := (routine.leaderHandleMessage order).apply r h.newViews
  rw [hl] at newViews
  have stored {s : HotStuffReplica} (hc : CaughtUp r s) : s.blockstore = r.blockstore ∧ s.lockedQC = r.lockedQC := by
    cases hc <;> exact ⟨rfl, rfl⟩
  cases leaderHandleMessage_leads hl
  case idle               => exact h
  case certified hc _     => exact ⟨formed _ hc, h.lockedQC, h.stored, newViews⟩
  case caughtUp _ hs      =>
    have ⟨hstore, hlock⟩ := stored hs
    exact ⟨h.caughtUp hs, hlock ▸ h.lockedQC, hstore ▸ h.stored, newViews⟩
  case proposed hs _ _ hn =>
    have ⟨hstore, hlock⟩ := stored hs
    have generic := h.caughtUp hs
    refine ⟨generic, hlock ▸ h.lockedQC, fun k b hb hp => ?_, newViews⟩
    rcases Map.lookup_insert_iff.mp hb with ⟨_, rfl⟩ | ⟨_, hb⟩
    · rw [hn]
      exact generic
    · exact h.stored k b (hstore ▸ hb) hp

-- The certificates of a replica that has taken up a proposal come from the proposal and from the store.
theorem proposal {node : Block} {out : Except Panic (Option HotStuffMessage)} {c : Core} (h : Holds P r)
    (hn : node.parentId ≠ none → P node.justify) (hp : Proposal r node out c) :
    P c.genericQC ∧ P c.lockedQC ∧ ∀ k b, c.blockstore.lookup k = some b → b.parentId ≠ none → P b.justify := by
  have stored := h.store hn
  have generic {b'' : Block} (ha : Accepts r node b'') : P node.justify :=
    hn (parentId_ne_none ha.justified)
  have locked {b'' b' : Block} (ha : Accepts r node b'') (hl : Linked (r.store node) b'' b') : P b''.justify :=
    stored.stored _ b'' (getJustifiedBlock_lookup ha.justified) (parentId_ne_none hl.justified)
  refine ⟨?_, ?_, fun k b hb hb' => ?_⟩
  · cases hp
    case refused              => exact h.genericQC
    case voted                => exact h.genericQC
    case adopted ha _ _       => exact generic ha
    case locked ha _ _ _      => exact generic ha
    case committed ha _ _ _ _ => exact generic ha
  · cases hp
    case refused               => exact h.lockedQC
    case voted                 => exact h.lockedQC
    case adopted               => exact h.lockedQC
    case locked ha _ hl _      => exact locked ha hl
    case committed ha _ hl _ _ => exact locked ha hl
  · have ⟨b₀, he, hb₀⟩ := hp.lookup hb
    rw [Block.justify_of_eraseStatus he]
    exact stored.stored k b₀ hb₀ (Block.parentId_of_eraseStatus he ▸ hb')

theorem handleSelected {role : Role} {res : Except Panic Unit} (h : Holds P r)
    (hm : ∀ node view sender sv, msg = .proposal node view sender sv → r.pacemaker.currentLeader = .ok sender →
      node.parentId ≠ none → P node.justify)
    (hh : ReplicaM.handleSelected role msg r = (res, r')) : Holds P r' := by
  have newViews := (routine.handleSelected role msg).apply r h.newViews
  rw [hh] at newViews
  cases msg
  case newView => exact h.of_idle (handleSelected_idle (by simp) hh) newViews
  case vote    => exact h.of_idle (handleSelected_idle (by simp) hh) newViews
  case proposal node view sender sv =>
    cases handleSelected_proposal hh
    case inl hh => exact hh.2 ▸ h
    case inr hh =>
      have ⟨hl, out, c, hp, ha, _⟩ := hh
      have ⟨_, ha⟩ := ha.same
      have ⟨hg, hk, hs⟩ := h.proposal (hm node view sender sv rfl hl) hp
      have genericQC : r'.genericQC = c.genericQC := congrArg Core.genericQC ha
      have lockedQC : r'.lockedQC = c.lockedQC := congrArg Core.lockedQC ha
      have blockstore : r'.blockstore = c.blockstore := congrArg Core.blockstore ha
      exact ⟨genericQC ▸ hg, lockedQC ▸ hk, blockstore ▸ hs, newViews⟩

section Step

variable {t : Task} {e : Event} {order : TallyOrder}

theorem select {chosen : Except Panic (Option (Role × HotStuffMessage))} (h : Holds P r)
    (hm : ∀ qc ∈ msg.newViewQC, P qc) (formed : ∀ qc, Forms r msg order qc → P qc)
    (hs : ReplicaM.select order msg r = (chosen, r')) : Holds P r' := by
  cases select_cases hs
  case inl hs => have ⟨_, hr, _⟩ := hs; exact h.receive hm hr
  case inr hs =>
    have ⟨r₁, hr, selects⟩ := hs
    have received := h.receive hm hr
    have led {res s} (hl : ReplicaM.leaderHandleMessage order r₁ = (res, s)) : Holds P s :=
      received.leaderHandleMessage (fun qc hq => formed qc ⟨r₁, hr, hq⟩) hl
    cases selects
    case panicked            => exact received
    case replica             => exact received
    case waiting hl          => exact led hl
    case leader leading hl _ =>
      have ⟨_, _, node, _, _, hn⟩ := MakesLeaf.of_leads leading (leaderHandleMessage_leads hl)
      have holds := led hl
      refine ⟨holds.genericQC, holds.lockedQC, holds.stored, fun m' hm' => ?_⟩
      rcases MessageWindow.mem_iter_push hm' with hold | rfl
      · exact holds.newViews m' hold
      · simp [hn, HotStuffMessage.newViewQC]

-- What the replica logic gets to see is what the message has brought, or a block with the certificate of the leader.
theorem chosen {role : Role} {node : Block} {view sender sv : Nat} (h : Holds P r)
    (brought : ∀ qc ∈ r.inboundQC msg, P qc)
    (hs : ReplicaM.select order msg r = (.ok (some (role, .proposal node view sender sv)), r'))
    (hl : r'.pacemaker.currentLeader = .ok sender) (hn : node.parentId ≠ none) : P node.justify := by
  rcases select_cases hs with ⟨_, _, hc⟩ | ⟨r₁, hr, selects⟩
  · cases hc
  rcases selects.chosen with ⟨hm, hr', _⟩ | ⟨leading, s, hlead, _⟩
  · subst hm hr'
    have hp := receive_pacemaker hr
    refine brought _ ?_
    simp only [HotStuffReplica.inboundQC]
    rw [if_pos ⟨by rw [HearsOf, ← hl, hp]; rfl, hn⟩]
    rfl
  · have hm : ∀ qc ∈ msg.newViewQC, P qc := fun qc hq => brought qc (inboundQC_of_newViewQC hq)
    have ⟨s, _, _, makes, _, he⟩ := MakesLeaf.of_leads leading (leaderHandleMessage_leads hlead)
    have ⟨_, _, _, hleaf⟩ := makes.leaf
    cases he
    rw [hleaf]
    exact (h.receive hm hr).caughtUp makes.caughtUp

theorem step_of_takenUp (h : Holds P t.replica) (newViews : ∀ msg ∈ e.inbound, ∀ qc ∈ msg.newViewQC, P qc)
    (takenUp : ∀ x ∈ t.takenUp e, x.2.parentId ≠ none → P x.2.justify)
    (formed : ∀ msg order, e = .hotStuff msg order → ∀ qc, Forms t.replica msg order qc → P qc) :
    Holds P (t.step e).replica := by
  by_cases same : (t.step e).replica = t.replica
  case pos => exact same ▸ h
  cases t.step_ran e
  case stopped ht => exact absurd ht same
  case timeout ht =>
    have newViews := routine.advanceView.apply t.replica h.newViews
    rw [ht] at newViews
    exact h.of_idle (advanceView_idle ht) newViews
  case transaction ht =>
    have hr := (Prod.mk.inj ht).2
    exact hr ▸ ⟨h.genericQC, h.lockedQC, h.stored, h.newViews⟩
  case message msg order _ he ht =>
    subst he
    have newViews := newViews msg (by simp [Event.inbound, Event.delivered])
    have formed := formed msg order rfl
    cases handleMessage_cases ht
    case inl ht => have ⟨_, hs, _⟩ := ht; exact h.select newViews formed hs
    case inr ht =>
      have ⟨role, m, r₁, hs, hh⟩ := ht
      refine (h.select newViews formed hs).handleSelected (fun node view sender sv he hl hn => ?_) hh
      subst he
      exact takenUp _ (Task.takenUp_of_select same hs hl) hn

theorem step (h : Holds P t.replica) (brought : ∀ msg ∈ e.inbound, ∀ qc ∈ t.replica.inboundQC msg, P qc)
    (formed : ∀ msg order, e = .hotStuff msg order → ∀ qc, Forms t.replica msg order qc → P qc) :
    Holds P (t.step e).replica := by
  refine h.step_of_takenUp (fun msg hm qc hq => brought msg hm qc (inboundQC_of_newViewQC hq))
    (fun x hx hn => ?_) formed
  obtain ⟨msg, order, role, view, sender, sv, _, he, hs, hl, _⟩ := Task.takenUp_cases hx
  exact h.chosen (brought msg (by simp [he, Event.inbound, Event.delivered])) hs hl hn

-- Certificates of views up to the current one, or below it.
theorem step_views {f : Nat → Nat} (hf : Monotone f) (hpred : ∀ v, v - 1 ≤ f v)
    (h : Holds (·.viewNumber ≤ f t.replica.pacemaker.currView) t.replica)
    (brought : ∀ msg ∈ e.inbound, ∀ qc ∈ t.replica.inboundQC msg,
      qc.viewNumber ≤ f (max t.replica.pacemaker.currView msg.getViewNumber)) :
    Holds (·.viewNumber ≤ f (t.step e).replica.pacemaker.currView) (t.step e).replica := by
  have later := (t.step_stepped e).currView
  have h := h.mono fun _ hq => hq.trans (hf later)
  cases e
  case transaction => exact h.step (by simp [Event.inbound, Event.delivered]) (by simp)
  case timeout     => exact h.step (by simp [Event.inbound, Event.delivered]) (by simp)
  case hotStuff msg order =>
    rcases currView_routine.received (Nat.le_refl _) t msg order with same | ⟨res, r₁, hr, hle⟩
    · rw [same] at h ⊢
      exact h
    · refine h.step (fun m hm qc hq => ?_) fun m order' he qc hq => ?_
      · obtain rfl : m = msg := by simpa [Event.inbound, Event.delivered] using hm
        exact (brought m hm qc hq).trans (hf (max_le later ((le_of_receive hr).trans hle)))
      · cases he
        obtain ⟨r₂, hr₂, hq⟩ := hq
        cases hr.symm.trans hr₂
        rw [tryCreateQCForView_viewNumber hq]
        exact (hpred _).trans (hf hle)

end Step

end Holds

end Superliquid

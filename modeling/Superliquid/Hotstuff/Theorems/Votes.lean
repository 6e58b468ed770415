import Superliquid.Hotstuff.Theorems.Digests
import Superliquid.Hotstuff.Theorems.Propose

namespace Superliquid

open HotStuffReplica ReplicaM

def HotStuffMessage.asVote : HotStuffMessage → Option (Nat × Block)
  | vote node _ view _ _ => some (view, node)
  | _                    => none

-- The votes that a replica has sent, with their views.
def HotStuffReplica.votes (r : HotStuffReplica) : List (Nat × Block) :=
  r.repNodeChannel.filterMap (·.msg.asVote)

theorem asVote_eq_none {msg : HotStuffMessage} (h : ¬msg.IsVote) : msg.asVote = none := by
  cases msg <;> simp_all [HotStuffMessage.asVote, HotStuffMessage.IsVote]

theorem Quiet.votes {r r' : HotStuffReplica} (h : Quiet r r') : r'.votes = r.votes := by
  have ⟨out, hs, hn⟩ := h.sent
  have : out.filterMap (·.msg.asVote) = [] := by
    rw [List.filterMap_eq_nil_iff]
    exact fun o ho => asVote_eq_none (hn o ho)
  rw [HotStuffReplica.votes, hs, List.filterMap_append, this, List.append_nil, HotStuffReplica.votes]

variable [Sha256] [Ed25519]

theorem voteMessage_asVote {r : HotStuffReplica} {node : Block} :
    (r.voteMessage node).asVote = some (r.pacemaker.currView, node) :=
  rfl

section Proposal

variable {r : HotStuffReplica} {node : Block} {out : Except Panic (Option HotStuffMessage)} {c : Core}

theorem Proposal.vote {msg : HotStuffMessage} (h : Proposal r node (.ok (some msg)) c) :
    msg = r.voteMessage node ∧ ∃ b'', Accepts r node b'' := by
  cases h
  case refused h       => simp at h
  case voted ha _      => exact ⟨rfl, _, ha⟩
  case adopted ha _ h  => simp at h; exact ⟨h.1, _, ha⟩
  case locked ha _ _ _ => exact ⟨rfl, _, ha⟩
  case committed ha _ _ _ h =>
    simp only [reduceCtorEq, exists_false, false_and, false_or] at h
    have ⟨_, _, _, _, _, h⟩ := h
    cases h
    exact ⟨rfl, _, ha⟩

theorem Proposal.sent (h : Proposal r node out c) : c.sent = r.repNodeChannel := by
  cases h <;> rfl

end Proposal

-- A step sends at most one vote: for the proposal that it takes up, in the view at that time.
theorem Stepped.votes {t t' : Task} {e : Event} (h : Stepped t e t') :
    t'.replica.votes = t.replica.votes ∨
    ∃ r node b'', t.takenUp e = some (r, node) ∧ Accepts r node b'' ∧
      t'.replica.votes = t.replica.votes ++ [(r.pacemaker.currView, node)] := by
  cases h
  case quiet hq _ _ => exact .inl hq.votes
  case proposal r node _ _ _ c hup _ hq _ _ hp ha _ =>
    have hs := hp.sent
    cases ha
    case inl ha =>
      have hc : t'.replica.repNodeChannel = c.sent := congrArg Core.sent ha
      left
      rw [HotStuffReplica.votes, hc, hs]
      exact hq.votes
    case inr ha =>
      have ⟨vote, hout, o, ho, hcore⟩ := ha
      have hc : t'.replica.repNodeChannel = c.sent ++ [o] := congrArg Core.sent hcore
      subst hout
      have ⟨hv, b'', hb⟩ := hp.vote
      refine .inr ⟨r, node, b'', hup, hb, ?_⟩
      rw [HotStuffReplica.votes, hc, hs, List.filterMap_append, ← hq.votes]
      simp [ho, hv, voteMessage_asVote, HotStuffReplica.votes]

-- Votes for a view agree on the block, and are for blocks of that view.
structure OneVotePerView (r : HotStuffReplica) : Prop where
  unique : ∀ x ∈ r.votes, ∀ y ∈ r.votes, x.1 = y.1 → x.2.hash = y.2.hash
  view   : ∀ x ∈ r.votes, x.2.viewNumber = x.1

-- The leader has sent no other proposal for the view, and this one is not late.
structure SoleProposal (s : Inbox) (p : Proposed) : Prop where
  timely : s.task.replica.pacemaker.currView ≤ p.view
  view   : p.node.viewNumber = p.view
  sender : p.sender ≠ s.task.replica.nodeId
  sole   : ∀ x ∈ s.log, ∀ q ∈ x.2.asProposal, q.view = p.view → q.sender = p.sender → q.node.hash = p.node.hash

instance {s : Inbox} {p : Proposed} : Decidable (SoleProposal s p) :=
  decidable_of_iff (_ ∧ _ ∧ _ ∧ ∀ x ∈ s.log, ∀ q ∈ x.2.asProposal, _)
    ⟨fun ⟨h₁, h₂, h₃, h₄⟩ => ⟨h₁, h₂, h₃, h₄⟩, fun ⟨h₁, h₂, h₃, h₄⟩ => ⟨h₁, h₂, h₃, h₄⟩⟩

def SoleProposals (s : Inbox) (e : PeerId × Event) : Prop :=
  ∀ msg ∈ e.2.inbound, ∀ p ∈ msg.asProposal, s.task.replica.HearsOf p → SoleProposal s p

instance {s : Inbox} {e : PeerId × Event} : Decidable (SoleProposals s e) :=
  inferInstanceAs (Decidable (∀ msg ∈ e.2.inbound, ∀ p ∈ msg.asProposal, _))

-- Where a vote comes from: the leader of its view has sent the block, or the replica has proposed it itself.
inductive Cast (s : Inbox) (vote : Nat × Block) : Prop
  | sent     :
    (x ∈ s.log) → (x.2.asProposal = some { node := vote.2, view := vote.1, sender }) →
    (s.task.replica.pacemaker.getLeaderForView vote.1 = .ok sender) → (sender ≠ s.task.replica.nodeId) → Cast s vote
  | proposed :
    (vote ∈ s.task.replica.proposals) →
    (s.task.replica.pacemaker.getLeaderForView vote.1 = .ok s.task.replica.nodeId) → Cast s vote

structure VotesInvariant (s : Inbox) : Prop extends OneVotePerView s.task.replica where
  cast      : ∀ vote ∈ s.task.replica.votes, Cast s vote
  proposals : ProposesOnce s.task.replica ∧ ProposesProper s.task.replica

section Step

variable {s : Inbox} {e : PeerId × Event} {vote : Nat × Block} {r : HotStuffReplica} {node b'' : Block}

theorem Inbox.getLeaderForView_step (view : Nat) :
    (s.step e).task.replica.pacemaker.getLeaderForView view = s.task.replica.pacemaker.getLeaderForView view :=
  getLeaderForView_congr (s.task.step_stepped e.2).replicaIds view

theorem Cast.step (h : Cast s vote) : Cast (s.step e) vote := by
  have nodeId : (s.step e).task.replica.nodeId = s.task.replica.nodeId := (s.task.step_stepped e.2).nodeId
  cases h
  case sent x sender hx hp hl hn =>
    exact .sent (List.mem_append_left _ hx) hp ((Inbox.getLeaderForView_step _).trans hl) (nodeId ▸ hn)
  case proposed hp hl =>
    refine .proposed (Task.step_proposals_subset hp) ?_
    rw [Inbox.getLeaderForView_step, hl, nodeId]

-- What a replica takes up is the proposal of the current view that the message brings, or its own.
theorem SoleProposals.takenUp (hc : SoleProposals s e) (hup : s.task.takenUp e.2 = some (r, node)) :
    (∃ msg ∈ e.2.inbound, ∃ sender, msg.asProposal = some { node, view := r.pacemaker.currView, sender } ∧
      r.pacemaker.currentLeader = .ok sender ∧
      SoleProposal s { node, view := r.pacemaker.currView, sender }) ∨
    (r.pacemaker.currentLeader = .ok s.task.replica.nodeId ∧
      (r.pacemaker.currView, node) ∈ (s.step e).task.replica.proposals) := by
  rcases Task.takenUp_origin hup with ⟨view, sender, sv, order, he, hr, _, hl⟩ | own
  · have hears : s.task.replica.HearsOf { node, view, sender } := by
      rw [HearsOf, ← hl, receive_pacemaker hr]
      rfl
    have hm : .proposal node view sender sv ∈ e.2.inbound := by simp [he, Event.inbound, Event.delivered]
    have sole := hc _ hm _ rfl hears
    have hview : r.pacemaker.currView = view := currView_of_receive hr sole.timely
    exact .inl ⟨_, hm, sender, hview ▸ rfl, hl, hview ▸ sole⟩
  · exact .inr own

theorem Inbox.currentLeader_takenUp (hup : s.task.takenUp e.2 = some (r, node)) :
    s.task.replica.pacemaker.getLeaderForView r.pacemaker.currView = r.pacemaker.currentLeader :=
  getLeaderForView_congr (Task.takenUp_quiet hup).replicaIds.symm _

theorem Cast.of_takenUp (hc : SoleProposals s e) (hup : s.task.takenUp e.2 = some (r, node)) :
    Cast (s.step e) (r.pacemaker.currView, node) := by
  have nodeId : (s.step e).task.replica.nodeId = s.task.replica.nodeId := (s.task.step_stepped e.2).nodeId
  have leader := (Inbox.getLeaderForView_step (e := e) r.pacemaker.currView).trans (Inbox.currentLeader_takenUp hup)
  rcases hc.takenUp hup with ⟨msg, hm, sender, hp, hl, sole⟩ | ⟨hl, hp⟩
  · refine .sent (x := (e.1, msg)) ?_ hp (leader.trans hl) (nodeId ▸ sole.sender)
    exact List.mem_append_right _ (List.mem_map.mpr ⟨msg, hm, rfl⟩)
  · exact .proposed hp (by rw [leader, hl, nodeId])

namespace VotesInvariant

-- A vote that was there before agrees with the new one, since one replica leads the view.
theorem agree (h : VotesInvariant s) (hc : SoleProposals s e) (hup : s.task.takenUp e.2 = some (r, node))
    (hv : vote ∈ s.task.replica.votes) (hview : vote.1 = r.pacemaker.currView) : vote.2.hash = node.hash := by
  have leader := Inbox.currentLeader_takenUp hup
  rw [← hview] at leader
  rcases hc.takenUp hup with ⟨msg, hm, sender, hp, hl, sole⟩ | ⟨hl, hp⟩ <;> cases h.cast vote hv
  case inl.sent x sender' hx hq hl' _ =>
    cases hl'.symm.trans (leader.trans hl)
    exact sole.sole x hx _ hq hview rfl
  case inl.proposed _ hl' =>
    cases hl'.symm.trans (leader.trans hl)
    exact absurd rfl sole.sender
  case inr.sent hl' hn =>
    cases hl'.symm.trans (leader.trans hl)
    exact absurd rfl hn
  case inr.proposed hmem _ =>
    have once := (h.proposals.1.step (e := e.2)).once
    have same := List.inj_on_of_nodup_map once (Task.step_proposals_subset hmem) hp hview
    rw [same]

theorem viewNumber (h : VotesInvariant s) (hc : SoleProposals s e) (hup : s.task.takenUp e.2 = some (r, node)) :
    node.viewNumber = r.pacemaker.currView := by
  rcases hc.takenUp hup with ⟨_, _, _, _, _, sole⟩ | ⟨_, hp⟩
  · exact sole.view
  · exact ((h.proposals.2.step (e := e.2)).proper _ hp).viewNumber

theorem step (h : VotesInvariant s) (hc : SoleProposals s e) : VotesInvariant (s.step e) := by
  have proposals := And.intro (h.proposals.1.step (e := e.2)) (h.proposals.2.step (e := e.2))
  cases (s.task.step_stepped e.2).votes
  case inl hv => exact ⟨⟨hv ▸ h.unique, hv ▸ h.view⟩, fun vote hvote => (h.cast vote (hv ▸ hvote)).step, proposals⟩
  case inr hv =>
    have ⟨r, node, b'', hup, _, hv⟩ := hv
    have mem : ∀ {vote}, vote ∈ (s.step e).task.replica.votes ↔
        vote ∈ s.task.replica.votes ∨ vote = (r.pacemaker.currView, node) := by
      intro vote
      rw [show (s.step e).task.replica.votes = _ from hv, List.mem_append, List.mem_singleton]
    refine ⟨⟨?_, ?_⟩, ?_, proposals⟩
    · intro x hx y hy hxy
      rcases mem.mp hx with hx | rfl <;> rcases mem.mp hy with hy | rfl
      · exact h.unique x hx y hy hxy
      · exact h.agree hc hup hx hxy
      · exact (h.agree hc hup hy hxy.symm).symm
      · rfl
    · intro vote hvote
      rcases mem.mp hvote with hvote | rfl
      · exact h.view vote hvote
      · exact h.viewNumber hc hup
    · intro vote hvote
      rcases mem.mp hvote with hvote | rfl
      · exact (h.cast vote hvote).step
      · exact .of_takenUp hc hup

end VotesInvariant

end Step

-- A replica that hears of one proposal from each leader, while its view lasts, does not vote twice in a view.
theorem oneVotePerView_of_soleProposals {c : Config} {nodeId : PeerId} {es : List (PeerId × Event)} {s : Inbox}
    (h : Steps (Guarded Inbox.step SoleProposals) (.new c nodeId) es s) : OneVotePerView s.task.replica := by
  have start : VotesInvariant (.new c nodeId) := by
    refine ⟨⟨?_, ?_⟩, ?_, ⟨⟨?_, ?_⟩, ⟨.new, ?_⟩⟩⟩ <;>
      simp [Inbox.new, Task.new, HotStuffReplica.new, HotStuffReplica.votes, HotStuffReplica.proposals]
  exact (h.guarded_invariant start fun hc hi => hi.step hc).toOneVotePerView

omit [Sha256] [Ed25519] in
theorem chain_oneVotePerView :
    ∃ (_ : Sha256) (_ : Ed25519) (c : Config),
      let es := [1, 2, 3, 1].zip (c.chain [1, 2, 3] createGenesisBlock [1, 2, 3, 5])
      let s := es.foldl Inbox.step (.new c 0)
      Admits Inbox.step SoleProposals (.new c 0) es ∧
      s.task.replica.votes.map Prod.fst = [1, 2, 3, 5] ∧ OneVotePerView s.task.replica := by
  refine ⟨.encoding, .encoding, .ofSize 4, by decide +kernel, by decide +kernel, ?_⟩
  exact @oneVotePerView_of_soleProposals .encoding .encoding _ _ _ _ (Admits.steps (by decide +kernel))

-- The leader of view 1 sends a second proposal on top of its first one.
def equivocation : List Event :=
  let a := Block.createLeaf createGenesisBlock [] 1 .createGenesisQC
  let b := Block.createLeaf a [] 1 .createGenesisQC
  [.propose a 1, .propose b 1]

omit [Sha256] [Ed25519] in
theorem equivocation_not_oneVotePerView :
    ∃ (_ : Sha256) (_ : Ed25519) (c : Config),
      ¬OneVotePerView (equivocation.foldl Task.step (.new c 0)).replica := by
  refine ⟨.encoding, .encoding, .ofSize 4, fun h => ?_⟩
  cases h
  case mk unique _ =>
    revert unique
    decide +kernel

end Superliquid

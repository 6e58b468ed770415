import Superliquid.Hotstuff.Theorems.Network
import Superliquid.Hotstuff.Theorems.Propose

namespace Superliquid

open HotStuffReplica ReplicaM

variable [Sha256] [Ed25519]

-- If the leader of a view is correct, votes of correct replicas in that view are for what it has proposed.
def VotesForLeader (c : Config) (correct : Finset PeerId) (net : Network) : Prop :=
  ∀ i ∈ correct, ∀ vote ∈ (net i).task.replica.votes, ∀ leader ∈ correct,
    (Pacemaker.new c.numValidators).getLeaderForView vote.1 = .ok leader →
    vote ∈ (net leader).task.replica.proposals

instance {c : Config} {correct : Finset PeerId} {net : Network} : Decidable (VotesForLeader c correct net) :=
  inferInstanceAs (Decidable (∀ i ∈ correct, ∀ vote ∈ (net i).task.replica.votes, ∀ leader ∈ correct, _))

-- A proposal that arrives in the name of a correct replica was broadcast by it, and is not late if that
-- replica leads the current view.
def Genuine (correct : Finset PeerId) (net : Network) (i : PeerId) (e : Event) : Prop :=
  ∀ msg ∈ e.inbound, ∀ p ∈ msg.asProposal, p.sender ∈ correct →
    .broadcast msg ∈ (net p.sender).task.replica.repNodeChannel ∧
    ((net i).task.replica.pacemaker.currentLeader = .ok p.sender →
      (net i).task.replica.pacemaker.currView ≤ p.view)

instance {correct : Finset PeerId} {net : Network} {i : PeerId} {e : Event} : Decidable (Genuine correct net i e) :=
  inferInstanceAs (Decidable (∀ msg ∈ e.inbound, ∀ p ∈ msg.asProposal, _))

-- Replicas know who they are and who leads each view.
structure Placed (c : Config) (i : PeerId) (t : Task) : Prop where
  nodeId     : t.replica.nodeId = i
  replicaIds : t.replica.pacemaker.replicaIds = List.range c.numValidators

theorem Placed.step {c : Config} {i : PeerId} {t : Task} {e : Event} (h : Placed c i t) : Placed c i (t.step e) where
  nodeId     := (t.step_stepped e).nodeId.trans h.nodeId
  replicaIds := (t.step_stepped e).replicaIds.trans h.replicaIds

structure SendersInvariant (c : Config) (correct : Finset PeerId) (net : Network) : Prop where
  placed : ∀ i, Placed c i (net i).task
  votes  : VotesForLeader c correct net

variable {c : Config} {correct : Finset PeerId} {net : Network} {i : PeerId} {e : Event}

-- A new vote in the network is for a proposal of the leader that it is sent in the name of.
theorem SendersInvariant.vote {r : HotStuffReplica} {node : Block} {leader : PeerId}
    (h : SendersInvariant c correct net) (hc : Genuine correct net i e)
    (hup : (net i).task.takenUp e = some (r, node)) (hleader : leader ∈ correct)
    (hl : (Pacemaker.new c.numValidators).getLeaderForView r.pacemaker.currView = .ok leader) :
    (r.pacemaker.currView, node) ∈ ((net.step (i, e)) leader).task.replica.proposals := by
  have mono : (net leader).task.replica.proposals ⊆ ((net.step (i, e)) leader).task.replica.proposals := by
    simp only [Network.step, Function.update_apply]
    split
    case isTrue hi => subst hi; exact Task.step_proposals_subset
    case isFalse   => exact fun _ hp => hp
  have current : r.pacemaker.currentLeader = .ok leader := by
    rw [← hl]
    refine getLeaderForView_congr ?_ _
    rw [(Task.takenUp_quiet hup).replicaIds, (h.placed i).replicaIds]
    rfl
  rcases Task.takenUp_origin hup with ⟨view, sender, sv, order, he, hr, _, hs⟩ | ⟨hs, hmem⟩
  · cases hs.symm.trans current
    have ⟨hsent, late⟩ :=
      hc (.proposal node view leader sv) (by simp [he, Event.inbound, Event.delivered]) _ rfl hleader
    have hle : (net i).task.replica.pacemaker.currView ≤ view := by
      by_contra hlt
      have same : r.pacemaker = (net i).task.replica.pacemaker := by
        rw [receive_pacemaker hr, Pacemaker.fastForwardView]
        exact congrArg Prod.fst (if_pos (Nat.le_of_not_le hlt))
      exact hlt (late (same ▸ hs))
    rw [currView_of_receive hr hle]
    exact mono (List.mem_filterMap.mpr ⟨_, hsent, rfl⟩)
  · cases hs.symm.trans current
    rw [(h.placed i).nodeId]
    simpa [Network.step, Observed.step] using hmem

theorem SendersInvariant.step (h : SendersInvariant c correct net) (hc : Genuine correct net i e) :
    SendersInvariant c correct (net.step (i, e)) := by
  refine ⟨fun j => ?_, fun j hj vote hvote leader hleader hl => ?_⟩
  · simp only [Network.step, Function.update_apply]
    split
    case isTrue hj => subst hj; exact (h.placed _).step
    case isFalse   => exact h.placed j
  · have old : vote ∈ (net j).task.replica.votes →
        vote ∈ ((net.step (i, e)) leader).task.replica.proposals := by
      intro hvote
      have hmem := h.votes j hj vote hvote leader hleader hl
      simp only [Network.step, Function.update_apply]
      split
      case isTrue hi => subst hi; exact Task.step_proposals_subset hmem
      case isFalse   => exact hmem
    simp only [Network.step, Function.update_apply] at hvote
    split at hvote
    case isFalse   => exact old hvote
    case isTrue hi =>
      subst hi
      rcases ((net j).task.step_stepped e).votes with hv | ⟨r, node, b'', hup, _, hv⟩
      · exact old (hv ▸ hvote)
      · rw [show ((net j).step e).task.replica.votes = _ from hv, List.mem_append, List.mem_singleton] at hvote
        rcases hvote with hvote | rfl
        · exact old hvote
        · exact h.vote hc hup hleader hl

theorem votesForLeader_of_genuine {es : List (PeerId × Event)}
    (h : Steps (Guarded Network.step fun net e => e.1 ∈ correct ∧ Genuine correct net e.1 e.2) (.new c) es net) :
    VotesForLeader c correct net := by
  have start : SendersInvariant c correct (.new c) := by
    refine ⟨fun _ => ⟨rfl, rfl⟩, ?_⟩
    simp [VotesForLeader, Network.new, Observed.new, Task.new, HotStuffReplica.new, HotStuffReplica.votes]
  exact (h.guarded_invariant start fun hc hi => hi.step hc.2).votes

-- The leader of view 1 gets new-view messages and sends a proposal, which another replica gets.
def ledView : List (PeerId × Event) :=
  let newView i : PeerId × Event := (1, .deliver (.newView .createGenesisQC 0 i 0))
  [(1, .timeout), newView 1, newView 2, newView 3,
   (0, .propose (.createLeaf createGenesisBlock [] 1 .createGenesisQC) 1)]

omit [Sha256] [Ed25519] in
theorem ledView_votesForLeader :
    ∃ (_ : Sha256) (_ : Ed25519) (c : Config),
      let correct := {0, 1, 2}
      let net := ledView.foldl Network.step (.new c)
      Admits Network.step (fun net e => e.1 ∈ correct ∧ Genuine correct net e.1 e.2) (.new c) ledView ∧
      (net 0).task.replica.votes.map Prod.fst = [1] ∧ VotesForLeader c correct net := by
  refine ⟨.encoding, .encoding, .ofSize 4, by decide +kernel, by decide +kernel, ?_⟩
  exact @votesForLeader_of_genuine .encoding .encoding _ _ _ _ (Admits.steps (by decide +kernel))

-- A faulty replica sends a proposal in the name of the leader of view 1.
def impersonation : List (PeerId × Event) :=
  [(0, .propose (.createLeaf createGenesisBlock [] 1 .createGenesisQC) 1)]

omit [Sha256] [Ed25519] in
theorem impersonation_not_votesForLeader :
    ∃ (_ : Sha256) (_ : Ed25519) (c : Config),
      let correct := {0, 1, 2}
      (∀ e ∈ impersonation, e.1 ∈ correct) ∧
      ¬VotesForLeader c correct (impersonation.foldl Network.step (.new c)) := by
  refine ⟨.encoding, .encoding, .ofSize 4, ?_⟩
  decide +kernel

end Superliquid

import Superliquid.Hotstuff.Theorems.Store

namespace Superliquid

open HotStuffReplica ReplicaM

variable [Sha256] [Ed25519] {t t' : Task} {e : Event}

-- `b''` is linked to `b'`, so that an accepted proposal on top of it moves the lock to its certificate.
structure Locks (r : HotStuffReplica) (node b'' b' : Block) : Prop where
  accepts  : Accepts r node b''
  isParent : node.isParent b''
  linked   : Linked (r.store node) b'' b'

section Proposal

variable {r : HotStuffReplica} {node : Block} {out : Except Panic (Option HotStuffMessage)} {c : Core}

-- An accepted proposal moves the lock to the certificate of the block that it is justified by, if
-- that block is linked and nothing goes wrong. The pacemaker takes note of its view.
theorem Proposal.lockedQC (h : Proposal r node out c) :
    c.lockedQC = r.lockedQC ∧ c.pacemaker.lastCommitedView = r.pacemaker.lastCommitedView ∧
      (∀ vote b'' b', out = .ok vote → ¬Locks r node b'' b') ∨
    ∃ b'' b', Locks r node b'' b' ∧ c.lockedQC = b''.justify ∧
      c.pacemaker.lastCommitedView = b''.justify.viewNumber := by
  cases h
  case refused hn _ => exact .inl ⟨rfl, rfl, fun _ b'' _ _ locks => hn b'' locks.accepts⟩
  case voted ha hn  => exact .inl ⟨rfl, rfl, fun _ _ _ _ locks => hn (ha.unique locks.accepts ▸ locks.isParent)⟩
  case adopted ha _ h =>
    refine .inl ⟨rfl, rfl, fun vote b'' b' hout locks => ?_⟩
    subst hout
    simp only [reduceCtorEq, exists_false, false_or] at h
    exact h.2 b' (ha.unique locks.accepts ▸ locks.linked)
  case locked ha hp hl _      => exact .inr ⟨_, _, ⟨ha, hp, hl⟩, rfl, rfl⟩
  case committed ha hp hl _ _ => exact .inr ⟨_, _, ⟨ha, hp, hl⟩, rfl, rfl⟩

end Proposal

theorem Stepped.lockedQC (h : Stepped t e t') :
    t'.replica.lockedQC = t.replica.lockedQC ∧
      t'.replica.pacemaker.lastCommitedView = t.replica.pacemaker.lastCommitedView ∧
      (∀ r node b'' b', t'.panicked = false → t.takenUp e = some (r, node) → ¬Locks r node b'' b') ∨
    ∃ r node b'' b', t.takenUp e = some (r, node) ∧ Locks r node b'' b' ∧
      t'.replica.lockedQC = b''.justify ∧
      t'.replica.pacemaker.lastCommitedView = b''.justify.viewNumber := by
  cases h
  case quiet hn hq _ _ => exact .inl ⟨hq.lockedQC, hq.lastCommitedView, by simp [hn]⟩
  case proposal r node _ _ _ c hup _ hq _ _ hp ha hok =>
    have ⟨sent, ha⟩ := ha.same
    have hl : t'.replica.lockedQC = c.lockedQC := congrArg Core.lockedQC ha
    have hv : t'.replica.pacemaker = c.pacemaker := congrArg Core.pacemaker ha
    rw [hl, hv, ← hq.lockedQC, ← hq.lastCommitedView]
    refine hp.lockedQC.imp (fun ⟨hc, hc', hn⟩ => ⟨hc, hc', ?_⟩) fun ⟨b'', b', h⟩ => ⟨r, node, b'', b', hup, h⟩
    intro r' node' b'' b' hrun hup'
    cases hup.symm.trans hup'
    have ⟨vote, hout⟩ := hok hrun
    exact hn vote b'' b' hout

end Superliquid

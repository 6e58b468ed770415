import Superliquid.Hotstuff.Theorems.Digests
import Superliquid.Hotstuff.Theorems.Leader
import Superliquid.Hotstuff.Theorems.Lock
import Superliquid.Hotstuff.Theorems.Provenance

namespace Superliquid

open HotStuffReplica ReplicaM

variable [Sha256] [Ed25519]

-- The states in which `curr_view - 1` is evaluated while an event is handled.
inductive Evaluates (t : Task) : Event → HotStuffReplica → Prop
  -- `leader_handle_message`
  | leader : (receive msg t.replica = (.ok (), r)) → (r.Leading) → Evaluates t (.hotStuff msg order) r
  -- `create_new_view`, called by `sync_view`, `replica_handle_vote` and `advance_view`
  | synced {pacemaker : Pacemaker} :
    (t.replica.pacemaker.fastForwardView msg.getViewNumber = (pacemaker, true)) →
    Evaluates t (.hotStuff msg order) { t.replica with pacemaker }
  | voted {pacemaker : Pacemaker} :
    (select order msg t.replica = (.ok (some (role, m)), r)) → (r.pacemaker.advanceView = .ok pacemaker) →
    Evaluates t (.hotStuff msg order) { r with pacemaker }
  | timeout {pacemaker : Pacemaker} :
    (t.replica.pacemaker.advanceView = .ok pacemaker) → Evaluates t .timeout { t.replica with pacemaker }

-- No subtraction of views goes below zero, neither in the timeout nor while the event is handled.
structure NoUnderflow (t : Task) (e : Event) : Prop where
  committed : t.replica.pacemaker.lastCommitedView ≤ t.replica.pacemaker.currView
  positive  : ∀ r, Evaluates t e r → 1 ≤ r.pacemaker.currView

-- The leader of the first view gets no message of that view while it is in it, and no message brings a certificate of
-- a later view than it has itself and than the replica is in.
structure ViewsInOrder (t : Task) (e : Event) : Prop where
  first        : ∀ msg ∈ e.inbound, t.replica.pacemaker.currView = 0 →
    t.replica.pacemaker.currentLeader = .ok t.replica.nodeId → 0 < msg.getViewNumber
  certificates : ∀ msg ∈ e.inbound, ∀ qc ∈ t.replica.inboundQC msg,
    qc.viewNumber ≤ max t.replica.pacemaker.currView msg.getViewNumber

instance {t : Task} {e : Event} : Decidable (ViewsInOrder t e) :=
  decidable_of_iff ((∀ msg ∈ e.inbound, _) ∧ ∀ msg ∈ e.inbound, ∀ qc ∈ t.replica.inboundQC msg, _)
    ⟨fun ⟨h, h'⟩ => ⟨h, h'⟩, fun ⟨h, h'⟩ => ⟨h, h'⟩⟩

variable {t : Task} {e : Event}

structure ViewsInvariant (t : Task) : Prop where
  committed    : t.replica.pacemaker.lastCommitedView ≤ t.replica.pacemaker.currView
  certificates : Holds (·.viewNumber ≤ t.replica.pacemaker.currView) t.replica

-- The lock moves to a certificate that the replica holds.
theorem ViewsInvariant.step (h : ViewsInvariant t) (hc : ViewsInOrder t e) : ViewsInvariant (t.step e) := by
  have stepped := t.step_stepped e
  have certificates := h.certificates.step_views (f := id) monotone_id (fun v => Nat.sub_le v 1) hc.certificates
  refine ⟨?_, certificates⟩
  rcases stepped.lockedQC with ⟨_, hv, _⟩ | ⟨_, _, b'', _, _, _, hl, hv⟩ <;> rw [hv]
  · exact h.committed.trans stepped.currView
  · exact hl ▸ certificates.lockedQC

theorem ViewsInOrder.positive {r : HotStuffReplica} (h : ViewsInOrder t e) (hr : Evaluates t e r) :
    1 ≤ r.pacemaker.currView := by
  cases hr
  case synced hf  => exact Nat.one_le_of_lt (hf ▸ lt_of_fastForwardView (by rw [hf]))
  case voted hp   => exact Nat.one_le_of_lt (lt_of_advanceView hp)
  case timeout hp => exact Nat.one_le_of_lt (lt_of_advanceView hp)
  case leader msg order hr leading =>
    have hp := receive_pacemaker hr
    unfold Pacemaker.fastForwardView at hp
    split at hp
    case isFalse hlt => rw [hp]; exact Nat.one_le_of_lt (Nat.lt_of_not_le hlt)
    case isTrue hle =>
      have hp : r.pacemaker = t.replica.pacemaker := hp
      rw [hp, Nat.one_le_iff_ne_zero]
      intro hv
      have hl : t.replica.pacemaker.currentLeader = .ok t.replica.nodeId := by
        rw [← (receive_idle hr).nodeId, ← leading.leader, hp]
      have hpos : 0 < msg.getViewNumber := h.first msg (by simp [Event.inbound, Event.delivered]) hv hl
      omega

theorem noUnderflow_of_viewsInOrder {c : Config} {nodeId : PeerId} {es : List Event}
    (h : Steps (Guarded Task.step ViewsInOrder) (.new c nodeId) es t) (he : ViewsInOrder t e) :
    NoUnderflow t e where
  committed := (h.guarded_invariant ⟨le_rfl, .new le_rfl⟩ fun hc hi => ViewsInvariant.step hi hc).committed
  positive  := fun _ hr => he.positive hr

omit [Sha256] [Ed25519] in
theorem chain_noUnderflow :
    ∃ (_ : Sha256) (_ : Ed25519) (c : Config),
      let es := c.chain [1, 2, 3] createGenesisBlock [1, 2, 3, 5]
      let t := es.foldl Task.step (.new c 0)
      Admits Task.step ViewsInOrder (.new c 0) es ∧ t.replica.pacemaker.lastCommitedView = 2 ∧
      NoUnderflow t .timeout := by
  refine ⟨.encoding, .encoding, .ofSize 4, by decide +kernel, by decide +kernel, ?_⟩
  exact @noUnderflow_of_viewsInOrder .encoding .encoding _ _ _ _ _ (Admits.steps (by decide +kernel))
    (by decide +kernel)

-- A message of the first view reaches its leader.
def earlyNewView : Event :=
  .deliver (.newView .createGenesisQC 0 1 0)

omit [Sha256] [Ed25519] in
theorem earlyNewView_underflow :
    ∃ (_ : Sha256) (_ : Ed25519) (c : Config),
      ¬NoUnderflow (.new c 0) earlyNewView ∧ ((Task.new c 0).step earlyNewView).panicked := by
  refine ⟨.encoding, .encoding, .ofSize 4, fun h => ?_, by decide +kernel⟩
  have hle := @NoUnderflow.positive .encoding .encoding _ _ h _
    (@Evaluates.leader .encoding .encoding _ _ _ _ rfl (by decide +kernel))
  revert hle
  decide +kernel

end Superliquid

import Superliquid.Hotstuff.Theorems.Execution
import Superliquid.Hotstuff.Theorems.Routine

namespace Superliquid

open HotStuffReplica ReplicaM Handler

def Outbound.asProposal : Outbound → Option (Nat × Block)
  | broadcast (.proposal node view _ _) => some (view, node)
  | _                                   => none

-- The proposals that a replica has broadcast, with their views.
def HotStuffReplica.proposals (r : HotStuffReplica) : List (Nat × Block) :=
  r.repNodeChannel.filterMap Outbound.asProposal

-- No proposal is sent, and as long as the view stays the same, so does the note that there was one.
structure Steady (r r' : HotStuffReplica) : Prop where
  proposals : r'.proposals = r.proposals
  view      : r.pacemaker.currView < r'.pacemaker.currView ∨
    r'.pacemaker.currView = r.pacemaker.currView ∧
      r'.viewProgress.leaderHasProposed = r.viewProgress.leaderHasProposed

namespace Steady

variable {r r₁ r₂ r₃ : HotStuffReplica}

theorem refl : Steady r r :=
  ⟨rfl, .inr ⟨rfl, rfl⟩⟩

theorem trans (h₁ : Steady r₁ r₂) (h₂ : Steady r₂ r₃) : Steady r₁ r₃ := by
  refine ⟨h₂.proposals.trans h₁.proposals, ?_⟩
  rcases h₁.view with hv₁ | ⟨hv₁, hp₁⟩ <;> rcases h₂.view with hv₂ | ⟨hv₂, hp₂⟩
  · exact .inl (hv₁.trans hv₂)
  · exact .inl (hv₂ ▸ hv₁)
  · exact .inl (hv₁ ▸ hv₂)
  · exact .inr ⟨hv₂.trans hv₁, hp₂.trans hp₁⟩

theorem routine : Routine False Steady where
  refl _          := refl
  trans _ _ _     := trans
  moved hv        := ⟨rfl, .inl hv⟩
  sent {_ out} ho := by
    refine ⟨?_, .inr ⟨rfl, rfl⟩⟩
    cases out <;> simp_all [HotStuffReplica.proposals, Outbound.asProposal]
  pruned _        := ⟨rfl, .inr ⟨rfl, rfl⟩⟩
  noted           := ⟨rfl, .inr ⟨rfl, rfl⟩⟩
  locked          := ⟨rfl, .inr ⟨rfl, rfl⟩⟩
  voted           := ⟨rfl, .inr ⟨rfl, rfl⟩⟩
  selected _      := ⟨rfl, .inr ⟨rfl, rfl⟩⟩
  committed _     := ⟨rfl, .inr ⟨rfl, rfl⟩⟩
  interrupted _   := ⟨rfl, .inr ⟨rfl, rfl⟩⟩

end Steady

variable {r r' : HotStuffReplica}

theorem receive_steady {msg : HotStuffMessage} {res : Except Panic Unit} (h : receive msg r = (res, r')) :
    Steady r r' := by
  have kept := (Steady.routine.receive ⟨rfl, .inr ⟨rfl, rfl⟩⟩ msg).apply r
  rwa [h] at kept

variable [Sha256] [Ed25519]

theorem handleSelected_steady {role : Role} {msg : HotStuffMessage} {res : Except Panic Unit}
    (h : handleSelected role msg r = (res, r')) : Steady r r' := by
  have kept := (Steady.routine.handleSelected role msg).apply r
  rwa [h] at kept

theorem select_steady {order : TallyOrder} {msg : HotStuffMessage}
    {chosen : Except Panic (Option (Role × HotStuffMessage))} (h : select order msg r = (chosen, r')) :
    Steady r r' ∨
    ∃ m r₁ s, receive msg r = (.ok (), r₁) ∧ r₁.Leading ∧ leaderHandleMessage order r₁ = (.ok (some m), s) ∧
      Steady r s ∧ chosen = .ok (some (.leader, m)) ∧ r' = announce m s :=
  Steady.routine.announces ⟨rfl, .inr ⟨rfl, rfl⟩⟩ h

omit [Sha256] [Ed25519] in
theorem announce_proposals {m : HotStuffMessage} {node : Block} {view sender sv : Nat}
    (h : m = .proposal node view sender sv) : (announce m r).proposals = r.proposals ++ [(view, node)] := by
  subst h
  simp [announce, HotStuffReplica.proposals, Outbound.asProposal]

-- The leaf that a leader makes of what it finds in its mempool, after `r₁` has caught up to `s`.
structure MakesLeaf (r₁ s : HotStuffReplica) (parent node : Block) : Prop where
  leading  : r₁.Leading
  caughtUp : CaughtUp r₁ s
  stored   : s.blockstore.lookup s.genericQC.blockHash = some parent
  leaf     : ∃ mempool transactions, s.mempool.popNextN blockTransactionLength = .ok (mempool, transactions) ∧
    node = parent.createLeaf transactions r₁.pacemaker.currView s.genericQC

theorem MakesLeaf.of_leads {order : TallyOrder} {m : HotStuffMessage} (leading : r.Leading)
    (h : Leads order r (.ok (some m)) r') :
    ∃ s parent node, MakesLeaf r s parent node ∧ r'.pacemaker = r.pacemaker ∧
      m = .proposal node r.pacemaker.currView r.nodeId r.pacemaker.currView := by
  cases h
  case idle h               => exact absurd rfl (h _)
  case certified h          => exact absurd rfl (h _)
  case caughtUp h _         => exact absurd rfl (h _)
  case proposed hs hp ht hn =>
    refine ⟨_, _, _, ⟨leading, hs, hp, _, _, ht, hn⟩, ?_, rfl⟩
    cases hs <;> rfl

-- A step sends at most one proposal, for the view that its message has led to.
inductive Proposes (t : Task) (e : Event) (t' : Task) : Prop
  | none : (Steady t.replica t'.replica) → Proposes t e t'
  | one  :
    (e = .hotStuff msg order) → (receive msg t.replica = (.ok (), r₁)) → (MakesLeaf r₁ s parent node) →
    (t'.replica.proposals = t.replica.proposals ++ [(r₁.pacemaker.currView, node)]) →
    (r₁.pacemaker.currView < t'.replica.pacemaker.currView ∨
      t'.replica.pacemaker.currView = r₁.pacemaker.currView ∧
        t'.replica.viewProgress.leaderHasProposed = true) →
    Proposes t e t'

theorem Task.step_proposes (t : Task) (e : Event) : Proposes t e (t.step e) := by
  cases t.step_ran e
  case stopped h     => exact .none (h ▸ .refl)
  case timeout h     =>
    have kept := Steady.routine.advanceView.apply t.replica
    rw [h] at kept
    exact .none kept
  case transaction txn _ _ h =>
    have steady : Steady t.replica (handleTransaction txn t.replica).2 := ⟨rfl, .inr ⟨rfl, rfl⟩⟩
    rw [h] at steady
    exact .none steady
  case message he h  =>
    cases handleMessage_cases h
    case inl h =>
      have ⟨chosen, hs, hn⟩ := h
      cases select_steady hs
      case inl steady => exact .none steady
      case inr h      => have ⟨m, _, _, _, _, _, _, hc, _⟩ := h; exact absurd hc (hn _)
    case inr h =>
      have ⟨role, m, r', hs, h⟩ := h
      have handled := handleSelected_steady h
      cases select_steady hs
      case inl steady => exact .none (steady.trans handled)
      case inr h      =>
        have ⟨_, r₁, s, hr, leading, hl, steady, _, ha⟩ := h
        subst ha
        have ⟨s, parent, node, makes, hp, hm⟩ := MakesLeaf.of_leads leading (leaderHandleMessage_leads hl)
        refine .one he hr makes ?_ (by simpa [announce, hp] using handled.view)
        rw [handled.proposals, announce_proposals hm, steady.proposals]

section

variable {t : Task} {e : Event}

theorem Task.step_proposals_subset : t.replica.proposals ⊆ (t.step e).replica.proposals := by
  intro p hp
  cases t.step_proposes e
  case none steady    => exact steady.proposals ▸ hp
  case one _ _ hs _   => rw [hs]; exact List.mem_append_left _ hp

-- What is taken up was delivered, or has just been proposed.
theorem Task.takenUp_origin {r : HotStuffReplica} {node : Block} (h : t.takenUp e = some (r, node)) :
    (∃ view sender sv order, e = .hotStuff (.proposal node view sender sv) order ∧
      receive (.proposal node view sender sv) t.replica = (.ok (), r) ∧ ¬r.Leading ∧
      r.pacemaker.currentLeader = .ok sender) ∨
    (r.pacemaker.currentLeader = .ok t.replica.nodeId ∧
      (r.pacemaker.currView, node) ∈ (t.step e).replica.proposals) := by
  have ⟨msg, order, role, view, sender, sv, res, he, hs, hl, hh⟩ := Task.takenUp_cases h
  cases select_cases hs
  case inl h => simp at h
  case inr h =>
    have ⟨r₁, hr, selects⟩ := h
    rcases selects.chosen with ⟨hm, hr', hn⟩ | ⟨leading, r₂, hlead, hr'⟩
    · subst hm hr'
      exact .inl ⟨view, sender, sv, order, he, hr, hn, hl⟩
    · have ⟨s, parent, node', makes, hp, hm⟩ := MakesLeaf.of_leads leading (leaderHandleMessage_leads hlead)
      cases hm
      subst hr'
      refine .inr ⟨?_, ?_⟩
      · rw [hl, (receive_idle hr).nodeId]
      · rw [(handleSelected_steady hh).proposals, announce_proposals rfl]
        simp [announce, hp]

end

-- The views of the proposals are past, or current if that is noted.
structure ProposesOnce (r : HotStuffReplica) : Prop where
  once : (r.proposals.map Prod.fst).Nodup
  past : ∀ p ∈ r.proposals, p.1 < r.pacemaker.currView ∨
    p.1 = r.pacemaker.currView ∧ r.viewProgress.leaderHasProposed = true

omit [Sha256] [Ed25519] in
-- In a view without a proposal there are only proposals of earlier views.
theorem ProposesOnce.past_of_fresh (h : ProposesOnce r) (steady : Steady r r')
    (hf : r'.viewProgress.leaderHasProposed = false) : ∀ p ∈ r.proposals, p.1 < r'.pacemaker.currView := by
  intro p hp
  rcases steady.view with hv | ⟨hv, hf'⟩ <;> rcases h.past p hp with hpast | ⟨hpast, hnoted⟩
  · omega
  · omega
  · omega
  · rw [← hf', hf] at hnoted
    contradiction

theorem ProposesOnce.step {t : Task} {e : Event} (h : ProposesOnce t.replica) :
    ProposesOnce (t.step e).replica := by
  cases t.step_proposes e
  case none steady =>
    refine ⟨steady.proposals ▸ h.once, fun p hp => ?_⟩
    have past := h.past p (steady.proposals ▸ hp)
    rcases steady.view with hv | ⟨hv, hf⟩
    · left; omega
    · rw [hv, hf]; exact past
  case one r₁ _ _ node _ hr makes hproposals hview =>
    have past := h.past_of_fresh (receive_steady hr) makes.leading.fresh
    have mem : ∀ {p}, p ∈ (t.step e).replica.proposals ↔
        p ∈ t.replica.proposals ∨ p = (r₁.pacemaker.currView, node) := by
      simp [hproposals]
    refine ⟨?_, fun p hp => ?_⟩
    · rw [hproposals, List.map_append, List.nodup_append_comm]
      refine List.nodup_cons.mpr ⟨fun hmem => ?_, h.once⟩
      have ⟨p, hp, hpv⟩ := List.mem_map.mp hmem
      have := past p hp
      omega
    · have hle : p.1 ≤ r₁.pacemaker.currView := by
        rcases mem.mp hp with hp | rfl
        · exact (past p hp).le
        · exact le_rfl
      rcases hview with hv | ⟨hv, hf⟩
      · left; omega
      · simpa [hv, hf, le_iff_lt_or_eq] using hle

-- The block of a proposal of `view` has that view, the block that it is justified by as its parent, and
-- the Merkle root of its own body.
structure ProperLeaf (blockstore : Blockstore) (view : Nat) (node : Block) : Prop where
  viewNumber : node.viewNumber = view
  parentId   : node.parentId = some node.justify.blockHash
  parent     : ∃ parent, blockstore.lookup node.justify.blockHash = some parent ∧ node.isParent parent
  merkleRoot : node.merkleRoot = node.hashBlockTransaction

structure ProposesProper (r : HotStuffReplica) : Prop where
  keyed  : Keyed r.blockstore
  proper : ∀ p ∈ r.proposals, ProperLeaf r.blockstore p.1 p.2

-- Leaves stay proper, as blocks are never removed.
theorem ProperLeaf.step {t : Task} {e : Event} {view : Nat} {node : Block} (hk : Keyed t.replica.blockstore)
    (h : ProperLeaf t.replica.blockstore view node) : ProperLeaf (t.step e).replica.blockstore view node := by
  have ⟨parent, hparent, _⟩ := h.parent
  have hs := (t.step_stepped e).lookup_isSome (.inl (Option.isSome_iff_exists.mpr ⟨parent, hparent⟩))
  have ⟨parent', hparent'⟩ := Option.isSome_iff_exists.mp hs
  refine ⟨h.viewNumber, h.parentId, ⟨parent', hparent', ?_⟩, h.merkleRoot⟩
  rw [Block.isParent, h.parentId, hk.step _ _ hparent']

theorem ProposesProper.step {t : Task} {e : Event} (h : ProposesProper t.replica) :
    ProposesProper (t.step e).replica := by
  refine ⟨h.keyed.step, fun p hp => ?_⟩
  cases t.step_proposes e
  case none steady => exact (h.proper p (steady.proposals ▸ hp)).step h.keyed
  case one r₁ s parent node _ hr makes hproposals _ =>
    rw [hproposals, List.mem_append, List.mem_singleton] at hp
    rcases hp with hp | rfl
    · exact (h.proper p hp).step h.keyed
    · have ⟨_, transactions, _, hleaf⟩ := makes.leaf
      have hstore : s.blockstore = t.replica.blockstore := by
        rw [← (receive_idle hr).blockstore]
        cases makes.caughtUp <;> rfl
      have hparent := hstore ▸ makes.stored
      subst hleaf
      refine ProperLeaf.step h.keyed ⟨rfl, ?_, ⟨parent, hparent, rfl⟩, rfl⟩
      exact congrArg some (h.keyed _ parent hparent)

-- A leader makes at most one proposal for each view, and its leaves are proper.
theorem proposals_once_and_proper (c : Config) (nodeId : PeerId) (es : List Event) :
    let r := (es.foldl Task.step (.new c nodeId)).replica
    (r.proposals.map Prod.fst).Nodup ∧ ∀ p ∈ r.proposals, ProperLeaf r.blockstore p.1 p.2 := by
  have start : ProposesOnce (Task.new c nodeId).replica ∧ ProposesProper (Task.new c nodeId).replica := by
    refine ⟨⟨?_, ?_⟩, ⟨.new, ?_⟩⟩ <;> simp [Task.new, HotStuffReplica.new, HotStuffReplica.proposals]
  obtain ⟨once, proper⟩ := List.foldlRecOn (motive := fun t => ProposesOnce t.replica ∧ ProposesProper t.replica)
    es Task.step start fun _ h _ _ => ⟨h.1.step, h.2.step⟩
  exact ⟨once.once, proper.proper⟩

end Superliquid

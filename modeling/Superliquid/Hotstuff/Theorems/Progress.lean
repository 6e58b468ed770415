import Superliquid.Hotstuff.Theorems.Lock
import Superliquid.Hotstuff.Theorems.Quorum
import Superliquid.Hotstuff.Theorems.Votes

namespace Superliquid

open HotStuffReplica ReplicaM

-- The certificates by which a replica decides do not get older.
structure Progress (t t' : Task) : Prop where
  lockedQC  : t.replica.lockedQC.viewNumber ≤ t'.replica.lockedQC.viewNumber
  genericQC : t.replica.genericQC.viewNumber ≤ t'.replica.genericQC.viewNumber

-- In the store, blocks of later views have newer certificates. Blocks from some view up to that of the
-- generic certificate on have none that is older than the lock.
structure Ascending (blockstore : Blockstore) (lockedView genericView : Nat) : Prop where
  sorted : ∀ k k' b b', blockstore.lookup k = some b → blockstore.lookup k' = some b' →
    b.parentId ≠ none → b'.parentId ≠ none →
    b.viewNumber ≤ b'.viewNumber → b.justify.viewNumber ≤ b'.justify.viewNumber
  locked : ∃ view ≤ genericView, ∀ k b, blockstore.lookup k = some b → b.parentId ≠ none →
    view ≤ b.viewNumber → lockedView ≤ b.justify.viewNumber
  le     : lockedView ≤ genericView

namespace Ascending

variable {blockstore blockstore' : Blockstore} {lockedView genericView view : Nat} {k : BlockHash} {b node : Block}

theorem mono (h : Ascending blockstore lockedView genericView) (hle : genericView ≤ view) :
    Ascending blockstore lockedView view where
  sorted := h.sorted
  locked := have ⟨v, hv, hl⟩ := h.locked; ⟨v, hv.trans hle, hl⟩
  le     := h.le.trans hle

theorem of_lookup (h : Ascending blockstore lockedView genericView)
    (hs : ∀ k b, blockstore'.lookup k = some b →
      ∃ b₀, b.eraseStatus = b₀.eraseStatus ∧ blockstore.lookup k = some b₀) :
    Ascending blockstore' lockedView genericView where
  sorted k k' b b' hb hb' hn hn' hle := by
    have ⟨b₀, he, hb₀⟩ := hs k b hb
    have ⟨b₀', he', hb₀'⟩ := hs k' b' hb'
    rw [Block.justify_of_eraseStatus he, Block.justify_of_eraseStatus he']
    rw [Block.parentId_of_eraseStatus he] at hn
    rw [Block.parentId_of_eraseStatus he'] at hn'
    rw [Block.viewNumber_of_eraseStatus he, Block.viewNumber_of_eraseStatus he'] at hle
    exact h.sorted k k' b₀ b₀' hb₀ hb₀' hn hn' hle
  locked := by
    have ⟨view, hle, hl⟩ := h.locked
    refine ⟨view, hle, fun k b hb hn hv => ?_⟩
    have ⟨b₀, he, hb₀⟩ := hs k b hb
    rw [Block.justify_of_eraseStatus he]
    rw [Block.parentId_of_eraseStatus he] at hn
    rw [Block.viewNumber_of_eraseStatus he] at hv
    exact hl k b₀ hb₀ hn hv
  le := h.le

-- A block of the latest view with the newest certificate is added.
theorem insert (h : Ascending blockstore lockedView genericView)
    (hs : ∀ k b, blockstore.lookup k = some b → b.parentId ≠ none →
      b.viewNumber ≤ node.viewNumber ∧ b.justify.viewNumber ≤ node.justify.viewNumber ∧
      (b.viewNumber = node.viewNumber → node.justify.viewNumber ≤ b.justify.viewNumber))
    (hl : lockedView ≤ node.justify.viewNumber) :
    Ascending (blockstore.insert k node) lockedView genericView where
  sorted k₁ k₂ b b' hb hb' hn hn' hle := by
    rcases Map.lookup_insert_iff.mp hb with ⟨_, rfl⟩ | ⟨_, hb⟩ <;>
    rcases Map.lookup_insert_iff.mp hb' with ⟨_, rfl⟩ | ⟨_, hb'⟩
    · exact le_rfl
    · have ⟨hv, _, sole⟩ := hs k₂ b' hb' hn'
      exact sole (hv.antisymm hle)
    · exact (hs k₁ b hb hn).2.1
    · exact h.sorted k₁ k₂ b b' hb hb' hn hn' hle
  locked := by
    have ⟨view, hle, hlocked⟩ := h.locked
    refine ⟨view, hle, fun k' b hb hn hv => ?_⟩
    rcases Map.lookup_insert_iff.mp hb with ⟨_, rfl⟩ | ⟨_, hb⟩
    · exact hl
    · exact hlocked k' b hb hn hv
  le := h.le

-- The lock moves to the certificate of the block that the new generic certificate is for.
theorem lock (h : Ascending blockstore lockedView genericView) (hb : blockstore.lookup k = some b)
    (hn : b.parentId ≠ none) (hg : genericView ≤ b.viewNumber) (hle : b.justify.viewNumber ≤ b.viewNumber) :
    lockedView ≤ b.justify.viewNumber ∧ Ascending blockstore b.justify.viewNumber b.viewNumber := by
  have ⟨view, hv, hlocked⟩ := h.locked
  refine ⟨hlocked k b hb hn (hv.trans hg), h.sorted, ⟨b.viewNumber, le_rfl, fun k' b' hb' hn' hv' => ?_⟩, hle⟩
  exact h.sorted k k' b b' hb hb' hn hn' hv'

end Ascending

variable [Sha256] [Ed25519]

section Proposal

variable {r : HotStuffReplica} {node : Block} {out : Except Panic (Option HotStuffMessage)} {c : Core}

-- What a proposal does to certificates that are in order, if its own is for a block of its view.
theorem Proposal.ascending (h : Proposal r node out c)
    (hs : Ascending (r.store node).blockstore r.lockedQC.viewNumber r.genericQC.viewNumber)
    (hg : r.genericQC.viewNumber ≤ node.justify.viewNumber)
    (stored : ∀ k b, (r.store node).blockstore.lookup k = some b → b.parentId ≠ none →
      b.justify.viewNumber ≤ node.justify.viewNumber)
    (named : ∀ b'', (r.store node).getJustifiedBlock node = some b'' → b''.parentId ≠ none →
      b''.viewNumber = node.justify.viewNumber) :
    Ascending c.blockstore c.lockedQC.viewNumber c.genericQC.viewNumber ∧
      r.lockedQC.viewNumber ≤ c.lockedQC.viewNumber ∧ r.genericQC.viewNumber ≤ c.genericQC.viewNumber := by
  have moved {b'' b' : Block} (ha : Accepts r node b'') (hl : Linked (r.store node) b'' b') :
      r.lockedQC.viewNumber ≤ b''.justify.viewNumber ∧
        Ascending (r.store node).blockstore b''.justify.viewNumber node.justify.viewNumber := by
    have hb := getJustifiedBlock_lookup ha.justified
    have hn := parentId_ne_none hl.justified
    have hv := named b'' ha.justified hn
    rw [← hv] at hg ⊢
    exact hs.lock hb hn hg (hv ▸ stored _ b'' hb hn)
  have lookup := fun k b hb => h.lookup (k := k) (b := b) hb
  cases h
  case refused          => exact ⟨hs, le_rfl, le_rfl⟩
  case voted            => exact ⟨hs, le_rfl, le_rfl⟩
  case adopted          => exact ⟨hs.mono hg, le_rfl, hg⟩
  case locked ha _ hl _ => exact ⟨(moved ha hl).2, (moved ha hl).1, hg⟩
  case committed ha _ hl _ _ => exact ⟨(moved ha hl).2.of_lookup lookup, (moved ha hl).1, hg⟩

end Proposal

namespace Inbox

-- A quorum of valid votes for the block has arrived.
def HasQuorum (s : Inbox) (vote : Nat × Block) : Bool :=
  s.task.replica.quorumThreshold.toOption.any
    (· ≤ (voters s.task.replica.validatorSet (sentFor vote.1 (s.log.map Prod.snd)) vote.2.hash).card)

-- Certificates up to some view are there: in a block in the store, in a new-view message that has arrived,
-- or made up by votes that have arrived.
inductive Known (s : Inbox) (view : Nat) : Prop
  | genesis : (view = 0) → Known s view
  | stored  :
    (s.task.replica.blockstore.lookup k = some b) → (b.parentId ≠ none) → (view ≤ b.justify.viewNumber) →
    Known s view
  | newView : (x ∈ s.log) → (x.2.newViewQC = some qc) → (view ≤ qc.viewNumber) → Known s view
  | votes   : (x ∈ s.log) → (x.2.asVote = some vote) → (s.HasQuorum vote) → (view ≤ vote.1) → Known s view

-- The block is of the current view and has the newest certificate there is, for a block of its view. There is
-- no other block of the current view with an older one.
structure CarriesNewest (s : Inbox) (r : HotStuffReplica) (node : Block) : Prop where
  normal   : node.parentId ≠ none
  view     : node.viewNumber = r.pacemaker.currView
  stored   : ∀ x ∈ s.task.replica.blockstore.entries, x.2.parentId ≠ none →
    x.2.justify.viewNumber ≤ node.justify.viewNumber
  newViews : ∀ x ∈ s.log, ∀ qc ∈ x.2.newViewQC, qc.viewNumber ≤ node.justify.viewNumber
  votes    : ∀ x ∈ s.log, ∀ vote ∈ x.2.asVote, s.HasQuorum vote → vote.1 ≤ node.justify.viewNumber
  sole     : ∀ x ∈ s.task.replica.blockstore.entries, x.2.parentId ≠ none → x.2.viewNumber = node.viewNumber →
    node.justify.viewNumber ≤ x.2.justify.viewNumber
  named    : ∀ b'' ∈ (r.store node).getJustifiedBlock node, b''.parentId ≠ none →
    b''.viewNumber = node.justify.viewNumber

instance {s : Inbox} {r : HotStuffReplica} {node : Block} : Decidable (CarriesNewest s r node) :=
  decidable_of_iff (_ ∧ _ ∧ (∀ x ∈ s.task.replica.blockstore.entries, _) ∧ (∀ x ∈ s.log, ∀ qc ∈ x.2.newViewQC, _) ∧
    (∀ x ∈ s.log, ∀ vote ∈ x.2.asVote, _) ∧ (∀ x ∈ s.task.replica.blockstore.entries, _) ∧
    ∀ b'' ∈ (r.store node).getJustifiedBlock node, _)
    ⟨fun ⟨h₁, h₂, h₃, h₄, h₅, h₆, h₇⟩ => ⟨h₁, h₂, h₃, h₄, h₅, h₆, h₇⟩,
     fun ⟨h₁, h₂, h₃, h₄, h₅, h₆, h₇⟩ => ⟨h₁, h₂, h₃, h₄, h₅, h₆, h₇⟩⟩

-- Certificates that arrive are from earlier views, and all blocks that are taken up carry the newest one.
structure InOrder (s : Inbox) (e : PeerId × Event) : Prop where
  earlier : ∀ msg ∈ e.2.inbound, ∀ qc ∈ s.task.replica.inboundQC msg,
    qc.viewNumber ≤ max s.task.replica.pacemaker.currView msg.getViewNumber - 1
  newest  : ∀ x ∈ s.task.takenUp e.2, CarriesNewest s x.1 x.2

instance {s : Inbox} {e : PeerId × Event} : Decidable (InOrder s e) :=
  decidable_of_iff ((∀ msg ∈ e.2.inbound, ∀ qc ∈ s.task.replica.inboundQC msg, _) ∧ ∀ x ∈ s.task.takenUp e.2, _)
    ⟨fun ⟨h₁, h₂⟩ => ⟨h₁, h₂⟩, fun ⟨h₁, h₂⟩ => ⟨h₁, h₂⟩⟩

variable {s : Inbox} {e : PeerId × Event} {r : HotStuffReplica} {node : Block} {view : Nat}

theorem CarriesNewest.le_of_known (h : CarriesNewest s r node) (hk : Known s view) :
    view ≤ node.justify.viewNumber := by
  cases hk
  case genesis hv        => omega
  case stored hb hn hv   => exact hv.trans (h.stored _ (AList.mem_lookup_iff.mp hb) hn)
  case newView hx hq hv  => exact hv.trans (h.newViews _ hx _ hq)
  case votes hx hm hq hv => exact hv.trans (h.votes _ hx _ hm hq)

theorem HasQuorum.iff {vote : Nat × Block} : s.HasQuorum vote ↔
    ∃ quorum, s.task.replica.quorumThreshold = .ok quorum ∧
      quorum ≤ (voters s.task.replica.validatorSet (sentFor vote.1 (s.log.map Prod.snd)) vote.2.hash).card := by
  simp only [HasQuorum]
  cases s.task.replica.quorumThreshold <;> simp [Except.toOption]

theorem HasQuorum.step {vote : Nat × Block} (h : s.HasQuorum vote) : (s.step e).HasQuorum vote := by
  have ⟨quorum, hq, hle⟩ := HasQuorum.iff.mp h
  have same : (s.step e).task.replica.validatorSet = s.task.replica.validatorSet :=
    (s.task.step_stepped e.2).validatorSet
  refine HasQuorum.iff.mpr ⟨quorum, ?_, hle.trans (Finset.card_le_card ?_)⟩
  · rw [← hq, quorumThreshold, same, quorumThreshold]
  · rw [same]
    refine voters_mono fun msg hm => .inl ?_
    simp only [sentFor, Inbox.step, List.map_append, List.filter_append, List.mem_append]
    exact .inl hm

-- The votes that a certificate was made of have arrived.
theorem Known.of_forms {msg : HotStuffMessage} {order : TallyOrder} {qc : QuorumCertificate}
    (held : Held (s.log.map Prod.snd) s.task.replica) (he : e.2 = .hotStuff msg order)
    (hq : Forms s.task.replica msg order qc) : Known (s.step e) qc.viewNumber := by
  obtain ⟨r₁, hr, hq⟩ := hq
  obtain ⟨quorum, ht, hpos, hle⟩ := tryCreateQCForView_voters hq
  have held := held.receive hr
  have idle := receive_idle hr
  rw [tryCreateQCForView_viewNumber hq]
  generalize r₁.pacemaker.currView - 1 = view at *
  have hlog : (s.step e).log.map Prod.snd = s.log.map Prod.snd ++ [msg] := by
    simp [Inbox.step, he, Event.inbound, Event.delivered]
  have same : (s.step e).task.replica.validatorSet = r₁.validatorSet :=
    (s.task.step_stepped e.2).validatorSet.trans idle.validatorSet.symm
  -- Some vote is among them, since no quorum is empty.
  obtain ⟨pk, hpk⟩ := Finset.card_pos.mp (hpos.trans hle)
  obtain ⟨_, m, hm, hv⟩ := Finset.mem_filter.mp hpk
  have sent : ∀ m ∈ r₁.messages.ofView view, m ∈ sentFor view ((s.step e).log.map Prod.snd) ∨ ¬m.IsVote := by
    intro m hm
    cases hp : m.asProposal
    case none   => exact .inl (hlog ▸ (held view).subset (List.mem_filter.mpr ⟨hm, by simp [hp]⟩))
    case some p => cases m <;> simp_all [HotStuffMessage.asProposal, HotStuffMessage.IsVote]
  cases m <;> simp [HotStuffMessage.votes] at hv
  case vote block sig view' sender sv =>
    have hmem := (sent _ hm).resolve_right (fun hn => hn trivial)
    obtain ⟨hmem, hview⟩ := List.mem_filter.mp hmem
    obtain ⟨x, hx, hxm⟩ := List.mem_map.mp hmem
    have hview : view' = view := by simpa [HotStuffMessage.asProposal, HotStuffMessage.getViewNumber] using hview
    have hvote : x.2.asVote = some (view, block) := by simp [hxm, hview, HotStuffMessage.asVote]
    refine .votes hx hvote (HasQuorum.iff.mpr ⟨quorum, ?_, ?_⟩) le_rfl
    · rw [← ht, quorumThreshold, same, quorumThreshold]
    · rw [same, hv.2.1]
      exact hle.trans (Finset.card_le_card (voters_mono sent))

-- Votes do not get lost, and the block of a proposal takes the place of one with an older certificate.
theorem Known.step (hc : InOrder s e) (h : Known s view) : Known (s.step e) view := by
  have stepped := s.task.step_stepped e.2
  cases h
  case genesis hv       => exact .genesis hv
  case newView hx hq hv => exact .newView (List.mem_append_left _ hx) hq hv
  case votes hx hm hq hv =>
    exact .votes (List.mem_append_left _ hx) hm (HasQuorum.step hq) hv
  case stored k b hb hn hv =>
    have ⟨b', hb'⟩ := Option.isSome_iff_exists.mp (stepped.lookup_isSome (k := k) (.inl (by rw [hb]; rfl)))
    have ⟨b₀, he, hb₀⟩ := stepped.lookup hb'
    have ⟨hn₀, hv₀⟩ : b₀.parentId ≠ none ∧ view ≤ b₀.justify.viewNumber := by
      rcases hb₀ with hb₀ | ⟨_, r, hup⟩
      · cases hb.symm.trans hb₀
        exact ⟨hn, hv⟩
      · have carries := hc.newest _ hup
        exact ⟨carries.normal, carries.le_of_known (.stored hb hn hv)⟩
    exact .stored hb' (Block.parentId_of_eraseStatus he ▸ hn₀) (Block.justify_of_eraseStatus he ▸ hv₀)

theorem Known.of_takenUp (hc : InOrder s e) (hup : s.task.takenUp e.2 = some (r, node)) :
    Known (s.step e) node.justify.viewNumber := by
  have stepped := s.task.step_stepped e.2
  have ⟨b, hb⟩ := Option.isSome_iff_exists.mp (stepped.lookup_isSome (.inr ⟨r, node, hup, rfl⟩))
  have he := stepped.lookup_takenUp hup hb
  refine .stored hb (Block.parentId_of_eraseStatus he ▸ (hc.newest _ hup).normal) ?_
  rw [Block.justify_of_eraseStatus he]

-- A leader proposes on top of its own certificate.
theorem genericQC_of_takenUp (hup : s.task.takenUp e.2 = some (r, node)) :
    r.genericQC = s.task.replica.genericQC ∨ node.justify = r.genericQC := by
  obtain ⟨msg, order, role, view, sender, sv, _, _, hs, -, -⟩ := Task.takenUp_cases hup
  rcases select_cases hs with ⟨_, _, hc⟩ | ⟨r₁, hr, selects⟩
  · cases hc
  rcases selects.chosen with ⟨_, hr', _⟩ | ⟨_, r₂, hl, hr'⟩
  · exact .inl (hr' ▸ (receive_idle hr).genericQC)
  · right
    cases leaderHandleMessage_leads hl
    case idle h             => exact absurd rfl (h _)
    case certified h        => exact absurd rfl (h _)
    case caughtUp h _       => exact absurd rfl (h _)
    case proposed _ _ _ hn  => rw [hr', hn]; rfl

structure Invariant (s : Inbox) : Prop where
  held      : Held (s.log.map Prod.snd) s.task.replica
  known     : Holds (s.Known ·.viewNumber) s.task.replica
  past      : Holds (·.viewNumber ≤ s.task.replica.pacemaker.currView - 1) s.task.replica
  views     : ∀ k b, s.task.replica.blockstore.lookup k = some b → b.parentId ≠ none →
    b.viewNumber ≤ s.task.replica.pacemaker.currView
  ascending : Ascending s.task.replica.blockstore s.task.replica.lockedQC.viewNumber s.task.replica.genericQC.viewNumber

namespace Invariant

-- A certificate made from votes is not older either, since it is for the last view.
theorem genericStep_le {msg : HotStuffMessage} {order : TallyOrder} {qc : QuorumCertificate} (h : Invariant s)
    (hg : GenericStep s.task.replica msg order qc) : s.task.replica.genericQC.viewNumber ≤ qc.viewNumber := by
  rcases hg with hg | ⟨_, hv⟩
  · exact hg
  · have idle : Idle s.task.replica (receive msg s.task.replica).2 := receive_idle rfl
    have past := h.past.genericQC
    have later := idle.currView
    omega

theorem ascending_step (h : Invariant s) (hc : InOrder s e) :
    Ascending (s.step e).task.replica.blockstore (s.step e).task.replica.lockedQC.viewNumber
      (s.step e).task.replica.genericQC.viewNumber ∧ Progress s.task (s.step e).task := by
  show Ascending (s.task.step e.2).replica.blockstore (s.task.step e.2).replica.lockedQC.viewNumber
    (s.task.step e.2).replica.genericQC.viewNumber ∧ Progress s.task (s.task.step e.2)
  cases s.task.step_stepped e.2
  case quiet _ hq hs hg =>
    have hle : s.task.replica.genericQC.viewNumber ≤ (s.task.step e.2).replica.genericQC.viewNumber := by
      rcases hg with hg | ⟨_, _, _, hg⟩
      · rw [hg]
      · exact h.genericStep_le hg
    rw [hs, hq.lockedQC]
    exact ⟨h.ascending.mono hle, by rw [hq.lockedQC], hle⟩
  case proposal r node _ _ _ c hup he hq hs hg hp ha _ =>
    have ⟨_, ha⟩ := ha.same
    have blockstore : (s.task.step e.2).replica.blockstore = c.blockstore := congrArg Core.blockstore ha
    have lockedQC : (s.task.step e.2).replica.lockedQC = c.lockedQC := congrArg Core.lockedQC ha
    have genericQC : (s.task.step e.2).replica.genericQC = c.genericQC := congrArg Core.genericQC ha
    have carries := hc.newest _ hup
    have hle := h.genericStep_le hg
    have known {k b} (hb : s.task.replica.blockstore.lookup k = some b) (hn : b.parentId ≠ none) :
        b.justify.viewNumber ≤ node.justify.viewNumber :=
      carries.le_of_known (.stored hb hn le_rfl)
    have inserted : Ascending (s.task.replica.blockstore.insert node.hash node)
        s.task.replica.lockedQC.viewNumber s.task.replica.genericQC.viewNumber := by
      refine h.ascending.insert (fun k b hb hn => ?_) (carries.le_of_known h.known.lockedQC)
      refine ⟨?_, known hb hn, carries.sole _ (AList.mem_lookup_iff.mp hb) hn⟩
      rw [carries.view]
      exact (h.views k b hb hn).trans hq.currView
    have stored : Ascending (r.store node).blockstore r.lockedQC.viewNumber r.genericQC.viewNumber := by
      rw [hq.lockedQC]
      refine (inserted.mono hle).of_lookup fun k b hb => ⟨b, rfl, ?_⟩
      exact Map.lookup_insert_iff.mpr ((store_lookup_iff hs).mp hb)
    have newest : r.genericQC.viewNumber ≤ node.justify.viewNumber := by
      rcases genericQC_of_takenUp hup with same | own
      · exact same ▸ carries.le_of_known h.known.genericQC
      · exact own ▸ le_rfl
    have ⟨ascending, hlocked, hgeneric⟩ := hp.ascending stored newest (fun k b hb hn => by
      rcases (store_lookup_iff hs).mp hb with ⟨_, rfl⟩ | ⟨_, hb⟩
      · exact le_rfl
      · exact known hb hn) carries.named
    rw [blockstore, lockedQC, genericQC]
    exact ⟨ascending, lockedQC ▸ hq.lockedQC ▸ hlocked, genericQC ▸ hle.trans hgeneric⟩

theorem step (h : Invariant s) (hc : InOrder s e) : Invariant (s.step e) where
  held      := h.held.inbox
  known     := by
    refine (h.known.mono fun qc hk => hk.step hc).step_of_takenUp (fun msg hm qc hq => ?_) (fun x hx _ => ?_)
      fun msg order he qc hq => ?_
    · exact .newView (x := (e.1, msg)) (List.mem_append_right _ (List.mem_map.mpr ⟨msg, hm, rfl⟩)) hq le_rfl
    · exact .of_takenUp hc hx
    · exact .of_forms h.held he hq
  past      := h.past.step_views (f := (· - 1)) (fun _ _ hle => Nat.sub_le_sub_right hle 1) (fun _ => le_rfl) hc.earlier
  views     := by
    have stepped := s.task.step_stepped e.2
    intro k b hb hn
    have ⟨b₀, he, hb₀⟩ := stepped.lookup hb
    rw [Block.viewNumber_of_eraseStatus he]
    rw [Block.parentId_of_eraseStatus he] at hn
    rcases hb₀ with hb₀ | ⟨_, r, hup⟩
    · exact (h.views k b₀ hb₀ hn).trans stepped.currView
    · rw [(hc.newest _ hup).view]
      exact stepped.currView_takenUp hup
  ascending := (h.ascending_step hc).1

theorem new {c : Config} {nodeId : PeerId} : Invariant (.new c nodeId) := by
  have genesis : ∀ k b, (HotStuffReplica.new c nodeId).blockstore.lookup k = some b → b.parentId = none := by
    intro k b hb
    rcases Map.lookup_insert_iff.mp hb with ⟨_, rfl⟩ | ⟨_, hb⟩
    · rfl
    · simp at hb
  exact {
    held      := .new
    known     := .new (.genesis rfl)
    past      := .new (Nat.zero_le _)
    views     := fun k b hb hn => absurd (genesis k b hb) hn
    ascending := {
      sorted := fun k _ b _ hb _ hn => absurd (genesis k b hb) hn
      locked := ⟨0, Nat.zero_le _, fun k b hb hn => absurd (genesis k b hb) hn⟩
      le     := le_rfl } }

end Invariant

end Inbox

-- The lock never moves back, nor does the generic certificate.
theorem progress_of_inOrder {c : Config} {nodeId : PeerId} {es es' : List (PeerId × Event)} {s s' : Inbox}
    (h : Steps (Guarded Inbox.step Inbox.InOrder) (.new c nodeId) es s)
    (h' : Steps (Guarded Inbox.step Inbox.InOrder) s es' s') : Progress s.task s'.task := by
  have inv := h.guarded_invariant Inbox.Invariant.new fun hc hi => hi.step hc
  clear h
  induction h'
  case refl => exact ⟨le_rfl, le_rfl⟩
  case step hs _ hi =>
    obtain ⟨hc, rfl⟩ := hs
    have first := (inv.ascending_step hc).2
    have rest := hi (inv.step hc)
    exact ⟨first.lockedQC.trans rest.lockedQC, first.genericQC.trans rest.genericQC⟩

omit [Sha256] [Ed25519] in
theorem chain_progress :
    ∃ (_ : Sha256) (_ : Ed25519) (c : Config),
      let es := [1, 2, 3, 1].zip (c.chain [1, 2, 3] createGenesisBlock [1, 2, 3, 5])
      let s := (es.take 2).foldl Inbox.step (.new c 0)
      let s' := (es.drop 2).foldl Inbox.step s
      Admits Inbox.step Inbox.InOrder (.new c 0) (es.take 2) ∧ Admits Inbox.step Inbox.InOrder s (es.drop 2) ∧
      s.task.replica.lockedQC.viewNumber = 0 ∧ s'.task.replica.lockedQC.viewNumber = 2 ∧
      Progress s.task s'.task := by
  refine ⟨.encoding, .encoding, .ofSize 4, by decide +kernel, by decide +kernel, by decide +kernel,
    by decide +kernel, ?_⟩
  exact @progress_of_inOrder .encoding .encoding _ _ _ _ _ _ (Admits.steps (by decide +kernel))
    (Admits.steps (by decide +kernel))

-- The leader of view 3 has missed the certificate of the first block and starts over from the
-- genesis block.
def restart (c : Config) : List Event :=
  let a := Block.createLeaf createGenesisBlock [] 1 .createGenesisQC
  let b := Block.createLeaf a [] 2 (c.certify [1, 2, 3] 1 a.hash)
  let d := Block.createLeaf createGenesisBlock [] 3 .createGenesisQC
  [.propose a 1, .propose b 2, .propose d 3]

omit [Sha256] [Ed25519] in
theorem restart_not_progress :
    ∃ (_ : Sha256) (_ : Ed25519) (c : Config),
      ¬Progress ((restart c).take 2 |>.foldl Task.step (.new c 0)) ((restart c).foldl Task.step (.new c 0)) := by
  refine ⟨.encoding, .encoding, .ofSize 4, fun h => ?_⟩
  have := h.genericQC
  revert this
  decide +kernel

end Superliquid

import Superliquid.Hotstuff.Theorems.Following
import Superliquid.Hotstuff.Theorems.Senders

namespace Superliquid

open HotStuffReplica ReplicaM Handler

variable [Sha256] [Ed25519]

section Ballots

variable {c : Config} {i : PeerId} {block : Block} {view : Nat} {ids : Finset PeerId} {msgs : List HotStuffMessage}
         {msg : HotStuffMessage} {r : HotStuffReplica} {qc : QuorumCertificate} {order : TallyOrder}

def Config.vote (c : Config) (block : Block) (view : Nat) (i : PeerId) : HotStuffMessage :=
  .createVote block view i view (c.secretKey i)

-- Among the messages of a view are the votes of the replicas `ids` for a block, and no others.
structure Ballots (c : Config) (block : Block) (view : Nat) (ids : Finset PeerId) (msgs : List HotStuffMessage) :
    Prop where
  views : ∀ m ∈ msgs, m.getViewNumber = view
  votes : ∀ m ∈ msgs, m.IsVote → ∃ i ∈ ids, m = c.vote block view i
  cast  : ∀ i ∈ ids, c.vote block view i ∈ msgs
  count : msgs.countP (·.isVoteFor view) = ids.card
  known : ∀ i ∈ ids, i < c.numValidators

namespace Ballots

theorem nil : Ballots c block view ∅ [] := by
  constructor <;> simp

theorem push (h : Ballots c block view ids msgs) (hv : msg.getViewNumber = view) (hm : ¬msg.IsVote) :
    Ballots c block view ids (msgs ++ [msg]) := by
  constructor
  case views => exact List.forall_mem_append.mpr ⟨h.views, by simpa using hv⟩
  case votes => exact List.forall_mem_append.mpr ⟨h.votes, by simpa using fun hv => absurd hv hm⟩
  case cast  => exact fun i hi => List.mem_append_left _ (h.cast i hi)
  case known => exact h.known
  case count =>
    have hn : msg.isVoteFor view = false := by
      cases msg <;> simp_all [HotStuffMessage.IsVote, HotStuffMessage.isVoteFor]
    simp [List.countP_append, h.count, hn]

theorem push_vote (h : Ballots c block view ids msgs) (hi : i ∉ ids) (hn : i < c.numValidators) :
    Ballots c block view (insert i ids) (msgs ++ [c.vote block view i]) := by
  constructor
  case views =>
    refine List.forall_mem_append.mpr ⟨h.views, ?_⟩
    simp [Config.vote, HotStuffMessage.createVote, HotStuffMessage.getViewNumber]
  case votes =>
    refine List.forall_mem_append.mpr ⟨fun m hm hv => ?_, ?_⟩
    · obtain ⟨j, hj, he⟩ := h.votes m hm hv
      exact ⟨j, Finset.mem_insert_of_mem hj, he⟩
    · simp
  case cast =>
    intro j hj
    rcases Finset.mem_insert.mp hj with rfl | hj
    · simp
    · exact List.mem_append_left _ (h.cast j hj)
  case known =>
    intro j hj
    rcases Finset.mem_insert.mp hj with rfl | hj
    · exact hn
    · exact h.known j hj
  case count =>
    have hv : (c.vote block view i).isVoteFor view = true := by
      simp [Config.vote, HotStuffMessage.createVote, HotStuffMessage.isVoteFor]
    simp [List.countP_append, h.count, Finset.card_insert_of_notMem hi, hv]

theorem hash_of_votes (h : Ballots c block view ids msgs) (hm : msg ∈ msgs) {pk : VerifyingKey} {blockHash : BlockHash}
    (hv : msg.votes pk blockHash) : blockHash = block.hash := by
  have isVote : msg.IsVote := by cases msg <;> simp [HotStuffMessage.votes, HotStuffMessage.IsVote] at hv ⊢
  obtain ⟨i, _, rfl⟩ := h.votes msg hm isVote
  simp only [Config.vote, HotStuffMessage.createVote, HotStuffMessage.votes, decide_eq_true_eq] at hv
  exact hv.2.1.symm

-- What is certified is the block that the votes are for.
theorem certificate (h : Ballots c block view ids (r.messages.ofView view)) (member : Member c i r) (hc : c.Sized)
    (hq : r.tryCreateQCForView order view = .ok (some qc)) : Certificate c view block qc := by
  have hpos : 1 ≤ c.quorum := Nat.le_add_left 1 _
  have sound := tryCreateQCForView_sound h.views (member.quorumThreshold hc) hpos hq
  refine ⟨sound.viewNumber, ?_, member.validatorSet ▸ sound.verify⟩
  obtain ⟨msgs, quorum, hm, hq', _, hlen, hs⟩ := tryCreateQCForView_some hq
  cases (member.quorumThreshold hc).symm.trans hq'
  obtain ⟨sig, hsig⟩ := List.exists_mem_of_ne_nil _ (List.ne_nil_of_length_pos (hpos.trans hlen))
  obtain ⟨msg, hmsg, _, hv⟩ := (tallied_foldl msgs).votes _ _ hs sig hsig
  rw [MessageWindow.ofView_eq hm] at h
  exact h.hash_of_votes hmsg hv

theorem voters_card (h : Ballots c block view ids msgs) (hc : c.Sized) :
    ids.card ≤ (voters c.validatorSet msgs block.hash).card := by
  have inj : Set.InjOn c.publicKey (Finset.range c.numValidators) := by
    refine Finset.card_image_iff.mp ?_
    rw [Finset.card_range]
    exact hc.keys
  have hids : ∀ i ∈ ids, i ∈ Finset.range c.numValidators := fun i hi => Finset.mem_range.mpr (h.known i hi)
  rw [← Finset.card_image_of_injOn fun i hi j hj => inj (hids i hi) (hids j hj)]
  refine Finset.card_le_card fun pk hpk => ?_
  obtain ⟨i, hi, rfl⟩ := Finset.mem_image.mp hpk
  refine Finset.mem_filter.mpr ⟨Finset.mem_image_of_mem _ (hids i hi), _, h.cast i hi, ?_⟩
  have key := c.checked i (h.known i hi)
  simp [Config.vote, HotStuffMessage.createVote, HotStuffMessage.votes, ← key, UnsignedVote.hash, Ed25519.verify_sign]

-- With a quorum of votes the certificate is there.
theorem exists_certificate (h : Ballots c block view ids (r.messages.ofView view)) (member : Member c i r)
    (hc : c.Sized) (hids : c.quorum ≤ ids.card) {res : Option QuorumCertificate}
    (hq : r.tryCreateQCForView order view = .ok res) : ∃ qc, res = some qc ∧ Certificate c view block qc := by
  cases res
  case some qc => exact ⟨qc, rfl, h.certificate member hc hq⟩
  case none =>
    have hcard := hids.trans (h.voters_card hc)
    rw [← member.validatorSet] at hcard
    have undivided : Undivided r.validatorSet (r.messages.ofView view) := by
      intro pk b b' hb hb'
      obtain ⟨_, msg, hm, hv⟩ := Finset.mem_filter.mp hb
      obtain ⟨_, msg', hm', hv'⟩ := Finset.mem_filter.mp hb'
      rw [h.hash_of_votes hm hv, h.hash_of_votes hm' hv']
    have hlow : r.messages.lowestView ≤ view := by
      by_contra hlow
      obtain ⟨j, hj⟩ := Finset.card_pos.mp (Nat.lt_of_lt_of_le (Nat.succ_pos _) hids)
      simpa [MessageWindow.ofView, Nat.not_le.mp hlow] using h.cast j hj
    -- Where the lookup of the messages overflows, nothing is returned.
    have hroom : r.messages.lowestView + r.messages.messages.length < 2 ^ 64 := by
      by_contra hfull
      rw [tryCreateQCForView, MessageWindow.getMessagesForView_eq hlow, if_neg hfull] at hq
      cases hq
    obtain ⟨qc, he⟩ := (tryCreateQCForView_complete h.views (member.quorumThreshold hc) (Nat.le_add_left 1 _)
      undivided hcard).mpr hroom
    cases he.symm.trans hq

end Ballots

end Ballots

section Handling

variable {c : Config} {i : PeerId} {blocks : Nat → Block} {v : Nat} {r r' : HotStuffReplica} {msg : HotStuffMessage}
         {order : TallyOrder}

-- How a replica sends to the leader of a view, which may be the replica itself.
def Outbound.toward (nodeId leader : PeerId) (msg : HotStuffMessage) : Outbound :=
  if nodeId = leader then .sendToSelf msg else .sendToNode leader msg

omit [Sha256] [Ed25519] in
theorem getMessagesForView_getD {w : MessageWindow} {view : Nat} {messages : Option (List HotStuffMessage)}
    (h : w.getMessagesForView view = .ok messages) : messages.getD [] = w.ofView view := by
  by_cases hv : view < w.lowestView
  case pos =>
    rw [MessageWindow.getMessagesForView_none hv] at h
    cases h
    simp [MessageWindow.ofView, hv]
  case neg =>
    rw [MessageWindow.getMessagesForView_eq (Nat.le_of_not_lt hv)] at h
    split at h
    case isFalse => cases h
    case isTrue  =>
      cases h
      simp [MessageWindow.ofView, hv]

omit [Sha256] [Ed25519] in
theorem hasQuorumVotesForView_iff {w : MessageWindow} {view quorum : Nat} {messages : Option (List HotStuffMessage)}
    (h : w.getMessagesForView view = .ok messages) (hq : 1 ≤ quorum) :
    hasQuorumVotesForView messages view quorum = true ↔ quorum ≤ (w.ofView view).countP (·.isVoteFor view) := by
  rw [← getMessagesForView_getD h]
  cases messages <;> simp [hasQuorumVotesForView]
  omega

omit [Sha256] [Ed25519] in
theorem hasQuorumForNewView_iff {w : MessageWindow} {view quorum : Nat} {messages : Option (List HotStuffMessage)}
    (h : w.getMessagesForView view = .ok messages) (hq : 1 ≤ quorum) :
    hasQuorumForNewView messages view quorum = true ↔ quorum ≤ (w.ofView view).countP (·.isNewViewFor view) := by
  rw [← getMessagesForView_getD h]
  cases messages <;> simp [hasQuorumForNewView]
  omega

omit [Sha256] [Ed25519] in
theorem receive_yields (h : msg.getViewNumber ≤ r.pacemaker.currView) :
    Yields (receive msg) r fun _ r' => r' = { r with messages := r.messages.push msg } := by
  simp only [receive, syncView, Yields.bind_iff, Yields.read_iff, id_eq, Pacemaker.fastForwardView, if_pos h,
    Bool.false_eq_true, if_false, Yields.pure_iff, Yields.lift_iff, pushMessage, Yields.modify_iff]
  exact fun _ _ => trivial

-- A replica that does not lead handles the message as it is.
theorem handleMessage_replica {Q : Unit → HotStuffReplica → Prop} (h : msg.getViewNumber ≤ r.pacemaker.currView)
    (hl : ¬r.Leading) (hQ : Yields (handleSelected .replica msg) { r with messages := r.messages.push msg } Q) :
    Yields (handleMessage order msg) r Q := by
  simp only [handleMessage, select, Yields.bind_iff]
  refine (receive_yields h).mono ?_
  rintro _ r₁ rfl
  simp only [Yields.read_iff, id_eq, Yields.lift_iff]
  intro leader hleader
  rw [if_neg]
  · simpa using hQ
  · rintro ⟨rfl, hf⟩
    exact hl ⟨hleader, by simpa using hf⟩

-- A replica that leads does the work of a leader first.
theorem handleMessage_leader {Q : Unit → HotStuffReplica → Prop} (h : msg.getViewNumber ≤ r.pacemaker.currView)
    (hl : r.Leading)
    (hQ : Yields (leaderHandleMessage order) { r with messages := r.messages.push msg } fun out r' =>
      match out with
      | none   => Q () r'
      | some m => Yields (handleSelected .leader m) (announce m r') Q) :
    Yields (handleMessage order msg) r Q := by
  simp only [handleMessage, select, Yields.bind_iff]
  refine (receive_yields h).mono ?_
  rintro _ r₁ rfl
  simp only [Yields.read_iff, id_eq, Yields.lift_iff]
  intro leader hleader
  obtain rfl : leader = r.nodeId := by simpa using hleader.symm.trans hl.leader
  rw [if_pos ⟨rfl, by simpa using hl.fresh⟩, Yields.bind_iff]
  refine hQ.mono fun out r' h => ?_
  cases out
  case none   => simpa using h
  case some m => simpa [send, pushMessage, announce] using h

-- The answer to a message, as far as it is of interest here.
structure Replied (out : Outbound) (r r' : HotStuffReplica) : Prop where
  sent     : r'.repNodeChannel = r.repNodeChannel ++ [out]
  voted    : r'.viewProgress = { r.viewProgress with replicaHasVoted := true }
  currView : r'.pacemaker.currView = r.pacemaker.currView
  messages : r'.messages = r.messages

omit [Sha256] in
theorem reply_yields {out : HotStuffMessage} {role : Role} {view : Nat} (hc : c.Sized) (hn : r.nodeId = i)
    (hi : r.pacemaker.replicaIds = List.range c.numValidators)
    (hrole : role = .leader → r.pacemaker.currView = view ∧ c.leader (view + 1) ≠ i) :
    Yields (reply view out role) r fun _ r' =>
      Replied (.toward i (c.leader (view + 1)) out) r r' ∧ r'.blockstore = r.blockstore ∧
        r'.lockedQC = r.lockedQC ∧ r'.applied = r.applied ∧ r'.genericQC = r.genericQC := by
  have leader : ∀ u n, U64.add u 1 = .ok n → r.pacemaker.getLeaderForView n = .ok (c.leader (u + 1)) := by
    intro u n hu
    obtain ⟨_, rfl⟩ := U64.add_ok.mp hu
    exact getLeaderForView_eq hc hi _
  cases role
  case leader =>
    obtain ⟨rfl, hne⟩ := hrole rfl
    simp only [reply, Yields.bind_iff, Yields.read_iff, id_eq, Yields.lift_iff, send, Yields.modify_iff]
    intro n hn' nextLeader hl
    obtain rfl : c.leader (r.pacemaker.currView + 1) = nextLeader := by simpa using (leader _ n hn').symm.trans hl
    exact ⟨⟨by simp [setVoted, Outbound.toward, hne.symm], rfl, rfl, rfl⟩, rfl, rfl, rfl, rfl⟩
  case replica =>
    simp only [reply, Yields.bind_iff, Yields.read_iff, id_eq, Yields.lift_iff, Yields.modify_iff]
    intro n hn' nextLeader hl
    obtain rfl : c.leader (view + 1) = nextLeader := by simpa using (leader _ n hn').symm.trans hl
    subst hn
    unfold Outbound.toward
    split
    all_goals
      simp only [send, Yields.modify_iff]
      exact ⟨⟨rfl, rfl, rfl, rfl⟩, rfl, rfl, rfl, rfl⟩

variable [BlockDigest]

theorem Follows.handleProposal (h : Follows blocks v r) (member : Member c i r) (hc : c.Sized)
    (chain : IsChain c blocks (v + 1)) (hview : r.pacemaker.currView = v + 1) {role : Role}
    (hrole : role = .leader → c.leader (v + 2) ≠ i) :
    Yields (handleSelected role (.proposal (blocks (v + 1)) (v + 1) (c.leader (v + 1)) (v + 1))) r fun _ r' =>
      Follows blocks (v + 1) r' ∧ r.messages.pruneBeforeView v = .ok r'.messages ∧
      r'.pacemaker.currView = v + 1 ∧ r'.viewProgress = { r.viewProgress with replicaHasVoted := true } ∧
      r'.repNodeChannel =
        r.repNodeChannel ++ [.toward i (c.leader (v + 2)) (c.vote (blocks (v + 1)) (v + 1) i)] := by
  simp only [handleSelected, replicaHandleMessage, Yields.bind_iff, Yields.read_iff]
  refine (h.replicaHandleProposal member hc chain hview).mono ?_
  rintro out r₁ ⟨rfl, follows, adopted⟩
  have view : r₁.pacemaker.currView = v + 1 := adopted.currView.trans hview
  have vote : r.voteMessage (blocks (v + 1)) = c.vote (blocks (v + 1)) (v + 1) i := by
    rw [voteMessage, hview, member.nodeId, member.signingKey]
    rfl
  simp only [hview, vote]
  refine (reply_yields hc (adopted.nodeId.trans member.nodeId) (adopted.replicaIds.trans member.replicaIds)
    fun hr => ⟨view, hrole hr⟩).mono ?_
  rintro _ r' ⟨replied, hs, hl, ha, _⟩
  refine ⟨follows.of_same hs hl ha, replied.messages ▸ adopted.messages, replied.currView.trans view, ?_, ?_⟩
  · rw [replied.voted, adopted.viewProgress]
  · rw [replied.sent, adopted.sent]

omit [BlockDigest] in
-- As long as a leader lacks new-view messages, it certifies what it has the votes for.
theorem leaderHandleMessage_waits {block : Block} {ids : Finset PeerId} (member : Member c i r) (hc : c.Sized)
    (hview : r.pacemaker.currView = v + 1) (ballots : Ballots c block v ids (r.messages.ofView v))
    (few : (r.messages.ofView v).countP (·.isNewViewFor v) < c.quorum) :
    Yields (leaderHandleMessage order) r fun out r' => out = none ∧
      (r' = r ∧ ids.card < c.quorum ∨
        ∃ qc messages, Certificate c v block qc ∧ r.messages.pruneBeforeView v = .ok messages ∧
          r' = { r with genericQC := qc, messages }) := by
  have hpos : 1 ≤ c.quorum := Nat.le_add_left 1 _
  simp only [leaderHandleMessage, Yields.bind_iff, Yields.read_iff, id_eq, Yields.lift_iff]
  intro lastView hlast messages hm quorum hq
  obtain rfl : c.quorum = quorum := by simpa using (member.quorumThreshold hc).symm.trans hq
  obtain rfl : v = lastView := by
    have := (Checked.sub_ok.mp hlast).2
    omega
  rw [if_neg (by rw [hasQuorumForNewView_iff hm hpos]; omega)]
  split
  case isFalse hvotes =>
    rw [hasQuorumVotesForView_iff hm hpos, ballots.count] at hvotes
    exact Yields.pure_iff.mpr ⟨rfl, .inl ⟨rfl, by omega⟩⟩
  case isTrue hvotes =>
    rw [hasQuorumVotesForView_iff hm hpos, ballots.count] at hvotes
    simp only [Yields.bind_iff, Yields.lift_iff]
    intro res hres
    obtain ⟨qc, rfl, certificate⟩ := ballots.exists_certificate member hc hvotes hres
    simp only [setGenericQC, ReplicaM.pruneBeforeView, Yields.bind_iff, Yields.modify_iff, Yields.update_iff,
      Yields.pure_iff]
    intro _ r₁ hr
    simp only [Checked.bind_ok, Checked.pure_ok, Prod.mk.injEq] at hr
    obtain ⟨messages, hp, _, rfl⟩ := hr
    rw [certificate.viewNumber] at hp
    exact ⟨trivial, .inr ⟨qc, messages, certificate, hp, rfl⟩⟩

omit [BlockDigest] in
-- With enough new-view messages it proposes a block on top of what it has certified.
theorem leaderHandleMessage_proposes (member : Member c i r) (hc : c.Sized) (hview : r.pacemaker.currView = v + 1)
    (certificate : Certificate c v (blocks v) r.genericQC) (follows : Follows blocks v r)
    (enough : c.quorum ≤ (r.messages.ofView v).countP (·.isNewViewFor v)) :
    Yields (leaderHandleMessage order) r fun out r' => ∃ mempool transactions node,
      r.mempool.popNextN blockTransactionLength = .ok (mempool, transactions) ∧
      node = (blocks v).createLeaf transactions (v + 1) r.genericQC ∧
      out = some (.proposal node (v + 1) i (v + 1)) ∧ r' = { r.store node with mempool } := by
  have hpos : 1 ≤ c.quorum := Nat.le_add_left 1 _
  simp only [leaderHandleMessage, Yields.bind_iff, Yields.read_iff, id_eq, Yields.lift_iff]
  intro lastView hlast messages hm quorum hq
  obtain rfl : c.quorum = quorum := by simpa using (member.quorumThreshold hc).symm.trans hq
  obtain rfl : v = lastView := by
    have := (Checked.sub_ok.mp hlast).2
    omega
  rw [if_pos ((hasQuorumForNewView_iff hm hpos).mpr enough)]
  simp only [Yields.bind_iff, catchUp, Yields.read_iff, id_eq, hview, Nat.add_sub_cancel, certificate.viewNumber,
    ne_eq, not_true_eq_false, if_false, Yields.pure_iff, leaderPropose]
  have lookup : r.blockstore.lookup r.genericQC.blockHash = some (blocks v) := by
    rw [certificate.blockHash]
    exact follows.stored v le_rfl (Nat.le_add_right v 2)
  simp only [lookup, Yields.bind_iff, selectTransactions, Yields.update_iff, Yields.modify_iff, Yields.pure_iff]
  intro transactions r₁ hr
  simp only [Checked.bind_ok, Checked.pure_ok, Prod.mk.injEq] at hr
  obtain ⟨⟨mempool, _⟩, hpop, rfl, rfl⟩ := hr
  exact ⟨mempool, _, _, hpop, rfl, by rw [member.nodeId], rfl⟩

omit [BlockDigest] in
-- The next leader goes on as soon as it has voted and has the votes.
theorem replicaHandleVote_yields (member : Member c i r) (hc : c.Sized) (hview : r.pacemaker.currView = v + 1)
    (hi : i = c.leader (v + 2)) {block : Block} {ids : Finset PeerId}
    (ballots : Ballots c block (v + 1) ids (r.messages.ofView (v + 1))) :
    Yields replicaHandleVote r fun out r' =>
      (r.viewProgress.replicaHasVoted = true ∧ c.quorum ≤ ids.card ∧
        out = some (.newView r.genericQC (v + 1) i (v + 1)) ∧
        r' = { r with pacemaker := { r.pacemaker with currView := v + 2 } }) ∨
      ((r.viewProgress.replicaHasVoted = false ∨ ids.card < c.quorum) ∧ out = none ∧ r' = r) := by
  have hpos : 1 ≤ c.quorum := Nat.le_add_left 1 _
  simp only [replicaHandleVote, Yields.bind_iff, Yields.read_iff, id_eq, Yields.lift_iff, hview]
  intro nextView hnext nextLeader hl
  obtain ⟨_, rfl⟩ := U64.add_ok.mp hnext
  obtain rfl : c.leader (v + 2) = nextLeader := by
    simpa using (getLeaderForView_eq hc member.replicaIds (v + 2)).symm.trans hl
  rw [if_neg (not_not.mpr (member.nodeId.trans hi))]
  cases hvoted : r.viewProgress.replicaHasVoted
  case false => simp
  case true =>
    simp only [not_true_eq_false, if_false, Yields.bind_iff, Yields.lift_iff]
    intro messages hm quorum hq
    obtain rfl : c.quorum = quorum := by simpa using (member.quorumThreshold hc).symm.trans hq
    split
    case isTrue hn =>
      rw [hasQuorumVotesForView_iff hm hpos, ballots.count] at hn
      exact Yields.pure_iff.mpr (.inr ⟨.inr (by omega), rfl, rfl⟩)
    case isFalse hn =>
      rw [not_not, hasQuorumVotesForView_iff hm hpos, ballots.count] at hn
      simp only [Yields.bind_iff, Yields.lift_iff, Yields.modify_iff, Yields.pure_iff, createNewView]
      intro pacemaker hp newView hnew
      simp only [Pacemaker.advanceView, Checked.bind_ok, Checked.pure_ok, U64.add_ok, hview] at hp
      obtain ⟨_, ⟨_, rfl⟩, rfl⟩ := hp
      simp only [Checked.bind_ok, Checked.pure_ok, Checked.sub_ok] at hnew
      obtain ⟨_, ⟨_, rfl⟩, rfl⟩ := hnew
      exact .inl ⟨trivial, hn, by rw [member.nodeId]; rfl, rfl⟩

omit [Sha256] [BlockDigest] in
-- A replica whose timer runs out tells the leader of the next view.
theorem advanceView_yields (member : Member c i r) (hc : c.Sized) (hview : r.pacemaker.currView = v) :
    Yields advanceView r fun _ r' => r' = { r with
      pacemaker := { r.pacemaker with currView := v + 1 }
      viewProgress := .reset
      repNodeChannel := r.repNodeChannel ++ [.toward i (c.leader (v + 1)) (.newView r.genericQC v i v)] } := by
  simp only [advanceView, Yields.bind_iff, Yields.read_iff, id_eq, Yields.lift_iff, Yields.modify_iff]
  intro pacemaker hp leader hl newView hnew
  simp only [Pacemaker.advanceView, Checked.bind_ok, Checked.pure_ok, U64.add_ok, hview] at hp
  obtain ⟨_, ⟨_, rfl⟩, rfl⟩ := hp
  have hleader : Pacemaker.currentLeader { r.pacemaker with currView := v + 1 } = .ok (c.leader (v + 1)) :=
    getLeaderForView_eq hc member.replicaIds (v + 1)
  obtain rfl : c.leader (v + 1) = leader := by simpa using hleader.symm.trans hl
  simp only [createNewView, Checked.bind_ok, Checked.pure_ok, Checked.sub_ok] at hnew
  obtain ⟨_, ⟨_, rfl⟩, rfl⟩ := hnew
  unfold Outbound.toward
  rw [← member.nodeId]
  split
  all_goals simp [send]

end Handling

section Window

variable {w w' : MessageWindow} {msg : HotStuffMessage} {view v : Nat}

-- A window that takes in messages up to a view, and has none from later on.
structure MessageWindow.UpTo (w : MessageWindow) (view : Nat) : Prop where
  low  : w.lowestView ≤ view
  high : ∀ u > view, w.ofView u = []

namespace MessageWindow

omit [Sha256] [Ed25519] in
theorem pruneBeforeView_kept (h : w.pruneBeforeView v = .ok w') :
    w'.lowestView ≤ max w.lowestView v ∧ ∀ u ≥ v, w'.ofView u = w.ofView u := by
  rcases pruneBeforeView_dropped h with rfl | rfl
  · exact ⟨le_max_left _ _, fun _ _ => rfl⟩
  · refine ⟨le_rfl, fun u hu => ?_⟩
    rw [ofView_dropBefore, if_neg (Nat.not_lt.mpr hu)]

namespace UpTo

omit [Sha256] [Ed25519] in
theorem push (h : w.UpTo view) (hm : msg.getViewNumber ≤ view) : (w.push msg).UpTo view := by
  refine ⟨push_lowestView.trans_le h.low, fun u hu => ?_⟩
  rcases ofView_push w msg u with he | ⟨rfl, _⟩
  · rw [he, h.high u hu]
  · omega

omit [Sha256] [Ed25519] in
theorem ofView_push (h : w.UpTo view) (hm : msg.getViewNumber = view) :
    (w.push msg).ofView view = w.ofView view ++ [msg] := by
  rw [ofView_push_of_le (hm ▸ h.low), if_pos hm.symm]

omit [Sha256] [Ed25519] in
theorem prune (h : w.UpTo view) (hv : v ≤ view) (hp : w.pruneBeforeView v = .ok w') : w'.UpTo view := by
  obtain ⟨low, same⟩ := pruneBeforeView_kept hp
  refine ⟨low.trans (max_le h.low hv), fun u hu => ?_⟩
  rw [same u (by omega), h.high u hu]

omit [Sha256] [Ed25519] in
theorem succ (h : w.UpTo view) : w.UpTo (view + 1) :=
  ⟨h.low.trans (Nat.le_succ view), fun u hu => h.high u (by omega)⟩

end UpTo
end MessageWindow
end Window

section Effects

variable {c : Config} {i : PeerId} {blocks : Nat → Block} {v : Nat} {r r' : HotStuffReplica} {msg : HotStuffMessage}
         {order : TallyOrder} {block : Block} {ids : Finset PeerId}

theorem Task.step_yields {t : Task} {e : Event} {Q : Unit → HotStuffReplica → Prop} (h : (t.step e).panicked = false)
    (hq : Yields (runReplica e) t.replica Q) : Q () (t.step e).replica := by
  obtain ⟨res, hr, hres⟩ := Task.step_cases (e := e) (by simp [Task.running_of_step h] : ¬t.panicked)
  rw [hres h] at hr
  exact hq () _ hr

-- The keys stay the same.
theorem Task.step_signingKey (t : Task) (e : Event) : (t.step e).replica.signingKey = t.replica.signingKey := by
  have routine : Routine False fun r r' : HotStuffReplica => r'.signingKey = r.signingKey := {
    refl        := fun _ => rfl
    trans       := fun _ _ _ h₁ h₂ => h₂.trans h₁
    moved       := fun _ => rfl
    sent        := fun _ => rfl
    pruned      := fun _ => rfl
    noted       := rfl
    locked      := rfl
    voted       := rfl
    selected    := fun _ => rfl
    committed   := fun _ => rfl
    interrupted := fun _ => rfl }
  rcases routine.step rfl rfl t e False.elim with h | ⟨txn, _, h⟩
  · exact h
  · rw [h]
    rfl

theorem Member.step {t : Task} {e : Event} (h : Member c i t.replica) : Member c i (t.step e).replica where
  nodeId       := (t.step_stepped e).nodeId.trans h.nodeId
  validatorSet := (t.step_stepped e).validatorSet.trans h.validatorSet
  signingKey   := (t.step_signingKey e).trans h.signingKey
  replicaIds   := (t.step_stepped e).replicaIds.trans h.replicaIds

omit [Sha256] in
theorem Member.push (h : Member c i r) : Member c i { r with messages := r.messages.push msg } :=
  ⟨h.nodeId, h.validatorSet, h.signingKey, h.replicaIds⟩

omit [Ed25519] in
theorem Follows.push (h : Follows blocks v r) : Follows blocks v { r with messages := r.messages.push msg } :=
  h.of_same rfl rfl rfl

omit [Sha256] in
theorem Member.leading_iff (h : Member c i r) (hc : c.Sized) :
    r.Leading ↔ i = c.leader r.pacemaker.currView ∧ r.viewProgress.leaderHasProposed = false := by
  have leader : r.pacemaker.currentLeader = .ok (c.leader r.pacemaker.currView) :=
    getLeaderForView_eq hc h.replicaIds _
  constructor
  · intro hl
    have he := leader.symm.trans hl.leader
    rw [Except.ok.injEq, h.nodeId] at he
    exact ⟨he.symm, hl.fresh⟩
  · rintro ⟨hi, hf⟩
    exact ⟨by rw [leader, ← hi, h.nodeId], hf⟩

-- The replica as it is once it has come to a view.
def HotStuffReplica.enter (r : HotStuffReplica) (view : Nat) : HotStuffReplica :=
  { r with pacemaker := { r.pacemaker with currView := view }, viewProgress := .reset }

omit [Sha256] in
theorem Member.enter {view : Nat} (h : Member c i r) : Member c i (r.enter view) :=
  ⟨h.nodeId, h.validatorSet, h.signingKey, h.replicaIds⟩

-- A message that is ahead takes a replica along. If it does not lead the new view, then nothing else happens.
theorem handleMessage_ahead (member : Member c i r) (hc : c.Sized) (h : r.pacemaker.currView < msg.getViewNumber)
    (hne : i ≠ c.leader msg.getViewNumber) :
    handleMessage order msg r = handleMessage order msg (r.enter msg.getViewNumber) := by
  have leader : Pacemaker.currentLeader { r.pacemaker with currView := msg.getViewNumber } =
      .ok (c.leader msg.getViewNumber) := getLeaderForView_eq hc member.replicaIds _
  have ahead : syncView msg r = (.ok (), r.enter msg.getViewNumber) := by
    simp [syncView, Pacemaker.fastForwardView, Nat.not_le.mpr h, leader, bind_apply, member.nodeId, hne.symm,
      HotStuffReplica.enter]
  have level : syncView msg (r.enter msg.getViewNumber) = (.ok (), r.enter msg.getViewNumber) := by
    simp [syncView, Pacemaker.fastForwardView, HotStuffReplica.enter]
  simp only [handleMessage, select, receive, bind_apply, ahead, level]

-- A leader without enough new-view messages.
theorem handleMessage_waits (member : Member c i r) (hc : c.Sized) (hview : r.pacemaker.currView = v + 1)
    (hi : i = c.leader (v + 1)) (fresh : r.viewProgress.leaderHasProposed = false) (window : r.messages.UpTo v)
    (hm : msg.getViewNumber = v) (ballots : Ballots c block v ids (r.messages.ofView v ++ [msg]))
    (few : (r.messages.ofView v ++ [msg]).countP (·.isNewViewFor v) < c.quorum) :
    Yields (handleMessage order msg) r fun _ r' => ∃ genericQC messages,
      r' = { r with genericQC, messages } ∧ messages.UpTo v ∧ messages.ofView v = r.messages.ofView v ++ [msg] ∧
      (genericQC = r.genericQC ∧ ids.card < c.quorum ∨ Certificate c v block genericQC) := by
  have pushed := window.ofView_push hm
  have upTo : (r.messages.push msg).UpTo v := window.push hm.le
  have leading : r.Leading := (member.leading_iff hc).mpr ⟨by rw [hi, hview], fresh⟩
  refine handleMessage_leader (by omega) leading ?_
  refine (leaderHandleMessage_waits member.push hc hview (pushed ▸ ballots) (pushed ▸ few)).mono ?_
  rintro _ r' ⟨rfl, ⟨rfl, hids⟩ | ⟨qc, messages, certificate, hp, rfl⟩⟩
  · exact ⟨r.genericQC, _, rfl, upTo, pushed, .inl ⟨rfl, hids⟩⟩
  · have ⟨_, same⟩ := MessageWindow.pruneBeforeView_kept hp
    exact ⟨qc, messages, rfl, upTo.prune le_rfl hp, (same v le_rfl).trans pushed, .inr certificate⟩

-- New-view messages that come after the proposal.
theorem handleMessage_newView {justify : QuorumCertificate} {view sender sv : Nat}
    (hv : view ≤ r.pacemaker.currView) (hl : ¬r.Leading) :
    Yields (handleMessage order (.newView justify view sender sv)) r fun _ r' =>
      r' = { r with messages := r.messages.push (.newView justify view sender sv) } := by
  refine handleMessage_replica hv hl ?_
  simp [handleSelected, replicaHandleMessage]

-- The next leader gets a vote.
theorem handleMessage_vote {j : PeerId} (member : Member c i r) (hc : c.Sized) (hview : r.pacemaker.currView = v + 1)
    (hi : i = c.leader (v + 2)) (hne : i ≠ c.leader (v + 1)) (window : r.messages.UpTo (v + 1))
    (ballots : Ballots c block (v + 1) ids (r.messages.ofView (v + 1) ++ [c.vote block (v + 1) j])) :
    Yields (handleMessage order (c.vote block (v + 1) j)) r fun _ r' =>
      r'.messages = r.messages.push (c.vote block (v + 1) j) ∧ r'.blockstore = r.blockstore ∧
      r'.lockedQC = r.lockedQC ∧ r'.applied = r.applied ∧
      r'.viewProgress = r.viewProgress ∧
      (r.viewProgress.replicaHasVoted = true ∧ c.quorum ≤ ids.card ∧ r'.pacemaker.currView = v + 2 ∧
          r'.repNodeChannel = r.repNodeChannel ++
            [.toward i (c.leader (v + 2)) (.newView r.genericQC (v + 1) i (v + 1))] ∨
        (r.viewProgress.replicaHasVoted = false ∨ ids.card < c.quorum) ∧ r'.pacemaker.currView = v + 1 ∧
          r'.repNodeChannel = r.repNodeChannel) := by
  have pushed := window.ofView_push (rfl : (c.vote block (v + 1) j).getViewNumber = v + 1)
  have leading : ¬r.Leading := by
    rw [member.leading_iff hc, hview]
    exact fun h => hne h.1
  refine handleMessage_replica hview.ge leading ?_
  have handled : replicaHandleMessage (c.vote block (v + 1) j) = replicaHandleVote := rfl
  simp only [handleSelected, handled, Yields.bind_iff, Yields.read_iff]
  refine (replicaHandleVote_yields member.push hc hview hi (pushed ▸ ballots)).mono ?_
  rintro _ r' (⟨voted, hids, rfl, rfl⟩ | ⟨hn, rfl, rfl⟩)
  · have hrole : Role.replica = .leader → v + 2 = v + 1 ∧ c.leader (v + 1 + 1) ≠ i := fun h => by cases h
    simp only [hview]
    refine Yields.mono (reply_yields hc member.nodeId member.replicaIds hrole) ?_
    rintro _ r' ⟨replied, hs, hl, ha, _⟩
    refine ⟨replied.messages, hs, hl, ha, ?_, .inl ⟨voted, hids, replied.currView, replied.sent⟩⟩
    rw [replied.voted]
    exact congrArg (ViewProgress.mk _) voted.symm
  · exact Yields.pure_iff.mpr ⟨rfl, rfl, rfl, rfl, rfl, .inr ⟨hn, hview, rfl⟩⟩

variable [BlockDigest]

-- Replicas that do not lead vote for the block of the next view.
theorem Follows.handleMessage_proposal (h : Follows blocks v r) (member : Member c i r) (hc : c.Sized)
    (chain : IsChain c blocks (v + 1)) (hview : r.pacemaker.currView = v + 1) (hne : i ≠ c.leader (v + 1))
    (hm : msg = .proposal (blocks (v + 1)) (v + 1) (c.leader (v + 1)) (v + 1)) :
    Yields (handleMessage order msg) r fun _ r' =>
      Follows blocks (v + 1) r' ∧ (r.messages.push msg).pruneBeforeView v = .ok r'.messages ∧
      r'.pacemaker.currView = v + 1 ∧ r'.viewProgress = { r.viewProgress with replicaHasVoted := true } ∧
      r'.repNodeChannel =
        r.repNodeChannel ++ [.toward i (c.leader (v + 2)) (c.vote (blocks (v + 1)) (v + 1) i)] := by
  subst hm
  have leading : ¬r.Leading := by
    rw [member.leading_iff hc, hview]
    exact fun h => hne h.1
  refine handleMessage_replica hview.ge leading ?_
  have hrole : Role.replica = .leader → c.leader (v + 2) ≠ i := fun h => by cases h
  exact Follows.handleProposal h.push member.push hc chain hview hrole

omit [BlockDigest] in
-- What a leader makes of its transactions is the next block.
theorem Certificate.createLeaf {qc : QuorumCertificate} {parent : Block} {transactions : List SignedTransaction}
    (h : Certificate c v parent qc)
    (valid : ∀ node : Block, node.transactions = transactions → validateBlockTransactions node = .ok true) :
    NextBlock c v parent (parent.createLeaf transactions (v + 1) qc) where
  parentId     := rfl
  viewNumber   := rfl
  merkleRoot   := rfl
  transactions := valid _ rfl
  justify      := h

theorem Follows.handleMessage_proposes (h : Follows blocks v r) (member : Member c i r) (hc : c.Sized)
    (chain : IsChain c blocks v) (hview : r.pacemaker.currView = v + 1) (hi : i = c.leader (v + 1))
    (hne : i ≠ c.leader (v + 2)) (fresh : r.viewProgress.leaderHasProposed = false) (window : r.messages.UpTo v)
    (hm : msg.getViewNumber = v) (certificate : Certificate c v (blocks v) r.genericQC)
    (enough : c.quorum ≤ (r.messages.ofView v ++ [msg]).countP (·.isNewViewFor v))
    (valid : ∀ mempool transactions, r.mempool.popNextN blockTransactionLength = .ok (mempool, transactions) →
      ∀ node : Block, node.transactions = transactions → validateBlockTransactions node = .ok true) :
    Yields (handleMessage order msg) r fun _ r' => ∃ node, NextBlock c v (blocks v) node ∧
      Follows (Function.update blocks (v + 1) node) (v + 1) r' ∧ r'.messages.UpTo (v + 1) ∧
      r'.pacemaker.currView = v + 1 ∧ r'.viewProgress.leaderHasProposed = true ∧
      r'.repNodeChannel = r.repNodeChannel ++ [.broadcast (.proposal node (v + 1) i (v + 1)),
        .toward i (c.leader (v + 2)) (c.vote node (v + 1) i)] := by
  have pushed := window.ofView_push hm
  have leading : r.Leading := (member.leading_iff hc).mpr ⟨by rw [hi, hview], fresh⟩
  refine handleMessage_leader (by omega) leading ?_
  refine (leaderHandleMessage_proposes member.push hc hview certificate h.push (pushed ▸ enough)).mono ?_
  rintro _ r' ⟨mempool, transactions, node, hpop, hnode, rfl, rfl⟩
  have next : NextBlock c v (blocks v) node := hnode ▸ certificate.createLeaf (valid mempool transactions hpop)
  have chain' := chain.snoc next
  have same : ∀ w ≤ v, Function.update blocks (v + 1) node w = blocks w := fun w hw =>
    Function.update_of_ne (by omega) _ _
  have follows := h.congr same
  have newest : Function.update blocks (v + 1) node (v + 1) = node := Function.update_self ..
  -- The leader has its own block in the store before it takes it up.
  have announced : Follows (Function.update blocks (v + 1) node) v (announce (.proposal node (v + 1) i (v + 1))
      { (HotStuffReplica.store { r with messages := r.messages.push msg } node) with mempool }) := by
    refine ⟨fun w hw hv => ?_, follows.locked, follows.applied⟩
    refine follows.store_lookup (fun he => ?_) hw hv
    have := chain'.hash_inj (by omega) le_rfl (he.trans (congrArg _ newest.symm))
    omega
  have hrole : Role.leader = .leader → c.leader (v + 2) ≠ i := fun _ => hne.symm
  have handled := announced.handleProposal ⟨member.1, member.2, member.3, member.4⟩ hc chain' hview hrole
  rw [newest, ← hi] at handled
  refine handled.mono ?_
  rintro _ r' ⟨follows', hp, hview', progress, sent⟩
  refine ⟨node, next, follows', ?_, hview', ?_, ?_⟩
  · exact ((window.push hm.le).succ.push le_rfl).prune (Nat.le_succ v) hp
  · rw [progress]
    rfl
  · rw [sent]
    simp [announce, HotStuffReplica.store]

end Effects

end Superliquid

import Superliquid.Hotstuff.Theorems.Trust
import Superliquid.Hotstuff.Theorems.Window
import Superliquid.Lib.Voting

namespace Superliquid

open HotStuffReplica

section Threshold

variable {r : HotStuffReplica}

theorem HotStuffReplica.quorumThreshold_eq (h : 1 ≤ r.validatorSet.card) :
    r.quorumThreshold = .ok (2 * ((r.validatorSet.card - 1) / 3) + 1) := by
  simp [quorumThreshold, Checked.sub_eq_ok h, bind, Except.bind, pure, Except.pure]

-- Any two sets of validators that are large enough to certify something share more than a third.
def HotStuffReplica.QuorumsMeet (r : HotStuffReplica) : Prop :=
  ∀ quorum, r.quorumThreshold = .ok quorum →
    ∀ s ⊆ r.validatorSet, ∀ s' ⊆ r.validatorSet, quorum ≤ s.card → quorum ≤ s'.card →
      (r.validatorSet.card - 1) / 3 + 1 ≤ (s ∩ s').card

theorem quorumsMeet_iff (r : HotStuffReplica) (h : 1 ≤ r.validatorSet.card) :
    r.QuorumsMeet ↔ r.validatorSet.card % 3 = 1 := by
  simp only [QuorumsMeet, quorumThreshold_eq h, Except.ok.injEq, forall_eq']
  rw [Voting.card_inter_iff (by omega)]
  omega

theorem quorumsMeet_iff_four :
    ∃ (_ : Sha256) (_ : Ed25519) (c : Config), c.numValidators = 4 ∧ (HotStuffReplica.new c 0).QuorumsMeet := by
  refine ⟨.encoding, .encoding, .ofSize 4, rfl, ?_⟩
  exact (quorumsMeet_iff _ (by decide)).mpr (by decide)

-- Each of two validators is a quorum of its own.
theorem not_quorumsMeet_two :
    ∃ (_ : Sha256) (_ : Ed25519) (c : Config), c.numValidators = 2 ∧ ¬(HotStuffReplica.new c 0).QuorumsMeet := by
  refine ⟨.encoding, .encoding, .ofSize 2, rfl, fun h => ?_⟩
  have := h 1 (by decide) {⟨0⟩} (by decide) {⟨1⟩} (by decide) (by decide) (by decide)
  revert this
  decide

end Threshold

variable [Sha256] [Ed25519]

-- A vote of `pk` for the block with the hash `blockHash`, with a signature that is valid.
def HotStuffMessage.votes (pk : VerifyingKey) (blockHash : BlockHash) : HotStuffMessage → Bool
  | vote node partialSig view _ _ =>
    partialSig.signerId = pk ∧ node.hash = blockHash ∧
      Ed25519.verifyStrict pk (voteHash view node.hash) partialSig.signature = true
  | _ => false

theorem HotStuffMessage.hash_of_votes {msg : HotStuffMessage} {pk : VerifyingKey} {blockHash : BlockHash}
    (h : msg.votes pk blockHash) : msg.hash = voteHash msg.getViewNumber blockHash := by
  cases msg <;> simp [votes] at h
  case vote => simp [HotStuffMessage.hash, getViewNumber, h.2.1]

-- The validators with a valid vote for the block.
def voters (validatorSet : Finset VerifyingKey) (msgs : List HotStuffMessage) (blockHash : BlockHash) :
    Finset VerifyingKey :=
  validatorSet.filter fun pk => ∃ msg ∈ msgs, msg.votes pk blockHash

theorem voters_mono {validatorSet : Finset VerifyingKey} {msgs msgs' : List HotStuffMessage} {blockHash : BlockHash}
    (h : ∀ msg ∈ msgs, msg ∈ msgs' ∨ ¬msg.IsVote) :
    voters validatorSet msgs blockHash ⊆ voters validatorSet msgs' blockHash := by
  intro pk hpk
  have ⟨hk, msg, hm, hv⟩ := Finset.mem_filter.mp hpk
  refine Finset.mem_filter.mpr ⟨hk, msg, (h msg hm).resolve_right fun hn => ?_, hv⟩
  cases msg
  case vote     => exact hn trivial
  case proposal => cases hv
  case newView  => cases hv

section Tally

variable {validatorSet : Finset VerifyingKey} {msgs : List HotStuffMessage} {msg : HotStuffMessage} {t : Tally}
         {view : Nat}

-- A message is left out, or it is the first valid vote of a validator.
inductive Tallies (validatorSet : Finset VerifyingKey) (t : Tally) (msg : HotStuffMessage) : Tally → Prop
  | skipped :
    (∀ pk ∈ validatorSet, ∀ blockHash, msg.votes pk blockHash → pk.bytes ∈ t.seen) →
    Tallies validatorSet t msg t
  | counted {sig : PartialSig} {blockHash : BlockHash} :
    (msg.votes sig.signerId blockHash) →
    (∀ pk blockHash, msg.votes pk blockHash → pk = sig.signerId) →
    Tallies validatorSet t msg {
      seen := sig.signerId.bytes :: t.seen
      sigs := t.sigs.insert (blockHash, msg.hash) ((t.sigs.lookup (blockHash, msg.hash)).getD [] ++ [sig]) }

theorem tallyVote_tallies (validatorSet : Finset VerifyingKey) (t : Tally) (msg : HotStuffMessage) :
    Tallies validatorSet t msg (tallyVote validatorSet t msg) := by
  unfold tallyVote
  split
  case h_2 hn =>
    refine .skipped fun pk _ blockHash h => ?_
    cases msg <;> simp [HotStuffMessage.votes] at h
    case vote => exact (hn _ _ _ _ _ rfl).elim
  case h_1 node partialSig view sender sv =>
    have signer : ∀ {pk blockHash}, (HotStuffMessage.vote node partialSig view sender sv).votes pk blockHash →
        pk = partialSig.signerId ∧ Ed25519.verifyStrict pk (voteHash view node.hash) partialSig.signature = true := by
      intro pk blockHash h
      simp only [HotStuffMessage.votes, decide_eq_true_eq] at h
      exact ⟨h.1.symm, h.2.2⟩
    dsimp only
    split
    case isTrue hk => exact .skipped fun pk hpk _ h => absurd ((signer h).1 ▸ hpk) hk
    split
    case isTrue hk hv => exact .skipped fun pk _ _ h => absurd ((signer h).1 ▸ (signer h).2) hv
    split
    case isTrue hs => exact .skipped fun pk _ _ h => (signer h).1 ▸ hs
    case isFalse hv _ =>
      refine .counted ?_ fun _ _ h => (signer h).1
      simpa [HotStuffMessage.votes, HotStuffMessage.hash] using hv

-- What the tally says about the messages that went into it.
structure Tallied (validatorSet : Finset VerifyingKey) (msgs : List HotStuffMessage) (t : Tally) : Prop where
  seen     : ∀ msg ∈ msgs, ∀ pk ∈ validatorSet, ∀ blockHash, msg.votes pk blockHash → pk.bytes ∈ t.seen
  recorded : ∀ pk : VerifyingKey, pk.bytes ∈ t.seen →
    ∃ key sigs, t.sigs.lookup key = some sigs ∧ pk ∈ sigs.map PartialSig.signerId
  votes    : ∀ key sigs, t.sigs.lookup key = some sigs → ∀ sig ∈ sigs,
    ∃ msg ∈ msgs, msg.hash = key.2 ∧ msg.votes sig.signerId key.1

theorem Tallied.step (h : Tallied validatorSet msgs t) :
    Tallied validatorSet (msgs ++ [msg]) (tallyVote validatorSet t msg) := by
  have earlier : ∀ {key sigs}, t.sigs.lookup key = some sigs → ∀ sig ∈ sigs,
      ∃ msg' ∈ msgs ++ [msg], msg'.hash = key.2 ∧ msg'.votes sig.signerId key.1 := by
    intro key sigs hs sig hm
    have ⟨msg', hm', hv⟩ := h.votes key sigs hs sig hm
    exact ⟨msg', List.mem_append_left _ hm', hv⟩
  have tallies := tallyVote_tallies validatorSet t msg
  generalize tallyVote validatorSet t msg = t' at tallies
  cases tallies
  case skipped hs =>
    refine ⟨fun msg' hm => ?_, h.recorded, fun _ _ => earlier⟩
    rcases List.mem_append.mp hm with hm | hm
    · exact h.seen msg' hm
    · exact List.mem_singleton.mp hm ▸ hs
  case counted sig blockHash hv hn =>
    refine ⟨fun msg' hm pk hpk b hb => ?_, fun pk hpk => ?_, fun key sigs hs => ?_⟩
    · rcases List.mem_append.mp hm with hm | hm
      · exact List.mem_cons_of_mem _ (h.seen msg' hm pk hpk b hb)
      · exact hn pk b (List.mem_singleton.mp hm ▸ hb) ▸ List.mem_cons_self
    · by_cases he : pk.bytes = sig.signerId.bytes
      case pos =>
        refine ⟨_, _, AList.lookup_insert _, ?_⟩
        cases pk
        simp_all
      case neg =>
        have ⟨key, sigs, hl, hm⟩ := h.recorded pk ((List.mem_cons.mp hpk).resolve_left he)
        by_cases hk : key = (blockHash, msg.hash)
        case pos =>
          subst hk
          refine ⟨_, _, AList.lookup_insert _, ?_⟩
          rw [hl, List.map_append]
          exact List.mem_append_left _ hm
        case neg => exact ⟨key, sigs, (AList.lookup_insert_ne hk).trans hl, hm⟩
    · rcases Map.lookup_insert_iff.mp hs with ⟨rfl, rfl⟩ | ⟨_, hs⟩
      · intro sig' hm
        rcases List.mem_append.mp hm with hm | hm
        · cases hl : t.sigs.lookup (blockHash, msg.hash)
          case none      => simp [hl] at hm
          case some sigs => exact earlier hl sig' (by simpa [hl] using hm)
        · exact ⟨msg, by simp, rfl, List.mem_singleton.mp hm ▸ hv⟩
      · exact earlier hs

theorem tallied_foldl (msgs : List HotStuffMessage) :
    Tallied validatorSet msgs (msgs.foldl (tallyVote validatorSet) { seen := [], sigs := ∅ }) := by
  induction msgs using List.reverseRecOn
  case nil => exact ⟨by simp, by simp, by simp⟩
  case append_singleton msgs msg hi =>
    rw [List.foldl_append]
    exact hi.step

-- In a bucket of one view the key of an entry is determined by the block.
theorem Tallied.hash_eq (h : Tallied validatorSet msgs t) (hv : ∀ msg ∈ msgs, msg.getViewNumber = view)
    {key : BlockHash × Sha256Hash} {sigs : List PartialSig} (hs : t.sigs.lookup key = some sigs) (hne : sigs ≠ []) :
    key.2 = voteHash view key.1 := by
  have ⟨sig, hm⟩ := List.exists_mem_of_ne_nil _ hne
  have ⟨msg, hmsg, hh, hvotes⟩ := h.votes key sigs hs sig hm
  rw [← hh, HotStuffMessage.hash_of_votes hvotes, hv msg hmsg]

-- Nobody has valid votes for two blocks.
def Undivided (validatorSet : Finset VerifyingKey) (msgs : List HotStuffMessage) : Prop :=
  ∀ pk b b', pk ∈ voters validatorSet msgs b → pk ∈ voters validatorSet msgs b' → b = b'

-- All voters of a block end up in the same entry.
theorem Tallied.exists_entry (h : Tallied validatorSet msgs t) (hv : ∀ msg ∈ msgs, msg.getViewNumber = view)
    (hk : SoundTally validatorSet t) (hu : Undivided validatorSet msgs) {blockHash : BlockHash}
    (hne : (voters validatorSet msgs blockHash).Nonempty) :
    ∃ key sigs, t.sigs.lookup key = some sigs ∧ (voters validatorSet msgs blockHash).card ≤ sigs.length := by
  have entry : ∀ pk ∈ voters validatorSet msgs blockHash, ∃ sigs,
      t.sigs.lookup (blockHash, voteHash view blockHash) = some sigs ∧ pk ∈ sigs.map PartialSig.signerId := by
    intro pk hpk
    have ⟨hvalid, msg, hm, hvotes⟩ := Finset.mem_filter.mp hpk
    have ⟨key, sigs, hl, hmem⟩ := h.recorded pk (h.seen msg hm pk hvalid blockHash hvotes)
    have ⟨sig, hsig, he⟩ := List.mem_map.mp hmem
    have hkey := h.hash_eq hv hl (List.ne_nil_of_mem hsig)
    have ⟨msg', hm', _, hvotes'⟩ := h.votes key sigs hl sig hsig
    have hb := hu pk blockHash key.1 hpk (Finset.mem_filter.mpr ⟨hvalid, msg', hm', he ▸ hvotes'⟩)
    refine ⟨sigs, ?_, hmem⟩
    rw [hb, ← hkey]
    exact hl
  have ⟨pk, hpk⟩ := hne
  have ⟨sigs, hl, _⟩ := entry pk hpk
  refine ⟨_, sigs, hl, ?_⟩
  rw [← List.length_map PartialSig.signerId, ← List.toFinset_card_of_nodup (hk _ sigs hl).distinct]
  refine Finset.card_le_card fun pk hpk => ?_
  have ⟨_, hl', hm⟩ := entry pk hpk
  cases hl.symm.trans hl'
  exact List.mem_toFinset.mpr hm

end Tally

theorem tryCreateQCForView_of_entry {r : HotStuffReplica} {order : TallyOrder} {view quorum : Nat}
    {msgs : List HotStuffMessage} {key : BlockHash × Sha256Hash} {sigs : List PartialSig}
    (hm : r.messages.getMessagesForView view = .ok (some msgs)) (hq : r.quorumThreshold = .ok quorum)
    (hs : (msgs.foldl (tallyVote r.validatorSet) { seen := [], sigs := ∅ }).sigs.lookup key = some sigs)
    (hpos : 1 ≤ quorum) (hlen : quorum ≤ sigs.length) :
    ∃ qc, r.tryCreateQCForView order view = .ok (some qc) := by
  have hmem := (order.perm _).mem_iff.mpr (AList.mem_lookup_iff.mp hs)
  unfold tryCreateQCForView
  rw [hm, Checked.ok_bind]
  dsimp only
  rw [hq, Checked.ok_bind]
  split
  case h_1 hfind => simpa [hlen] using List.find?_eq_none.mp hfind _ hmem
  case h_2 b h sigs' hfind =>
    have hlen' : quorum ≤ sigs'.length := by simpa using List.find?_some hfind
    have hne : sigs' ≠ [] := List.ne_nil_of_length_pos (hpos.trans hlen')
    simp [QuorumCertificate.fromSignatures, hne, Functor.map, Except.map]

-- The certificate is made of valid votes for its block, by different validators.
structure Sound (r : HotStuffReplica) (view quorum : Nat) (qc : QuorumCertificate) : Prop where
  viewNumber : qc.viewNumber = view
  signers    : quorum ≤ (qc.partialSigs.map PartialSig.signerId).toFinset.card
  known      : ∀ sig ∈ qc.partialSigs, sig.signerId ∈ r.validatorSet
  valid      : ∀ sig ∈ qc.partialSigs,
    Ed25519.verifyStrict sig.signerId (voteHash view qc.blockHash) sig.signature = true
  verify     : qc.verify r.validatorSet quorum = true

-- A certificate is made of a quorum of votes.
theorem tryCreateQCForView_voters {r : HotStuffReplica} {order : TallyOrder} {view : Nat} {qc : QuorumCertificate}
    (h : r.tryCreateQCForView order view = .ok (some qc)) :
    ∃ quorum, r.quorumThreshold = .ok quorum ∧ 1 ≤ quorum ∧
      quorum ≤ (voters r.validatorSet (r.messages.ofView view) qc.blockHash).card := by
  have ⟨msgs, quorum, hm, hq, _, hlen, hs⟩ := tryCreateQCForView_some h
  have collected := soundTally_foldl msgs _ _ hs
  refine ⟨quorum, hq, ?_, ?_⟩
  · simp only [quorumThreshold, Checked.bind_ok, Checked.pure_ok] at hq
    have ⟨_, _, hq⟩ := hq
    omega
  · rw [← List.length_map PartialSig.signerId, ← List.toFinset_card_of_nodup collected.distinct] at hlen
    refine hlen.trans (Finset.card_le_card fun pk hpk => ?_)
    have ⟨sig, hsig, he⟩ := List.mem_map.mp (List.mem_toFinset.mp hpk)
    have ⟨msg, hmsg, _, hv⟩ := (tallied_foldl msgs).votes _ _ hs sig hsig
    subst he
    exact Finset.mem_filter.mpr ⟨collected.known sig hsig, msg, (MessageWindow.ofView_eq hm).symm ▸ hmsg, hv⟩

theorem tryCreateQCForView_sound {r : HotStuffReplica} {order : TallyOrder} {view quorum : Nat}
    {qc : QuorumCertificate} (hv : ∀ msg ∈ r.messages.ofView view, msg.getViewNumber = view)
    (hq : r.quorumThreshold = .ok quorum) (hpos : 1 ≤ quorum)
    (h : r.tryCreateQCForView order view = .ok (some qc)) : Sound r view quorum qc := by
  have ⟨msgs, quorum', hm, hq', hview, hlen, hs⟩ := tryCreateQCForView_some h
  cases hq.symm.trans hq'
  rw [MessageWindow.ofView_eq hm] at hv
  have collected := soundTally_foldl msgs _ _ hs
  have hne : qc.partialSigs ≠ [] := List.ne_nil_of_length_pos (hpos.trans hlen)
  have hh := (tallied_foldl msgs).hash_eq hv hs hne
  exact {
    viewNumber := hview
    signers    := by rwa [List.toFinset_card_of_nodup collected.distinct, List.length_map]
    known      := collected.known
    valid      := fun sig hsig => hh ▸ collected.valid sig hsig
    verify     := tryCreateQCForView_verify h hq }

-- A block has its quorum. Then the certificate is there, unless the lookup of the messages overflows.
theorem tryCreateQCForView_complete {r : HotStuffReplica} {order : TallyOrder} {view quorum : Nat}
    {blockHash : BlockHash} (hv : ∀ msg ∈ r.messages.ofView view, msg.getViewNumber = view)
    (hq : r.quorumThreshold = .ok quorum) (hpos : 1 ≤ quorum)
    (hu : Undivided r.validatorSet (r.messages.ofView view))
    (hb : quorum ≤ (voters r.validatorSet (r.messages.ofView view) blockHash).card) :
    (∃ qc, r.tryCreateQCForView order view = .ok (some qc)) ↔
      r.messages.lowestView + r.messages.messages.length < 2 ^ 64 := by
  have hne := Finset.card_pos.mp (hpos.trans hb)
  -- There is an entry for the view, otherwise there would be no votes.
  have hlow : r.messages.lowestView ≤ view := by
    by_contra hlow
    simp [MessageWindow.ofView, Nat.not_le.mp hlow, voters] at hne
  constructor
  · rintro ⟨qc, h⟩
    obtain ⟨_, _, hm, _⟩ := tryCreateQCForView_some h
    by_contra hfull
    rw [MessageWindow.getMessagesForView_eq hlow, if_neg hfull] at hm
    cases hm
  · intro hroom
    have hm := MessageWindow.getMessagesForView_eq hlow
    rw [if_pos hroom] at hm
    cases he : r.messages.messages[view - r.messages.lowestView]?
    case none => simp [MessageWindow.ofView, Nat.not_lt.mpr hlow, he, voters] at hne
    case some msgs =>
      rw [he] at hm
      rw [MessageWindow.ofView_eq hm] at hv hu hb hne
      obtain ⟨key, sigs, hs, hlen⟩ := (tallied_foldl msgs).exists_entry hv (soundTally_foldl msgs) hu hne
      exact tryCreateQCForView_of_entry hm hq hs hpos (hb.trans hlen)

theorem tryCreateQCForView_sound_complete (r : HotStuffReplica) (order : TallyOrder) (view : Nat)
    (hv : ∀ msg ∈ r.messages.ofView view, msg.getViewNumber = view) (hn : 1 ≤ r.validatorSet.card) :
    ∃ quorum, r.quorumThreshold = .ok quorum ∧
      (∀ qc, r.tryCreateQCForView order view = .ok (some qc) → Sound r view quorum qc) ∧
      (Undivided r.validatorSet (r.messages.ofView view) →
        (∃ blockHash, quorum ≤ (voters r.validatorSet (r.messages.ofView view) blockHash).card) →
        ((∃ qc, r.tryCreateQCForView order view = .ok (some qc)) ↔
          r.messages.lowestView + r.messages.messages.length < 2 ^ 64)) := by
  have hq := quorumThreshold_eq hn
  refine ⟨_, hq, fun qc h => tryCreateQCForView_sound hv hq (by omega) h, fun hu ⟨blockHash, hb⟩ => ?_⟩
  exact tryCreateQCForView_complete hv hq (by omega) hu hb

-- The votes of some validators, in the only view of the window.
def castVotes (c : Config) (view : Nat) (votes : List (Block × PeerId)) : HotStuffReplica :=
  { HotStuffReplica.new c 0 with
    messages := ⟨[votes.map fun (node, i) => .createVote node view i view (c.secretKey i)], view⟩ }

section

variable {c : Config} {view : Nat} {votes : List (Block × PeerId)}

theorem castVotes_ofView : (castVotes c view votes).messages.ofView view =
    votes.map fun (node, i) => .createVote node view i view (c.secretKey i) := by
  simp [castVotes, MessageWindow.ofView]

theorem castVotes_getViewNumber :
    ∀ msg ∈ (castVotes c view votes).messages.ofView view, msg.getViewNumber = view := by
  intro msg hm
  rw [castVotes_ofView] at hm
  obtain ⟨x, _, rfl⟩ := List.mem_map.mp hm
  rfl

-- Nobody votes for two blocks if no key does.
theorem castVotes_undivided (h : ∀ x ∈ votes, ∀ y ∈ votes,
    Ed25519.verifyingKey (c.secretKey x.2) = Ed25519.verifyingKey (c.secretKey y.2) → x.1.hash = y.1.hash) :
    Undivided (castVotes c view votes).validatorSet ((castVotes c view votes).messages.ofView view) := by
  have signed {pk : VerifyingKey} {b : BlockHash} (hpk : pk ∈ voters (castVotes c view votes).validatorSet
      ((castVotes c view votes).messages.ofView view) b) :
      ∃ x ∈ votes, Ed25519.verifyingKey (c.secretKey x.2) = pk ∧ x.1.hash = b := by
    rw [castVotes_ofView] at hpk
    obtain ⟨msg, hm, hv⟩ := (Finset.mem_filter.mp hpk).2
    obtain ⟨x, hx, rfl⟩ := List.mem_map.mp hm
    simp only [HotStuffMessage.createVote, HotStuffMessage.votes, decide_eq_true_eq] at hv
    exact ⟨x, hx, hv.1, hv.2.1⟩
  intro pk b b' hb hb'
  obtain ⟨x, hx, hxk, rfl⟩ := signed hb
  obtain ⟨y, hy, hyk, rfl⟩ := signed hb'
  exact h x hx y hy (hxk.trans hyk.symm)

theorem castVotes_voters {block : Block} {i : PeerId} (hx : (block, i) ∈ votes) (hn : i < c.numValidators) :
    c.publicKey i ∈ voters (castVotes c view votes).validatorSet
      ((castVotes c view votes).messages.ofView view) block.hash := by
  refine Finset.mem_filter.mpr ⟨?_, ?_⟩
  · exact Finset.mem_image.mpr ⟨i, Finset.mem_range.mpr hn, rfl⟩
  · rw [castVotes_ofView]
    refine ⟨_, List.mem_map_of_mem hx, ?_⟩
    simp [HotStuffMessage.createVote, HotStuffMessage.votes, UnsignedVote.hash, ← c.checked i hn,
      Ed25519.verify_sign]

end

-- Three of four validators vote for the genesis block, one of them twice, and the last one for another block.
def splitVotes (c : Config) : HotStuffReplica :=
  castVotes c 1 [
    (createGenesisBlock, 0), (createGenesisBlock, 1), (.createLeaf createGenesisBlock [] 1 .createGenesisQC, 3),
    (createGenesisBlock, 0), (createGenesisBlock, 2)
  ]

omit [Sha256] [Ed25519] in
theorem splitVotes_certified :
    ∃ (_ : Sha256) (_ : Ed25519) (c : Config) (qc : QuorumCertificate),
      (splitVotes c).tryCreateQCForView .inserted 1 = .ok (some qc) ∧ Sound (splitVotes c) 1 3 qc := by
  let _ := Sha256.encoding
  let _ := Ed25519.encoding
  obtain ⟨quorum, hq, sound, complete⟩ := tryCreateQCForView_sound_complete (splitVotes (.ofSize 4)) .inserted 1
    castVotes_getViewNumber (by decide)
  obtain rfl : quorum = 3 := by
    rw [quorumThreshold_eq (by decide)] at hq
    cases hq
    decide
  have undivided : Undivided (splitVotes (.ofSize 4)).validatorSet ((splitVotes (.ofSize 4)).messages.ofView 1) :=
    castVotes_undivided (by decide +kernel)
  obtain ⟨qc, h⟩ := (complete undivided ⟨createGenesisBlock.hash, by decide +kernel⟩).mpr (by decide)
  exact ⟨.encoding, .encoding, .ofSize 4, qc, h, sound qc h⟩

-- The only validator has voted for the genesis block.
def soleVote (c : Config) (view : Nat) : HotStuffReplica :=
  castVotes c view [(createGenesisBlock, 0)]

theorem soleVote_voters {c : Config} {view : Nat} (hn : 0 < c.numValidators) : 1 ≤
    (voters (soleVote c view).validatorSet ((soleVote c view).messages.ofView view) createGenesisBlock.hash).card :=
  Finset.card_pos.mpr ⟨c.publicKey 0, castVotes_voters (List.mem_singleton_self _) hn⟩

-- The lookup of the last view there is overflows.
omit [Sha256] [Ed25519] in
theorem tryCreateQCForView_not_complete :
    ∃ (_ : Sha256) (_ : Ed25519) (c : Config) (view : Nat), view < 2 ^ 64 ∧
      let r := soleVote c view
      (∀ msg ∈ r.messages.ofView view, msg.getViewNumber = view) ∧ r.quorumThreshold = .ok 1 ∧
      Undivided r.validatorSet (r.messages.ofView view) ∧
      1 ≤ (voters r.validatorSet (r.messages.ofView view) createGenesisBlock.hash).card ∧
      r.tryCreateQCForView .inserted view = .error .overflow := by
  refine ⟨.encoding, .encoding, .ofSize 1, 2 ^ 64 - 1, by decide, ?_⟩
  let _ := Sha256.encoding
  let _ := Ed25519.encoding
  exact ⟨castVotes_getViewNumber, rfl, castVotes_undivided (by simp), soleVote_voters (by decide), rfl⟩

end Superliquid

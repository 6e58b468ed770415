import Superliquid.Hotstuff.Theorems.Provenance

namespace Superliquid

open HotStuffReplica ReplicaM Handler

-- The new-view messages of a view, in the order in which they came in.
def newViewsFor (view : Nat) (msgs : List HotStuffMessage) : List HotStuffMessage :=
  msgs.filter (·.isNewViewFor view)

theorem Held.newViews {log : List HotStuffMessage} {r : HotStuffReplica} (h : Held log r) (view : Nat) :
    (newViewsFor view (r.messages.ofView view)).Sublist (newViewsFor view log) := by
  have counted := (h view).filter (·.isNewViewFor view)
  rw [List.filter_filter, sentFor, List.filter_filter] at counted
  convert counted using 1
  all_goals
    refine List.filter_congr fun msg _ => ?_
    cases msg <;> simp [HotStuffMessage.isNewViewFor, HotStuffMessage.asProposal, HotStuffMessage.getViewNumber]

variable [Sha256] [Ed25519]

namespace Inbox

-- A quorum of validators has sent new-view messages of `view` that are in the window of `r`.
def RealQuorum (s : Inbox) (c : Config) (r : HotStuffReplica) (view : Nat) : Prop :=
  ∃ senders : Finset PeerId, (∃ quorum, r.quorumThreshold = .ok quorum ∧ quorum ≤ senders.card) ∧
    ∀ i ∈ senders, i < c.numValidators ∧
      ∃ msg ∈ r.messages.ofView view, msg.isNewViewFor view ∧ (i, msg) ∈ s.log

-- Whenever the handler of a leader returns a proposal, it has such a quorum for the last view.
def ProposesOnQuorum (s : Inbox) (c : Config) (e : PeerId × Event) : Prop :=
  ∀ msg order r m r', e.2 = .hotStuff msg order → receive msg s.task.replica = (.ok (), r) →
    leaderHandleMessage order r = (.ok (some m), r') → (s.step e).RealQuorum c r (r.pacemaker.currView - 1)

-- A new-view message comes from a validator that has not sent one for that view before.
def FirstNewView (c : Config) (s : Inbox) (e : PeerId × Event) : Prop :=
  ∀ msg ∈ e.2.inbound, msg.isNewViewFor msg.getViewNumber →
    e.1 < c.numValidators ∧ ∀ x ∈ s.log, x.1 = e.1 → ¬x.2.isNewViewFor msg.getViewNumber

instance {c : Config} {s : Inbox} {e : PeerId × Event} : Decidable (FirstNewView c s e) :=
  inferInstanceAs (Decidable (∀ msg ∈ e.2.inbound, _))

end Inbox

-- The validators that have sent new-view messages of a view, in order.
def newViewSenders (view : Nat) (log : List (PeerId × HotStuffMessage)) : List PeerId :=
  (log.filter (·.2.isNewViewFor view)).map Prod.fst

structure NewViewsInvariant (c : Config) (s : Inbox) : Prop where
  held     : Held (s.log.map Prod.snd) s.task.replica
  distinct : ∀ view, (newViewSenders view s.log).Nodup
  sender   : ∀ view, ∀ i ∈ newViewSenders view s.log, i < c.numValidators

open Inbox

variable {c : Config} {s : Inbox} {e : PeerId × Event}

omit [Sha256] [Ed25519] in
theorem isNewViewFor_getViewNumber {msg : HotStuffMessage} {view : Nat} (h : msg.isNewViewFor view) :
    view = msg.getViewNumber := by
  cases msg <;> simp_all [HotStuffMessage.isNewViewFor, HotStuffMessage.getViewNumber]

theorem newViewSenders_step (hc : FirstNewView c s e) (view : Nat) :
    newViewSenders view (s.step e).log = newViewSenders view s.log ∨
    newViewSenders view (s.step e).log = newViewSenders view s.log ++ [e.1] ∧
      e.1 < c.numValidators ∧ e.1 ∉ newViewSenders view s.log := by
  cases he : e.2
  case transaction => simp [newViewSenders, Inbox.step, he, Event.inbound, Event.delivered]
  case timeout     => simp [newViewSenders, Inbox.step, he, Event.inbound, Event.delivered]
  case hotStuff msg order =>
    by_cases hm : msg.isNewViewFor view
    case neg => simp [newViewSenders, Inbox.step, he, Event.inbound, Event.delivered, hm]
    case pos =>
      have hview := isNewViewFor_getViewNumber hm
      subst hview
      obtain ⟨hlt, hfirst⟩ := hc msg (by simp [he, Event.inbound, Event.delivered]) hm
      refine .inr ⟨by simp [newViewSenders, Inbox.step, he, Event.inbound, Event.delivered, hm], hlt, ?_⟩
      simp only [newViewSenders, List.mem_map, List.mem_filter, not_exists, not_and]
      rintro x ⟨hx, hv⟩ hi
      exact hfirst x hx hi hv

theorem NewViewsInvariant.step (h : NewViewsInvariant c s) (hc : FirstNewView c s e) :
    NewViewsInvariant c (s.step e) := by
  refine ⟨?_, fun view => ?_, fun view i hi => ?_⟩
  · exact h.held.inbox
  · rcases newViewSenders_step hc view with hs | ⟨hs, _, hn⟩ <;> rw [hs]
    · exact h.distinct view
    · rw [List.nodup_append_comm]
      exact List.nodup_cons.mpr ⟨hn, h.distinct view⟩
  · rcases newViewSenders_step hc view with hs | ⟨hs, hlt, _⟩ <;> rw [hs] at hi
    · exact h.sender view i hi
    · rcases List.mem_append.mp hi with hi | hi
      · exact h.sender view i hi
      · rw [List.mem_singleton.mp hi]
        exact hlt

omit [Sha256] in
-- The messages that are counted come from as many different validators.
theorem NewViewsInvariant.realQuorum {r : HotStuffReplica} {msgs : List HotStuffMessage} {quorum : Nat}
    (h : NewViewsInvariant c s) (hr : Held (s.log.map Prod.snd) r) (hn : r.OnNewView msgs quorum) :
    s.RealQuorum c r (r.pacemaker.currView - 1) := by
  have held := hr.newViews (r.pacemaker.currView - 1)
  have hmsgs := MessageWindow.ofView_eq hn.messages
  have henough := hn.enough
  generalize r.pacemaker.currView - 1 = view at *
  rw [hmsgs, newViewsFor, newViewsFor, List.filter_map, List.sublist_map_iff] at held
  have ⟨sent, hsub, hcounted⟩ := held
  have nodup : (sent.map Prod.fst).Nodup := (h.distinct view).sublist (hsub.map Prod.fst)
  refine ⟨(sent.map Prod.fst).toFinset, ⟨quorum, hn.threshold, ?_⟩, fun i hi => ?_⟩
  · have hcount := congrArg List.length hcounted
    rw [List.toFinset_card_of_nodup nodup, List.length_map]
    rw [List.length_map, ← List.countP_eq_length_filter] at hcount
    exact hcount ▸ henough
  · have ⟨x, hx, hxi⟩ := List.mem_map.mp (List.mem_toFinset.mp hi)
    have ⟨hlog, hv⟩ := List.mem_filter.mp (hsub.subset hx)
    refine ⟨h.sender view i (List.mem_map.mpr ⟨x, hsub.subset hx, hxi⟩), x.2, ?_, hv, ?_⟩
    · rw [hmsgs]
      have : x.2 ∈ msgs.filter (·.isNewViewFor view) := hcounted ▸ List.mem_map_of_mem hx
      exact (List.mem_filter.mp this).1
    · rw [← hxi]
      exact hlog

theorem proposesOnQuorum_of_firstNewView {nodeId : PeerId} {es : List (PeerId × Event)}
    (h : Steps (Guarded Inbox.step (FirstNewView c)) (.new c nodeId) es s) (hc : FirstNewView c s e) :
    s.ProposesOnQuorum c e := by
  have start : NewViewsInvariant c (.new c nodeId) := by
    refine ⟨.new, ?_, ?_⟩ <;> simp [Inbox.new, newViewSenders]
  have inv := h.guarded_invariant start fun hc hi => hi.step hc
  intro msg order r m r' he hr hl
  have held := inv.held.receive hr
  obtain ⟨msgs, quorum, hn⟩ := (leaderHandleMessage_leads hl).onNewView
  refine (inv.step hc).realQuorum ?_ hn
  simpa [Inbox.step, he, Event.inbound, Event.delivered] using held

-- New-view messages of the first view reach the leader of the second, from the given peers.
def newViewsFrom (peers : List PeerId) : List (PeerId × Event) :=
  (1, .timeout) :: peers.map fun i => (i, .deliver (.newView .createGenesisQC 0 i 0))

def proposesOn (s : Inbox) (e : PeerId × Event) : Bool :=
  match e.2 with
  | .hotStuff msg order =>
    match receive msg s.task.replica with
    | (.ok (), r) => (leaderHandleMessage order r).1.toOption.join.isSome
    | _           => false
  | _ => false

theorem proposesOn_elim (h : proposesOn s e) :
    ∃ msg order r m r', e.2 = .hotStuff msg order ∧ receive msg s.task.replica = (.ok (), r) ∧
      leaderHandleMessage order r = (.ok (some m), r') := by
  unfold proposesOn at h
  split at h
  case h_2 => contradiction
  case h_1 msg order he =>
    split at h
    case h_2 => contradiction
    case h_1 r hr =>
      rcases hl : leaderHandleMessage order r with ⟨_ | _ | m, r'⟩
      · simp [hl, Except.toOption] at h
      · simp [hl, Except.toOption] at h
      · exact ⟨msg, order, r, m, r', he, hr, hl⟩

-- There is no quorum without as many peers that have sent anything.
theorem ProposesOnQuorum.le_card {quorum : Nat} (h : s.ProposesOnQuorum c e) (hp : proposesOn s e)
    (hq : s.task.replica.quorumThreshold = .ok quorum) :
    quorum ≤ ((s.step e).log.map Prod.fst).toFinset.card := by
  have ⟨msg, order, r, m, r', he, hr, hl⟩ := proposesOn_elim hp
  have ⟨senders, ⟨q, hq', hle⟩, hs⟩ := h msg order r m r' he hr hl
  have hsame : r.quorumThreshold = s.task.replica.quorumThreshold := by
    simp [quorumThreshold, (receive_idle hr).validatorSet]
  cases (hq'.symm.trans hsame).trans hq
  refine hle.trans (Finset.card_le_card fun i hi => ?_)
  have ⟨_, msg, _, _, hlog⟩ := hs i hi
  exact List.mem_toFinset.mpr (List.mem_map_of_mem hlog)

omit [Sha256] [Ed25519] in
theorem newViews_proposesOnQuorum :
    ∃ (_ : Sha256) (_ : Ed25519) (c : Config),
      let es := newViewsFrom [1, 2]
      let e := (3, .deliver (.newView .createGenesisQC 0 3 0))
      let s := es.foldl Inbox.step (.new c 1)
      Admits Inbox.step (FirstNewView c) (.new c 1) es ∧ FirstNewView c s e ∧ proposesOn s e ∧
      s.ProposesOnQuorum c e := by
  refine ⟨.encoding, .encoding, .ofSize 4, by decide +kernel, by decide +kernel, by decide +kernel, ?_⟩
  exact @proposesOnQuorum_of_firstNewView .encoding .encoding _ _ _ _ _ (Admits.steps (by decide +kernel))
    (by decide +kernel)

omit [Sha256] [Ed25519] in
-- One replica repeats its message until the leader has counted it often enough.
theorem repeatedNewViews_not_proposesOnQuorum :
    ∃ (_ : Sha256) (_ : Ed25519) (c : Config),
      let s := (newViewsFrom [2, 2]).foldl Inbox.step (.new c 1)
      let e := (2, .deliver (.newView .createGenesisQC 0 2 0))
      proposesOn s e ∧ ¬s.ProposesOnQuorum c e := by
  refine ⟨.encoding, .encoding, .ofSize 4, by decide +kernel, fun h => ?_⟩
  have hle := @ProposesOnQuorum.le_card .encoding .encoding _ _ _ 3 h (by decide +kernel) (by decide +kernel)
  revert hle
  decide +kernel

end Superliquid

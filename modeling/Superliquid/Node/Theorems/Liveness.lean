import Superliquid.Node.Theorems.Polling

namespace Superliquid
namespace Mesh

open HotStuffReplica ReplicaM Handler

variable [Sha256] [Ed25519] {c : Config} {m m' : Mesh} {blocks : Nat → Block} {v : Nat} {i j : PeerId}

-- The leader of the view after `view` can propose on top of `block` as soon as it is told to.
structure Ready (c : Config) (block : Block) (view : Nat) (r : HotStuffReplica) : Prop where
  fresh       : r.viewProgress.leaderHasProposed = false
  certificate : Certificate c view block r.genericQC
  ballots     : ∃ ids, Ballots c block view ids (r.messages.ofView view)

def newViews (m : Mesh) (leader : PeerId) (view : Nat) : Nat :=
  ((m.tasks leader).replica.messages.ofView view).countP (·.isNewViewFor view)

-- The validators whose timers have not run out.
def lagging (c : Config) (v : Nat) (m : Mesh) : Finset PeerId :=
  (Finset.range c.numValidators).filter fun i => (m.tasks i).replica.pacemaker.currView ≤ v

-- Between the rounds all messages have arrived, and the validators wait for their timers.
structure Rested (c : Config) (blocks : Nat → Block) (v : Nat) (m : Mesh) : Prop where
  chain   : IsChain c blocks v
  flight  : m.flight = []
  settled : ∀ i < c.numValidators, InStep c blocks v v i (m.tasks i).replica
  views   : ∀ i < c.numValidators, (m.tasks i).replica.pacemaker.currView = v ∨
    i = c.leader (v + 1) ∧ (m.tasks i).replica.pacemaker.currView = v + 1
  ready   : Ready c (blocks v) v (m.tasks (c.leader (v + 1))).replica
  few     : m.newViews (c.leader (v + 1)) v < c.quorum

-- All validators but for `late` have moved to the next view, and their new-view messages are on the way. If the leader
-- itself is late, it may find enough of them only when it gets its own.
structure Collecting (c : Config) (blocks : Nat → Block) (v : Nat) (late : Finset PeerId) (m : Mesh) : Prop where
  chain    : IsChain c blocks v
  settled  : ∀ i < c.numValidators, InStep c blocks v v i (m.tasks i).replica
  behind   : ∀ i ∈ late, i < c.numValidators ∧ (m.tasks i).replica.pacemaker.currView = v
  entered  : ∀ i < c.numValidators, i ∉ late → (m.tasks i).replica.pacemaker.currView = v + 1 ∧
    (i ≠ c.leader (v + 1) → (m.tasks i).replica.viewProgress = .reset)
  ready    : Ready c (blocks v) v (m.tasks (c.leader (v + 1))).replica
  mail     : ∀ x ∈ m.flight, ∃ justify sender, x = (c.leader (v + 1), .newView justify v sender v)
  few      : c.leader (v + 1) ∉ late → m.flight = [] → m.newViews (c.leader (v + 1)) v < c.quorum
  enough   : c.quorum ≤ m.newViews (c.leader (v + 1)) v + m.flight.length + late.card

theorem Rested.collecting (h : Rested c blocks v m) (hc : c.Sized) : Collecting c blocks v (m.lagging c v) m := by
  constructor
  case chain    => exact h.chain
  case settled  => exact h.settled
  case ready    => exact h.ready
  case mail     => simp [h.flight]
  case few      => exact fun _ _ => h.few
  case behind =>
    intro i hi
    simp only [lagging, Finset.mem_filter, Finset.mem_range] at hi
    have := h.views i hi.1
    exact ⟨hi.1, by omega⟩
  case entered =>
    intro i hi hn
    simp only [lagging, Finset.mem_filter, Finset.mem_range, not_and, Nat.not_le] at hn
    have := hn hi
    rcases h.views i hi with hv | ⟨he, hv⟩
    · omega
    · exact ⟨hv, fun hne => absurd he hne⟩
  case enough =>
    -- At most the next leader is not late.
    have others : (Finset.range c.numValidators).erase (c.leader (v + 1)) ⊆ m.lagging c v := by
      intro i hi
      have ⟨hne, hi⟩ := Finset.mem_erase.mp hi
      have hv := (h.views i (Finset.mem_range.mp hi)).resolve_right fun he => hne he.1
      exact Finset.mem_filter.mpr ⟨hi, hv.le⟩
    have := Finset.card_le_card others
    have := Finset.card_erase_add_one (Finset.mem_range.mpr (hc.leader_lt (v + 1)))
    have := hc.quorum_bounds
    rw [Finset.card_range] at *
    omega

namespace Collecting

variable {late : Finset PeerId} {rest : List (PeerId × HotStuffMessage)} {justify : QuorumCertificate}
         {sender : PeerId} {order : TallyOrder}

theorem transaction {txn : SignedTransaction} (h : Collecting c blocks v late m) (ht : txn.verifySender = .ok true) :
    Collecting c blocks v late (m.step c (.transaction i txn)) := by
  have leader : ∃ mempool, ((m.step c (.transaction i txn)).tasks (c.leader (v + 1))).replica = _ :=
    m.step_transaction i (c.leader (v + 1)) txn
  have count : (m.step c (.transaction i txn)).newViews (c.leader (v + 1)) v = m.newViews (c.leader (v + 1)) v := by
    obtain ⟨mempool, he⟩ := leader
    rw [newViews, he]
    rfl
  constructor
  case chain   => exact h.chain
  case settled => exact fun j hj => settled_transaction (h.settled j hj) ht
  case mail    => rw [step_transaction_flight]; exact h.mail
  case few     => rw [step_transaction_flight, count]; exact h.few
  case enough  => rw [step_transaction_flight, count]; exact h.enough
  case behind =>
    intro j hj
    obtain ⟨mempool, he⟩ := m.step_transaction (c := c) i j txn
    rw [he]
    exact h.behind j hj
  case entered =>
    intro j hj hn
    obtain ⟨mempool, he⟩ := m.step_transaction (c := c) i j txn
    rw [he]
    exact h.entered j hj hn
  case ready =>
    obtain ⟨mempool, he⟩ := leader
    rw [he]
    exact ⟨h.ready.fresh, h.ready.certificate, h.ready.ballots⟩

-- The replica `i` does something.
theorem update {late' : Finset PeerId} {t : Task} (h : Collecting c blocks v late m)
    (tasks : m'.tasks = Function.update m.tasks i t) (others : ∀ j ≠ i, j ∈ late' ↔ j ∈ late)
    (settled : InStep c blocks v v i t.replica)
    (behind : i ∈ late' → i < c.numValidators ∧ t.replica.pacemaker.currView = v)
    (entered : i < c.numValidators → i ∉ late' → t.replica.pacemaker.currView = v + 1 ∧
      (i ≠ c.leader (v + 1) → t.replica.viewProgress = .reset))
    (ready : i = c.leader (v + 1) → Ready c (blocks v) v t.replica)
    (mail : ∀ x ∈ m'.flight, ∃ justify sender, x = (c.leader (v + 1), .newView justify v sender v))
    (few : c.leader (v + 1) ∉ late' → m'.flight = [] → m'.newViews (c.leader (v + 1)) v < c.quorum)
    (enough : c.quorum ≤ m'.newViews (c.leader (v + 1)) v + m'.flight.length + late'.card) :
    Collecting c blocks v late' m' := by
  have self : m'.tasks i = t := tasks ▸ Function.update_self ..
  have other : ∀ j ≠ i, m'.tasks j = m.tasks j := fun j hj => tasks ▸ Function.update_of_ne hj ..
  constructor
  case chain  => exact h.chain
  case mail   => exact mail
  case few    => exact few
  case enough => exact enough
  case settled =>
    intro j hj
    by_cases hji : j = i
    case pos => subst hji; exact self ▸ settled
    case neg => exact other j hji ▸ h.settled j hj
  case behind =>
    intro j hj
    by_cases hji : j = i
    case pos => subst hji; exact self ▸ behind hj
    case neg => exact other j hji ▸ h.behind j ((others j hji).mp hj)
  case entered =>
    intro j hj hn
    by_cases hji : j = i
    case pos => subst hji; exact self ▸ entered hj hn
    case neg => exact other j hji ▸ h.entered j hj ((others j hji).not.mp hn)
  case ready =>
    by_cases hl : c.leader (v + 1) = i
    case pos => rw [hl, self]; exact ready hl.symm
    case neg => exact other _ hl ▸ h.ready

theorem timeout (h : Collecting c blocks v late m) (hc : c.Sized) (hi : i < c.numValidators)
    (hv : (m.tasks i).replica.pacemaker.currView ≤ v) (healthy : Healthy c (m.step c (.timeout i))) :
    Collecting c blocks v (late.erase i) (m.step c (.timeout i)) ∧
      (late.erase i).card + 1 = late.card ∧ (m.step c (.timeout i)).flight.length = m.flight.length + 1 := by
  have hl : i ∈ late := by
    by_contra hl
    have := (h.entered i hi hl).1
    omega
  have ⟨_, hview⟩ := h.behind i hl
  have settled := h.settled i hi
  have stepped := Task.step_timeout (healthy.stepped hi) settled.member hc hview
  have self : (m.step c (.timeout i)).tasks i = (m.tasks i).step .timeout := perform_self
  have flight : (m.step c (.timeout i)).flight =
      m.flight ++ [(c.leader (v + 1), .newView (m.tasks i).replica.genericQC v i v)] := by
    have := perform_flight (c := c) (m := m) (congrArg repNodeChannel stepped)
    rwa [List.flatMap_singleton, dispatch_toward] at this
  have count : (m.step c (.timeout i)).newViews (c.leader (v + 1)) v = m.newViews (c.leader (v + 1)) v := by
    unfold newViews
    by_cases hl : c.leader (v + 1) = i
    case pos => rw [hl, self, stepped]; rfl
    case neg => rw [step, perform_other hl]
  have hn : i ∉ late.erase i := fun hb => absurd rfl (Finset.ne_of_mem_erase hb)
  have erased := Finset.card_erase_add_one hl
  refine ⟨h.update rfl (fun j hj => by simp [hj]) ?_ (absurd · hn) (fun _ _ => ?_) (fun hl => ?_) ?_ ?_ ?_, erased, ?_⟩
  · exact settled.stepped stepped (fun _ he => by cases he) (settled.follows.of_same rfl rfl rfl) settled.window
  · rw [stepped]
    exact ⟨rfl, fun _ => rfl⟩
  · have ready := h.ready
    rw [← hl] at ready
    rw [stepped]
    exact ⟨rfl, ready.certificate, ready.ballots⟩
  · intro x hx
    rw [flight, List.mem_append, List.mem_singleton] at hx
    rcases hx with hx | rfl
    · exact h.mail x hx
    · exact ⟨_, _, rfl⟩
  · rw [flight]
    exact fun _ hf => absurd hf (List.append_ne_nil_of_right_ne_nil _ (List.cons_ne_nil _ _))
  · have := h.enough
    rw [count, flight, List.length_append, List.length_singleton]
    omega
  · rw [flight, List.length_append, List.length_singleton]

-- The leader takes note of a new-view message.
theorem noted (h : Collecting c blocks v late m) (hc : c.Sized) {genericQC : QuorumCertificate}
    {messages : MessageWindow} {e : Superliquid.Event}
    (flight : (m.flight : Multiset (PeerId × HotStuffMessage)) =
      (c.leader (v + 1), .newView justify v sender v) ::ₘ (rest : Multiset _))
    (he : ∀ txn, e ≠ .transaction txn)
    (stepped : ((m.tasks (c.leader (v + 1))).step e).replica =
      { (m.tasks (c.leader (v + 1))).replica with genericQC, messages })
    (window : messages.UpTo v)
    (ofView : messages.ofView v =
      (m.tasks (c.leader (v + 1))).replica.messages.ofView v ++ [.newView justify v sender v])
    (certificate : Certificate c v (blocks v) genericQC)
    (few : c.leader (v + 1) ∉ late → m.newViews (c.leader (v + 1)) v + 1 < c.quorum) :
    Collecting c blocks v late ({ m with flight := rest }.perform c (c.leader (v + 1)) e) ∧
      m.flight.length = ({ m with flight := rest }.perform c (c.leader (v + 1)) e).flight.length + 1 := by
  have settled := h.settled _ (hc.leader_lt (v + 1))
  have sent : ({ m with flight := rest }.perform c (c.leader (v + 1)) e).flight = rest :=
    perform_quiet (by rw [stepped])
  have length := congrArg Multiset.card flight
  rw [Multiset.card_cons, Multiset.coe_card, Multiset.coe_card] at length
  have self : (({ m with flight := rest }.perform c (c.leader (v + 1)) e).tasks (c.leader (v + 1))).replica = _ :=
    (congrArg Task.replica perform_self).trans stepped
  have count : ({ m with flight := rest }.perform c (c.leader (v + 1)) e).newViews (c.leader (v + 1)) v =
      m.newViews (c.leader (v + 1)) v + 1 := by
    rw [newViews, self]
    simp only [ofView, countP_append_newView]
    rfl
  refine ⟨h.update rfl (fun _ _ => .rfl) ?_ (fun hl => ?_) (fun hlt hl => ?_) (fun _ => ?_) ?_ (fun hl _ => ?_) ?_, ?_⟩
  · exact settled.stepped stepped (fun txn ht => absurd ht (he txn)) (settled.follows.of_same rfl rfl rfl) window
  · rw [stepped]
    exact h.behind _ hl
  · rw [stepped]
    exact h.entered _ hlt hl
  · obtain ⟨ids, ballots⟩ := h.ready.ballots
    rw [stepped]
    refine ⟨h.ready.fresh, certificate, ids, ?_⟩
    rw [ofView]
    exact ballots.push rfl id
  · intro x hx
    rw [sent] at hx
    refine h.mail x ?_
    rw [← Multiset.mem_coe, flight]
    exact Multiset.mem_cons_of_mem hx
  · exact count ▸ few hl
  · have := h.enough
    rw [count, sent]
    omega
  · rw [sent]
    exact length

-- A new-view message for a leader that is not there yet.
theorem noted_early (h : Collecting c blocks v late m) (hc : c.Sized) (hl : c.leader (v + 1) ∈ late)
    (flight : (m.flight : Multiset (PeerId × HotStuffMessage)) =
      (c.leader (v + 1), .newView justify v sender v) ::ₘ (rest : Multiset _))
    (hm : m' = { m with flight := rest }.perform c (c.leader (v + 1)) (.hotStuff (.newView justify v sender v) order))
    (healthy : Healthy c m') : Collecting c blocks v late m' ∧ m.flight.length = m'.flight.length + 1 := by
  subst hm
  have ⟨hlt, view⟩ := h.behind _ hl
  have settled := h.settled _ hlt
  have leading : ¬(m.tasks (c.leader (v + 1))).replica.Leading := by
    rw [settled.member.leading_iff hc, view]
    exact fun hl => hc.leader_ne v hl.1
  have stepped := Task.step_message (healthy.stepped hlt) (handleMessage_newView view.ge leading)
  exact h.noted hc flight (fun _ he => by cases he) stepped (settled.window.push le_rfl)
    (settled.window.ofView_push rfl) h.ready.certificate (absurd hl)

-- The leader waits for more.
theorem noted_late (h : Collecting c blocks v late m) (hc : c.Sized) (hl : c.leader (v + 1) ∉ late)
    (flight : (m.flight : Multiset (PeerId × HotStuffMessage)) =
      (c.leader (v + 1), .newView justify v sender v) ::ₘ (rest : Multiset _))
    (few : m.newViews (c.leader (v + 1)) v + 1 < c.quorum)
    (hm : m' = { m with flight := rest }.perform c (c.leader (v + 1)) (.hotStuff (.newView justify v sender v) order))
    (healthy : Healthy c m') : Collecting c blocks v late m' ∧ m.flight.length = m'.flight.length + 1 := by
  subst hm
  have hlt := hc.leader_lt (v + 1)
  have settled := h.settled _ hlt
  have ⟨view, _⟩ := h.entered _ hlt hl
  obtain ⟨ids, ballots⟩ := h.ready.ballots
  obtain ⟨genericQC, messages, stepped, window, ofView, certified⟩ := Task.step_message (healthy.stepped hlt)
    (handleMessage_waits settled.member hc view rfl h.ready.fresh settled.window rfl (ballots.push rfl id)
      (countP_append_newView ▸ few))
  refine h.noted hc flight (fun _ he => by cases he) stepped window ofView ?_ fun _ => few
  rcases certified with ⟨rfl, _⟩ | hcert
  · exact h.ready.certificate
  · exact hcert

end Collecting

-- The leader has sent its proposal and its vote.
def Poll.start (c : Config) (v : Nat) (late : Finset PeerId) (rest : List (PeerId × HotStuffMessage)) : Poll where
  late := rest.map Prod.snd
  waiting := (List.range c.numValidators).erase (c.leader (v + 1))
  behind := late
  votes := {c.leader (v + 1)}
  cast := ∅
  own := 0

omit [Sha256] in
theorem Poll.start_parts (hc : c.Sized) {late : Finset PeerId} {rest : List (PeerId × HotStuffMessage)} :
    (start c v late rest).waiting + (start c v late rest).votes + (start c v late rest).cast.val =
      Multiset.range c.numValidators := by
  rw [start, Finset.empty_val, Multiset.add_zero, Multiset.add_comm, Multiset.singleton_add]
  exact Multiset.coe_eq_coe.mpr (List.perm_cons_erase (List.mem_range.mpr (hc.leader_lt _))).symm

omit [Sha256] [Ed25519] in
theorem mem_erase_range {n : Nat} : i ∈ (List.range n).erase j ↔ i < n ∧ i ≠ j := by
  rw [List.nodup_range.mem_erase_iff, List.mem_range, and_comm]

omit [Sha256] [Ed25519] in
theorem dispatch_broadcast {n : Nat} {msg : HotStuffMessage} :
    dispatch n i (.broadcast msg) = ((List.range n).erase i).map (·, msg) := by
  rw [dispatch, List.nodup_range.erase_eq_filter]
  refine congrArg _ (List.filter_congr fun j _ => ?_)
  by_cases he : j = i <;> simp [he]

namespace Collecting

variable {late : Finset PeerId} {rest : List (PeerId × HotStuffMessage)} {justify : QuorumCertificate}
         {sender : PeerId} {order : TallyOrder}

-- All but the leader still have to vote on `node`.
theorem asked {node : Block} (h : Collecting c blocks v late m) (hi : i < c.numValidators)
    (hne : i ≠ c.leader (v + 1)) :
    Asked c (Function.update blocks (v + 1) node) v (i ∈ late) i (m.tasks i).replica := by
  have settled := h.settled i hi
  constructor
  case settled =>
    refine ⟨settled.member, settled.pool, settled.follows.congr fun w hw => ?_, settled.window.succ⟩
    exact Function.update_of_ne (by omega) _ _
  case view =>
    by_cases hb : i ∈ late
    case pos => exact .inl ⟨hb, (h.behind i hb).2⟩
    case neg =>
      have ⟨hview, reset⟩ := h.entered i hi hb
      exact .inr ⟨hb, hview, reset hne⟩

-- The leader has proposed `node` and voted for it, the others have not seen it.
theorem voting {node : Block} {t : Task} (h : Collecting c blocks v late m) (hc : c.Sized)
    (hl : c.leader (v + 1) ∉ late)
    (mail : ∀ x ∈ rest, ∃ justify sender, x = (c.leader (v + 1), .newView justify v sender v))
    (next : NextBlock c v (blocks v) node)
    (settled : InStep c (Function.update blocks (v + 1) node) (v + 1) (v + 1) (c.leader (v + 1)) t.replica)
    (view : t.replica.pacemaker.currView = v + 1) (proposed : t.replica.viewProgress.leaderHasProposed = true) :
    Voting c (Function.update blocks (v + 1) node) v (.start c v late rest)
      (Function.update m.tasks (c.leader (v + 1)) t) := by
  have hne : c.leader (v + 2) ≠ c.leader (v + 1) := hc.leader_ne (v + 1)
  have waiting : ∀ {i}, i ∈ (Poll.start c v late rest).waiting ↔ i < c.numValidators ∧ i ≠ c.leader (v + 1) :=
    mem_erase_range
  constructor
  case chain => exact h.chain.snoc next
  case parts => exact Poll.start_parts hc
  case behind =>
    intro i hb
    exact waiting.mpr ⟨(h.behind i hb).1, fun he => hl (he ▸ hb)⟩
  case late =>
    intro msg hm
    obtain ⟨x, hx, rfl⟩ := List.mem_map.mp hm
    obtain ⟨justify, sender, rfl⟩ := mail x hx
    exact ⟨justify, sender, rfl⟩
  case own => exact fun _ hm => absurd hm (Multiset.notMem_zero _)
  case asked =>
    intro i hi
    have ⟨hi, hil⟩ := waiting.mp hi
    rw [Function.update_of_ne hil]
    exact h.asked hi hil
  case done =>
    intro i hi hn
    obtain rfl : i = c.leader (v + 1) := by_contra fun hil => hn (waiting.mpr ⟨hi, hil⟩)
    rw [Function.update_self]
    exact ⟨settled, by omega, fun _ => view⟩
  case leader => exact fun hw => (waiting.mp hw).2 rfl
  case proposed =>
    rw [Function.update_self]
    exact proposed
  case next =>
    have hlt := hc.leader_lt (v + 2)
    have hw := waiting.mpr ⟨hlt, hne⟩
    have asked : Asked c (Function.update blocks (v + 1) node) v _ _ _ := h.asked hlt hne
    have nothing := (h.settled _ hlt).window.high (v + 1) (Nat.lt_succ_self v)
    rw [Function.update_of_ne hne]
    constructor
    case fresh    => exact fun hb => by rw [(h.entered _ hlt hb).2 hne]; rfl
    case voted    => exact absurd hw
    case ballots  => rw [nothing]; exact .nil
    case few      => rw [nothing]; exact Nat.zero_le 1
    case progress => exact .inl ⟨asked.currView_le, by rw [nothing]; rfl, .inl hw⟩

-- The leader has what it waits for, and asks for votes on the next block.
theorem proposes [BlockDigest] (h : Collecting c blocks v late m) (hc : c.Sized)
    (hl : c.leader (v + 1) ∉ late)
    (flight : (m.flight : Multiset (PeerId × HotStuffMessage)) =
      (c.leader (v + 1), .newView justify v sender v) ::ₘ (rest : Multiset _))
    (enough : c.quorum ≤ m.newViews (c.leader (v + 1)) v + 1)
    (hm : m' = { m with flight := rest }.perform c (c.leader (v + 1)) (.hotStuff (.newView justify v sender v) order))
    (healthy : Healthy c m') :
    ∃ blocks p, Polls c v (rest.length + 2 * late.card + 2 * c.numValidators) m' blocks p := by
  subst hm
  have hlt := hc.leader_lt (v + 1)
  have hne : c.leader (v + 2) ≠ c.leader (v + 1) := hc.leader_ne (v + 1)
  have settled := h.settled _ hlt
  have ⟨view, _⟩ := h.entered _ hlt hl
  obtain ⟨node, next, follows, window, view', proposed, sent⟩ := Task.step_message (healthy.stepped hlt)
    (settled.follows.handleMessage_proposes settled.member hc h.chain view rfl hne.symm h.ready.fresh settled.window
      rfl h.ready.certificate (countP_append_newView ▸ enough) fun _ _ hp _ hn => settled.pool.validate hp hn)
  have newest : Function.update blocks (v + 1) node (v + 1) = node := Function.update_self ..
  have mail : ∀ x ∈ rest, ∃ justify sender, x = (c.leader (v + 1), .newView justify v sender v) := by
    intro x hx
    refine h.mail x ?_
    rw [← Multiset.mem_coe, flight]
    exact Multiset.mem_cons_of_mem hx
  refine ⟨Function.update blocks (v + 1) node, .start c v late rest, ?_, ?_, ?_⟩
  case refine_3 =>
    have erased := List.length_erase_of_mem (List.mem_range.mpr hlt)
    rw [List.length_range] at erased
    have := hc.size
    unfold Poll.rank
    simp only [Poll.size, Poll.start, Multiset.coe_card, List.length_map, erased, Multiset.card_singleton,
      Multiset.card_zero]
    split <;> omega
  case refine_2 =>
    have newViews : rest.map (fun x => (c.leader (v + 1), x.2)) = rest := by
      refine (List.map_congr_left fun x hx => ?_).trans rest.map_id
      obtain ⟨_, _, rfl⟩ := mail x hx
      rfl
    rw [perform_flight sent, newest, List.flatMap_cons, List.flatMap_singleton, dispatch_toward, dispatch_broadcast]
    simp only [Poll.mail, Poll.start, Multiset.map_coe, List.map_map, Function.comp_def, newViews,
      Multiset.map_zero, Multiset.map_singleton, Multiset.add_zero, Multiset.add_assoc]
    rfl
  case refine_1 =>
    exact h.voting hc hl mail next (settled.step (fun _ he => by cases he) follows window) view' proposed

end Collecting

-- A round, and how much can still happen in it.
inductive Round (c : Config) (v : Nat) (m : Mesh) (n : Nat) : Prop
  | collecting {blocks : Nat → Block} {late : Finset PeerId} :
    (Collecting c blocks v late m) → (m.flight.length + 2 * late.card + 2 * c.numValidators ≤ n) → Round c v m n
  | voting {blocks : Nat → Block} {p : Poll} : (Polls c v n m blocks p) → Round c v m n

namespace Round

variable {e : Event} {es : List Event} {n : Nat}

theorem transaction {txn : SignedTransaction} (h : Round c v m n) (ht : txn.verifySender = .ok true) :
    Round c v (m.step c (.transaction i txn)) n := by
  cases h
  case voting h        => exact .voting (h.transaction ht)
  case collecting h hn => exact .collecting (h.transaction ht) (by rwa [step_transaction_flight])

theorem timeout (h : Round c v m n) (hc : c.Sized) (hi : i < c.numValidators)
    (hv : (m.tasks i).replica.pacemaker.currView ≤ v) (healthy : Healthy c (m.step c (.timeout i))) :
    ∃ n', n' + 1 ≤ n ∧ Round c v (m.step c (.timeout i)) n' := by
  cases h
  case voting h =>
    obtain ⟨p, n', hn, h⟩ := h.timeout hc hi hv healthy
    exact ⟨n', hn, .voting h⟩
  case collecting h hn =>
    have ⟨h, erased, flight⟩ := h.timeout hc hi hv healthy
    exact ⟨_, by omega, .collecting h le_rfl⟩

theorem deliver [BlockDigest] {index : Nat} {order : TallyOrder} (h : Round c v m n) (hc : c.Sized)
    (healthy : Healthy c (m.step c (.deliver index order))) :
    ∃ n', n' + m.activity (.deliver index order) ≤ n ∧ Round c v (m.step c (.deliver index order)) n' := by
  cases h
  case voting h =>
    obtain ⟨p, n', hn, h⟩ := h.deliver hc healthy
    exact ⟨n', hn, .voting h⟩
  case collecting blocks late h hn =>
    rcases m.step_deliver (c := c) index order with ⟨none, he⟩ | ⟨one, i, msg, rest, flight, he⟩
    · rw [none, he]
      exact ⟨n, le_rfl, .collecting h hn⟩
    · have mem : (i, msg) ∈ m.flight := by
        rw [← Multiset.mem_coe, flight]
        exact Multiset.mem_cons_self _ _
      have length := congrArg Multiset.card flight
      rw [Multiset.card_cons, Multiset.coe_card, Multiset.coe_card] at length
      obtain ⟨justify, sender, hx⟩ := h.mail _ mem
      cases hx
      rw [one]
      by_cases hl : c.leader (v + 1) ∈ late
      case pos =>
        have ⟨h, _⟩ := h.noted_early hc hl flight he healthy
        exact ⟨_, by omega, .collecting h le_rfl⟩
      case neg =>
        by_cases few : m.newViews (c.leader (v + 1)) v + 1 < c.quorum
        case pos =>
          have ⟨h, _⟩ := h.noted_late hc hl flight few he healthy
          exact ⟨_, by omega, .collecting h le_rfl⟩
        case neg =>
          obtain ⟨_, _, h⟩ := h.proposes hc hl flight (Nat.le_of_not_lt few) he healthy
          exact ⟨_, by omega, .voting h⟩

theorem step [BlockDigest] (h : Round c v m n) (hc : c.Sized) (he : Prompt c v m e)
    (healthy : Healthy c (m.step c e)) : ∃ n', n' + m.activity e ≤ n ∧ Round c v (m.step c e) n' := by
  cases e
  case transaction => exact ⟨n, le_rfl, h.transaction he⟩
  case timeout     => exact h.timeout hc he.1 he.2 healthy
  case deliver     => exact h.deliver hc healthy

theorem steps [BlockDigest] (h : Round c v m n) (hc : c.Sized) (he : Admits (Mesh.step c) (Prompt c v) m es)
    (healthy : Healthy c (es.foldl (Mesh.step c) m)) :
    ∃ n', n' + m.activities c es ≤ n ∧ Round c v (es.foldl (Mesh.step c) m) n' := by
  induction es generalizing m n
  case nil => exact ⟨n, le_rfl, h⟩
  case cons e es hi =>
    rw [List.foldl_cons] at healthy ⊢
    obtain ⟨n₁, hn₁, h₁⟩ := h.step hc he.1 healthy.of_foldl
    obtain ⟨n₂, hn₂, h₂⟩ := hi h₁ he.2 healthy
    exact ⟨n₂, by rw [activities]; omega, h₂⟩

-- When the round is over, all validators have voted, and the next leader has the certificate.
theorem rested (h : Round c v m n) (hc : c.Sized) (ended : Over c v m) : ∃ blocks, Rested c blocks (v + 1) m := by
  cases h
  case collecting blocks late h _ =>
    obtain rfl : late = ∅ := by
      refine Finset.eq_empty_of_forall_notMem fun i hi => ?_
      obtain ⟨hi, hv⟩ := h.behind i hi
      have := ended.entered i hi
      omega
    have few := h.few (Finset.notMem_empty _) ended.flight
    have enough := h.enough
    rw [ended.flight, List.length_nil, Finset.card_empty] at enough
    omega
  case voting blocks p polls =>
    have h := polls.voting
    have count := congrArg Multiset.card polls.mail
    simp only [ended.flight, Poll.mail, Multiset.card_add, Multiset.card_map, Multiset.coe_nil,
      Multiset.card_zero] at count
    have hw : p.waiting = 0 := Multiset.card_eq_zero.mp (by omega)
    have hv : p.votes = 0 := Multiset.card_eq_zero.mp (by omega)
    have ho : p.own = 0 := Multiset.card_eq_zero.mp (by omega)
    have hcast : p.cast.card = c.numValidators := by
      have := congrArg Multiset.card h.parts
      simpa [hw, hv] using this
    have hq := hc.quorum_bounds
    have waits : ∀ i, i ∉ p.waiting := fun i => hw ▸ Multiset.notMem_zero i
    obtain ⟨view, certificate⟩ : (m.tasks (c.leader (v + 2))).replica.pacemaker.currView = v + 2 ∧
        Certificate c (v + 1) (blocks (v + 1)) (m.tasks (c.leader (v + 2))).replica.genericQC := by
      rcases h.next.progress with ⟨_, _, hl | hl | hl⟩ | ⟨view, _, certificate⟩
      · exact absurd hl (waits _)
      · exact absurd hl (hv ▸ Multiset.notMem_zero _)
      · omega
      · exact ⟨view, certificate ho⟩
    have fresh := h.next.fresh fun hb => waits _ (h.behind _ hb)
    refine ⟨blocks, h.chain, ended.flight, fun i hi => (h.done i hi (waits i)).1, fun i hi => ?_,
      ⟨fresh, certificate, p.cast, h.next.ballots⟩, ?_⟩
    · by_cases hl : i = c.leader (v + 2)
      · exact .inr ⟨hl, hl ▸ view⟩
      · exact .inl ((h.done i hi (waits i)).2.2 hl)
    · exact lt_of_le_of_lt ((Nat.le_add_right _ _).trans h.next.few) hq.1

end Round

theorem Rested.new (hc : c.Sized) : Rested c (fun _ => createGenesisBlock) 0 (.new c) := by
  have hq := hc.quorum_bounds
  constructor
  case chain  => exact ⟨rfl, fun _ hv => absurd hv (Nat.not_lt_zero _)⟩
  case flight => rfl
  case views  => exact fun _ _ => .inl rfl
  case ready  => exact ⟨rfl, ⟨rfl, rfl, decide_eq_true (.inl ⟨rfl, rfl⟩)⟩, ∅, .nil⟩
  case few    => exact Nat.lt_of_lt_of_le Nat.zero_lt_two hq.1
  case settled =>
    intro i _
    refine ⟨⟨rfl, rfl, rfl, rfl⟩, fun _ _ hq => ?_, ⟨fun _ _ _ => AList.lookup_insert _, ⟨rfl, rfl⟩, rfl⟩, ⟨le_rfl, ?_⟩⟩
    · simp [Mesh.new, Task.new, HotStuffReplica.new, PriorityMempool.new, PriorityMempool.queued] at hq
    · exact fun _ _ => rfl

theorem Rested.round (h : Rested c blocks v m) (hc : c.Sized) : Round c v m (4 * c.numValidators) := by
  refine .collecting (h.collecting hc) ?_
  have : (m.lagging c v).card ≤ c.numValidators := (Finset.card_filter_le _ _).trans (Finset.card_range _).le
  rw [h.flight, List.length_nil]
  omega

theorem Rounds.rested [BlockDigest] (h : Rounds c v m) (hc : c.Sized) (healthy : Healthy c m) :
    ∃ blocks, Rested c blocks v m := by
  induction h
  case start => exact ⟨_, .new hc⟩
  case next v m m' es _ he hs ended hi =>
    subst hs
    obtain ⟨blocks, rested⟩ := hi healthy.of_foldl
    obtain ⟨_, _, round⟩ := (rested.round hc).steps hc he healthy
    exact round.rested hc ended

-- As long as messages are faster than the timers and nobody panics, every round adds a block to one chain, and all
-- validators execute the blocks of that chain, in order and up to the same point.
theorem rounds_execute [BlockDigest] {k : Nat} (hc : c.Sized) (h : Rounds c k m) (healthy : Healthy c m) :
    ∃ blocks : Nat → Block, blocks 0 = createGenesisBlock ∧
      (∀ v < k, (blocks (v + 1)).parentId = some (blocks v).hash ∧ (blocks (v + 1)).viewNumber = v + 1) ∧
      ∀ i < c.numValidators, (m.tasks i).replica.applied = (List.range (k - 2)).map blocks := by
  obtain ⟨blocks, rested⟩ := h.rested hc healthy
  refine ⟨blocks, rested.chain.genesis, fun v hv => ?_, fun i hi => (rested.settled i hi).follows.applied⟩
  have next := rested.chain.next v hv
  exact ⟨next.parentId, next.viewNumber⟩

instance {e : Event} : Decidable (Prompt c v m e) :=
  match e with
  | .transaction _ txn => inferInstanceAs (Decidable (txn.verifySender = .ok true))
  | .timeout _         => inferInstanceAs (Decidable (_ ∧ _))
  | .deliver _ _       => inferInstanceAs (Decidable True)

-- The timers run out one after the other, then all messages arrive in the order in which they were sent.
def turn (c : Config) (v : Nat) (m : Mesh) : List Event :=
  ((List.range c.numValidators).filter fun i => (m.tasks i).replica.pacemaker.currView ≤ v).map .timeout ++
    List.replicate (3 * c.numValidators) (.deliver 0 .inserted)

def turns (c : Config) : Nat → Mesh
  | 0     => .new c
  | v + 1 => (turn c v (turns c v)).foldl (step c) (turns c v)

theorem turns_rounds {k : Nat}
    (h : ∀ v < k, Admits (step c) (Prompt c v) (turns c v) (turn c v (turns c v)) ∧ (turns c (v + 1)).flight.isEmpty ∧
      ∀ i < c.numValidators, v < ((turns c (v + 1)).tasks i).replica.pacemaker.currView) : Rounds c k (turns c k) := by
  induction k
  case zero => exact .start
  case succ k hi =>
    have ⟨prompt, flight, entered⟩ := h k (Nat.lt_succ_self k)
    exact .next (hi fun v hv => h v (Nat.lt_succ_of_lt hv)) prompt rfl ⟨List.isEmpty_iff.mp flight, entered⟩

omit [Sha256] [Ed25519] in
theorem rounds_execute_turns :
    ∃ (_ : Sha256) (_ : Ed25519) (c : Config) (m : Mesh), Rounds c 4 m ∧ Healthy c m ∧
      ∃ blocks : Nat → Block, blocks 0 = createGenesisBlock ∧
        (∀ v < 4, (blocks (v + 1)).parentId = some (blocks v).hash ∧ (blocks (v + 1)).viewNumber = v + 1) ∧
        ∀ i < c.numValidators, (m.tasks i).replica.applied = (List.range (4 - 2)).map blocks := by
  have rounds := @turns_rounds .encoding .encoding (.ofSize 4) 4 (by decide +kernel)
  have healthy : @Healthy .encoding (.ofSize 4) (@turns .encoding .encoding (.ofSize 4) 4) := by decide +kernel
  have sized : @Config.Sized .encoding (.ofSize 4) := @Config.Sized.mk .encoding _ le_rfl (by decide)
  generalize @turns .encoding .encoding (.ofSize 4) 4 = m at *
  refine ⟨.encoding, .encoding, .ofSize 4, m, rounds, healthy, ?_⟩
  exact @rounds_execute .encoding .encoding _ m Sha256.encoding_block 4 sized rounds healthy

-- No order of events keeps a round going: it has at most one timeout for each validator and three messages.
theorem round_bounded [BlockDigest] {es : List Event} (hc : c.Sized) (h : Rounds c v m)
    (he : Admits (step c) (Prompt c v) m es) (healthy : Healthy c (es.foldl (step c) m)) :
    m.activities c es ≤ 4 * c.numValidators := by
  obtain ⟨blocks, rested⟩ := h.rested hc healthy.of_foldl
  obtain ⟨n, hn, _⟩ := (rested.round hc).steps hc he healthy
  omega

omit [Sha256] [Ed25519] in
theorem round_bounded_turn :
    ∃ (_ : Sha256) (_ : Ed25519) (c : Config), Rounds c 1 (turns c 1) ∧
      0 < (turns c 1).activities c (turn c 1 (turns c 1)) ∧
      (turns c 1).activities c (turn c 1 (turns c 1)) ≤ 4 * c.numValidators := by
  have rounds := @turns_rounds .encoding .encoding (.ofSize 4) 1 (by decide +kernel)
  have sized : @Config.Sized .encoding (.ofSize 4) := @Config.Sized.mk .encoding _ le_rfl (by decide)
  refine ⟨.encoding, .encoding, .ofSize 4, rounds, by decide +kernel, ?_⟩
  exact @round_bounded .encoding .encoding _ _ _ Sha256.encoding_block _ sized rounds (by decide +kernel)
    (by decide +kernel)

end Mesh
end Superliquid

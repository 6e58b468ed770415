import Superliquid.Node.Theorems.Delivery

namespace Superliquid
namespace Mesh

open HotStuffReplica ReplicaM Handler

variable [Sha256] [Ed25519] {c : Config}

-- Where the votes of a view are: `waiting` have not seen the proposal yet, `votes` are on the way to the next leader,
-- `cast` have arrived. On the way are also the new-view messages that are not needed, and the one that the next leader
-- sends to itself. The timers of `behind` have not run out, so they send a new-view message only if they do so before
-- the proposal comes.
structure Poll where
  late    : Multiset HotStuffMessage
  waiting : Multiset PeerId
  behind  : Finset PeerId
  votes   : Multiset PeerId
  cast    : Finset PeerId
  own     : Multiset HotStuffMessage

def Poll.mail (p : Poll) (c : Config) (v : Nat) (block : Block) : Multiset (PeerId × HotStuffMessage) :=
  p.late.map (c.leader (v + 1), ·) +
  p.waiting.map (·, .proposal block (v + 1) (c.leader (v + 1)) (v + 1)) +
  p.votes.map (fun i => (c.leader (v + 2), c.vote block (v + 1) i)) +
  p.own.map (c.leader (v + 2), ·)

def Poll.size (p : Poll) : Nat :=
  p.late.card + 2 * p.waiting.card + 2 * p.behind.card + p.votes.card + p.own.card

-- How much can happen at most until everything is done.
def Poll.rank (p : Poll) (c : Config) (v : Nat) (tasks : PeerId → Task) : Nat :=
  p.size + if (tasks (c.leader (v + 2))).replica.pacemaker.currView ≤ v + 1 then 1 else 0

-- The next leader collects the votes.
structure NextLeader (c : Config) (block : Block) (v : Nat) (p : Poll) (r : HotStuffReplica) : Prop where
  fresh    : c.leader (v + 2) ∉ p.behind → r.viewProgress.leaderHasProposed = false
  voted    : c.leader (v + 2) ∉ p.waiting → r.viewProgress.replicaHasVoted = true
  ballots  : Ballots c block (v + 1) p.cast (r.messages.ofView (v + 1))
  few      : (r.messages.ofView (v + 1)).countP (·.isNewViewFor (v + 1)) + p.own.card ≤ 1
  progress :
    r.pacemaker.currView ≤ v + 1 ∧
      (r.messages.ofView (v + 1)).countP (·.isNewViewFor (v + 1)) + p.own.card = 0 ∧
      (c.leader (v + 2) ∈ p.waiting ∨ c.leader (v + 2) ∈ p.votes ∨ p.cast.card < c.quorum) ∨
    r.pacemaker.currView = v + 2 ∧ c.quorum ≤ p.cast.card ∧
      (p.own = 0 → Certificate c (v + 1) block r.genericQC)

-- A validator that has not seen the proposal. In the view before it still has to be taken along.
structure Asked (c : Config) (blocks : Nat → Block) (v : Nat) (behind : Prop) (i : PeerId) (r : HotStuffReplica) :
    Prop where
  settled : InStep c blocks v (v + 1) i r
  view    : behind ∧ r.pacemaker.currView = v ∨ ¬behind ∧ r.pacemaker.currView = v + 1 ∧ r.viewProgress = .reset

structure Voting (c : Config) (blocks : Nat → Block) (v : Nat) (p : Poll) (tasks : PeerId → Task) : Prop where
  chain    : IsChain c blocks (v + 1)
  parts    : p.waiting + p.votes + p.cast.val = Multiset.range c.numValidators
  behind   : ∀ i ∈ p.behind, i ∈ p.waiting
  late     : ∀ msg ∈ p.late, ∃ justify sender, msg = .newView justify v sender v
  own      : ∀ msg ∈ p.own, ∃ justify sender, msg = .newView justify (v + 1) sender (v + 1)
  asked    : ∀ i ∈ p.waiting, Asked c blocks v (i ∈ p.behind) i (tasks i).replica
  done     : ∀ i < c.numValidators, i ∉ p.waiting → InStep c blocks (v + 1) (v + 1) i (tasks i).replica ∧
    v < (tasks i).replica.pacemaker.currView ∧
    (i ≠ c.leader (v + 2) → (tasks i).replica.pacemaker.currView = v + 1)
  leader   : c.leader (v + 1) ∉ p.waiting
  proposed : (tasks (c.leader (v + 1))).replica.viewProgress.leaderHasProposed = true
  next     : NextLeader c (blocks (v + 1)) v p (tasks (c.leader (v + 2))).replica

variable {m : Mesh} {blocks : Nat → Block} {v : Nat} {i : PeerId} {p p' : Poll} {tasks : PeerId → Task} {block : Block}
         {r : HotStuffReplica} {msg : HotStuffMessage} {t : Task} {order : TallyOrder}

namespace Poll

variable {x : PeerId × HotStuffMessage} {rest : Multiset (PeerId × HotStuffMessage)}

-- Which message is the next to arrive, and what is left.
inductive Arrives (p : Poll) (c : Config) (v : Nat) (block : Block) (rest : Multiset (PeerId × HotStuffMessage)) :
    PeerId × HotStuffMessage → Prop
  | late {msg : HotStuffMessage} {left : Multiset HotStuffMessage} :
    (p.late = msg ::ₘ left) → (rest = { p with late := left }.mail c v block) →
    Arrives p c v block rest (c.leader (v + 1), msg)
  | proposal {i : PeerId} {left : Multiset PeerId} :
    (p.waiting = i ::ₘ left) → (rest = { p with waiting := left }.mail c v block) →
    Arrives p c v block rest (i, .proposal block (v + 1) (c.leader (v + 1)) (v + 1))
  | vote {i : PeerId} {left : Multiset PeerId} :
    (p.votes = i ::ₘ left) → (rest = { p with votes := left }.mail c v block) →
    Arrives p c v block rest (c.leader (v + 2), c.vote block (v + 1) i)
  | own {msg : HotStuffMessage} {left : Multiset HotStuffMessage} :
    (p.own = msg ::ₘ left) → (rest = { p with own := left }.mail c v block) →
    Arrives p c v block rest (c.leader (v + 2), msg)

theorem arrives (h : x ::ₘ rest = p.mail c v block) : p.Arrives c v block rest x := by
  have hx : x ∈ p.mail c v block := h ▸ Multiset.mem_cons_self x rest
  simp only [mail, Multiset.mem_add, Multiset.mem_map] at hx
  rcases hx with ((⟨msg, hm, rfl⟩ | ⟨i, hm, rfl⟩) | ⟨i, hm, rfl⟩) | ⟨msg, hm, rfl⟩
  all_goals
    obtain ⟨left, hl⟩ := Multiset.exists_cons_of_mem hm
    simp only [mail, hl, Multiset.map_cons, Multiset.cons_add, Multiset.add_cons, Multiset.cons_inj_right] at h
  · exact .late hl h
  · exact .proposal hl h
  · exact .vote hl h
  · exact .own hl h

theorem rank_step {e : Superliquid.Event} (ht : t = (tasks i).step e) (hs : p'.size + 1 ≤ p.size) :
    p'.rank c v (Function.update tasks i t) + 1 ≤ p.rank c v tasks := by
  have later : (tasks (c.leader (v + 2))).replica.pacemaker.currView ≤
      (Function.update tasks i t (c.leader (v + 2))).replica.pacemaker.currView := by
    by_cases hl : c.leader (v + 2) = i
    · rw [hl, Function.update_self, ht]
      exact ((tasks i).step_stepped e).currView
    · rw [Function.update_of_ne hl]
  unfold rank
  split <;> split <;> omega

end Poll

-- What other replicas do does not matter to the next leader.
theorem NextLeader.of_others (h : NextLeader c block v p r)
    (waiting : c.leader (v + 2) ∈ p'.waiting ↔ c.leader (v + 2) ∈ p.waiting)
    (behind : c.leader (v + 2) ∈ p'.behind ↔ c.leader (v + 2) ∈ p.behind)
    (votes : c.leader (v + 2) ∈ p.votes → c.leader (v + 2) ∈ p'.votes) (cast : p'.cast = p.cast)
    (own : p'.own = p.own) : NextLeader c block v p' r where
  fresh    := fun hn => h.fresh (behind.not.mp hn)
  voted    := fun hn => h.voted (waiting.not.mp hn)
  ballots  := cast.symm ▸ h.ballots
  few      := own.symm ▸ h.few
  progress := by
    rw [own, cast, waiting]
    refine h.progress.imp_left fun ⟨hv, hf, hp⟩ => ⟨hv, hf, ?_⟩
    exact hp.imp_right (Or.imp_left votes)

-- The next leader votes itself.
theorem NextLeader.votes {r' : HotStuffReplica} (h : NextLeader c block v p r) (early : r.pacemaker.currView ≤ v + 1)
    (vote : c.leader (v + 2) ∈ p'.votes) (cast : p'.cast = p.cast) (own : p'.own = p.own)
    (view : r'.pacemaker.currView = v + 1)
    (progress : r'.viewProgress = { ViewProgress.reset with replicaHasVoted := true })
    (ofView : r'.messages.ofView (v + 1) =
      r.messages.ofView (v + 1) ++ [.proposal block (v + 1) (c.leader (v + 1)) (v + 1)]) :
    NextLeader c block v p' r' := by
  have count : (r'.messages.ofView (v + 1)).countP (·.isNewViewFor (v + 1)) =
      (r.messages.ofView (v + 1)).countP (·.isNewViewFor (v + 1)) := by
    simp [ofView, List.countP_append, HotStuffMessage.isNewViewFor]
  constructor
  case fresh   => rw [progress]; exact fun _ => rfl
  case voted   => rw [progress]; exact fun _ => rfl
  case ballots => rw [ofView, cast]; exact h.ballots.push rfl id
  case few     => rw [count, own]; exact h.few
  case progress =>
    rw [count, own]
    refine .inl ⟨view.le, ?_, .inr (.inl vote)⟩
    rcases h.progress with ⟨_, hf, _⟩ | ⟨hv, _⟩
    · exact hf
    · omega

namespace Asked

variable {behind : Prop}

-- A message of the new view finds a replica as if it had come to that view by itself.
theorem handleMessage_eq (h : Asked c blocks v behind i r) (hc : c.Sized) (hne : i ≠ c.leader (v + 1))
    (hm : msg.getViewNumber = v + 1) : handleMessage order msg r = handleMessage order msg (r.enter (v + 1)) := by
  rcases h.view with ⟨_, hv⟩ | ⟨_, hv, hr⟩
  · have ahead : handleMessage order msg r = handleMessage order msg (r.enter msg.getViewNumber) :=
      handleMessage_ahead h.settled.member hc (by omega) (by rw [hm]; exact hne)
    rwa [hm] at ahead
  · have same : r.enter (v + 1) = r := by
      rw [enter, ← hv, ← hr]
    rw [same]

theorem currView_le (h : Asked c blocks v behind i r) : r.pacemaker.currView ≤ v + 1 := by
  rcases h.view with ⟨_, hv⟩ | ⟨_, hv, _⟩ <;> omega

end Asked

namespace Voting

theorem mem_range (h : Voting c blocks v p tasks) (hi : i ∈ p.waiting ∨ i ∈ p.votes) : i < c.numValidators := by
  rw [← Multiset.mem_range, ← h.parts]
  simp [hi]

-- The replica `i` does something.
theorem update (h : Voting c blocks v p tasks)
    (parts : p'.waiting + p'.votes + p'.cast.val = p.waiting + p.votes + p.cast.val)
    (late : ∀ msg ∈ p'.late, ∃ justify sender, msg = .newView justify v sender v)
    (own : ∀ msg ∈ p'.own, ∃ justify sender, msg = .newView justify (v + 1) sender (v + 1))
    (waiting : ∀ j ≠ i, j ∈ p'.waiting ↔ j ∈ p.waiting) (behind : ∀ j ≠ i, j ∈ p'.behind ↔ j ∈ p.behind)
    (subset : i ∈ p'.behind → i ∈ p'.waiting)
    (asked : i ∈ p'.waiting → Asked c blocks v (i ∈ p'.behind) i t.replica)
    (done : i ∉ p'.waiting → InStep c blocks (v + 1) (v + 1) i t.replica ∧ v < t.replica.pacemaker.currView ∧
      (i ≠ c.leader (v + 2) → t.replica.pacemaker.currView = v + 1))
    (leads : i = c.leader (v + 1) → i ∉ p'.waiting ∧ t.replica.viewProgress.leaderHasProposed = true)
    (next : NextLeader c (blocks (v + 1)) v p' (Function.update tasks i t (c.leader (v + 2))).replica) :
    Voting c blocks v p' (Function.update tasks i t) := by
  constructor
  case chain => exact h.chain
  case parts => exact parts.trans h.parts
  case late  => exact late
  case own   => exact own
  case next  => exact next
  case behind =>
    intro j hj
    by_cases hji : j = i
    case pos => subst hji; exact subset hj
    case neg => exact (waiting j hji).mpr (h.behind j ((behind j hji).mp hj))
  case asked =>
    intro j hj
    by_cases hji : j = i
    case pos => subst hji; rw [Function.update_self]; exact asked hj
    case neg => rw [Function.update_of_ne hji, behind j hji]; exact h.asked j ((waiting j hji).mp hj)
  case done =>
    intro j hn hj
    by_cases hji : j = i
    case pos => subst hji; rw [Function.update_self]; exact done hj
    case neg => rw [Function.update_of_ne hji]; exact h.done j hn ((waiting j hji).not.mp hj)
  case leader =>
    by_cases hi : c.leader (v + 1) = i
    case pos => exact hi ▸ (leads hi.symm).1
    case neg => exact (waiting _ hi).not.mpr h.leader
  case proposed =>
    by_cases hi : c.leader (v + 1) = i
    case pos => rw [hi, Function.update_self]; exact (leads hi.symm).2
    case neg => rw [Function.update_of_ne hi]; exact h.proposed

-- A new-view message that the leader does not need any more.
theorem late_arrives (h : Voting c blocks v p tasks) (hc : c.Sized) {left : Multiset HotStuffMessage}
    (hl : p.late = msg ::ₘ left) (ht : t = (tasks (c.leader (v + 1))).step (.hotStuff msg order))
    (running : t.panicked = false) :
    Voting c blocks v { p with late := left } (Function.update tasks (c.leader (v + 1)) t) ∧
      t.replica.repNodeChannel = (tasks (c.leader (v + 1))).replica.repNodeChannel ∧
      { p with late := left }.rank c v (Function.update tasks (c.leader (v + 1)) t) + 1 ≤ p.rank c v tasks := by
  obtain ⟨justify, sender, rfl⟩ := h.late msg (hl ▸ Multiset.mem_cons_self _ _)
  have hne : c.leader (v + 2) ≠ c.leader (v + 1) := hc.leader_ne (v + 1)
  have ⟨settled, later, hview⟩ := h.done _ (hc.leader_lt _) h.leader
  have view := hview hne.symm
  have leading : ¬(tasks (c.leader (v + 1))).replica.Leading := fun hl => by simpa [h.proposed] using hl.fresh
  subst ht
  have stepped := Task.step_message running (handleMessage_newView later.le leading)
  refine ⟨h.update rfl ?_ h.own (fun _ _ => .rfl) (fun _ _ => .rfl) (fun hb => h.behind _ hb) (absurd · h.leader)
    (fun _ => ⟨?_, ?_, ?_⟩) (fun _ => ⟨h.leader, ?_⟩) ?_, ?_, ?_⟩
  · exact fun msg hm => h.late msg (hl ▸ Multiset.mem_cons_of_mem hm)
  · exact settled.stepped stepped (fun _ he => by cases he) settled.follows.push (settled.window.push (Nat.le_succ v))
  · rw [stepped]
    exact later
  · rw [stepped]
    exact fun _ => view
  · rw [stepped]
    exact h.proposed
  · rw [Function.update_of_ne hne]
    exact h.next.of_others .rfl .rfl id rfl rfl
  · rw [stepped]
  · refine Poll.rank_step rfl ?_
    simp only [Poll.size, hl, Multiset.card_cons]
    omega

-- A replica gets the proposal.
theorem proposal_arrives [BlockDigest] (h : Voting c blocks v p tasks) (hc : c.Sized) {left : Multiset PeerId}
    (hw : p.waiting = i ::ₘ left)
    (hm : msg = .proposal (blocks (v + 1)) (v + 1) (c.leader (v + 1)) (v + 1))
    (ht : t = (tasks i).step (.hotStuff msg order)) (running : t.panicked = false) :
    let p' := { p with waiting := left, behind := p.behind.erase i, votes := i ::ₘ p.votes }
    Voting c blocks v p' (Function.update tasks i t) ∧
      t.replica.repNodeChannel = (tasks i).replica.repNodeChannel ++
        [.toward i (c.leader (v + 2)) (c.vote (blocks (v + 1)) (v + 1) i)] ∧
      p'.rank c v (Function.update tasks i t) + 1 ≤ p.rank c v tasks := by
  have hi : i ∈ p.waiting := hw ▸ Multiset.mem_cons_self i left
  have asked := h.asked i hi
  have settled := asked.settled
  have hleft : i ∉ left := by
    have := h.parts ▸ Multiset.nodup_range c.numValidators
    rw [hw, Multiset.cons_add, Multiset.cons_add, Multiset.nodup_cons] at this
    simp only [Multiset.mem_add, not_or] at this
    exact this.1.1.1
  have hne : i ≠ c.leader (v + 1) := fun he => h.leader (he ▸ hi)
  have handled : Yields (handleMessage order msg) ((tasks i).replica.enter (v + 1)) _ :=
    Follows.handleMessage_proposal (settled.follows.of_same rfl rfl rfl) settled.member.enter hc h.chain rfl hne hm
  rw [Yields, ← asked.handleMessage_eq hc hne (by rw [hm]; rfl)] at handled
  subst ht
  have ⟨follows, pruned, view', progress, sent⟩ := Task.step_message running handled
  have window := (settled.window.push (by rw [hm]; rfl : msg.getViewNumber ≤ v + 1)).prune (Nat.le_succ v) pruned
  have others : ∀ j ≠ i, j ∈ left ↔ j ∈ p.waiting := by
    intro j hj
    simp [hw, hj]
  have behind : ∀ j ≠ i, j ∈ p.behind.erase i ↔ j ∈ p.behind := fun j hj => by simp [hj]
  refine ⟨h.update ?_ h.late h.own others behind (fun hb => absurd rfl (Finset.ne_of_mem_erase hb)) (absurd · hleft)
    (fun _ => ⟨?_, ?_, fun _ => view'⟩) (absurd · hne) ?_, sent, ?_⟩
  · simp only [hw, Multiset.cons_add, Multiset.add_cons]
  · exact settled.step (fun _ he => by cases he) follows window
  · rw [view']
    exact Nat.lt_succ_self v
  · by_cases hl : c.leader (v + 2) = i
    case neg =>
      rw [Function.update_of_ne hl]
      exact h.next.of_others (others _ hl) (behind _ hl) Multiset.mem_cons_of_mem rfl rfl
    case pos =>
      have next := h.next
      rw [hl] at next ⊢
      rw [Function.update_self]
      refine next.votes asked.currView_le (hl ▸ Multiset.mem_cons_self i _) rfl rfl view' progress ?_
      have ⟨_, same⟩ := MessageWindow.pruneBeforeView_kept pruned
      rw [same (v + 1) (Nat.le_succ v), ← hm]
      exact settled.window.ofView_push (by rw [hm]; rfl)
  · have erased : (p.behind.erase i).card ≤ p.behind.card := Finset.card_erase_le
    refine Poll.rank_step rfl ?_
    simp only [Poll.size, hw, Multiset.card_cons]
    omega

-- A timer runs out before the proposal comes.
theorem timeout (h : Voting c blocks v p tasks) (hc : c.Sized) (hi : i < c.numValidators)
    (hv : (tasks i).replica.pacemaker.currView ≤ v) (ht : t = (tasks i).step .timeout) (running : t.panicked = false) :
    let p' := { p with late := .newView (tasks i).replica.genericQC v i v ::ₘ p.late, behind := p.behind.erase i }
    Voting c blocks v p' (Function.update tasks i t) ∧
      t.replica.repNodeChannel = (tasks i).replica.repNodeChannel ++
        [.toward i (c.leader (v + 1)) (.newView (tasks i).replica.genericQC v i v)] ∧
      p'.rank c v (Function.update tasks i t) + 1 ≤ p.rank c v tasks := by
  have hw : i ∈ p.waiting := by
    by_contra hw
    have := (h.done i hi hw).2.1
    omega
  have asked := h.asked i hw
  obtain ⟨hb, view⟩ : i ∈ p.behind ∧ (tasks i).replica.pacemaker.currView = v := by
    rcases asked.view with hb | ⟨_, hv', _⟩
    · exact hb
    · omega
  have settled := asked.settled
  have hne : i ≠ c.leader (v + 1) := fun he => h.leader (he ▸ hw)
  subst ht
  have stepped := Task.step_timeout running settled.member hc view
  have hn : i ∉ p.behind.erase i := fun hb => absurd rfl (Finset.ne_of_mem_erase hb)
  have behind : ∀ j ≠ i, j ∈ p.behind.erase i ↔ j ∈ p.behind := fun j hj => by simp [hj]
  refine ⟨h.update rfl ?_ h.own (fun _ _ => .rfl) behind (absurd · hn) (fun _ => ⟨?_, .inr ⟨hn, ?_⟩⟩) (absurd hw)
    (absurd · hne) ?_, ?_, ?_⟩
  · exact Multiset.forall_mem_cons.mpr ⟨⟨_, _, rfl⟩, h.late⟩
  · exact settled.stepped stepped (fun _ he => by cases he) (settled.follows.of_same rfl rfl rfl) settled.window
  · rw [stepped]
    exact ⟨rfl, rfl⟩
  · by_cases hl : c.leader (v + 2) = i
    case neg =>
      rw [Function.update_of_ne hl]
      exact h.next.of_others .rfl (behind _ hl) id rfl rfl
    case pos =>
      have next := h.next
      rw [hl] at next ⊢
      rw [Function.update_self, stepped]
      refine ⟨fun _ => rfl, fun hn => absurd (hl ▸ hw) hn, next.ballots, next.few, .inl ⟨le_rfl, ?_, .inl (hl ▸ hw)⟩⟩
      rcases next.progress with ⟨_, hf, _⟩ | ⟨hv, _⟩
      · exact hf
      · omega
  · rw [stepped]
  · have erased := Finset.card_erase_add_one hb
    refine Poll.rank_step rfl ?_
    simp only [Poll.size, Multiset.card_cons]
    omega

-- The next leader has moved on to its own view, and gets what belongs to the view before.
theorem counted (h : Voting c blocks v p tasks) (hc : c.Sized) (p' : Poll)
    (hview : (tasks (c.leader (v + 2))).replica.pacemaker.currView = v + 2) (hm : msg.getViewNumber = v + 1)
    (parts : p'.waiting + p'.votes + p'.cast.val = p.waiting + p.votes + p.cast.val) (hw : p'.waiting = p.waiting)
    (hb : p'.behind = p.behind) (late : p'.late = p.late) (own : ∀ msg ∈ p'.own, msg ∈ p.own)
    (ballots : Ballots c (blocks (v + 1)) (v + 1) p'.cast
      ((tasks (c.leader (v + 2))).replica.messages.ofView (v + 1) ++ [msg]))
    (few : ((tasks (c.leader (v + 2))).replica.messages.ofView (v + 1) ++ [msg]).countP (·.isNewViewFor (v + 1)) +
      p'.own.card ≤ 1)
    (enough : c.quorum ≤ p'.cast.card) (ht : t = (tasks (c.leader (v + 2))).step (.hotStuff msg order))
    (running : t.panicked = false) :
    Voting c blocks v p' (Function.update tasks (c.leader (v + 2)) t) ∧
      t.replica.repNodeChannel = (tasks (c.leader (v + 2))).replica.repNodeChannel := by
  have hlt := hc.leader_lt (v + 2)
  have hn : c.leader (v + 2) ∉ p.waiting := fun hw => by
    have := (h.asked _ hw).currView_le
    omega
  have hnb : c.leader (v + 2) ∉ p.behind := fun hb => hn (h.behind _ hb)
  have ⟨settled, _⟩ := h.done _ hlt hn
  have scarce : ((tasks (c.leader (v + 2))).replica.messages.ofView (v + 1) ++ [msg]).countP
      (·.isNewViewFor (v + 1)) < c.quorum := by
    have := hc.quorum_bounds
    omega
  subst ht
  obtain ⟨genericQC, messages, stepped, window, ofView, certified⟩ := Task.step_message running
    (handleMessage_waits settled.member hc hview rfl (h.next.fresh hnb) settled.window hm ballots scarce)
  have certificate : Certificate c (v + 1) (blocks (v + 1)) genericQC := by
    rcases certified with ⟨_, hfew⟩ | hcert
    · omega
    · exact hcert
  refine ⟨h.update parts (late ▸ h.late) (fun msg hm => h.own msg (own msg hm)) (fun _ _ => hw ▸ .rfl)
    (fun _ _ => hb ▸ .rfl) (fun hi => absurd (hb ▸ hi) hnb) (fun hi => absurd (hw ▸ hi) hn)
    (fun _ => ⟨?_, ?_, absurd rfl⟩) (fun he => absurd he (hc.leader_ne (v + 1))) ?_, ?_⟩
  · exact settled.stepped stepped (fun _ he => by cases he) (settled.follows.of_same rfl rfl rfl) window
  · rw [stepped]
    exact Nat.lt_of_lt_of_le (by omega) hview.ge
  · rw [Function.update_self, stepped]
    constructor
    case fresh    => exact fun _ => h.next.fresh hnb
    case voted    => exact fun _ => h.next.voted hn
    case ballots  => exact ofView ▸ ballots
    case few      => exact ofView ▸ few
    case progress => exact .inr ⟨hview, enough, fun _ => certificate⟩
  · rw [stepped]

-- The next leader gets its own new-view message.
theorem own_arrives (h : Voting c blocks v p tasks) (hc : c.Sized) {left : Multiset HotStuffMessage}
    (ho : p.own = msg ::ₘ left) (ht : t = (tasks (c.leader (v + 2))).step (.hotStuff msg order))
    (running : t.panicked = false) :
    Voting c blocks v { p with own := left } (Function.update tasks (c.leader (v + 2)) t) ∧
      t.replica.repNodeChannel = (tasks (c.leader (v + 2))).replica.repNodeChannel ∧
      { p with own := left }.rank c v (Function.update tasks (c.leader (v + 2)) t) + 1 ≤ p.rank c v tasks := by
  obtain ⟨justify, sender, rfl⟩ := h.own msg (ho ▸ Multiset.mem_cons_self _ _)
  have hcard : p.own.card = left.card + 1 := ho ▸ Multiset.card_cons _ _
  have few := h.next.few
  rcases h.next.progress with ⟨_, hf, _⟩ | ⟨hview, enough, _⟩
  · omega
  · have ⟨voting, sent⟩ := h.counted hc { p with own := left } hview rfl rfl rfl rfl rfl
      (fun msg hm => ho ▸ Multiset.mem_cons_of_mem hm) (h.next.ballots.push rfl id)
      (by simp only [countP_append_newView]; omega) enough ht running
    refine ⟨voting, sent, ?_⟩
    refine Poll.rank_step ht ?_
    simp only [Poll.size, hcard]
    omega

-- The next leader gets a vote before it has seen the proposal.
theorem counted_early (h : Voting c blocks v p tasks) (hc : c.Sized) {left : Multiset PeerId} {cast : Finset PeerId}
    (hw : c.leader (v + 2) ∈ p.waiting)
    (parts : p.waiting + left + cast.val = p.waiting + p.votes + p.cast.val)
    (ballots : Ballots c (blocks (v + 1)) (v + 1) cast ((tasks (c.leader (v + 2))).replica.messages.ofView (v + 1) ++
      [c.vote (blocks (v + 1)) (v + 1) i]))
    (none : ((tasks (c.leader (v + 2))).replica.messages.ofView (v + 1) ++
      [c.vote (blocks (v + 1)) (v + 1) i]).countP (·.isNewViewFor (v + 1)) + p.own.card = 0)
    (ht : t = (tasks (c.leader (v + 2))).step (.hotStuff (c.vote (blocks (v + 1)) (v + 1) i) order))
    (running : t.panicked = false) :
    Voting c blocks v { p with behind := p.behind.erase (c.leader (v + 2)), votes := left, cast }
        (Function.update tasks (c.leader (v + 2)) t) ∧
      t.replica.repNodeChannel = (tasks (c.leader (v + 2))).replica.repNodeChannel := by
  have hne : c.leader (v + 2) ≠ c.leader (v + 1) := hc.leader_ne (v + 1)
  have asked := h.asked _ hw
  have settled := asked.settled
  have handled : Yields (handleMessage order (c.vote (blocks (v + 1)) (v + 1) i))
      ((tasks (c.leader (v + 2))).replica.enter (v + 1)) _ :=
    handleMessage_vote settled.member.enter hc rfl rfl hne settled.window ballots
  rw [Yields, ← asked.handleMessage_eq hc hne rfl] at handled
  subst ht
  have ⟨messages, hs, hl, ha, progress, outcome⟩ := Task.step_message running handled
  have ⟨_, view, sent⟩ := outcome.resolve_left fun h => by cases h.1
  have ofView : ((tasks (c.leader (v + 2))).step (.hotStuff (c.vote (blocks (v + 1)) (v + 1) i)
      order)).replica.messages.ofView (v + 1) = (tasks (c.leader (v + 2))).replica.messages.ofView (v + 1) ++
        [c.vote (blocks (v + 1)) (v + 1) i] := by
    rw [messages]
    exact settled.window.ofView_push rfl
  have hn : c.leader (v + 2) ∉ p.behind.erase (c.leader (v + 2)) := fun hb => absurd rfl (Finset.ne_of_mem_erase hb)
  refine ⟨h.update parts h.late h.own (fun _ _ => .rfl) (fun j hj => by simp [hj]) (absurd · hn)
    (fun _ => ⟨?_, .inr ⟨hn, view, progress⟩⟩) (absurd hw) (absurd · hne) ?_, sent⟩
  · refine settled.step (fun _ he => by cases he) (settled.follows.of_same hs hl ha) ?_
    rw [messages]
    exact settled.window.push le_rfl
  · rw [Function.update_self]
    constructor
    case fresh    => rw [progress]; exact fun _ => rfl
    case voted    => exact absurd hw
    case ballots  => rw [ofView]; exact ballots
    case few      => rw [ofView]; exact none.le.trans (Nat.zero_le 1)
    case progress => exact .inl ⟨view.le, by rw [ofView]; exact none, .inl hw⟩

-- The next leader gets a vote after it has voted itself. If this is enough for a quorum, it goes on.
theorem counted_late (h : Voting c blocks v p tasks) (hc : c.Sized) {left : Multiset PeerId} {cast : Finset PeerId}
    (hw : c.leader (v + 2) ∉ p.waiting)
    (hview : (tasks (c.leader (v + 2))).replica.pacemaker.currView = v + 1)
    (parts : p.waiting + left + cast.val = p.waiting + p.votes + p.cast.val)
    (ballots : Ballots c (blocks (v + 1)) (v + 1) cast ((tasks (c.leader (v + 2))).replica.messages.ofView (v + 1) ++
      [c.vote (blocks (v + 1)) (v + 1) i]))
    (none : ((tasks (c.leader (v + 2))).replica.messages.ofView (v + 1) ++
      [c.vote (blocks (v + 1)) (v + 1) i]).countP (·.isNewViewFor (v + 1)) + p.own.card = 0)
    (ht : t = (tasks (c.leader (v + 2))).step (.hotStuff (c.vote (blocks (v + 1)) (v + 1) i) order))
    (running : t.panicked = false) :
    ∃ own, Voting c blocks v { p with votes := left, cast, own } (Function.update tasks (c.leader (v + 2)) t) ∧
      (own = p.own ∧ t.replica.repNodeChannel = (tasks (c.leader (v + 2))).replica.repNodeChannel ∨
        t.replica.pacemaker.currView = v + 2 ∧ ∃ newView, own = newView ::ₘ p.own ∧
          t.replica.repNodeChannel = (tasks (c.leader (v + 2))).replica.repNodeChannel ++
            [.toward (c.leader (v + 2)) (c.leader (v + 2)) newView]) := by
  have hne : c.leader (v + 2) ≠ c.leader (v + 1) := hc.leader_ne (v + 1)
  have hb : c.leader (v + 2) ∉ p.behind := fun hb => hw (h.behind _ hb)
  have ⟨settled, _⟩ := h.done _ (hc.leader_lt _) hw
  subst ht
  have ⟨messages, hs, hl, ha, progress, outcome⟩ := Task.step_message running
    (handleMessage_vote settled.member hc hview rfl hne settled.window ballots)
  have ofView := settled.window.ofView_push (rfl : (c.vote (blocks (v + 1)) (v + 1) i).getViewNumber = v + 1)
  rw [← messages] at ofView
  have settled' := settled.step (e := .hotStuff _ order) (fun _ he => by cases he) (settled.follows.of_same hs hl ha)
    (by rw [messages]; exact settled.window.push le_rfl)
  rcases outcome with ⟨_, enough, view, sent⟩ | ⟨hn, view, sent⟩
  · refine ⟨_, ?_, .inr ⟨view, _, rfl, sent⟩⟩
    refine h.update parts h.late (Multiset.forall_mem_cons.mpr ⟨⟨_, _, rfl⟩, h.own⟩) (fun _ _ => .rfl) (fun _ _ => .rfl)
      (absurd · hb) (absurd · hw) (fun _ => ⟨settled', by omega, absurd rfl⟩) (absurd · hne) ?_
    rw [Function.update_self]
    constructor
    case fresh    => rw [progress]; exact fun _ => h.next.fresh hb
    case voted    => rw [progress]; exact fun _ => h.next.voted hw
    case ballots  => rw [ofView]; exact ballots
    case few      => rw [ofView, Multiset.card_cons]; omega
    case progress => exact .inr ⟨view, enough, fun he => absurd he Multiset.cons_ne_zero⟩
  · refine ⟨p.own, ?_, .inl ⟨rfl, sent⟩⟩
    refine h.update parts h.late h.own (fun _ _ => .rfl) (fun _ _ => .rfl) (absurd · hb) (absurd · hw)
      (fun _ => ⟨settled', by omega, fun _ => view⟩) (absurd · hne) ?_
    rw [Function.update_self]
    constructor
    case fresh    => rw [progress]; exact fun _ => h.next.fresh hb
    case voted    => rw [progress]; exact fun _ => h.next.voted hw
    case ballots  => rw [ofView]; exact ballots
    case few      => rw [ofView]; exact none.le.trans (Nat.zero_le 1)
    case progress =>
      refine .inl ⟨view.le, by rw [ofView]; exact none, .inr (.inr ?_)⟩
      exact hn.resolve_left fun hn => by simp [h.next.voted hw] at hn

-- The next leader gets a vote.
theorem vote_arrives (h : Voting c blocks v p tasks) (hc : c.Sized) {left : Multiset PeerId}
    (hv : p.votes = i ::ₘ left)
    (ht : t = (tasks (c.leader (v + 2))).step (.hotStuff (c.vote (blocks (v + 1)) (v + 1) i) order))
    (running : t.panicked = false) :
    ∃ behind own,
      let p' := { p with behind, votes := left, cast := insert i p.cast, own }
      Voting c blocks v p' (Function.update tasks (c.leader (v + 2)) t) ∧
      p'.rank c v (Function.update tasks (c.leader (v + 2)) t) + 1 ≤ p.rank c v tasks ∧
      (own = p.own ∧ t.replica.repNodeChannel = (tasks (c.leader (v + 2))).replica.repNodeChannel ∨
        ∃ newView, own = newView ::ₘ p.own ∧
          t.replica.repNodeChannel = (tasks (c.leader (v + 2))).replica.repNodeChannel ++
            [.toward (c.leader (v + 2)) (c.leader (v + 2)) newView]) := by
  have hcast : i ∉ p.cast := by
    have := h.parts ▸ Multiset.nodup_range c.numValidators
    rw [hv, Multiset.add_cons, Multiset.cons_add, Multiset.nodup_cons] at this
    simp only [Multiset.mem_add, not_or] at this
    exact this.1.2
  have hlt : i < c.numValidators := h.mem_range (.inr (hv ▸ Multiset.mem_cons_self i left))
  have parts : p.waiting + left + (insert i p.cast).val = p.waiting + p.votes + p.cast.val := by
    rw [Finset.insert_val_of_notMem hcast, hv, Multiset.add_cons, Multiset.add_cons, Multiset.cons_add]
  have ballots := h.next.ballots.push_vote hcast hlt
  have count : ((tasks (c.leader (v + 2))).replica.messages.ofView (v + 1) ++
      [c.vote (blocks (v + 1)) (v + 1) i]).countP (·.isNewViewFor (v + 1)) =
        ((tasks (c.leader (v + 2))).replica.messages.ofView (v + 1)).countP (·.isNewViewFor (v + 1)) := by
    simp [List.countP_append, Config.vote, HotStuffMessage.createVote, HotStuffMessage.isNewViewFor]
  have hle : p.cast.card ≤ (insert i p.cast).card := Finset.card_le_card (Finset.subset_insert i _)
  have hcard : p.votes.card = left.card + 1 := hv ▸ Multiset.card_cons _ _
  rcases h.next.progress with ⟨hview, none, _⟩ | ⟨hview, enough, _⟩
  case inr =>
    obtain ⟨voting, sent⟩ := h.counted hc { p with votes := left, cast := insert i p.cast } hview rfl parts rfl rfl rfl
      (fun _ hm => hm) ballots (count ▸ h.next.few) (enough.trans hle) ht running
    refine ⟨p.behind, p.own, voting, ?_, .inl ⟨rfl, sent⟩⟩
    refine Poll.rank_step ht ?_
    simp only [Poll.size, hcard]
    omega
  case inl =>
    rw [← count] at none
    by_cases hw : c.leader (v + 2) ∈ p.waiting
    case pos =>
      obtain ⟨voting, sent⟩ := h.counted_early hc hw parts ballots none ht running
      refine ⟨_, p.own, voting, Poll.rank_step ht ?_, .inl ⟨rfl, sent⟩⟩
      have erased : (p.behind.erase (c.leader (v + 2))).card ≤ p.behind.card := Finset.card_erase_le
      simp only [Poll.size, hcard]
      omega
    case neg =>
      obtain ⟨_, later, _⟩ := h.done _ (hc.leader_lt _) hw
      obtain ⟨own, voting, sent⟩ := h.counted_late hc hw (by omega) parts ballots none ht running
      refine ⟨p.behind, own, voting, ?_, sent.imp_right And.right⟩
      rcases sent with ⟨rfl, _⟩ | ⟨view, newView, rfl, _⟩
      · refine Poll.rank_step ht ?_
        simp only [Poll.size, hcard]
        omega
      · rw [Poll.rank, Poll.rank, Function.update_self, if_neg (by omega), if_pos hview]
        simp only [Poll.size, hcard, Multiset.card_cons]
        omega

theorem transaction {txn : SignedTransaction} (h : Voting c blocks v p m.tasks) (ht : txn.verifySender = .ok true) :
    Voting c blocks v p (m.step c (.transaction i txn)).tasks := by
  constructor
  case chain  => exact h.chain
  case parts  => exact h.parts
  case behind => exact h.behind
  case late   => exact h.late
  case own    => exact h.own
  case leader => exact h.leader
  case asked =>
    intro j hj
    have asked := h.asked j hj
    refine ⟨settled_transaction asked.settled ht, ?_⟩
    obtain ⟨mempool, he⟩ := m.step_transaction (c := c) i j txn
    rw [he]
    exact asked.view
  case done =>
    intro j hn hj
    have ⟨settled, same⟩ := h.done j hn hj
    refine ⟨settled_transaction settled ht, ?_⟩
    obtain ⟨mempool, he⟩ := m.step_transaction (c := c) i j txn
    rwa [he]
  case proposed =>
    obtain ⟨mempool, he⟩ := m.step_transaction (c := c) i (c.leader (v + 1)) txn
    rw [he]
    exact h.proposed
  case next =>
    obtain ⟨mempool, he⟩ := m.step_transaction (c := c) i (c.leader (v + 2)) txn
    rw [he]
    exact ⟨h.next.fresh, h.next.voted, h.next.ballots, h.next.few, h.next.progress⟩

end Voting

-- A poll that accounts for all messages on the way.
structure Polls (c : Config) (v n : Nat) (m : Mesh) (blocks : Nat → Block) (p : Poll) : Prop where
  voting : Voting c blocks v p m.tasks
  mail   : (m.flight : Multiset _) = p.mail c v (blocks (v + 1))
  rank   : p.rank c v m.tasks ≤ n

namespace Polls

variable {n : Nat}

theorem transaction {txn : SignedTransaction} (h : Polls c v n m blocks p) (ht : txn.verifySender = .ok true) :
    Polls c v n (m.step c (.transaction i txn)) blocks p := by
  refine ⟨h.voting.transaction ht, ?_, ?_⟩
  · rw [step_transaction_flight]
    exact h.mail
  · obtain ⟨mempool, he⟩ := m.step_transaction (c := c) i (c.leader (v + 2)) txn
    rw [Poll.rank, he]
    exact h.rank

theorem timeout (h : Polls c v n m blocks p) (hc : c.Sized) (hi : i < c.numValidators)
    (hv : (m.tasks i).replica.pacemaker.currView ≤ v) (healthy : Healthy c (m.step c (.timeout i))) :
    ∃ p' n', n' + 1 ≤ n ∧ Polls c v n' (m.step c (.timeout i)) blocks p' := by
  have ⟨voting, sent, rank⟩ := h.voting.timeout hc hi hv rfl (healthy.stepped hi)
  refine ⟨_, _, rank.trans h.rank, voting, ?_, le_rfl⟩
  rw [step, perform_toward sent, h.mail]
  simp [Poll.mail]

theorem deliver [BlockDigest] {index : Nat} (h : Polls c v n m blocks p) (hc : c.Sized)
    (healthy : Healthy c (m.step c (.deliver index order))) :
    ∃ p' n', n' + m.activity (.deliver index order) ≤ n ∧ Polls c v n' (m.step c (.deliver index order)) blocks p' := by
  rcases m.step_deliver (c := c) index order with ⟨none, he⟩ | ⟨one, i, msg, rest, flight, he⟩
  · rw [none, he]
    exact ⟨p, n, le_rfl, h⟩
  · rw [he] at healthy
    rw [one, he]
    cases Poll.arrives (flight.symm.trans h.mail)
    case late left hr hl =>
      have ⟨voting, sent, rank⟩ := h.voting.late_arrives hc hl rfl (healthy.stepped (hc.leader_lt _))
      refine ⟨_, _, rank.trans h.rank, voting, ?_, le_rfl⟩
      rw [perform_quiet (m := { m with flight := rest }) sent]
      exact hr
    case proposal left hr hw =>
      have hi : i < c.numValidators := h.voting.mem_range (.inl (hw ▸ Multiset.mem_cons_self i left))
      have ⟨voting, sent, rank⟩ := h.voting.proposal_arrives hc hw rfl rfl (healthy.stepped hi)
      refine ⟨_, _, rank.trans h.rank, voting, ?_, le_rfl⟩
      rw [perform_toward (m := { m with flight := rest }) sent, hr]
      simp [Poll.mail]
    case vote i left hv hr =>
      have ⟨behind, own, voting, rank, sent⟩ := h.voting.vote_arrives hc hv rfl (healthy.stepped (hc.leader_lt _))
      refine ⟨_, _, rank.trans h.rank, voting, ?_, le_rfl⟩
      rcases sent with ⟨rfl, sent⟩ | ⟨newView, rfl, sent⟩
      · rw [perform_quiet (m := { m with flight := rest }) sent]
        exact hr
      · rw [perform_toward (m := { m with flight := rest }) sent, hr]
        simp [Poll.mail]
    case own left hr ho =>
      have ⟨voting, sent, rank⟩ := h.voting.own_arrives hc ho rfl (healthy.stepped (hc.leader_lt _))
      refine ⟨_, _, rank.trans h.rank, voting, ?_, le_rfl⟩
      rw [perform_quiet (m := { m with flight := rest }) sent]
      exact hr

end Polls

end Mesh
end Superliquid

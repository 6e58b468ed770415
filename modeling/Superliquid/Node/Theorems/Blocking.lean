import Superliquid.Hotstuff.Theorems.Digests
import Superliquid.Lib.Steps
import Superliquid.Node.Theorems.Turns

namespace Superliquid.Service

variable [Sha256] [Ed25519] {s s' : Service}

-- The replica wants to send to itself while the channel is full.
def Stuck (s : Service) : Prop :=
  (∃ msg rest, s.pending = .sendToSelf msg :: rest) ∧ s.capacity ≤ s.mailbox.length

-- The task needs the replica to go on: it has something to hand over, or it waits for a response.
inductive Stage.Waits : Stage → Prop
  | asking     : Waits (.asking query purpose)
  | waiting    : Waits (.waiting query purpose)
  | forwarding : Waits (.forwarding msg)

-- The replica does nothing any more, and what waits for it keeps waiting.
structure Halted (s s' : Service) : Prop where
  task     : s'.task = s.task
  mailbox  : s'.mailbox = s.mailbox
  pending  : s'.pending = s.pending
  outbox   : s'.outbox = s.outbox
  capacity : s'.capacity = s.capacity
  waiting  : ∀ k, (s.connections k).stage.Waits → s'.connections k = s.connections k

-- Apart from closing when the replica is gone, a task that waits does nothing but hand over a message.
omit [Sha256] in
theorem Turn.eq_of_waits {k : Conn} {c c' : Connection} {sent : List ReplicaInBound} (h : Turn s k c c' sent)
    (hw : c.stage.Waits) (there : ¬s.replicaGone) (nothing : sent = []) : c' = c := by
  generalize hs : c.stage = stage at hw
  cases h
  case none    => rfl
  case queried => cases nothing
  case passed  => cases nothing
  all_goals cases hw <;> simp_all

theorem Stuck.stepped (h : Stuck s) (hs : Stepped s s') : Halted s s' := by
  obtain ⟨⟨msg, rest, hp⟩, hfull⟩ := h
  have busy : ¬s.Listening := by simp [Listening, hp]
  have there : ¬s.replicaGone := by simp [replicaGone, hp]
  cases hs
  case turn conn turned =>
    have hm := turned.room.resolve_right (by omega)
    refine ⟨turned.task, hm, turned.pending, turned.outbox, turned.capacity, fun k hk => ?_⟩
    by_cases hc : k = conn
    case neg => exact turned.others k hc
    case pos =>
      subst hc
      obtain ⟨sent, turn, hsent⟩ := turned.turn
      have nothing : sent = [] := by simpa [hm] using hsent
      exact turn.eq_of_waits hk there nothing
  case answered hl _ _ => exact absurd hl busy
  case dropped hl _ _  => exact absurd hl busy
  case handled hl _    => exact absurd hl busy
  case kept hroom      => omega
  case sent hp' hn =>
    cases hp.symm.trans hp'
    exact absurd rfl (hn msg)

omit [Sha256] [Ed25519] in
theorem Stuck.halted (h : Stuck s) (hs : Halted s s') : Stuck s' := by
  obtain ⟨hp, hfull⟩ := h
  exact ⟨hs.pending ▸ hp, hs.capacity ▸ hs.mailbox ▸ hfull⟩

omit [Sha256] [Ed25519] in
theorem Halted.trans {s₁ s₂ s₃ : Service} (h₁ : Halted s₁ s₂) (h₂ : Halted s₂ s₃) : Halted s₁ s₃ where
  task     := h₂.task.trans h₁.task
  mailbox  := h₂.mailbox.trans h₁.mailbox
  pending  := h₂.pending.trans h₁.pending
  outbox   := h₂.outbox.trans h₁.outbox
  capacity := h₂.capacity.trans h₁.capacity
  waiting k hk := by
    have hk₁ := h₁.waiting k hk
    rw [h₂.waiting k (hk₁ ▸ hk), hk₁]

theorem halted_of_stuck (h : Stuck s) (es : List Event) : Halted s (es.foldl step s) := by
  induction es generalizing s
  case nil => exact ⟨rfl, rfl, rfl, rfl, rfl, fun _ _ => rfl⟩
  case cons e es hi =>
    have one := h.stepped (s.step_stepped e)
    exact one.trans (hi (h.halted one))

-- The replica leads the view that it moves to when its timer runs out.
def LeadsNext (r : HotStuffReplica) : Prop :=
  (∃ n, r.pacemaker.failedViews = .ok n) ∧
  ∃ pacemaker, r.pacemaker.advanceView = .ok pacemaker ∧ pacemaker.currentLeader = .ok r.nodeId

theorem timeout_stuck (hl : s.Listening) (hfull : s.capacity ≤ s.mailbox.length)
    (hlead : LeadsNext s.task.replica) : Stuck (s.step .timeout) := by
  obtain ⟨⟨n, hf⟩, pacemaker, hp, hleader⟩ := hlead
  have hview : 1 ≤ pacemaker.currView := by
    simp only [Pacemaker.advanceView, Checked.bind_ok, Checked.pure_ok, U64.add_ok] at hp
    obtain ⟨v, ⟨_, rfl⟩, rfl⟩ := hp
    exact Nat.le_add_left _ _
  -- The new-view message is the only one that is sent.
  obtain ⟨msg, hmsg⟩ : ∃ msg, { s.task.replica with pacemaker }.createNewView = .ok msg := by
    simp [HotStuffReplica.createNewView, Checked.sub_eq_ok hview, Checked.ok_bind, pure, Except.pure]
  have hrun : ReplicaM.runReplica .timeout s.task.replica =
      (.ok (), { s.task.replica with
        pacemaker, viewProgress := .reset
        repNodeChannel := s.task.replica.repNodeChannel ++ [.sendToSelf msg] }) := by
    simp only [ReplicaM.runReplica, Handler.read_bind]
    rw [Handler.bind_apply_ok (by rw [hf]; rfl)]
    simp only [ReplicaM.advanceView, Handler.read_bind, id_eq]
    rw [Handler.bind_apply_ok (by rw [hp]; rfl), Handler.modify_bind, Handler.bind_apply_ok (by rw [hleader]; rfl),
      Handler.bind_apply_ok (by rw [hmsg]; rfl), if_pos rfl]
    rfl
  have hstep : s.step .timeout = s.handleEvent .timeout := by simp [step, hl]
  rw [hstep]
  refine ⟨⟨msg, [], ?_⟩, hfull⟩
  simp [handleEvent, Task.step, hl.1, hrun]

theorem timeout_halts (hl : s.Listening) (hfull : s.capacity ≤ s.mailbox.length)
    (hlead : LeadsNext s.task.replica) (es : List Event) :
    Halted (s.step .timeout) (es.foldl step (s.step .timeout)) :=
  halted_of_stuck (timeout_stuck hl hfull hlead) es

-- A peer that sends the same message `n` times.
def flood (msg : HotStuffMessage) : Nat → List Event
  | 0     => []
  | n + 1 => flood msg n ++ [.arrive (.peer 0) (.message (.hotStuff msg)), .proceed (.peer 0)]

theorem flood_round {msg : HotStuffMessage} (hg : ¬s.replicaGone) (hroom : s.mailbox.length < s.capacity)
    (hr : (s.connections (.peer 0)).stage = .reading) :
    (s.step (.arrive (.peer 0) (.message (.hotStuff msg)))).step (.proceed (.peer 0)) =
      ({ s with mailbox := s.mailbox ++ [.hotStuff msg] } : Service).setStage (.peer 0) .reading := by
  have arrived : s.step (.arrive (.peer 0) (.message (.hotStuff msg))) =
      s.setStage (.peer 0) (.forwarding (.hotStuff msg)) := by
    simp [step, hr, read, handlePeerConnection]
  rw [arrived]
  generalize hs : s.setStage (.peer 0) (.forwarding (.hotStuff msg)) = s'
  have there : ¬s'.replicaGone := hs ▸ hg
  have room : s'.mailbox.length < s'.capacity := hs ▸ hroom
  have stage : (s'.connections (.peer 0)).stage = .forwarding (.hotStuff msg) := by
    simp [← hs, setStage, setConnection]
  simp only [step, proceed, stage, sendToReplica, if_neg there, if_pos room]
  simp [← hs, setStage, setConnection]

-- As long as there is room, the messages pile up in front of the replica.
theorem flood_mailbox (msg : HotStuffMessage) (hg : ¬s.replicaGone)
    (hr : (s.connections (.peer 0)).stage = .reading) {n : Nat} (hn : s.mailbox.length + n ≤ s.capacity) :
    let s' := (flood msg n).foldl step s
    s'.task = s.task ∧ s'.pending = s.pending ∧ s'.capacity = s.capacity ∧
      (s'.connections (.peer 0)).stage = .reading ∧ s'.mailbox.length = s.mailbox.length + n := by
  induction n
  case zero => exact ⟨rfl, rfl, rfl, hr, rfl⟩
  case succ n hi =>
    obtain ⟨ht, hp, hc, hr, hm⟩ := hi (by omega)
    simp only [flood, List.foldl_append, List.foldl_cons, List.foldl_nil]
    generalize (flood msg n).foldl step s = s' at *
    have there : ¬s'.replicaGone := by
      rw [replicaGone, ht, hp]
      exact hg
    rw [flood_round there (by omega) hr]
    exact ⟨ht, hp, hc, by simp [setStage, setConnection], by simp [setStage, setConnection, hm]; omega⟩

omit [Sha256] [Ed25519] in
-- The first leader hears 1024 times from one peer before its timer runs out.
theorem flood_halts :
    ∃ (_ : Sha256) (_ : Ed25519) (c : Config),
      let s := (flood (.newView .createGenesisQC 0 0 0) 1024).foldl step (.new c 1 { bytes := 4 })
      s.Listening ∧ s.capacity ≤ s.mailbox.length ∧ LeadsNext s.task.replica ∧
      ∀ es : List Event, Halted (s.step .timeout) (es.foldl step (s.step .timeout)) := by
  let _ := Sha256.encoding
  let _ := Ed25519.encoding
  let c := Config.ofSize 4
  refine ⟨.encoding, .encoding, c, ?_⟩
  have halts : ∀ s : Service, s.task = .new c 1 → s.pending = [] → s.capacity = 1024 → s.mailbox.length = 0 + 1024 →
      s.Listening ∧ s.capacity ≤ s.mailbox.length ∧ LeadsNext s.task.replica ∧
      ∀ es : List Event, Halted (s.step .timeout) (es.foldl step (s.step .timeout)) := by
    intro s ht hp hc hm
    have hl : s.Listening := ⟨by rw [ht]; rfl, hp⟩
    have hfull : s.capacity ≤ s.mailbox.length := by omega
    have hlead : LeadsNext s.task.replica := by
      rw [ht]
      exact ⟨⟨0, rfl⟩, _, rfl, rfl⟩
    exact ⟨hl, hfull, hlead, timeout_halts hl hfull hlead⟩
  obtain ⟨ht, hp, hc, _, hm⟩ := flood_mailbox (s := .new c 1 { bytes := 4 }) (n := 1024)
    (.newView .createGenesisQC 0 0 0) (by decide) rfl le_rfl
  exact halts _ ht hp hc hm

end Superliquid.Service

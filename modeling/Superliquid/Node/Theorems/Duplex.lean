import Mathlib.Data.List.Basic
import Superliquid.Node.Peering

namespace Superliquid.Peering

-- Of the two connections between a node and a peer, the one that the node has dialled or the other.
inductive Whose
  | mine
  | theirs
  deriving DecidableEq

def Whose.flip : Whose → Whose
  | mine   => theirs
  | theirs => mine

theorem Whose.forall_iff {P : Whose → Prop} : (∀ w, P w) ↔ P mine ∧ P theirs :=
  ⟨fun h => ⟨h _, h _⟩, fun h w => by cases w <;> simp [h]⟩

-- How a node stands with a peer. In `dialled` and `hosted` one of the two connections is registered, mine or
-- theirs, and the other is still to come. In `own` and `guest` it has come and was dropped. In the other cases
-- the node has found the end of the connection that it read from, and in `late` the other one came after that.
inductive Side
  | fresh
  | dialled
  | own
  | ownLost
  | hosted
  | hostedLost
  | guest
  | guestLost
  | late
  deriving DecidableEq

namespace Side

def confirmed : Side → Bool
  | fresh | hosted | hostedLost => false
  | _                           => true

def adopted : Side → Bool
  | fresh | dialled => false
  | _               => true

def registered : Side → Option Whose
  | dialled | own | late => some .mine
  | hosted | guest       => some .theirs
  | _                    => none

def reads : Side → Option Whose
  | own            => some .mine
  | hosted | guest => some .theirs
  | _              => none

def drops : Side → Whose → Bool
  | fresh, _ | dialled, _ | hosted, _ => false
  | own, w | hostedLost, w | late, w  => w = .theirs
  | guest, w                          => w = .mine
  | ownLost, _ | guestLost, _         => true

def first : Side → Option Whose
  | fresh                   => none
  | dialled | own | ownLost => some .mine
  | _                       => some .theirs

-- The ack for my connection arrives.
def confirm : Side → Side
  | fresh      => dialled
  | hosted     => guest
  | hostedLost => late
  | σ          => σ

-- Their connection is taken.
def adopt : Side → Side
  | fresh   => hosted
  | dialled => own
  | σ       => σ

def lose : Side → Side
  | own    => ownLost
  | hosted => hostedLost
  | guest  => guestLost
  | σ      => σ

-- One step of a node and a peer, as seen from the node.
inductive Moves : Side → Side → Side → Side → Prop
  | stay    : Moves σ τ σ τ
  | confirm : (σ.confirmed = false) → Moves σ τ σ.confirm τ
  | adopt   : (σ.adopted = false) → Moves σ τ σ.adopt τ
  | lose    : (σ.reads = some w) → (τ.drops w.flip) → Moves σ τ σ.lose τ
  | swap    : (Moves τ σ τ' σ') → Moves σ τ σ' τ'

-- All that a side waits for has come.
def complete (σ : Side) : Bool :=
  σ.confirmed && σ.adopted

-- The other end of what is read is still there.
def steady (σ τ : Side) : Bool :=
  match σ.reads with
  | some w => !τ.drops w.flip
  | none   => true

def hears (σ τ : Side) : Bool :=
  match σ.reads with
  | some w => τ.registered = some w.flip ∧ σ.drops w = false ∧ τ.drops w.flip = false
  | none   => false

-- What has been lost was dropped at the other end.
def Explained : Side → Side → Bool
  | ownLost, τ              => τ = own ∨ τ = ownLost
  | guestLost, τ            => τ = guest ∨ τ = guestLost
  | hostedLost, τ | late, τ => τ = guest
  | _, _                    => true

def Compatible (σ τ : Side) : Prop :=
  Explained σ τ ∧ Explained τ σ

instance {σ τ : Side} : Decidable (Compatible σ τ) :=
  inferInstanceAs (Decidable (_ ∧ _))

variable {σ τ : Side} {w : Whose}

theorem Compatible.symm (h : Compatible σ τ) : Compatible τ σ :=
  ⟨h.2, h.1⟩

theorem Compatible.confirm (h : Compatible σ τ) (hc : σ.confirmed = false) : Compatible σ.confirm τ := by
  cases σ <;> cases τ <;> revert h hc <;> decide

theorem Compatible.adopt (h : Compatible σ τ) (ha : σ.adopted = false) : Compatible σ.adopt τ := by
  cases σ <;> cases τ <;> revert h ha <;> decide

theorem Compatible.lose (h : Compatible σ τ) (hr : σ.reads = some w) (hd : τ.drops w.flip) : Compatible σ.lose τ := by
  cases σ <;> cases τ <;> cases w <;> revert h hr hd <;> decide

theorem Moves.compatible {σ' τ' : Side} (hm : Moves σ τ σ' τ') (h : Compatible σ τ) : Compatible σ' τ' := by
  induction hm
  case stay         => exact h
  case confirm hc   => exact h.confirm hc
  case adopt ha     => exact h.adopt ha
  case lose hr hd   => exact h.lose hr hd
  case swap hi      => exact (hi h.symm).symm

theorem Moves.eq_of_steady {σ' τ' : Side} (hm : Moves σ τ σ' τ') (hσ : σ.complete) (hτ : τ.complete)
    (hs : σ.steady τ) (hs' : τ.steady σ) : σ' = σ ∧ τ' = τ := by
  induction hm
  case stay => exact ⟨rfl, rfl⟩
  case confirm hc => simp [complete, hc] at hσ
  case adopt ha   => simp [complete, ha] at hσ
  case lose hr hd => simp [steady, hr, hd] at hs
  case swap hi    => exact (hi hτ hσ hs' hs).symm

-- Of two sides that have come to rest, both hear the other just if they have registered the same connection.
theorem Compatible.hears_iff (h : Compatible σ τ) (hσ : σ.complete) (hτ : τ.complete) (hs : σ.steady τ)
    (hs' : τ.steady σ) : σ.hears τ ∧ τ.hears σ ↔ σ.first = τ.first.map Whose.flip := by
  cases σ <;> cases τ <;> revert h hσ hτ hs hs' <;> decide

end Side

-- The connections between a node and a peer.
def socket (nodeId peerId : PeerId) : Whose → PeerSocket
  | .mine   => ⟨nodeId, peerId⟩
  | .theirs => ⟨peerId, nodeId⟩

theorem socket_flip (i j : PeerId) (w : Whose) : socket j i w.flip = socket i j w := by
  cases w <;> rfl

theorem socket_other {i j : PeerId} (h : i ≠ j) (w : Whose) : (socket i j w).other i = j := by
  cases w <;> simp [socket, PeerSocket.other, h.symm]

theorem socket_injective {i j j' : PeerId} {w w' : Whose} (hj : i ≠ j) (hj' : i ≠ j') :
    socket i j w = socket i j' w' ↔ j = j' ∧ w = w' := by
  cases w <;> cases w' <;> simp [socket, hj', hj.symm]

-- What a node has of a peer is summed up by a side.
structure Describes (nodeId peerId : PeerId) (e : Endpoint) (σ : Side) : Prop where
  dialing         : e.dialing peerId = .connected ↔ σ.confirmed
  handshakes      : e.handshakes peerId = .adopted ↔ σ.adopted
  peerConnections : e.peerConnections peerId = σ.registered.map (socket nodeId peerId)
  readers         : e.readers peerId = σ.reads.map (socket nodeId peerId)
  dropped         : ∀ w, e.dropped (socket nodeId peerId w) = σ.drops w
  first           : e.first peerId = σ.first.map (socket nodeId peerId)

-- The same for both ends.
def Pair (n : Network) (i j : PeerId) (σ τ : Side) : Prop :=
  Describes i j (n i) σ ∧ Describes j i (n j) τ

namespace Describes

variable {i j k : PeerId} {e : Endpoint} {σ τ : Side} {w : Whose}

theorem new : Describes i j .new .fresh where
  dialing         := by simp [Endpoint.new, Side.confirmed]
  handshakes      := by simp [Endpoint.new, Side.adopted]
  peerConnections := rfl
  readers         := rfl
  dropped _       := rfl
  first           := rfl

theorem setDialing {dialing : Dialing} (h : Describes i j e σ) (hb : e.dialing k ≠ .connected)
    (ha : dialing ≠ .connected) : Describes i j (e.setDialing k dialing) σ := by
  refine { h with dialing := ?_ }
  rw [← h.dialing]
  by_cases hk : j = k
  case pos => subst hk; simp [Endpoint.setDialing, ha, hb]
  case neg => simp [Endpoint.setDialing, hk]

theorem setHandshake {handshake : Handshake} {listener : Listener} (h : Describes i j e σ)
    (hb : e.handshakes k ≠ .adopted) (ha : handshake ≠ .adopted) :
    Describes i j { e.setHandshake k handshake with listener } σ := by
  refine { h with handshakes := ?_ }
  rw [← h.handshakes]
  by_cases hk : j = k
  case pos => subst hk; simp [Endpoint.setHandshake, ha, hb]
  case neg => simp [Endpoint.setHandshake, hk]

-- What is dropped is one of the two connections with one of the peers.
theorem update_socket (hj : i ≠ j) (hk : i ≠ k) {w' : Whose} {dropped : PeerSocket → Bool} :
    Function.update dropped (socket i k w) true (socket i j w') =
      (decide (j = k ∧ w' = w) || dropped (socket i j w')) := by
  by_cases h : socket i j w' = socket i k w
  case pos =>
    rw [h, Function.update_self]
    simp [(socket_injective hj hk).mp h]
  case neg =>
    rw [Function.update_of_ne h]
    simp [mt (socket_injective hj hk).mpr h]

theorem confirm (h : Describes i j e σ) (hij : i ≠ j) (hg : e.dialing j = .greeting) :
    σ.confirmed = false ∧ Describes i j (e.confirm i j) σ.confirm := by
  have hc : σ.confirmed = false := by simpa [hg] using h.dialing
  have hmine : (⟨i, j⟩ : PeerSocket) = socket i j .mine := rfl
  obtain ⟨_, hh, hp, hr, hd, hf⟩ := h
  refine ⟨hc, ?_⟩
  unfold Endpoint.confirm Endpoint.deduplicatePeerConnection Endpoint.drop Endpoint.setDialing
  rw [hp, hmine]
  cases σ <;> simp only [Side.confirmed, Bool.true_eq_false] at hc
  all_goals
    constructor <;> simp_all [update_socket hij hij, Side.confirm, Side.confirmed, Side.adopted, Side.registered,
      Side.reads, Side.drops, Side.first]

theorem adopt (h : Describes i j e σ) (hij : i ≠ j) (hl : e.listener = .acked j) (hg : e.handshakes j = .acked) :
    σ.adopted = false ∧ Describes i j (e.adopt i) σ.adopt := by
  have ha : σ.adopted = false := by simpa [hg] using h.handshakes
  have htheirs : (⟨j, i⟩ : PeerSocket) = socket i j .theirs := rfl
  obtain ⟨hc, _, hp, hr, hd, hf⟩ := h
  refine ⟨ha, ?_⟩
  simp only [Endpoint.adopt, hl]
  unfold Endpoint.deduplicatePeerConnection Endpoint.drop Endpoint.setHandshake
  rw [hp, htheirs]
  cases σ <;> simp only [Side.adopted, Bool.true_eq_false] at ha
  all_goals
    constructor <;> simp_all [update_socket hij hij, Side.adopt, Side.confirmed, Side.adopted, Side.registered,
      Side.reads, Side.drops, Side.first]

theorem lose (h : Describes i j e σ) (hij : i ≠ j) (hr : σ.reads = some w) :
    Describes i j (e.dropPeerSocket j (socket i j w)) σ.lose := by
  obtain ⟨hc, hh, hp, hr', hd, hf⟩ := h
  unfold Endpoint.dropPeerSocket Endpoint.drop
  simp only
  rw [hp]
  cases σ <;> simp only [Side.reads, reduceCtorEq, Option.some.injEq] at hr
  all_goals
    subst hr
    constructor <;> simp_all [update_socket hij hij, Whose.forall_iff, Side.lose, Side.confirmed, Side.adopted,
      Side.registered, Side.reads, Side.drops, Side.first]

theorem reads_of_readers (h : Describes i j e σ) (hij : i ≠ j) (hr : e.readers j = some (socket i j w)) :
    σ.reads = some w := by
  obtain ⟨w', hw, he⟩ := Option.map_eq_some_iff.mp (h.readers.symm.trans hr)
  rw [hw, ((socket_injective hij hij).mp he).2]

-- What is done about one peer leaves the others alone.
section Others

variable (h : Describes i j e σ) (hij : i ≠ j) (hik : i ≠ k) (hjk : j ≠ k)

include h hij hik hjk

theorem confirm_other : Describes i j (e.confirm i k) σ := by
  have hmine : (⟨i, k⟩ : PeerSocket) = socket i k .mine := rfl
  obtain ⟨hc, hh, hp, hr, hd, hf⟩ := h
  unfold Endpoint.confirm Endpoint.deduplicatePeerConnection Endpoint.drop Endpoint.setDialing
  rw [hmine]
  split
  all_goals constructor <;> simp [*, update_socket hij hik]

theorem adopt_other (hl : e.listener = .acked k) : Describes i j (e.adopt i) σ := by
  have htheirs : (⟨k, i⟩ : PeerSocket) = socket i k .theirs := rfl
  obtain ⟨hc, hh, hp, hr, hd, hf⟩ := h
  simp only [Endpoint.adopt, hl]
  unfold Endpoint.deduplicatePeerConnection Endpoint.drop Endpoint.setHandshake
  rw [htheirs]
  split
  all_goals constructor <;> simp [*, update_socket hij hik]

theorem lose_other (hk : Describes i k e τ) : Describes i j (e.dropPeerSocket k (socket i k w)) σ := by
  obtain ⟨hc, hh, hp, hr, hd, hf⟩ := h
  unfold Endpoint.dropPeerSocket Endpoint.drop
  simp only
  rw [hk.peerConnections]
  cases τ.registered
  all_goals constructor <;> simp [*, update_socket hij hik]

end Others

end Describes

namespace Network

variable {n : Network} {i j a b : PeerId} {σ τ : Side} {e : Endpoint}

theorem set_self : n.set i e i = e := by
  simp [set]

theorem set_of_ne (h : a ≠ i) : n.set i e a = n a := by
  simp [set, h]

-- A node that changes changes for one peer only.
theorem set_moves (hij : i ≠ j) (hab : a ≠ b) (hp : Pair n a b σ τ)
    (hmove : ∀ {σ τ}, Pair n i j σ τ → ∃ σ', Describes i j e σ' ∧ Side.Moves σ τ σ' τ)
    (hother : ∀ {k σ}, i ≠ k → k ≠ j → Describes i k (n i) σ → Describes i k e σ) :
    ∃ σ' τ', Pair (n.set i e) a b σ' τ' ∧ Side.Moves σ τ σ' τ' := by
  obtain ⟨hσ, hτ⟩ := hp
  by_cases ha : a = i
  case pos =>
    subst ha
    have hb : n.set a e b = n b := set_of_ne hab.symm
    by_cases hbj : b = j
    case pos =>
      subst hbj
      obtain ⟨σ', hσ', moves⟩ := hmove ⟨hσ, hτ⟩
      exact ⟨σ', τ, ⟨set_self.symm ▸ hσ', hb.symm ▸ hτ⟩, moves⟩
    case neg => exact ⟨σ, τ, ⟨set_self.symm ▸ hother hab hbj hσ, hb.symm ▸ hτ⟩, .stay⟩
  case neg =>
    have ha' : n.set i e a = n a := set_of_ne ha
    by_cases hb : b = i
    case pos =>
      subst hb
      by_cases haj : a = j
      case pos =>
        subst haj
        obtain ⟨τ', hτ', moves⟩ := hmove ⟨hτ, hσ⟩
        exact ⟨σ, τ', ⟨ha'.symm ▸ hσ, set_self.symm ▸ hτ'⟩, .swap moves⟩
      case neg => exact ⟨σ, τ, ⟨ha'.symm ▸ hσ, set_self.symm ▸ hother hab.symm haj hτ⟩, .stay⟩
    case neg => exact ⟨σ, τ, ⟨ha'.symm ▸ hσ, (set_of_ne hb).symm ▸ hτ⟩, .stay⟩

-- The same where no peer notices.
theorem set_stays (hab : a ≠ b) (hp : Pair n a b σ τ)
    (hsame : ∀ {k σ}, i ≠ k → Describes i k (n i) σ → Describes i k e σ) :
    ∃ σ' τ', Pair (n.set i e) a b σ' τ' ∧ Side.Moves σ τ σ' τ' := by
  have hi : i ≠ i + 1 := by simp
  exact set_moves hi hab hp (fun hp => ⟨_, hsame hi hp.1, .stay⟩) fun hk _ => hsame hk

end Network

-- A listener has acked one connection at a time, no node dials itself, and no attempt counts beyond 3.
structure Sane (nodeId : PeerId) (e : Endpoint) : Prop where
  listener : ∀ j, e.listener = .acked j ↔ e.handshakes j = .acked
  alone    : ∃ counts, e.dialing nodeId = .connecting counts
  apart    : e.handshakes nodeId = .waiting
  quiet    : e.readers nodeId = none
  counts   : ∀ j counts, e.dialing j = .connecting counts → counts ≤ 3

theorem Endpoint.backoff_ok {counts : Nat} (h : counts ≤ 3) :
    ∃ sleep counts', backoff counts = .ok (sleep, counts') ∧ counts' ≤ 3 := by
  rcases counts with _ | _ | _ | _ | counts
  case succ.succ.succ.succ => omega
  all_goals exact ⟨_, _, rfl, by decide⟩

theorem Describes.connectFailed {i j k : PeerId} {e : Endpoint} {σ : Side} (h : Describes i j e σ) :
    Describes i j (e.connectFailed k) σ := by
  unfold Endpoint.connectFailed
  split
  case h_2 => exact h
  case h_1 hk =>
    split
    case h_1 => exact h.setDialing (by simp [hk]) (by simp)
    case h_2 => exact h.setDialing (by simp [hk]) (by simp)

theorem Describes.connect {i j k : PeerId} {e : Endpoint} {σ : Side} (h : Describes i j e σ) :
    Describes i j (e.connect k) σ := by
  unfold Endpoint.connect
  split
  case h_1 hk => exact h.setDialing (by simp [hk]) (by simp)
  case h_2    => exact h

namespace Sane

variable {i k : PeerId} {e : Endpoint}

theorem new : Sane i .new where
  listener := by simp [Endpoint.new]
  alone    := ⟨1, rfl⟩
  apart    := rfl
  quiet    := rfl
  counts _ := by simp [Endpoint.new]

theorem ne_of_dialing (h : Sane i e) (hd : ∀ counts, e.dialing k ≠ .connecting counts) : i ≠ k := by
  rintro rfl
  obtain ⟨counts, hc⟩ := h.alone
  exact hd counts hc

theorem ne_of_handshakes (h : Sane i e) (hd : e.handshakes k ≠ .waiting) : i ≠ k := by
  rintro rfl
  exact hd h.apart

theorem setDialing {dialing : Dialing} (h : Sane i e) (hik : i ≠ k)
    (hc : ∀ counts, dialing = .connecting counts → counts ≤ 3) : Sane i (e.setDialing k dialing) := by
  refine { h with alone := ?_, counts := fun j counts hj => ?_ }
  · simpa [Endpoint.setDialing, hik] using h.alone
  · by_cases hjk : j = k
    case pos =>
      subst hjk
      exact hc counts (by simpa [Endpoint.setDialing] using hj)
    case neg => exact h.counts j counts (by simpa [Endpoint.setDialing, hjk] using hj)

theorem connectFailed (h : Sane i e) (hik : i ≠ k) : Sane i (e.connectFailed k) := by
  unfold Endpoint.connectFailed
  split
  case h_2 => exact h
  case h_1 counts hk =>
    obtain ⟨sleep, counts', hb, hc⟩ := Endpoint.backoff_ok (h.counts k counts hk)
    simp only [hb]
    exact h.setDialing hik (by simpa using hc)

theorem connect (h : Sane i e) (hik : i ≠ k) : Sane i (e.connect k) := by
  unfold Endpoint.connect
  split
  case h_1 => exact h.setDialing hik (by simp)
  case h_2 => exact h

theorem handshake (h : Sane i e) (hik : i ≠ k) (hl : e.listener = .accepting) : Sane i (e.handshake k) := by
  refine { h with listener := fun j => ?_, apart := ?_ }
  · have hj : e.handshakes j ≠ .acked := by simp [← h.listener, hl]
    by_cases hjk : j = k
    case pos => simp [Endpoint.handshake, Endpoint.setHandshake, hjk]
    case neg => simp [Endpoint.handshake, Endpoint.setHandshake, hjk, hj, Ne.symm hjk]
  · simpa [Endpoint.handshake, Endpoint.setHandshake, hik] using h.apart

theorem deduplicatePeerConnection {socket : PeerSocket} (h : Sane i e) :
    Sane i (e.deduplicatePeerConnection socket k).1 := by
  unfold Endpoint.deduplicatePeerConnection
  split
  case h_1 => exact { h with }
  case h_2 => exact { h with }

theorem confirm (h : Sane i e) (hik : i ≠ k) : Sane i (e.confirm i k) :=
  h.deduplicatePeerConnection.setDialing hik (by simp)

theorem adopt (h : Sane i e) : Sane i (e.adopt i) := by
  unfold Endpoint.adopt
  split
  case h_2 => exact h
  case h_1 k hl =>
    have hacked := (h.listener k).mp hl
    have hik : i ≠ k := h.ne_of_handshakes (by simp [hacked])
    have h' : Sane i (e.deduplicatePeerConnection ⟨k, i⟩ k).1 := h.deduplicatePeerConnection
    have hl' : (e.deduplicatePeerConnection ⟨k, i⟩ k).1.listener = .acked k := by
      unfold Endpoint.deduplicatePeerConnection
      split <;> exact hl
    have hreaders : (e.deduplicatePeerConnection ⟨k, i⟩ k).1.readers = e.readers := by
      unfold Endpoint.deduplicatePeerConnection
      split <;> rfl
    generalize e.deduplicatePeerConnection ⟨k, i⟩ k = d at *
    refine { h' with listener := fun j => ?_, apart := ?_, quiet := ?_ }
    · by_cases hjk : j = k
      case pos => simp [Endpoint.setHandshake, hjk]
      case neg =>
        have hj : d.1.handshakes j ≠ .acked := by simp [← h'.listener, hl', Ne.symm hjk]
        simp [Endpoint.setHandshake, hjk, hj]
    · simpa [Endpoint.setHandshake, hik] using h'.apart
    · simpa [Endpoint.setHandshake, hik] using h'.quiet

theorem dropPeerSocket {socket : PeerSocket} (h : Sane i e) : Sane i (e.dropPeerSocket k socket) := by
  have quiet : Function.update e.readers k none i = none := by
    by_cases hik : i = k
    case pos => simp [hik]
    case neg => simpa [hik] using h.quiet
  unfold Endpoint.dropPeerSocket
  simp only
  split
  case h_1 => exact { h with quiet }
  case h_2 => exact { h with quiet }

end Sane

section Moves

variable {n : Network} {i j a b : PeerId} {σ τ : Side}

-- Whatever happens, a node and a peer move as two sides do.
theorem step_moves (h : ∀ i, Sane i (n i)) (hpairs : ∀ i j, i ≠ j → ∃ σ τ, Pair n i j σ τ)
    (hab : a ≠ b) (hp : Pair n a b σ τ)
    (e : Event) : ∃ σ' τ', Pair (n.step e) a b σ' τ' ∧ Side.Moves σ τ σ' τ' := by
  have stay : ∃ σ' τ', Pair n a b σ' τ' ∧ Side.Moves σ τ σ' τ' := ⟨σ, τ, hp, .stay⟩
  cases e <;> simp only [Network.step]
  case connectFailed =>
    split
    case isTrue  => exact Network.set_stays hab hp fun _ hd => hd.connectFailed
    case isFalse => exact stay
  case connect =>
    split
    case isTrue  => exact Network.set_stays hab hp fun _ hd => hd.connect
    case isFalse => exact stay
  case accept =>
    split
    case isTrue hg  => exact Network.set_stays hab hp fun _ hd => hd.setHandshake (by simp [hg]) (by simp)
    case isFalse => exact stay
  case adopt i =>
    cases hl : (n i).listener
    case acked j =>
      have hacked := ((h i).listener j).mp hl
      have hij : i ≠ j := (h i).ne_of_handshakes (by simp [hacked])
      refine Network.set_moves hij hab hp (fun hp => ?_) fun hik hkj hd => hd.adopt_other hik hij hkj hl
      obtain ⟨ha, hd⟩ := hp.1.adopt hij hl hacked
      exact ⟨_, hd, .adopt ha⟩
    all_goals
      refine Network.set_stays hab hp fun _ hd => ?_
      simpa [Endpoint.adopt, hl] using hd
  case confirm i j =>
    split
    case isFalse => exact stay
    case isTrue hg =>
      have hij : i ≠ j := (h i).ne_of_dialing (by simp [hg.1])
      refine Network.set_moves hij hab hp (fun hp => ?_) fun hik hkj hd => hd.confirm_other hik hij hkj
      obtain ⟨hc, hd⟩ := hp.1.confirm hij hg.1
      exact ⟨_, hd, .confirm hc⟩
  case eof i j =>
    split
    case h_2 => exact stay
    case h_1 socket hr =>
      split
      case isFalse => exact stay
      case isTrue heof =>
        have hij : i ≠ j := by
          rintro rfl
          simp [(h i).quiet] at hr
        obtain ⟨_, _, hi, _⟩ := hpairs i j hij
        obtain ⟨w, _, rfl⟩ := Option.map_eq_some_iff.mp (hi.readers.symm.trans hr)
        refine Network.set_moves hij hab hp (fun hp => ?_) fun hik hkj hd => hd.lose_other hik hij hkj hi
        have hreads := hp.1.reads_of_readers hij hr
        refine ⟨_, hp.1.lose hij hreads, .lose hreads ?_⟩
        rw [Network.Eof, socket_other hij, ← socket_flip, hp.2.dropped] at heof
        exact heof
  case intrude =>
    split
    case isTrue  => exact Network.set_stays hab hp fun _ hd => { hd with }
    case isFalse => exact stay
  case reset =>
    split
    case isTrue hg => exact Network.set_stays hab hp fun _ hd => hd.setDialing (by simp [hg]) (by simp)
    case isFalse   => exact stay

end Moves

theorem Sane.step {n : Network} (h : ∀ i, Sane i (n i)) (e : Event) (i : PeerId) : Sane i (n.step e i) := by
  have set {k : PeerId} {e' : Endpoint} (he : Sane k e') : Sane i (n.set k e' i) := by
    by_cases hi : i = k
    case pos =>
      subst hi
      exact Network.set_self.symm ▸ he
    case neg => exact (Network.set_of_ne hi).symm ▸ h i
  cases e <;> simp only [Network.step]
  case adopt k => exact set (h k).adopt
  case connectFailed k j =>
    split
    case isTrue hd => exact set ((h k).connectFailed hd.1)
    case isFalse   => exact h i
  case connect k j =>
    split
    case isTrue hd => exact set ((h k).connect hd.1.1)
    case isFalse   => exact h i
  case accept j k =>
    split
    case isTrue hg => exact set ((h k).handshake ((h j).ne_of_dialing (by simp [hg])).symm hg.1)
    case isFalse   => exact h i
  case confirm k j =>
    split
    case isTrue hg => exact set ((h k).confirm ((h k).ne_of_dialing (by simp [hg])))
    case isFalse   => exact h i
  case eof k j =>
    cases (n k).readers j
    case none => exact h i
    case some =>
      simp only
      split
      case isTrue  => exact set (h k).dropPeerSocket
      case isFalse => exact h i
  case intrude k =>
    split
    case isFalse => exact h i
    case isTrue hl =>
      refine set { h k with listener := fun j => ?_ }
      simp [← (h k).listener, hl]
  case reset k j =>
    split
    case isTrue hg => exact set ((h k).setDialing ((h k).ne_of_dialing (by simp [hg])) (by simp))
    case isFalse   => exact h i

structure PeeringInvariant (n : Network) : Prop where
  sane  : ∀ i, Sane i (n i)
  pairs : ∀ i j, i ≠ j → ∃ σ τ, Pair n i j σ τ ∧ Side.Compatible σ τ

namespace PeeringInvariant

variable {n : Network} {i j : PeerId} {σ τ : Side}

theorem new : PeeringInvariant .new where
  sane _      := .new
  pairs _ _ _ := ⟨.fresh, .fresh, ⟨.new, .new⟩, rfl, rfl⟩

theorem moves (h : PeeringInvariant n) (hij : i ≠ j) (hp : Pair n i j σ τ) (e : Event) :
    ∃ σ' τ', Pair (n.step e) i j σ' τ' ∧ Side.Moves σ τ σ' τ' := by
  refine step_moves h.sane (fun i j hij => ?_) hij hp e
  obtain ⟨σ, τ, hp, _⟩ := h.pairs i j hij
  exact ⟨σ, τ, hp⟩

theorem step (h : PeeringInvariant n) (e : Event) : PeeringInvariant (n.step e) where
  sane := Sane.step h.sane e
  pairs i j hij := by
    obtain ⟨σ, τ, hp, hc⟩ := h.pairs i j hij
    obtain ⟨σ', τ', hp', moves⟩ := h.moves hij hp e
    exact ⟨σ', τ', hp', moves.compatible hc⟩

theorem run (es : List Event) : PeeringInvariant (es.foldl Network.step .new) := by
  induction es using List.reverseRecOn
  case nil => exact new
  case append_singleton es e hi =>
    rw [List.foldl_append]
    exact hi.step e

end PeeringInvariant

namespace Network

-- What the peer sends is read.
def Hears (n : Network) (nodeId peerId : PeerId) : Prop :=
  ∃ socket, (n peerId).peerConnections nodeId = some socket ∧ (n nodeId).readers peerId = some socket ∧
    (n nodeId).dropped socket = false ∧ (n peerId).dropped socket = false

def Duplex (n : Network) (i j : PeerId) : Prop :=
  n.Hears i j ∧ n.Hears j i

-- Both connections between two nodes are through, and no end is left to be found.
structure Settled (n : Network) (i j : PeerId) : Prop where
  connected : (n i).dialing j = .connected ∧ (n j).dialing i = .connected
  adopted   : (n i).handshakes j = .adopted ∧ (n j).handshakes i = .adopted
  eof       : (∀ socket, (n i).readers j = some socket → ¬n.Eof i socket) ∧
    ∀ socket, (n j).readers i = some socket → ¬n.Eof j socket

section Pair

variable {n : Network} {i j : PeerId} {σ τ : Side}

theorem hears_iff_of_pair (hp : Pair n i j σ τ) (hij : i ≠ j) : n.Hears i j ↔ σ.hears τ := by
  obtain ⟨hσ, hτ⟩ := hp
  simp only [Hears, hσ.readers, hτ.peerConnections, Side.hears]
  cases σ.reads
  case none => simp
  case some w =>
    have hflip : (τ.registered.map (socket j i)) = some (socket i j w) ↔ τ.registered = some w.flip := by
      rw [← socket_flip, Option.map_eq_some_iff]
      constructor
      · rintro ⟨w', hw', he⟩
        rw [hw', ((socket_injective hij.symm hij.symm).mp he).2]
      · intro h
        exact ⟨_, h, rfl⟩
    have hdropped : (n j).dropped (socket i j w) = τ.drops w.flip := by
      rw [← socket_flip, hτ.dropped]
    constructor
    · rintro ⟨_, hr, he, hd, hd'⟩
      cases he
      exact decide_eq_true ⟨hflip.mp hr, hσ.dropped w ▸ hd, hdropped ▸ hd'⟩
    · intro h
      obtain ⟨hr, hd, hd'⟩ := of_decide_eq_true h
      exact ⟨_, hflip.mpr hr, rfl, (hσ.dropped w).trans hd, hdropped.trans hd'⟩

theorem steady_iff_of_pair (hp : Pair n i j σ τ) (hij : i ≠ j) :
    (∀ socket, (n i).readers j = some socket → ¬n.Eof i socket) ↔ σ.steady τ := by
  obtain ⟨hσ, hτ⟩ := hp
  simp only [hσ.readers, Side.steady]
  cases σ.reads
  case none => simp
  case some w =>
    simp only [Option.map_some, Option.some.injEq, forall_eq', Eof, socket_other hij]
    rw [← socket_flip, hτ.dropped]
    simp

theorem first_iff_of_pair (hp : Pair n i j σ τ) (hij : i ≠ j) :
    (n i).first j = (n j).first i ↔ σ.first = τ.first.map Whose.flip := by
  obtain ⟨hσ, hτ⟩ := hp
  rw [hσ.first, hτ.first]
  cases σ.first <;> cases τ.first
  case some.some w w' =>
    simp only [Option.map_some, Option.some.injEq]
    rw [← socket_flip, socket_injective hij.symm hij.symm]
    cases w <;> cases w' <;> simp [Whose.flip]
  all_goals simp

theorem Settled.sides (h : n.Settled i j) (hp : Pair n i j σ τ) (hij : i ≠ j) :
    σ.complete ∧ τ.complete ∧ σ.steady τ ∧ τ.steady σ := by
  have hσ : σ.complete := by
    simp [Side.complete, ← hp.1.dialing, ← hp.1.handshakes, h.connected.1, h.adopted.1]
  have hτ : τ.complete := by
    simp [Side.complete, ← hp.2.dialing, ← hp.2.handshakes, h.connected.2, h.adopted.2]
  exact ⟨hσ, hτ, (steady_iff_of_pair hp hij).mp h.eof.1, (steady_iff_of_pair ⟨hp.2, hp.1⟩ hij.symm).mp h.eof.2⟩

-- Where two nodes have settled, nothing changes between them any more.
theorem Settled.stays (hs : n.Settled i j) (h : PeeringInvariant n) (hij : i ≠ j) (hp : Pair n i j σ τ)
    (es : List Event) : Pair (es.foldl step n) i j σ τ := by
  obtain ⟨hσ, hτ, hs, hs'⟩ := hs.sides hp hij
  clear * - h hij hp hσ hτ hs hs'
  induction es generalizing n
  case nil => exact hp
  case cons e es hi =>
    obtain ⟨σ', τ', hp', moves⟩ := h.moves hij hp e
    obtain ⟨rfl, rfl⟩ := moves.eq_of_steady hσ hτ hs hs'
    exact hi (h.step e) hp'

end Pair

-- Two nodes that dial each other can talk both ways for good, or never both ways again. What counts is whether
-- they have registered the same of their two connections first.
theorem duplex_iff_first_eq (es es' : List Event) {i j : PeerId} (hij : i ≠ j) :
    let n := es.foldl step .new
    n.Settled i j → ((es'.foldl step n).Duplex i j ↔ (n i).first j = (n j).first i) := by
  intro n hs
  have h := PeeringInvariant.run es
  obtain ⟨σ, τ, hp, hc⟩ := h.pairs i j hij
  obtain ⟨hσ, hτ, hst, hst'⟩ := hs.sides hp hij
  have hp' := hs.stays h hij hp es'
  rw [first_iff_of_pair hp hij, ← hc.hears_iff hσ hτ hst hst', Duplex, hears_iff_of_pair hp' hij,
    hears_iff_of_pair ⟨hp'.2, hp'.1⟩ hij.symm]

-- Both listeners are quick: each registers the connection that the other has dialled.
def crossed : List Event := [
  .connect 0 1, .connect 1 0, .accept 0 1, .accept 1 0, .adopt 0, .adopt 1,
  .confirm 0 1, .confirm 1 0, .eof 0 1, .eof 1 0
]

-- The same, but one of the two comes first.
def inTurn : List Event := [
  .connect 0 1, .accept 0 1, .adopt 1, .confirm 0 1,
  .connect 1 0, .accept 1 0, .adopt 0, .confirm 1 0
]

theorem settled_of_quiet {n : Network} {i j : PeerId}
    (hd : (n i).dialing j = .connected ∧ (n j).dialing i = .connected)
    (hh : (n i).handshakes j = .adopted ∧ (n j).handshakes i = .adopted)
    (hi : ((n i).readers j).all fun socket => !(n (socket.other i)).dropped socket)
    (hj : ((n j).readers i).all fun socket => !(n (socket.other j)).dropped socket) : n.Settled i j := by
  refine ⟨hd, hh, fun socket hr => ?_, fun socket hr => ?_⟩
  · simpa [hr, Eof] using hi
  · simpa [hr, Eof] using hj

theorem crossed_cut_off :
    (inTurn.foldl step .new).Duplex 0 1 ∧
    (crossed.foldl step .new).Settled 0 1 ∧
      ∀ es : List Event, ¬(es.foldl step (crossed.foldl step .new)).Duplex 0 1 := by
  have settled : (inTurn.foldl step .new).Settled 0 1 :=
    settled_of_quiet (by decide) (by decide) (by decide) (by decide)
  have settled' : (crossed.foldl step .new).Settled 0 1 :=
    settled_of_quiet (by decide) (by decide) (by decide) (by decide)
  refine ⟨(duplex_iff_first_eq inTurn [] (by decide) settled).mpr (by decide), settled', fun es h => ?_⟩
  exact absurd ((duplex_iff_first_eq crossed es (by decide) settled').mp h) (by decide)

-- A node that does not listen any more, and has not taken the connection of a peer before.
structure Deaf (n : Network) (nodeId peerId : PeerId) : Prop where
  listener   : (n nodeId).listener = .closed
  handshakes : (n nodeId).handshakes peerId ≠ .adopted
  readers    : (n nodeId).readers peerId = none

namespace Deaf

variable {n : Network} {i j : PeerId}

theorem of_closed (h : PeeringInvariant n) (hl : (n i).listener = .closed) (hj : (n i).handshakes j ≠ .adopted) :
    n.Deaf i j := by
  refine ⟨hl, hj, ?_⟩
  by_cases hij : i = j
  case pos => exact hij ▸ (h.sane i).quiet
  case neg =>
    obtain ⟨σ, τ, hp, _⟩ := h.pairs i j hij
    have ha : ¬σ.adopted := by rwa [← hp.1.handshakes]
    rw [hp.1.readers]
    cases σ <;> simp_all [Side.adopted, Side.reads]

theorem set {k : PeerId} {e : Endpoint} (h : n.Deaf i j)
    (he : k = i → e.listener = (n i).listener ∧ e.handshakes = (n i).handshakes ∧
      (e.readers j = (n i).readers j ∨ e.readers j = none)) : (n.set k e).Deaf i j := by
  by_cases hk : k = i
  case neg =>
    have hi : n.set k e i = n i := set_of_ne (Ne.symm hk)
    exact ⟨hi ▸ h.listener, hi ▸ h.handshakes, hi ▸ h.readers⟩
  case pos =>
    obtain ⟨hl, hh, hr⟩ := he hk
    subst hk
    refine ⟨by rw [set_self, hl, h.listener], by rw [set_self, hh]; exact h.handshakes, ?_⟩
    rw [set_self]
    exact hr.elim (fun hr => hr.trans h.readers) id

theorem step (h : n.Deaf i j) (e : Event) : (n.step e).Deaf i j := by
  cases e <;> simp only [Network.step]
  case connectFailed =>
    split
    case isFalse => exact h
    case isTrue  =>
      refine h.set fun hk => ?_
      subst hk
      unfold Endpoint.connectFailed
      split
      case h_1 => split <;> exact ⟨rfl, rfl, .inl rfl⟩
      case h_2 => exact ⟨rfl, rfl, .inl rfl⟩
  case connect =>
    split
    case isFalse => exact h
    case isTrue  =>
      refine h.set fun hk => ?_
      subst hk
      unfold Endpoint.connect
      split <;> exact ⟨rfl, rfl, .inl rfl⟩
  case accept =>
    split
    case isFalse => exact h
    case isTrue hg =>
      refine h.set fun hk => ?_
      subst hk
      simp [h.listener] at hg
  case adopt =>
    refine h.set fun hk => ?_
    subst hk
    simp [Endpoint.adopt, h.listener]
  case confirm =>
    split
    case isFalse => exact h
    case isTrue  =>
      refine h.set fun hk => ?_
      subst hk
      unfold Endpoint.confirm Endpoint.deduplicatePeerConnection
      split <;> exact ⟨rfl, rfl, .inl rfl⟩
  case eof k k' =>
    split
    case h_2 => exact h
    case h_1 socket _ =>
      split
      case isFalse => exact h
      case isTrue  =>
        refine h.set fun hk => ?_
        subst hk
        have readers : Function.update (n k).readers k' none j = (n k).readers j ∨
            Function.update (n k).readers k' none j = none := by
          by_cases hj : j = k'
          case pos => exact .inr (by simp [hj])
          case neg => exact .inl (by simp [hj])
        unfold Endpoint.dropPeerSocket
        simp only
        split <;> exact ⟨rfl, rfl, readers⟩
  case intrude =>
    split
    case isFalse => exact h
    case isTrue hg =>
      refine h.set fun hk => ?_
      subst hk
      simp [h.listener] at hg
  case reset =>
    split
    case isFalse => exact h
    case isTrue  =>
      refine h.set fun hk => ?_
      subst hk
      exact ⟨rfl, rfl, .inl rfl⟩

theorem run (h : n.Deaf i j) (es : List Event) : (es.foldl Network.step n).Deaf i j := by
  induction es generalizing n
  case nil          => exact h
  case cons e es hi => exact hi (h.step e)

end Deaf

-- The first connection to a node that does not start with a hello is the last one that the node takes. What it
-- has not heard from until then it never hears.
theorem not_hears_of_closed (es es' : List Event) (i j : PeerId) :
    let n := es.foldl step .new
    (n i).listener = .closed → (n i).handshakes j ≠ .adopted → ¬(es'.foldl step n).Hears i j := by
  intro n hl hj hears
  have deaf := (Deaf.of_closed (PeeringInvariant.run es) hl hj).run es'
  obtain ⟨socket, _, hr, _⟩ := hears
  exact absurd (deaf.readers.symm.trans hr) (by simp)

theorem not_hears_of_intruder :
    let n := [Event.intrude 0].foldl step .new
    (n 0).listener = .closed ∧ ∀ es : List Event, ¬(es.foldl step n).Hears 0 1 :=
  ⟨by decide, fun es => not_hears_of_closed [.intrude 0] es 0 1 (by decide) (by decide)⟩

end Network
end Superliquid.Peering

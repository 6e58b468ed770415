import Mathlib.Data.List.Perm.Basic
import Superliquid.Hotstuff.MessageWindow

namespace Superliquid

namespace MessageWindow

-- The messages of a view, none if the view is not in the window.
def ofView (w : MessageWindow) (view : Nat) : List HotStuffMessage :=
  if view < w.lowestView then [] else (w.messages[view - w.lowestView]?).getD []

variable {w w' : MessageWindow} {view : Nat} {msg : HotStuffMessage}

-- A lookup overflows as soon as the window reaches up to the last view there is.
theorem getMessagesForView_eq (h : w.lowestView ≤ view) :
    w.getMessagesForView view =
      if w.lowestView + w.messages.length < 2 ^ 64 then .ok w.messages[view - w.lowestView]?
      else .error .overflow := by
  unfold getMessagesForView U64.add Checked.fit
  rw [if_neg (Nat.not_lt.mpr h)]
  split
  case isFalse => rfl
  case isTrue =>
    rw [Checked.ok_bind]
    split
    case isFalse => rfl
    case isTrue hv =>
      rw [List.getElem?_eq_none (by omega)]
      rfl

theorem getMessagesForView_none (h : view < w.lowestView) : w.getMessagesForView view = .ok none := by
  simp [getMessagesForView, h, pure, Except.pure]

theorem ofView_eq {msgs : List HotStuffMessage} (h : w.getMessagesForView view = .ok (some msgs)) :
    w.ofView view = msgs := by
  by_cases hv : view < w.lowestView
  case pos => simp [getMessagesForView_none hv] at h
  case neg =>
    rw [getMessagesForView_eq (Nat.le_of_not_lt hv)] at h
    split at h
    case isTrue  => simp_all [ofView]
    case isFalse => simp at h

theorem push_lowestView : (w.push msg).lowestView = w.lowestView := by
  simp only [push]
  split
  · rfl
  · split <;> rfl

theorem push_messages (h : w.lowestView ≤ msg.getViewNumber) (i : Nat) :
    ((w.push msg).messages[i]?).getD [] =
      (w.messages[i]?).getD [] ++ if i = msg.getViewNumber - w.lowestView then [msg] else [] := by
  simp only [push, Nat.not_lt.mpr h, if_false]
  generalize msg.getViewNumber - w.lowestView = index
  split
  case h_1 vector hs =>
    rw [List.getElem?_set]
    grind
  case h_2 hs =>
    have hlen := List.getElem?_eq_none_iff.mp hs
    grind

theorem push_length (h : w.lowestView ≤ msg.getViewNumber) :
    w.lowestView + (w.push msg).messages.length = max (w.lowestView + w.messages.length) (msg.getViewNumber + 1) := by
  simp only [push, Nat.not_lt.mpr h, if_false]
  split
  case h_1 vector hs =>
    have ⟨hlen, _⟩ := List.getElem?_eq_some_iff.mp hs
    simp
    omega
  case h_2 hs =>
    have hlen := List.getElem?_eq_none_iff.mp hs
    simp
    omega

theorem push_of_lt (h : msg.getViewNumber < w.lowestView) : w.push msg = w := by
  simp [push, h]

theorem ofView_push_of_le (h : w.lowestView ≤ msg.getViewNumber) (view : Nat) :
    (w.push msg).ofView view = w.ofView view ++ if view = msg.getViewNumber then [msg] else [] := by
  simp only [ofView, push_lowestView, push_messages h]
  by_cases hv : view < w.lowestView
  case pos =>
    have : view ≠ msg.getViewNumber := by omega
    simp [hv, this]
  case neg =>
    have : view - w.lowestView = msg.getViewNumber - w.lowestView ↔ view = msg.getViewNumber := by omega
    simp [hv, this]

theorem ofView_push (w : MessageWindow) (msg : HotStuffMessage) (view : Nat) :
    (w.push msg).ofView view = w.ofView view ∨
    view = msg.getViewNumber ∧ (w.push msg).ofView view = w.ofView view ++ [msg] := by
  by_cases hl : w.lowestView ≤ msg.getViewNumber
  case neg => left; rw [push_of_lt (Nat.not_le.mp hl)]
  case pos =>
    rw [ofView_push_of_le hl]
    by_cases hv : view = msg.getViewNumber
    case pos => right; simp [hv]
    case neg => left; simp [hv]

-- The window that is left from a view on.
def dropBefore (w : MessageWindow) (view : Nat) : MessageWindow where
  messages := w.messages.drop (view - w.lowestView)
  lowestView := max w.lowestView view

theorem pruneBeforeView_eq (h : w.lowestView + w.messages.length < 2 ^ 64) (view : Nat) :
    w.pruneBeforeView view = .ok (w.dropBefore view) := by
  unfold pruneBeforeView dropBefore U64.add Checked.fit
  split
  case isTrue hv =>
    rw [Nat.sub_eq_zero_of_le hv.le, List.drop_zero, max_eq_left hv.le]
    rfl
  case isFalse hv =>
    rw [Checked.ok_bind, max_eq_right (Nat.le_of_not_lt hv)]
    split
    case isFalse => rfl
    case isTrue hv' =>
      rw [List.drop_eq_nil_of_le (by omega)]
      rfl

theorem pruneBeforeView_dropped {v : Nat} (h : w.pruneBeforeView v = .ok w') : w' = w ∨ w' = w.dropBefore v := by
  by_cases hl : w.lowestView + w.messages.length < 2 ^ 64
  case pos =>
    rw [pruneBeforeView_eq hl] at h
    cases h
    exact .inr rfl
  case neg =>
    unfold pruneBeforeView U64.add Checked.fit at h
    split at h
    case isTrue  => cases h; exact .inl rfl
    case isFalse => cases h

theorem ofView_dropBefore (w : MessageWindow) (v : Nat) :
    (w.dropBefore v).ofView view = if view < v then [] else w.ofView view := by
  simp only [ofView, dropBefore, List.getElem?_drop, lt_max_iff]
  by_cases hl : view < w.lowestView
  case pos => simp [hl]
  case neg =>
    by_cases hv : view < v
    case pos => simp [hl, hv]
    case neg =>
      have : v - w.lowestView + (view - max w.lowestView v) = view - w.lowestView := by omega
      simp [hl, hv, this]

theorem ofView_pruneBeforeView {v : Nat} (h : w.pruneBeforeView v = .ok w') (view : Nat) :
    w'.ofView view = w.ofView view ∨ w'.ofView view = [] := by
  rcases pruneBeforeView_dropped h with rfl | rfl
  · exact .inl rfl
  · rw [ofView_dropBefore]
    split
    · exact .inr rfl
    · exact .inl rfl

namespace InPlace

theorem pad_eq (messages : List (List HotStuffMessage)) (index : Nat) :
    pad messages index = messages ++ List.replicate (index - messages.length) [] := by
  fun_induction pad
  case case1 messages h hi =>
    have : index - messages.length = index - (messages.length + 1) + 1 := by omega
    rw [hi, this, List.replicate_succ]
    simp
  case case2 messages h => simp [Nat.sub_eq_zero_of_le (Nat.le_of_not_lt h)]

theorem push_eq (w : MessageWindow) (msg : HotStuffMessage) :
    push w msg = .ok (decide (w.lowestView ≤ msg.getViewNumber), w.push msg) := by
  unfold push MessageWindow.push
  by_cases h : msg.getViewNumber < w.lowestView
  case pos => simp [h, Nat.not_le.mpr h, pure, Except.pure]
  case neg =>
    have hle := Nat.le_of_not_lt h
    simp only [h, if_false, Checked.sub_eq_ok hle, Checked.ok_bind, hle, decide_true]
    cases hs : w.messages[msg.getViewNumber - w.lowestView]?
    case some => rfl
    case none =>
      have hlen := List.getElem?_eq_none_iff.mp hs
      have hpad : (w.messages ++ List.replicate (msg.getViewNumber - w.lowestView - w.messages.length) []).length =
          msg.getViewNumber - w.lowestView := by
        simp
        omega
      dsimp only
      rw [insert, pad_eq, if_pos hpad.ge, Checked.ok_bind]
      nth_rewrite 2 [← hpad]
      rw [List.insertIdx_length_self]
      rfl

theorem pruneBeforeView_eq (w : MessageWindow) (view : Nat) :
    pruneBeforeView w view = w.pruneBeforeView view := by
  unfold pruneBeforeView MessageWindow.pruneBeforeView
  split
  case isTrue => rfl
  case isFalse h =>
    refine Checked.bind_congr fun highest hh => ?_
    have ⟨_, hh⟩ := U64.add_ok.mp hh
    split
    case isTrue => rfl
    case isFalse hv =>
      rw [Checked.sub_eq_ok (Nat.le_of_not_lt h), Checked.ok_bind, drain, if_pos (by omega)]
      rfl

end InPlace

theorem messages_getElem?_getD (w : MessageWindow) (i : Nat) :
    (w.messages[i]?).getD [] = w.ofView (w.lowestView + i) := by
  simp [ofView]

theorem iter_eq (w : MessageWindow) :
    w.iter = (List.range w.messages.length).flatMap fun i => w.ofView (w.lowestView + i) := by
  have : w.messages = (List.range w.messages.length).map fun i => w.ofView (w.lowestView + i) := by
    refine List.ext_getElem (by simp) fun i hi _ => ?_
    simp [← messages_getElem?_getD, List.getElem?_eq_getElem hi]
  rw [iter, ← List.flatMap_id, List.flatMap_def, List.map_id, List.flatMap_def, ← this]

theorem mem_iter : msg ∈ w.iter ↔ ∃ view, msg ∈ w.ofView view := by
  rw [iter_eq, List.mem_flatMap]
  constructor
  · rintro ⟨i, _, hm⟩
    exact ⟨_, hm⟩
  · rintro ⟨view, hm⟩
    have hlow : w.lowestView ≤ view := by
      by_contra hv
      simp [ofView, Nat.lt_of_not_le hv] at hm
    refine ⟨view - w.lowestView, ?_, by rwa [Nat.add_sub_cancel' hlow]⟩
    by_contra hlen
    rw [List.mem_range, Nat.not_lt] at hlen
    simp [ofView, Nat.not_lt.mpr hlow, List.getElem?_eq_none hlen] at hm

theorem mem_iter_push {m : HotStuffMessage} (h : m ∈ (w.push msg).iter) : m ∈ w.iter ∨ m = msg := by
  obtain ⟨view, hm⟩ := mem_iter.mp h
  rcases w.ofView_push msg view with hv | ⟨_, hv⟩ <;> rw [hv] at hm
  · exact .inl (mem_iter.mpr ⟨view, hm⟩)
  · rw [List.mem_append, List.mem_singleton] at hm
    exact hm.imp_left fun hm => mem_iter.mpr ⟨view, hm⟩

theorem mem_iter_pruneBeforeView {v : Nat} (h : w.pruneBeforeView v = .ok w') (hm : msg ∈ w'.iter) : msg ∈ w.iter := by
  obtain ⟨view, hm⟩ := mem_iter.mp hm
  rcases ofView_pruneBeforeView h view with hv | hv <;> rw [hv] at hm
  · exact mem_iter.mpr ⟨view, hm⟩
  · contradiction

theorem getHighestQCFromVotes_mem {qc : QuorumCertificate} (h : w.getHighestQCFromVotes = some qc) :
    ∃ view sender sv, .newView qc view sender sv ∈ w.iter := by
  have found : ∀ (msgs : List HotStuffMessage) (best : Option QuorumCertificate),
      msgs.foldl getHighestQCFromVotes.highest best = some qc →
        best = some qc ∨ ∃ view sender sv, .newView qc view sender sv ∈ msgs := by
    intro msgs
    induction msgs
    case nil => exact fun _ h => .inl h
    case cons m msgs hi =>
      intro best h
      rcases hi _ h with hb | ⟨view, sender, sv, hm⟩
      · cases m
        case proposal => exact .inl hb
        case vote     => exact .inl hb
        case newView justify view sender sv =>
          have : best = some qc ∨ justify = qc := by
            cases best
            case none    => exact .inr (Option.some.inj hb)
            case some qc =>
              simp only [getHighestQCFromVotes.highest] at hb
              split at hb
              · exact .inr (Option.some.inj hb)
              · exact .inl hb
          rcases this with hb | rfl
          · exact .inl hb
          · exact .inr ⟨view, sender, sv, List.mem_cons_self⟩
      · exact .inr ⟨view, sender, sv, List.mem_cons_of_mem _ hm⟩
  exact (found _ _ h).resolve_left (by simp)

end MessageWindow

-- Grouping a list by a range of keys.
theorem flatMap_range_filter_perm (l : List α) (key : α → Nat) (low n : Nat) :
    ((List.range n).flatMap fun i => l.filter (key · = low + i)).Perm
      (l.filter fun a => low ≤ key a ∧ key a < low + n) := by
  induction n
  case zero => simp [List.filter_eq_nil_iff]
  case succ n hi =>
    rw [List.range_succ, List.flatMap_append, List.flatMap_singleton]
    refine (hi.append_right _).trans ?_
    have split := List.filter_append_perm (key · < low + n) (l.filter fun a => low ≤ key a ∧ key a < low + (n + 1))
    rw [List.filter_filter, List.filter_filter] at split
    convert split using 2
    · refine List.filter_congr fun a _ => ?_
      simp only [← Bool.decide_and, decide_eq_decide]
      omega
    · refine List.filter_congr fun a _ => ?_
      simp only [← decide_not, ← Bool.decide_and, decide_eq_decide]
      omega

theorem flatMap_range_filter_pairwise (l : List α) (key : α → Nat) (low n : Nat) :
    ((List.range n).flatMap fun i => l.filter (key · = low + i)).Pairwise (key · ≤ key ·) := by
  rw [List.pairwise_flatMap]
  refine ⟨fun i _ => ?_, List.pairwise_lt_range.imp fun hij a ha b hb => ?_⟩
  · refine List.Pairwise.imp_of_mem (fun ha hb _ => ?_) (List.pairwise_of_forall fun _ _ => trivial)
    simp only [List.mem_filter, decide_eq_true_eq] at ha hb
    omega
  · simp only [List.mem_filter, decide_eq_true_eq] at ha hb
    omega

namespace MessageWindowIter

-- The messages that are still to come.
def rest (it : MessageWindowIter) : List HotStuffMessage :=
  it.inner.getD [] ++ it.outer.flatten

theorem advance_rest (outer : List (List HotStuffMessage)) (inner : Option (List HotStuffMessage)) :
    (advance outer inner).1 = (rest ⟨outer, inner⟩).head? ∧
      (advance outer inner).2.rest = (rest ⟨outer, inner⟩).tail := by
  -- A view that is used up, or was empty to begin with, has nothing left.
  have used : ∀ inner : Option (List HotStuffMessage),
      (∀ msg msgs, inner = some (msg :: msgs) → False) → inner.getD [] = [] := by
    rintro (_ | _ | ⟨msg, msgs⟩) h
    · rfl
    · rfl
    · exact (h msg msgs rfl).elim
  fun_induction advance
  case case1      => simp [rest]
  case case2 h hi => simpa [rest, used _ h] using hi
  case case3 h    => simp [rest, used _ h]

theorem nexts_eq (it : MessageWindowIter) : it.nexts (it.rest.length + 1) = it.rest.map some ++ [none] := by
  induction h : it.rest generalizing it
  case nil =>
    have ⟨hn, _⟩ := advance_rest it.outer it.inner
    simp [nexts, next, hn, h]
  case cons msg msgs hi =>
    have ⟨hn, hr⟩ := advance_rest it.outer it.inner
    have hi := hi it.next.2 (by rw [next, hr, h]; rfl)
    simp [nexts, hi]
    simp [next, hn, h]

theorem iter_rest (w : MessageWindow) : (MessageWindow.InPlace.iter w).rest = w.iter := by
  cases h : w.messages <;> simp [MessageWindow.InPlace.iter, MessageWindow.iter, rest, h]

end MessageWindowIter

inductive WindowOp
  | push (msg : HotStuffMessage)
  | prune (view : Nat)

namespace WindowOp

def view : WindowOp → Nat
  | push msg   => msg.getViewNumber
  | prune view => view

def pruned? : WindowOp → Option Nat
  | push _     => none
  | prune view => some view

end WindowOp

-- A window with the messages that it said to have taken, in the order of arrival.
structure WindowRun where
  window   : MessageWindow
  accepted : List HotStuffMessage

namespace WindowRun

open MessageWindow

def step (s : WindowRun) : WindowOp → Checked WindowRun
  | .push msg => do
    let (added, window) ← InPlace.push s.window msg
    return { window, accepted := if added then s.accepted ++ [msg] else s.accepted }
  | .prune view => do
    return { s with window := ← InPlace.pruneBeforeView s.window view }

def run (viewNumber : Nat) (ops : List WindowOp) : Checked WindowRun :=
  ops.foldlM step { window := .new viewNumber, accepted := [] }

-- The window stands for a map from views to messages, from the highest pruned view on.
structure Refines (s : WindowRun) (viewNumber : Nat) (ops : List WindowOp) : Prop where
  lowestView : s.window.lowestView = (ops.filterMap WindowOp.pruned?).foldl max viewNumber
  push       : ∀ msg, ∃ window,
    InPlace.push s.window msg = .ok (decide (s.window.lowestView ≤ msg.getViewNumber), window)
  get        : ∀ view, s.window.lowestView ≤ view → ∃ msgs, s.window.getMessagesForView view = .ok msgs ∧
    msgs.getD [] = s.accepted.filter (·.getViewNumber = view)
  get_none   : ∀ view < s.window.lowestView, s.window.getMessagesForView view = .ok none
  iter       : ∃ msgs : List HotStuffMessage,
    (InPlace.iter s.window).nexts (msgs.length + 1) = msgs.map some ++ [none] ∧
    msgs.Pairwise (·.getViewNumber ≤ ·.getViewNumber) ∧
    msgs.Perm (s.accepted.filter (s.window.lowestView ≤ ·.getViewNumber))

-- The same for the entries of the vector. The sum of a lookup fits.
structure Invariant (s : WindowRun) (viewNumber : Nat) (ops : List WindowOp) : Prop where
  lowestView : s.window.lowestView = (ops.filterMap WindowOp.pruned?).foldl max viewNumber
  room       : s.window.lowestView + s.window.messages.length < 2 ^ 64
  ofView     : ∀ view, s.window.lowestView ≤ view →
    s.window.ofView view = s.accepted.filter (·.getViewNumber = view)

variable {s s' : WindowRun} {viewNumber : Nat} {ops : List WindowOp} {op : WindowOp}

theorem step_push (s : WindowRun) (msg : HotStuffMessage) :
    s.step (.push msg) = .ok {
      window := s.window.push msg
      accepted := if s.window.lowestView ≤ msg.getViewNumber then s.accepted ++ [msg] else s.accepted } := by
  simp [step, InPlace.push_eq, bind, Except.bind, pure, Except.pure]

theorem run_append : run viewNumber (ops ++ [op]) = run viewNumber ops >>= (step · op) := by
  simp [run, List.foldlM_append]

theorem Invariant.step (h : s.Invariant viewNumber ops) (hv : op.view < 2 ^ 64)
    (hp : ∀ msg, op = .push msg → msg.getViewNumber ≠ 2 ^ 64 - 1) :
    ∃ s', s.step op = .ok s' ∧ s'.Invariant viewNumber (ops ++ [op]) := by
  have room := h.room
  cases op
  case prune v =>
    have hs : s.step (.prune v) = .ok { s with window := s.window.dropBefore v } := by
      simp [WindowRun.step, InPlace.pruneBeforeView_eq, pruneBeforeView_eq room, bind, Except.bind, pure, Except.pure]
    refine ⟨_, hs, ?_, ?_, fun view hl => ?_⟩
    · simp [dropBefore, h.lowestView, WindowOp.pruned?]
    · simp only [WindowOp.view] at hv
      simp only [dropBefore, List.length_drop]
      omega
    · have ⟨hl, hv⟩ := max_le_iff.mp hl
      rw [ofView_dropBefore, if_neg (Nat.not_lt.mpr hv), h.ofView view hl]
  case push msg =>
    refine ⟨_, step_push s msg, ?_, ?_, fun view hl => ?_⟩
    · rw [push_lowestView, h.lowestView, List.filterMap_append, List.foldl_append]
      rfl
    · have := hp msg rfl
      simp only [WindowOp.view] at hv
      by_cases hl : s.window.lowestView ≤ msg.getViewNumber
      case pos => rw [push_lowestView, push_length hl]; omega
      case neg => rwa [push_of_lt (Nat.not_le.mp hl)]
    · rw [push_lowestView] at hl
      by_cases hm : s.window.lowestView ≤ msg.getViewNumber
      case pos => simp [ofView_push_of_le hm, hm, h.ofView view hl, List.filter_singleton, eq_comm]
      case neg => simp [push_of_lt (Nat.not_le.mp hm), hm, h.ofView view hl]

theorem run_invariant (hv : viewNumber < 2 ^ 64) (ho : ∀ op ∈ ops, op.view < 2 ^ 64)
    (hp : ∀ msg, .push msg ∈ ops → msg.getViewNumber ≠ 2 ^ 64 - 1) :
    ∃ s, run viewNumber ops = .ok s ∧ s.Invariant viewNumber ops := by
  induction ops using List.reverseRecOn
  case nil =>
    exact ⟨_, rfl, rfl, by simpa [MessageWindow.new] using hv, by simp [MessageWindow.ofView, MessageWindow.new]⟩
  case append_singleton ops op hi =>
    have ⟨s, hs, h⟩ := hi (fun op hm => ho op (by simp [hm])) (fun msg hm => hp msg (by simp [hm]))
    have ⟨s', hs', h'⟩ := h.step (ho op (by simp)) fun msg he => hp msg (by simp [he])
    exact ⟨s', by rw [run_append, hs, Checked.ok_bind, hs'], h'⟩

theorem Invariant.refines (h : s.Invariant viewNumber ops) : s.Refines viewNumber ops where
  lowestView    := h.lowestView
  push msg      := ⟨_, InPlace.push_eq s.window msg⟩
  get_none _ hv := getMessagesForView_none hv
  get view hl   := by
    refine ⟨_, by rw [getMessagesForView_eq hl, if_pos h.room], ?_⟩
    rw [← h.ofView view hl, MessageWindow.ofView, if_neg (Nat.not_lt.mpr hl)]
  iter := by
    have hiter : s.window.iter = (List.range s.window.messages.length).flatMap fun i =>
        s.accepted.filter (·.getViewNumber = s.window.lowestView + i) := by
      rw [iter_eq]
      exact List.flatMap_congr fun i _ => h.ofView _ (Nat.le_add_right _ _)
    refine ⟨s.window.iter, ?_, ?_, ?_⟩
    · rw [← MessageWindowIter.iter_rest]
      exact MessageWindowIter.nexts_eq _
    · rw [hiter]
      exact flatMap_range_filter_pairwise ..
    · rw [hiter]
      convert flatMap_range_filter_perm s.accepted HotStuffMessage.getViewNumber _ _ using 1
      refine List.filter_congr fun msg hm => ?_
      -- Nothing was taken for a view above the window.
      have above : s.window.lowestView ≤ msg.getViewNumber →
          msg.getViewNumber < s.window.lowestView + s.window.messages.length := by
        intro hl
        by_contra hn
        have hnone : s.window.ofView msg.getViewNumber = [] := by
          simp only [MessageWindow.ofView, Nat.not_lt.mpr hl, if_false]
          rw [List.getElem?_eq_none (by omega)]
          rfl
        rw [h.ofView _ hl, List.filter_eq_nil_iff] at hnone
        exact hnone msg hm (by simp)
      simp only [decide_eq_decide]
      exact ⟨fun hl => ⟨hl, above hl⟩, And.left⟩

-- Once the last view there is has an entry, it stays.
theorem run_full (hv : viewNumber < 2 ^ 64) (ho : ∀ op ∈ ops, op.view < 2 ^ 64) (hr : run viewNumber ops = .ok s) :
    s.window.lowestView < 2 ^ 64 ∧
    ∀ msg, .push msg ∈ ops → msg.getViewNumber = 2 ^ 64 - 1 →
      2 ^ 64 ≤ s.window.lowestView + s.window.messages.length := by
  induction ops using List.reverseRecOn generalizing s
  case nil => cases hr; exact ⟨hv, by simp⟩
  case append_singleton ops op hi =>
    rw [run_append, Checked.bind_ok] at hr
    have ⟨s₁, hr, hs⟩ := hr
    have ⟨hl, hf⟩ := hi (fun op hm => ho op (by simp [hm])) hr
    have hov := ho op (by simp)
    cases op
    case push m =>
      rw [step_push] at hs
      cases hs
      dsimp only
      rw [push_lowestView]
      refine ⟨hl, fun msg hm he => ?_⟩
      have : msg = m ∨ .push msg ∈ ops := by simpa [or_comm] using hm
      by_cases hle : s₁.window.lowestView ≤ m.getViewNumber
      case neg =>
        rw [push_of_lt (Nat.not_le.mp hle)]
        refine hf msg (this.resolve_left fun hmm => ?_) he
        subst hmm
        omega
      case pos =>
        rw [push_length hle]
        rcases this with rfl | hm
        · omega
        · exact le_max_of_le_left (hf msg hm he)
    case prune v =>
      simp only [step, InPlace.pruneBeforeView_eq, Checked.bind_ok, Checked.pure_ok] at hs
      have ⟨w, hw, hs⟩ := hs
      subst hs
      simp only [WindowOp.view] at hov
      rcases pruneBeforeView_dropped hw with rfl | rfl
      · exact ⟨hl, fun msg hm => hf msg (by simpa using hm)⟩
      · refine ⟨by simp [dropBefore]; omega, fun msg hm he => ?_⟩
        have := hf msg (by simpa using hm) he
        simp only [dropBefore, List.length_drop]
        omega

-- The lookup of the last view overflows, where there is an entry for it.
theorem Refines.ne_last {msg : HotStuffMessage} (h : s.Refines viewNumber ops) (hv : viewNumber < 2 ^ 64)
    (ho : ∀ op ∈ ops, op.view < 2 ^ 64) (hr : run viewNumber ops = .ok s) (hm : .push msg ∈ ops) :
    msg.getViewNumber ≠ 2 ^ 64 - 1 := by
  intro he
  have ⟨hl, hf⟩ := run_full hv ho hr
  have hfull := hf msg hm he
  have ⟨_, hg, _⟩ := h.get (2 ^ 64 - 1) (by omega)
  rw [getMessagesForView_eq (by omega), if_neg (by omega)] at hg
  cases hg

theorem run_refines_iff {viewNumber : Nat} {ops : List WindowOp} (hv : viewNumber < 2 ^ 64)
    (ho : ∀ op ∈ ops, op.view < 2 ^ 64) :
    (∃ s, run viewNumber ops = .ok s ∧ s.Refines viewNumber ops) ↔
      ∀ msg, .push msg ∈ ops → msg.getViewNumber ≠ 2 ^ 64 - 1 := by
  refine ⟨fun ⟨s, hr, h⟩ msg hm => h.ne_last hv ho hr hm, fun hp => ?_⟩
  have ⟨s, hr, h⟩ := run_invariant hv ho hp
  exact ⟨s, hr, h.refines⟩

theorem run_refines_gap :
    let ops := [.push (.newView .createGenesisQC 7 1 0), .prune 6, .push (.newView .createGenesisQC 5 1 0)]
    ∃ s, run 5 ops = .ok s ∧ s.Refines 5 ops := by
  refine (run_refines_iff (by decide) (by decide)).mpr fun msg hm => ?_
  simp only [List.mem_cons, WindowOp.push.injEq, reduceCtorEq, List.not_mem_nil, or_false, false_or] at hm
  rcases hm with rfl | rfl <;> decide

theorem run_not_refines :
    ∃ msg : HotStuffMessage, msg.getViewNumber < 2 ^ 64 ∧
      ¬∃ s, run (2 ^ 64 - 1) [.push msg] = .ok s ∧ s.Refines (2 ^ 64 - 1) [.push msg] := by
  refine ⟨.newView .createGenesisQC (2 ^ 64 - 1) 1 0, by decide, fun ⟨s, hr, h⟩ => ?_⟩
  exact h.ne_last (by decide) (by decide) hr (List.mem_singleton_self _) rfl

end WindowRun
end Superliquid

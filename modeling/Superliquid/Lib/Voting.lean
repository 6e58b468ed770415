import Mathlib.Data.Finset.Card
import Superliquid.Lib.Lineage

-- Voting on a tree of blocks by voters of which some are faulty: three certified blocks of
-- consecutive views decide the first one.

namespace Voting

-- Blocks that are proposed in views, each on top of its parent.
structure BlockTree (β : Type) where
  root        : β
  parent      : β → Option β
  view        : β → Nat
  root_parent : parent root = none

def BlockTree.Extends (t : BlockTree β) : β → β → Prop :=
  Lineage.Extends t.parent

-- Any two quorums have a correct voter in common.
structure Electorate (ν : Type) where
  Correct : ν → Prop
  Quorum  : Finset ν → Prop
  meet    : ∀ {s s'}, Quorum s → Quorum s' → ∃ v ∈ s, v ∈ s' ∧ Correct v

-- Two thirds of the voters and one more are a quorum, if at most one third is faulty.
def Electorate.byzantine [DecidableEq ν] (voters faulty : Finset ν) (f : Nat)
    (hv : voters.card = 3 * f + 1) (hf : faulty.card ≤ f) : Electorate ν where
  Correct v := v ∈ voters ∧ v ∉ faulty
  Quorum s := s ⊆ voters ∧ 2 * f + 1 ≤ s.card
  meet := by
    intro s s' ⟨hs, hc⟩ ⟨hs', hc'⟩
    have hunion := Finset.card_le_card (Finset.union_subset hs hs')
    have hinter := Finset.card_union_add_card_inter s s'
    have ⟨v, hv, hn⟩ : ∃ v ∈ s ∩ s', v ∉ faulty :=
      Finset.exists_mem_notMem_of_card_lt_card (by omega)
    have ⟨h, h'⟩ := Finset.mem_inter.mp hv
    exact ⟨v, h, h', hs h, hn⟩

-- Any two sets of `2 * f + 1` voters have `f + 1` in common exactly if there are at most `3 * f + 1`
-- voters.
theorem card_inter_iff [DecidableEq ν] {voters : Finset ν} {f : Nat} (hv : 2 * f + 1 ≤ voters.card) :
    (∀ s ⊆ voters, ∀ s' ⊆ voters, 2 * f + 1 ≤ s.card → 2 * f + 1 ≤ s'.card → f + 1 ≤ (s ∩ s').card) ↔
      voters.card ≤ 3 * f + 1 := by
  constructor
  · intro h
    by_contra hn
    have ⟨s, hs, hc⟩ := Finset.exists_subset_card_eq hv
    have hrest := Finset.card_sdiff_of_subset hs
    -- The second set takes as many voters as it can from outside of the first one.
    have ⟨new, hnew, hcn⟩ := Finset.exists_subset_card_eq (s := voters \ s) (n := f + 1) (by omega)
    have ⟨old, hold, hco⟩ := Finset.exists_subset_card_eq (s := s) (n := f) (by omega)
    have hnew' := Finset.subset_sdiff.mp hnew
    have hdisj : Disjoint new old := Finset.disjoint_of_subset_right hold hnew'.2
    have hcard : (new ∪ old).card = 2 * f + 1 := by
      rw [Finset.card_union_of_disjoint hdisj]
      omega
    have hinter : s ∩ (new ∪ old) = old := by
      rw [Finset.inter_union_distrib_left, Finset.inter_eq_right.mpr hold,
        Finset.disjoint_iff_inter_eq_empty.mp hnew'.2.symm, Finset.empty_union]
    have := h s hs _ (Finset.union_subset hnew'.1 (hold.trans hs)) hc.ge hcard.ge
    rw [hinter] at this
    omega
  · intro hf s hs s' hs' hc hc'
    have hunion := Finset.card_le_card (Finset.union_subset hs hs')
    have hinter := Finset.card_union_add_card_inter s s'
    omega

-- A vote for a block, and the lock of the voter at that time.
structure Ballot (ν β : Type) where
  voter : ν
  block : β
  lock  : β

section

variable (t : BlockTree β) (el : Electorate ν)

-- A quorum has voted for the block. Faulty voters may have voted for anything.
def Certified (log : List (Ballot ν β)) (b : β) : Prop :=
  b = t.root ∨ ∃ s, el.Quorum s ∧ ∀ v ∈ s, el.Correct v → ∃ x ∈ log, x.voter = v ∧ x.block = b

-- What a correct voter sees to when it casts `x` after the ballots of `log`.
structure Lawful (log : List (Ballot ν β)) (x : Ballot ν β) : Prop where
  parent  : ∃ p, t.parent x.block = some p ∧ Certified t el log p
  lock    : Certified t el log x.lock
  safe    : t.Extends x.block x.lock ∨ ∀ p, t.parent x.block = some p → t.view x.lock < t.view p
  -- Whoever votes for a block locks its grandparent, or stays locked on a newer one.
  locked  : ∀ y ∈ log, y.voter = x.voter → ∀ p g, t.parent y.block = some p → t.parent p = some g →
    t.view g ≤ t.view x.lock
  once    : ∀ y ∈ log, y.voter = x.voter → t.view y.block = t.view x.block → y.block = x.block
  ordered : ∀ y ∈ log, y.voter = x.voter → t.view y.block ≤ t.view x.block
  view    : t.view t.root < t.view x.block

-- Logs of correct voters, with the last ballot in front.
inductive Legal : List (Ballot ν β) → Prop
  | nil  : Legal []
  | cast : (Legal log) → (Lawful t el log x) → Legal (x :: log)

-- A block is decided by two certified blocks on top of it, in consecutive views.
def Committed (log : List (Ballot ν β)) (b : β) : Prop :=
  b = t.root ∨ ∃ b' b'', t.parent b' = some b ∧ t.parent b'' = some b' ∧
    t.view b' = t.view b + 1 ∧ t.view b'' = t.view b' + 1 ∧ Certified t el log b''

end

variable {t : BlockTree β} {el : Electorate ν} {log log' : List (Ballot ν β)} {b b' b'' w : β}
         {x y z : Ballot ν β}

theorem Certified.mono (h : Certified t el log b) (hs : log ⊆ log') : Certified t el log' b := by
  refine h.imp_right fun ⟨s, hq, h⟩ => ⟨s, hq, fun v hv hc => ?_⟩
  have ⟨x, hx, hb⟩ := h v hv hc
  exact ⟨x, hs hx, hb⟩

theorem Committed.mono (h : Committed t el log b) (hs : log ⊆ log') : Committed t el log' b :=
  h.imp_right fun ⟨b', b'', hp, hp', hv, hv', hc⟩ => ⟨b', b'', hp, hp', hv, hv', hc.mono hs⟩

theorem Certified.ballot (h : Certified t el log b) (hr : b ≠ t.root) : ∃ x ∈ log, x.block = b := by
  have ⟨s, hq, h⟩ := h.resolve_left hr
  have ⟨v, hv, _, hc⟩ := el.meet hq hq
  have ⟨x, hx, _, hb⟩ := h v hv hc
  exact ⟨x, hx, hb⟩

-- Two blocks that are both certified got a vote of the same voter.
theorem Certified.meet (h : Certified t el log b) (hr : b ≠ t.root) (h' : Certified t el log' b')
    (hr' : b' ≠ t.root) :
    ∃ x ∈ log, ∃ x' ∈ log', x.voter = x'.voter ∧ x.block = b ∧ x'.block = b' := by
  have ⟨s, hq, h⟩ := h.resolve_left hr
  have ⟨s', hq', h'⟩ := h'.resolve_left hr'
  have ⟨v, hv, hv', hc⟩ := el.meet hq hq'
  have ⟨x, hx, hxv, hb⟩ := h v hv hc
  have ⟨x', hx', hxv', hb'⟩ := h' v hv' hc
  exact ⟨x, hx, x', hx', hxv.trans hxv'.symm, hb, hb'⟩

namespace Legal

theorem lawful (h : Legal t el (log' ++ x :: log)) : Lawful t el log x := by
  induction log'
  case nil        => cases h; assumption
  case cons hi    => cases h; exact hi ‹_›

-- The ballots of a voter are ordered by view.
theorem before (h : Legal t el (log' ++ x :: log)) (hy : y ∈ log' ++ x :: log)
    (hv : y.voter = x.voter) (hlt : t.view y.block < t.view x.block) : y ∈ log := by
  induction log'
  case nil =>
    rcases List.mem_cons.mp hy with rfl | hy
    · exact absurd hlt (lt_irrefl _)
    · exact hy
  case cons z log' hi =>
    cases h
    case cast h hz =>
      rcases List.mem_cons.mp hy with rfl | hy
      · have := hz.ordered x (by simp) hv.symm
        omega
      · exact hi h hy

theorem once (h : Legal t el log) (hx : x ∈ log) (hy : y ∈ log) (hv : x.voter = y.voter)
    (hb : t.view x.block = t.view y.block) : x.block = y.block := by
  induction h
  case nil => simp at hx
  case cast hz hi =>
    rcases List.mem_cons.mp hx with hx | hx' <;> rcases List.mem_cons.mp hy with hy | hy'
    · rw [hx, hy]
    · subst hx; exact (hz.once y hy' hv.symm hb.symm).symm
    · subst hy; exact hz.once x hx' hv hb
    · exact hi hx' hy'

theorem parent (h : Legal t el log) (hc : Certified t el log b) (hr : b ≠ t.root) :
    t.view t.root < t.view b ∧ ∃ p, t.parent b = some p ∧ Certified t el log p := by
  have ⟨x, hx, hb⟩ := hc.ballot hr
  have ⟨log', log'', hl⟩ := List.append_of_mem hx
  subst hl hb
  have ⟨p, hp, hc⟩ := h.lawful.parent
  exact ⟨h.lawful.view, p, hp, hc.mono fun _ hz => by simp [hz]⟩

theorem certified_unique (h : Legal t el log) (hb : Certified t el log b) (hr : b ≠ t.root)
    (hb' : Certified t el log b') (hr' : b' ≠ t.root) (hv : t.view b = t.view b') : b = b' := by
  have ⟨x, hx, x', hx', hxx', hxb, hxb'⟩ := hb.meet hr hb' hr'
  subst hxb hxb'
  exact h.once hx hx' hxx' hv

theorem extends_root (h : Legal t el log) (hb : Certified t el log b) : t.Extends b t.root := by
  induction h generalizing b
  case nil =>
    by_cases hr : b = t.root
    case pos => exact hr ▸ .refl
    case neg => have ⟨_, hx, _⟩ := hb.ballot hr; simp at hx
  case cast log x h hx hi =>
    by_cases hr : b = t.root
    case pos => exact hr ▸ .refl
    case neg =>
      have ⟨y, hy, hyb⟩ := hb.ballot hr
      subst hyb
      have ⟨log', log'', hl⟩ := List.append_of_mem hy
      have lawful : Lawful t el log'' y := lawful (hl ▸ Legal.cast h hx)
      have ⟨p, hp, hc⟩ := lawful.parent
      refine .head hp (hi (hc.mono ?_))
      -- What comes before a ballot of the log comes before its last one.
      cases log' <;> cases hl <;> simp

-- The induction is on the time at which `w` is certified. A correct voter of both `w` and `b''` has
-- locked `b` before, so it voted for `w` because of a lock or a parent that extends `b`.
theorem extends_of_chain (h : Legal t el log) (hr : b ≠ t.root) (hb' : t.parent b' = some b)
    (hb'' : t.parent b'' = some b') (hv' : t.view b' = t.view b + 1) (hv'' : t.view b'' = t.view b' + 1)
    (hc'' : Certified t el log b'') (hw : Certified t el log w) (hv : t.view b ≤ t.view w) :
    t.Extends w b := by
  have root : ∀ {b p}, t.parent b = some p → b ≠ t.root := by
    intro b p hp hb
    simp [hb, t.root_parent] at hp
  have ⟨_, _, hp, hc'⟩ := h.parent hc'' (root hb'')
  cases hb''.symm.trans hp
  have ⟨_, _, hp, hc⟩ := h.parent hc' (root hb')
  cases hb'.symm.trans hp
  have ⟨hpos, _⟩ := h.parent hc hr
  suffices ∀ n earlier, earlier.length = n → earlier <:+ log → ∀ w, Certified t el earlier w →
      t.view b ≤ t.view w → t.Extends w b from this _ log rfl (List.suffix_refl log) w hw hv
  intro n
  induction n using Nat.strong_induction_on
  case h n hi =>
  intro earlier hn hs w hw hv
  have hrw : w ≠ t.root := by
    intro hw
    subst hw
    omega
  have hw' := hw.mono hs.subset
  rcases Nat.lt_trichotomy (t.view w) (t.view b'') with hlt | heq | hgt
  · -- There is one certified block a view only.
    by_cases heq : t.view w = t.view b
    case pos => rw [h.certified_unique hw' hrw hc hr heq]; exact .refl
    case neg => rw [h.certified_unique hw' hrw hc' (root hb') (by omega)]; exact .single hb'
  · rw [h.certified_unique hw' hrw hc'' (root hb'') heq]
    exact .head hb'' (.single hb')
  · have ⟨x, hx, y, hy, hxy, hxw, hyb⟩ := hw.meet hrw hc'' (root hb'')
    have ⟨later, before, he⟩ := List.append_of_mem hx
    have ⟨latest, hl⟩ := hs
    have hlog : log = (latest ++ later) ++ x :: before := by rw [← hl, he, List.append_assoc]
    have hlegal := hlog ▸ h
    have hy : y ∈ before := hlegal.before (hlog ▸ hy) hxy.symm (by rw [hxw, hyb]; exact hgt)
    have lawful := hlegal.lawful
    have hlock : t.view b ≤ t.view x.lock := lawful.locked y hy hxy.symm b' b (hyb ▸ hb'') hb'
    have hi := hi before.length (by rw [← hn, he]; simp; omega) before rfl
      ⟨latest ++ later ++ [x], by simp [hlog]⟩
    have ⟨p, hp, hcp⟩ := lawful.parent
    subst hxw
    rcases lawful.safe with hsafe | hsafe
    · exact hsafe.trans (hi x.lock lawful.lock hlock)
    · exact .head hp (hi p hcp (hlock.trans (hsafe p hp).le))

theorem certified_of_committed (h : Legal t el log) (hb : Committed t el log b) :
    Certified t el log b := by
  rcases hb with hb | ⟨b', b'', hp, hp', _, _, hc⟩
  · exact .inl hb
  have root : ∀ {b p}, t.parent b = some p → b ≠ t.root := by
    intro b p hp hb
    simp [hb, t.root_parent] at hp
  have ⟨_, _, hq, hc'⟩ := h.parent hc (root hp')
  cases hp'.symm.trans hq
  have ⟨_, _, hq, hc⟩ := h.parent hc' (root hp)
  cases hp.symm.trans hq
  exact hc

theorem agreement (h : Legal t el log) (hb : Committed t el log b) (hw : Committed t el log w) :
    t.Extends b w ∨ t.Extends w b := by
  have hcb := h.certified_of_committed hb
  have hcw := h.certified_of_committed hw
  by_cases hr : b = t.root
  case pos => exact .inr (hr ▸ h.extends_root hcw)
  by_cases hr' : w = t.root
  case pos => exact .inl (hr' ▸ h.extends_root hcb)
  have ⟨_, _, hp, hp', hv, hv', hc⟩ := hb.resolve_left hr
  have ⟨_, _, hq, hq', hu, hu', hd⟩ := hw.resolve_left hr'
  rcases Nat.le_total (t.view b) (t.view w) with hle | hle
  · exact .inr (h.extends_of_chain hr hp hp' hv hv' hc hcw hle)
  · exact .inl (h.extends_of_chain hr' hq hq' hu hu' hd hcb hle)

end Legal
end Voting

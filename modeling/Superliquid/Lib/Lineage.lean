import Mathlib.Data.List.Infix
import Mathlib.Logic.Relation
import Mathlib.Tactic.Common

-- Nodes of a forest in the order from a root down: each node comes right after its parent, and the first
-- one has none.
inductive Lineage (parent : α → Option α) : List α → Prop
  | nil  : Lineage parent []
  | snoc : (Lineage parent l) → (parent b = l.getLast?) → Lineage parent (l ++ [b])

namespace Lineage

-- `a` is `b` or one of its ancestors.
def Extends (parent : α → Option α) (b a : α) : Prop :=
  Relation.ReflTransGen (fun b p => parent b = some p) b a

variable {parent : α → Option α} {l l' : List α} {a b : α}

theorem last (h : Lineage parent (l ++ [b])) : Lineage parent l ∧ parent b = l.getLast? := by
  generalize he : l ++ [b] = l' at h
  cases h
  case nil => simp at he
  case snoc h hb =>
    have ⟨hl, hb'⟩ := List.append_inj' he rfl
    cases hb'
    exact hl ▸ ⟨h, hb⟩

theorem of_prefix (h : Lineage parent l') (hp : l <+: l') : Lineage parent l := by
  induction h
  case nil => exact List.prefix_nil.mp hp ▸ .nil
  case snoc h hb hi =>
    rcases List.prefix_concat_iff.mp hp with rfl | hp
    · exact .snoc h hb
    · exact hi hp

-- The last node determines the nodes before it.
theorem eq_of_getLast? (h : Lineage parent l) (h' : Lineage parent l') (he : l.getLast? = l'.getLast?) :
    l = l' := by
  induction h generalizing l'
  case nil => exact (List.getLast?_eq_none_iff.mp he.symm).symm
  case snoc l b _ hb hi =>
    cases h'
    case nil => simp at he
    case snoc l' b' h' hb' =>
      obtain rfl : b = b' := by simpa using he
      rw [hi h' (hb.symm.trans hb')]

theorem prefix_of_extends (h : Lineage parent l) (h' : Lineage parent l') (ha : l.getLast? = some a)
    (hb : l'.getLast? = some b) (he : Extends parent b a) : l <+: l' := by
  induction h' generalizing b
  case nil => simp at hb
  case snoc l' c h' hc hi =>
    obtain rfl : c = b := by simpa using hb
    rcases he.cases_head with rfl | ⟨p, hp, he⟩
    · rw [h.eq_of_getLast? (.snoc h' hc) (ha.trans hb.symm)]
    · exact (hi (hc.symm.trans hp) he).trans (List.prefix_append _ _)

-- Two such lists whose last nodes are related are equal, or one is a part of the other.
theorem comparable (h : Lineage parent l) (h' : Lineage parent l')
    (he : ∀ a ∈ l.getLast?, ∀ b ∈ l'.getLast?, Extends parent a b ∨ Extends parent b a) :
    l <+: l' ∨ l' <+: l := by
  cases ha : l.getLast?
  case none => exact .inl (List.getLast?_eq_none_iff.mp ha ▸ List.nil_prefix)
  case some a =>
    cases hb : l'.getLast?
    case none => exact .inr (List.getLast?_eq_none_iff.mp hb ▸ List.nil_prefix)
    case some b =>
      rcases he a ha b hb with he | he
      · exact .inr (h'.prefix_of_extends h hb ha he)
      · exact .inl (h.prefix_of_extends h' ha hb he)

theorem mem_of_extends (h : Lineage parent l) (hb : l.getLast? = some b) (he : Extends parent b a) : a ∈ l := by
  induction h generalizing b
  case nil => simp at hb
  case snoc l c h hc hi =>
    obtain rfl : c = b := by simpa using hb
    rcases he.cases_head with rfl | ⟨p, hp, he⟩
    · simp
    · exact List.mem_append_left _ (hi (hc.symm.trans hp) he)

-- A new node that is related to all others, with its parent among them, comes right after its parent.
theorem snoc_of_mem (h : Lineage parent l) (hn : b ∉ l) (hp : ∀ p, parent b = some p → p ∈ l)
    (he : ∀ a ∈ l, Extends parent a b ∨ Extends parent b a) : Lineage parent (l ++ [b]) := by
  refine .snoc h ?_
  cases ha : l.getLast?
  case none =>
    cases hb : parent b
    case none   => rfl
    case some p => simp [List.getLast?_eq_none_iff.mp ha] at hp; exact absurd hb (hp p)
  case some a =>
    have hal := List.mem_of_getLast? ha
    have descends : Extends parent b a := (he a hal).resolve_left fun he => hn (h.mem_of_extends ha he)
    rcases descends.cases_head with rfl | ⟨p, hb, he⟩
    · exact absurd hal hn
    -- The nodes down to `p` are all nodes, as `a` is among the ancestors of `p`.
    have ⟨l₁, l₂, hl⟩ := List.append_of_mem (hp p hb)
    have hpre : l₁ ++ [p] <+: l := ⟨l₂, by simp [hl]⟩
    have hle := h.prefix_of_extends (h.of_prefix hpre) ha (by simp) he
    have heq : l = l₁ ++ [p] := hle.eq_of_length_le hpre.length_le
    have : some p = some a := by rw [← ha, heq, List.getLast?_concat]
    rw [hb, this]

end Lineage

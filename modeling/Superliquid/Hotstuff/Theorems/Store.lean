import Superliquid.Hotstuff.Theorems.Step
import Superliquid.State.Theorems.Handlers

namespace Superliquid

open HotStuffReplica ReplicaM

-- Executing a block leaves the outcome of each transaction in its status and changes nothing else.
def SignedTransaction.eraseStatus (t : SignedTransaction) : SignedTransaction :=
  { t with tx := t.tx.withStatus .pending }

def Block.eraseStatus (b : Block) : Block :=
  { b with transactions := b.transactions.map SignedTransaction.eraseStatus }

namespace LedgerState

variable {l l' : LedgerState}

theorem applyTransaction_eraseStatus {t t' : SignedTransaction} {n : Option (PublicKeyHash × Nat)}
    (h : l.applyTransaction t = .ok (l', t', n)) : t'.eraseStatus = t.eraseStatus := by
  rcases applyTransaction_cases h with ⟨x, x', htx, ht, hx⟩ | ⟨x, x', htx, ht, hx⟩ | ⟨x, x', htx, ht, hx⟩
  · obtain ⟨_, hs⟩ := handleTransferTransaction_status hx
    rw [SignedTransaction.eraseStatus, SignedTransaction.eraseStatus, ht, hs, htx]
    rfl
  · obtain ⟨_, hs⟩ := handleOrderTransaction_status hx
    rw [SignedTransaction.eraseStatus, SignedTransaction.eraseStatus, ht, hs, htx]
    rfl
  · obtain ⟨_, hs⟩ := handleCancelOrderTransaction_status hx
    rw [SignedTransaction.eraseStatus, SignedTransaction.eraseStatus, ht, hs, htx]
    rfl

theorem apply_eraseStatus {ts ts' : List SignedTransaction} {ns : List (Option (PublicKeyHash × Nat))}
    (h : l.apply ts = .ok (l', ts', ns)) :
    ts'.map SignedTransaction.eraseStatus = ts.map SignedTransaction.eraseStatus := by
  induction ts generalizing l l' ts' ns
  case nil => cases h; rfl
  case cons t ts hi =>
    obtain ⟨_, _, _, _, _, ht, hts, he, _⟩ := apply_cons h
    rw [he, List.map_cons, List.map_cons, applyTransaction_eraseStatus ht, hi hts]

theorem applyBlock_eraseStatus {b b' : Block} {ns : List (Option (PublicKeyHash × Nat))}
    (h : l.applyBlock b = .ok (l', b', ns)) : b'.eraseStatus = b.eraseStatus := by
  simp only [LedgerState.applyBlock, Checked.bind_ok, Checked.pure_ok, Prod.mk.injEq] at h
  have ⟨⟨_, ts, _⟩, ht, _, hb, _⟩ := h
  subst hb
  simp only [Block.eraseStatus, apply_eraseStatus ht]

end LedgerState

namespace Block

variable {b b' : Block} (h : b'.eraseStatus = b.eraseStatus)

include h

theorem parentId_of_eraseStatus : b'.parentId = b.parentId := by
  show b'.eraseStatus.parentId = b.eraseStatus.parentId
  rw [h]

theorem justify_of_eraseStatus : b'.justify = b.justify := by
  show b'.eraseStatus.justify = b.eraseStatus.justify
  rw [h]

theorem viewNumber_of_eraseStatus : b'.viewNumber = b.viewNumber := by
  show b'.eraseStatus.viewNumber = b.eraseStatus.viewNumber
  rw [h]

theorem hash_of_eraseStatus [Sha256] : b'.hash = b.hash := by
  show b'.eraseStatus.hash = b.eraseStatus.hash
  rw [h]

end Block

variable {r : HotStuffReplica} {node : Block} {t t' : Task} {e : Event}

theorem getJustifiedBlock_lookup {child parent : Block} (h : r.getJustifiedBlock child = some parent) :
    r.blockstore.lookup child.justify.blockHash = some parent := by
  unfold getJustifiedBlock at h
  split at h
  case h_1 => exact h
  case h_2 => contradiction

theorem parentId_ne_none {child parent : Block} (h : r.getJustifiedBlock child = some parent) :
    child.parentId ≠ none := by
  intro hn
  simp [getJustifiedBlock, hn] at h

variable [Sha256]

theorem Linked.unique {child p p' : Block} (h : Linked r child p) (h' : Linked r child p') : p = p' :=
  Option.some.inj (h.justified.symm.trans h'.justified)

-- What is in the store when a proposal is looked at: the proposal, and what was there before.
theorem store_lookup_iff {k : BlockHash} {b : Block}
    (h : r.blockstore = t.replica.blockstore ∨ r.blockstore = t.replica.blockstore.insert node.hash node) :
    (r.store node).blockstore.lookup k = some b ↔
      (k = node.hash ∧ node = b) ∨ (k ≠ node.hash ∧ t.replica.blockstore.lookup k = some b) := by
  simp only [HotStuffReplica.store]
  cases h
  case inl h => rw [h, Map.lookup_insert_iff]
  case inr h =>
    rw [h, Map.lookup_insert_iff, Map.lookup_insert_iff]
    tauto

variable [Ed25519]

-- The chain of blocks below an accepted proposal that leads to the execution of `b`.
structure Commits (r : HotStuffReplica) (node b'' b' b : Block) : Prop where
  accepts  : Accepts r node b''
  isParent : node.isParent b''
  linked   : Linked (r.store node) b'' b'
  linked'  : Linked (r.store node) b' b

theorem Accepts.unique {b b' : Block} (h : Accepts r node b) (h' : Accepts r node b') : b = b' :=
  Option.some.inj (h.justified.symm.trans h'.justified)

section Proposal

variable {out : Except Panic (Option HotStuffMessage)} {c : Core}

theorem Proposal.applied (h : Proposal r node out c) :
    c.applied = r.applied ∨ ∃ b'' b' b, Commits r node b'' b' b ∧ c.applied = r.applied ++ [b] := by
  cases h
  case committed ha hp hl hl' _ => exact .inr ⟨_, _, _, ⟨ha, hp, hl, hl'⟩, rfl⟩
  all_goals exact .inl rfl

-- Unless it panics, the handler executes the block that the chain leads to.
theorem Proposal.applied_of_commits {b'' b' b : Block} {vote : Option HotStuffMessage}
    (h : Proposal r node (.ok vote) c) (hc : Commits r node b'' b' b) :
    c.applied = r.applied ++ [b] := by
  cases h
  case refused hn _ => exact absurd hc.accepts (hn _)
  case voted ha hn => exact absurd (ha.unique hc.accepts ▸ hc.isParent) hn
  case adopted ha _ h =>
    simp only [reduceCtorEq, exists_false, false_or] at h
    exact absurd (ha.unique hc.accepts ▸ hc.linked) (h.2 _)
  case locked ha _ hl hn =>
    cases ha.unique hc.accepts
    exact absurd (hl.unique hc.linked ▸ hc.linked') (hn _)
  case committed ha _ hl hl' _ =>
    cases ha.unique hc.accepts
    cases hl.unique hc.linked
    cases hl'.unique hc.linked'
    rfl

-- Blocks in the store are only ever replaced by their executed versions.
theorem Proposal.lookup {k : BlockHash} {b : Block} (h : Proposal r node out c)
    (hb : c.blockstore.lookup k = some b) :
    ∃ b₀, b.eraseStatus = b₀.eraseStatus ∧ (r.store node).blockstore.lookup k = some b₀ := by
  cases h
  case committed hl' h =>
    cases h
    case inl h => exact ⟨b, rfl, h.2 ▸ hb⟩
    case inr h =>
      have ⟨_, _, executed, happly, hs, _⟩ := h
      subst hs
      cases Map.lookup_insert_iff.mp hb
      case inl h =>
        have ⟨hk, he⟩ := h
        subst hk he
        exact ⟨_, LedgerState.applyBlock_eraseStatus happly, getJustifiedBlock_lookup hl'.justified⟩
      case inr h => exact ⟨b, rfl, h.2⟩
  all_goals exact ⟨b, rfl, hb⟩

theorem Proposal.lookup_isSome {k : BlockHash} (h : Proposal r node out c)
    (hb : ((r.store node).blockstore.lookup k).isSome) : (c.blockstore.lookup k).isSome := by
  cases h
  case committed hl' h =>
    cases h
    case inl h => exact h.2 ▸ hb
    case inr h =>
      have ⟨_, _, executed, happly, hs, _⟩ := h
      subst hs
      rw [AList.lookup_isSome, AList.mem_insert, ← AList.lookup_isSome]
      exact .inr hb
  all_goals exact hb

end Proposal

theorem Task.takenUp_quiet (h : t.takenUp e = some (r, node)) : Quiet t.replica r := by
  cases t.step_stepped e
  case quiet hn _ _ _            => simp [h] at hn
  case proposal hup _ hq _ _ _ _ _ => cases h.symm.trans hup; exact hq

theorem Task.takenUp_lookup_iff {k : BlockHash} {b : Block} (h : t.takenUp e = some (r, node)) :
    (r.store node).blockstore.lookup k = some b ↔
      (k = node.hash ∧ node = b) ∨ (k ≠ node.hash ∧ t.replica.blockstore.lookup k = some b) := by
  cases t.step_stepped e
  case quiet hn _ _ _            => simp [h] at hn
  case proposal hup _ _ hs _ _ _ _ => cases h.symm.trans hup; exact store_lookup_iff hs

theorem Stepped.lookup {k : BlockHash} {b : Block} (h : Stepped t e t')
    (hb : t'.replica.blockstore.lookup k = some b) :
    ∃ b₀, b.eraseStatus = b₀.eraseStatus ∧
      (t.replica.blockstore.lookup k = some b₀ ∨ k = b₀.hash ∧ ∃ r, t.takenUp e = some (r, b₀)) := by
  cases h
  case quiet _ hs _ => exact ⟨b, rfl, .inl (hs ▸ hb)⟩
  case proposal r node _ _ _ c hup _ _ hs _ hp ha _ =>
    have ⟨_, ha⟩ := ha.same
    have hc : t'.replica.blockstore = c.blockstore := congrArg Core.blockstore ha
    have ⟨b₀, he, hb₀⟩ := hp.lookup (hc ▸ hb)
    refine ⟨b₀, he, ?_⟩
    cases (store_lookup_iff hs).mp hb₀
    case inl h => have ⟨hk, hn⟩ := h; subst hn; exact .inr ⟨hk, r, hup⟩
    case inr h => exact .inl h.2

-- A proposal replaces what was stored under its hash.
theorem Stepped.lookup_takenUp {b : Block} (h : Stepped t e t') (hup : t.takenUp e = some (r, node))
    (hb : t'.replica.blockstore.lookup node.hash = some b) : b.eraseStatus = node.eraseStatus := by
  cases h
  case quiet hn _ _ _ => simp [hup] at hn
  case proposal c hup' _ _ hs _ hp ha _ =>
    cases hup.symm.trans hup'
    have ⟨_, ha⟩ := ha.same
    have hc : t'.replica.blockstore = c.blockstore := congrArg Core.blockstore ha
    have ⟨b₀, he, hb₀⟩ := hp.lookup (hc ▸ hb)
    rcases (store_lookup_iff hs).mp hb₀ with ⟨_, rfl⟩ | ⟨hn, _⟩
    · exact he
    · contradiction

theorem Stepped.lookup_isSome {k : BlockHash} (h : Stepped t e t')
    (hb : (t.replica.blockstore.lookup k).isSome ∨ ∃ r node, t.takenUp e = some (r, node) ∧ k = node.hash) :
    (t'.replica.blockstore.lookup k).isSome := by
  cases h
  case quiet hn _ hs _ =>
    rw [hs]
    exact hb.resolve_right (by simp [hn])
  case proposal r node _ _ _ c hup _ _ hs _ hp ha _ =>
    have ⟨_, ha⟩ := ha.same
    have hc : t'.replica.blockstore = c.blockstore := congrArg Core.blockstore ha
    rw [hc]
    refine hp.lookup_isSome ?_
    simp only [Option.isSome_iff_exists, store_lookup_iff hs]
    by_cases hk : k = node.hash
    case pos => exact ⟨node, .inl ⟨hk, rfl⟩⟩
    case neg =>
      cases hb
      case inl hb => have ⟨b, hb⟩ := Option.isSome_iff_exists.mp hb; exact ⟨b, .inr ⟨hk, hb⟩⟩
      case inr hb =>
        have ⟨_, _, hup', hk'⟩ := hb
        cases hup.symm.trans hup'
        exact absurd hk' hk

theorem Stepped.applied (h : Stepped t e t') :
    t'.replica.applied = t.replica.applied ∨
    ∃ r node b'' b' b, t.takenUp e = some (r, node) ∧ Commits r node b'' b' b ∧
      t'.replica.applied = t.replica.applied ++ [b] := by
  cases h
  case quiet hq _ _ => exact .inl hq.applied
  case proposal r node _ _ _ c hup _ hq _ _ hp ha _ =>
    have ⟨_, ha⟩ := ha.same
    have hc : t'.replica.applied = c.applied := congrArg Core.applied ha
    rw [hc, ← hq.applied]
    exact hp.applied.imp_right fun ⟨b'', b', b, h, hb⟩ => ⟨r, node, b'', b', b, hup, h, hb⟩

theorem Stepped.applied_of_commits {b'' b' b : Block} (h : Stepped t e t')
    (hup : t.takenUp e = some (r, node)) (hc : Commits r node b'' b' b) (hn : t'.panicked = false) :
    t'.replica.applied = t.replica.applied ++ [b] := by
  cases h
  case quiet h _ _ _ => simp [hup] at h
  case proposal c hup' _ hq _ _ hp ha hok =>
    cases hup.symm.trans hup'
    have ⟨_, ha⟩ := ha.same
    have happlied : t'.replica.applied = c.applied := congrArg Core.applied ha
    have ⟨vote, hout⟩ := hok hn
    subst hout
    rw [happlied, hp.applied_of_commits hc, hq.applied]

end Superliquid

import Mathlib.Data.List.Basic
import Superliquid.State.Theorems.Records

namespace Superliquid
namespace LedgerState

variable {l l' : LedgerState} {k : PublicKeyHash} {n : Option (PublicKeyHash × Nat)}

-- What a transaction does to the nonces, what it ends with and what is reported to the mempool.
inductive Numbered (account : PublicKeyHash) (nonce : Nat) (l l' : LedgerState) (status : TransactionStatus)
    (n : Option (PublicKeyHash × Nat)) : Prop
  | executed : (status = .executed) → (nonce = l.expectedNonce account) → (n = some (account, nonce + 1)) →
      (∀ k, l'.expectedNonce k = if k = account then nonce + 1 else l.expectedNonce k) →
      Numbered account nonce l l' status n
  | other : (status ≠ .executed) → (n = none) → (∀ k, l'.expectedNonce k = l.expectedNonce k) →
      Numbered account nonce l l' status n

theorem Refused.ne_executed {status : TransactionStatus} (h : Refused status) : status ≠ .executed := by
  cases h <;> simp [*]

theorem Numbered.of_refused {account : PublicKeyHash} {nonce : Nat} {status : TransactionStatus}
    (hs : Refused status) (hn : n = none) (hl : ∀ k, l'.expectedNonce k = l.expectedNonce k) :
    Numbered account nonce l l' status n :=
  .other hs.ne_executed hn hl

theorem expectedNonce_id : (l.getAccountInfoMut k id).expectedNonce = l.expectedNonce := by
  funext k'
  simp [expectedNonce]

-- The last step of the order and the cancel handler.
theorem Numbered.of_bumpNonce {l₁ : LedgerState} {account : PublicKeyHash} {nonce e : Nat}
    (hn : nonce = l.expectedNonce account) (h₁ : ∀ k, l₁.expectedNonce k = l.expectedNonce k)
    (hb : l₁.bumpNonce account = .ok (l', e)) :
    Numbered account nonce l l' .executed (some (account, e)) := by
  have ⟨he, _, hl⟩ := bumpNonce_cases hb
  rw [h₁, ← hn] at he
  subst he hl
  refine .executed rfl hn rfl fun k => ?_
  simp only [expectedNonce, getAccountInfoMut_info]
  split
  case isTrue => rfl
  case isFalse => exact h₁ k

theorem handleTransferTransaction_numbered {t t' : TransferTransaction}
    (h : l.handleTransferTransaction t = .ok (l', t', n)) :
    Numbered t.source t.nonce l l' t'.status n := by
  rcases handleTransferTransaction_cases h with
    ⟨_, hl, ⟨_, hs, ht⟩, hn⟩ | ⟨_, _, hl, ⟨_, hs, ht⟩, hn⟩ | ⟨heq, _, ht, e, hn, hc⟩
  · subst hl ht
    exact .of_refused hs hn fun k => congrFun expectedNonce_id k
  · subst hl ht
    exact .of_refused hs hn fun k => congrFun expectedNonce_id k
  · have ⟨he, _, _, accounts, _, _, hl⟩ := commitTransferTransaction_cases hc
    have hsame : (((l.getAccountInfoMut t.source id).setClearinghouseAccounts
        (l.spotClearinghouse.accounts.getAccountBalanceMut t.source)).getAccountInfoMut t.target id).expectedNonce =
          l.expectedNonce := expectedNonce_id.trans expectedNonce_id
    rw [hsame, ← heq] at he
    subst ht hn hl he
    refine .executed rfl heq rfl fun k => ?_
    rw [expectedNonce, setClearinghouseAccounts_info, getAccountInfoMut_info]
    split
    case isTrue  => rfl
    case isFalse => exact congrFun hsame k

theorem handleOrderTransaction_numbered {t t' : OrderTransaction}
    (h : l.handleOrderTransaction t = .ok (l', t', n)) : Numbered t.source t.nonce l l' t'.status n := by
  cases handleOrderTransaction_cases h
  case inl hr =>
    have ⟨_, hl, ⟨_, hs, ht⟩, hn⟩ := hr
    subst hl ht
    exact .of_refused hs hn fun k => congrFun expectedNonce_id k
  case inr hp =>
    have ⟨placed, l₁, order, hcreate, hrest⟩ := hp
    have hnonce k : l₁.expectedNonce k = l.expectedNonce k := by
      rw [(createOrder_created hcreate).expectedNonce, expectedNonce_id]
    cases hrest
    case inl he =>
      have ⟨err, _, hl, ht, hn⟩ := he
      subst hl ht
      exact .other (by simp) hn hnonce
    case inr he =>
      have ⟨_, c, r, l₂, e, _, _, hrecord, hbump, ht, hn⟩ := he
      subst ht hn
      refine .of_bumpNonce placed.1 (fun k => ?_) hbump
      exact ((Recorded.relation.recordResults hrecord).expectedNonce k).trans (hnonce k)

theorem handleCancelOrderTransaction_numbered {t t' : CancelOrderTransaction}
    (h : l.handleCancelOrderTransaction t = .ok (l', t', n)) : Numbered t.source t.nonce l l' t'.status n := by
  cases handleCancelOrderTransaction_cases h
  case inl hr =>
    have ⟨hl, ⟨_, hs, ht⟩, hn, _⟩ := hr
    subst hl ht
    exact .of_refused hs hn fun _ => rfl
  case inr hc =>
    have ⟨heq, order, _, c, cancelled, l₁, e, _, _, _, hl, hbump, ht, hn⟩ := hc
    subst ht hn
    refine .of_bumpNonce heq (fun k => ?_) hbump
    cases cancelled
    case false => subst hl; rfl
    case true =>
      have ⟨_, _, _, _, hl⟩ := hl
      subst hl
      simp only [expectedNonce, getAccountInfoMut_info]
      split
      case isTrue he => subst he; rfl
      case isFalse   => rfl

theorem applyTransaction_numbered {t t' : SignedTransaction} (h : l.applyTransaction t = .ok (l', t', n)) :
    t'.getFromAccount = t.getFromAccount ∧ t'.getNonce = t.getNonce ∧
    Numbered t.getFromAccount t.getNonce l l' t'.getStatus n := by
  have ⟨tx, _, _⟩ := t
  rcases applyTransaction_cases h with ⟨_, _, htx, ht, hx⟩ | ⟨_, _, htx, ht, hx⟩ | ⟨_, _, htx, ht, hx⟩
  all_goals subst htx ht
  · have ⟨_, hs⟩ := handleTransferTransaction_status hx
    exact ⟨by rw [hs]; rfl, by rw [hs]; rfl, handleTransferTransaction_numbered hx⟩
  · have ⟨_, hs⟩ := handleOrderTransaction_status hx
    exact ⟨by rw [hs]; rfl, by rw [hs]; rfl, handleOrderTransaction_numbered hx⟩
  · have ⟨_, hs⟩ := handleCancelOrderTransaction_status hx
    exact ⟨by rw [hs]; rfl, by rw [hs]; rfl, handleCancelOrderTransaction_numbered hx⟩

-- The executed transactions of an account.
def executedBy (k : PublicKeyHash) (ts : List SignedTransaction) : List SignedTransaction :=
  ts.filter fun t => t.getFromAccount = k ∧ t.getStatus = .executed

-- What is reported to the mempool for a transaction.
def report (t : SignedTransaction) : Option (PublicKeyHash × Nat) :=
  if t.getStatus = .executed then some (t.getFromAccount, t.getNonce + 1) else none

theorem apply_numbered {ts ts' : List SignedTransaction} {ns : List (Option (PublicKeyHash × Nat))}
    (h : l.apply ts = .ok (l', ts', ns)) :
    ns = ts'.map report ∧ ∀ k,
      (executedBy k ts').map (·.getNonce) = List.range' (l.expectedNonce k) (executedBy k ts').length ∧
      l'.expectedNonce k = l.expectedNonce k + (executedBy k ts').length := by
  induction ts generalizing l ts' ns
  case nil => cases h; simp [executedBy]
  case cons t ts hi =>
    have ⟨l₁, t', n, ts'', ns', ht, hts, hts', hns⟩ := apply_cons h
    subst hts' hns
    have ⟨hfrom, hnonce, hnum⟩ := applyTransaction_numbered ht
    have ⟨hreport, hk⟩ := hi hts
    rw [← hfrom, ← hnonce] at hnum
    cases hnum
    case other hs hn hsame =>
      refine ⟨by simp [report, hs, hn, hreport], fun k => ?_⟩
      have skip : executedBy k (t' :: ts'') = executedBy k ts'' := by simp [executedBy, hs]
      rw [skip, ← hsame]
      exact hk k
    case executed hs heq hn hnext =>
      refine ⟨by simp [report, hs, hn, hreport], fun k => ?_⟩
      have ⟨hnonces, hcount⟩ := hk k
      rw [hnext] at hnonces hcount
      by_cases he : k = t'.getFromAccount
      case pos =>
        have own : executedBy k (t' :: ts'') = t' :: executedBy k ts'' := by simp [executedBy, hs, he]
        rw [if_pos he] at hnonces hcount
        rw [← he] at heq
        rw [own, List.map_cons, List.length_cons, List.range'_succ, hnonces, hcount, heq]
        exact ⟨rfl, by omega⟩
      case neg =>
        have skip : executedBy k (t' :: ts'') = executedBy k ts'' := by
          simp [executedBy, Ne.symm he]
        rw [if_neg he] at hnonces hcount
        rw [skip]
        exact ⟨hnonces, hcount⟩

-- Transactions keep their accounts and nonces.
theorem apply_accounts {ts ts' : List SignedTransaction} {ns : List (Option (PublicKeyHash × Nat))}
    (h : l.apply ts = .ok (l', ts', ns)) :
    ts'.map (fun t => (t.getFromAccount, t.getNonce)) = ts.map (fun t => (t.getFromAccount, t.getNonce)) := by
  induction ts generalizing l ts' ns
  case nil => cases h; rfl
  case cons t ts hi =>
    have ⟨_, _, _, _, _, ht, hts, hts', _⟩ := apply_cons h
    have ⟨hfrom, hnonce, _⟩ := applyTransaction_numbered ht
    rw [hts', List.map_cons, List.map_cons, hi hts, hfrom, hnonce]

-- Blocks are applied one after the other.
def applyBlocks (l : LedgerState) :
    List (List SignedTransaction) →
    Checked (LedgerState × List SignedTransaction × List (Option (PublicKeyHash × Nat)))
  | [] => return (l, [], [])
  | block :: blocks => do
    let (l, ts, ns) ← l.apply block
    let (l, ts', ns') ← l.applyBlocks blocks
    return (l, ts ++ ts', ns ++ ns')

theorem apply_append {ts₁ ts₂ : List SignedTransaction} :
    l.apply (ts₁ ++ ts₂) = do
      let (l, ts, ns) ← l.apply ts₁
      let (l, ts', ns') ← l.apply ts₂
      return (l, ts ++ ts', ns ++ ns') := by
  induction ts₁ generalizing l
  case nil => simp [apply]
  case cons t ts hi => simp [apply, hi]

theorem applyBlocks_eq {blocks : List (List SignedTransaction)} :
    l.applyBlocks blocks = l.apply blocks.flatten := by
  induction blocks generalizing l
  case nil => rfl
  case cons block blocks hi => simp [applyBlocks, apply_append, hi]

-- The executed transactions of every account carry the nonces from 0 on, the account expects the next
-- one, and exactly the executed ones are reported.
structure ReplayProtected (l : LedgerState) (ts : List SignedTransaction)
    (ns : List (Option (PublicKeyHash × Nat))) : Prop where
  nonces   : ∀ k, (executedBy k ts).map (·.getNonce) = List.range (executedBy k ts).length
  expected : ∀ k, l.expectedNonce k = (executedBy k ts).length
  reported : ns = ts.map report

theorem ReplayProtected.of_apply {faucet : PublicKeyHash} {ts ts' : List SignedTransaction}
    {ns : List (Option (PublicKeyHash × Nat))} (h : (new faucet).apply ts = .ok (l, ts', ns)) :
    ReplayProtected l ts' ns := by
  have hnew k : (new faucet).expectedNonce k = 0 := by
    rw [expectedNonce, new_info]
    rfl
  obtain ⟨hreport, hk⟩ := apply_numbered h
  constructor
  case reported => exact hreport
  case nonces   => intro k; rw [(hk k).1, hnew, List.range_eq_range']
  case expected => intro k; rw [(hk k).2, hnew, Nat.zero_add]

-- Every prefix of the transactions of a run is a run of its own, with the same results.
theorem apply_prefix {ts ts₁ ts' : List SignedTransaction} {ns : List (Option (PublicKeyHash × Nat))}
    (h : l.apply ts = .ok (l', ts', ns)) (hp : ts₁ <+: ts) :
    ∃ l₁ ts₁' ns₁, l.apply ts₁ = .ok (l₁, ts₁', ns₁) ∧ ts₁' <+: ts' ∧ ns₁ <+: ns := by
  have ⟨ts₂, he⟩ := hp
  subst he
  simp only [apply_append, Checked.bind_ok, Checked.pure_ok, Prod.exists, Prod.mk.injEq] at h
  have ⟨l₁, ts₁', ns₁, h₁, _, ts₂', ns₂, _, _, hts, hns⟩ := h
  exact ⟨l₁, ts₁', ns₁, h₁, ⟨ts₂', hts⟩, ⟨ns₂, hns⟩⟩

end LedgerState

open LedgerState

-- The blocks of a run, and every prefix of their transactions.
theorem replayProtected_of_applyBlocks {faucet : PublicKeyHash} {blocks : List (List SignedTransaction)}
    {l : LedgerState} {ts : List SignedTransaction} {ns : List (Option (PublicKeyHash × Nat))}
    (h : (LedgerState.new faucet).applyBlocks blocks = .ok (l, ts, ns)) :
    ReplayProtected l ts ns ∧
    ∀ ts₁, ts₁ <+: blocks.flatten → ∃ l₁ ts₁' ns₁, (LedgerState.new faucet).apply ts₁ = .ok (l₁, ts₁', ns₁) ∧
      ts₁' <+: ts ∧ ns₁ <+: ns ∧ ReplayProtected l₁ ts₁' ns₁ := by
  rw [applyBlocks_eq] at h
  refine ⟨.of_apply h, fun ts₁ hp => ?_⟩
  have ⟨l₁, ts₁', ns₁, h₁, hts, hns⟩ := apply_prefix h hp
  exact ⟨l₁, ts₁', ns₁, h₁, hts, hns, .of_apply h₁⟩

-- The second transfer repeats the first, and the fourth transaction comes too early.
def replayedBlocks : List (List SignedTransaction) := [
  [.transfer 1 7 0 500 0, .transfer 1 7 0 500 0],
  [.limit 7 .sell 10 5 0, .cancel 7 0 2, .cancel 7 0 1]
]

theorem replayedBlocks_replayProtected : ∃ l ts ns,
    (LedgerState.new 1).applyBlocks replayedBlocks = .ok (l, ts, ns) ∧
    (executedBy 1 ts).length = 1 ∧ (executedBy 7 ts).length = 2 ∧ ReplayProtected l ts ns :=
  ⟨_, _, _, rfl, rfl, rfl, (replayProtected_of_applyBlocks
    (rfl : (LedgerState.new 1).applyBlocks replayedBlocks = .ok _)).1⟩

end Superliquid

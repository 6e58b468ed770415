import Superliquid.State.Theorems.Exchange

namespace Superliquid
namespace LedgerState

-- Books, balances and the accounts' records of their orders are the same. Entries of accounts may have
-- come into being.
structure Untouched (l l' : LedgerState) : Prop where
  markets         : l'.spotClearinghouse.markets = l.spotClearinghouse.markets
  balance         : ∀ k a, l'.balance k a = l.balance k a
  openOrders      : ∀ k, l'.openOrders k = l.openOrders k
  completedOrders : ∀ k, l'.completedOrders k = l.completedOrders k

-- The clearinghouse turns an order down, for which the handler has no status of its own.
def Declines (l : LedgerState) (t : OrderTransaction) : Prop :=
  l.Placed t ∧ ∃ l₁ order precision c, (l.getAccountInfoMut t.source id).createOrder t = .ok (l₁, order) ∧
    l₁.marketPrecision t.marketId = .ok precision ∧ l₁.spotClearinghouse.handleOrder order precision = .ok (c, none)

def Fails (l : LedgerState) (t t' : SignedTransaction) : Prop :=
  Refused t'.getStatus ∨ ∃ o, t.tx = .order o ∧ l.Declines o

-- A limit order that passes the checks of its nonce and of the account's other orders.
def Enters (l : LedgerState) (t : SignedTransaction) : Prop :=
  ∃ o price size, t.tx = .order o ∧ o.orderType = .limit price size ∧ l.Placed o

variable {l l' l₁ l₂ : LedgerState} {t : OrderTransaction} {order : Order} {n : Option (PublicKeyHash × Nat)}

theorem Untouched.touch (l : LedgerState) (k : PublicKeyHash) : l.Untouched (l.getAccountInfoMut k id) where
  markets         := rfl
  balance _ _     := rfl
  openOrders k    := by simp [LedgerState.openOrders]
  completedOrders := by simp [LedgerState.completedOrders]

theorem toOrder_entries {id : Nat} : (t.toOrder id).entries = [] ↔ ¬∃ price size, t.orderType = .limit price size := by
  unfold OrderTransaction.toOrder
  cases t.orderType
  case limit  => simp [Order.entries]
  case market => cases t.direction <;> simp [Order.entries]

-- A placed order leaves a trace by being entered.
theorem untouched_iff_of_created (h : Created t (l.getAccountInfoMut t.source id) order l₁)
    (hm : l₂.spotClearinghouse.markets = l.spotClearinghouse.markets) (hb : ∀ k a, l₂.balance k a = l.balance k a)
    (ho : ∀ k, l₂.openOrders k = l₁.openOrders k) (hc : ∀ k, l₂.completedOrders k = l₁.completedOrders k) :
    l.Untouched l₂ ↔ ¬∃ price size, t.orderType = .limit price size := by
  have hopen (k) : l₂.openOrders k = if k = t.source then l.openOrders k ++ order.entries else l.openOrders k := by
    rw [ho, h.openOrders]
    simp [openOrders]
  have hcompleted (k) : l₂.completedOrders k = l.completedOrders k := by
    rw [hc, completedOrders, h.info]
    split <;> simp [completedOrders]
  rw [← @toOrder_entries t l.orderManager.nextId, ← show order = t.toOrder l.orderManager.nextId from h.placed]
  constructor
  · intro hu
    have hsource := hu.openOrders t.source
    rw [hopen, if_pos rfl] at hsource
    exact List.append_right_eq_self.mp hsource
  · intro he
    exact ⟨hm, hb, fun k => by simp [hopen, he], hcompleted⟩

theorem handleOrderTransaction_untouched_iff {t' : OrderTransaction}
    (h : l.handleOrderTransaction t = .ok (l', t', n)) (hf : Refused t'.status ∨ l.Declines t) :
    l.Untouched l' ↔ ¬(l.Placed t ∧ ∃ price size, t.orderType = .limit price size) := by
  cases handleOrderTransaction_cases h
  case inl hr =>
    have ⟨hplaced, hl, _⟩ := hr
    exact hl ▸ iff_of_true (.touch l t.source) fun hp => hplaced hp.1
  case inr hp =>
    have ⟨placed, l₁, order, hcreate, hrest⟩ := hp
    have created := createOrder_created hcreate
    simp only [placed, true_and]
    cases hrest
    case inl he =>
      have ⟨_, _, hl, _⟩ := he
      subst hl
      refine untouched_iff_of_created created ?_ ?_ (fun _ => rfl) fun _ => rfl
      · rw [created.spotClearinghouse]
        rfl
      · intro k a
        rw [balance, created.spotClearinghouse]
        rfl
    case inr he =>
      have ⟨precision, c, r, l₂, nonce, hprecision, hhandle, hrecord, hbump, ht, _⟩ := he
      -- The status is that of an executed order, so the clearinghouse has turned it down.
      have hnone : r = none := by
        cases hf
        case inl refused => subst ht; cases refused <;> contradiction
        case inr declines =>
          have ⟨_, _, _, _, _, hcreate', hprecision', hhandle'⟩ := declines
          cases hcreate.symm.trans hcreate'
          cases hprecision.symm.trans hprecision'
          cases hhandle.symm.trans hhandle'
          rfl
      subst hnone
      cases hrecord
      cases handleOrder_cases hhandle
      case inr hs =>
        have ⟨_, _, _, _, _, hr, _⟩ := hs
        contradiction
      case inl hd =>
        have declined := hd.2
        have ⟨_, _, hl⟩ := bumpNonce_cases hbump
        subst hl
        refine untouched_iff_of_created created ?_ ?_ ?_ ?_
        · exact declined.markets.trans (by rw [created.spotClearinghouse]; rfl)
        · intro k a
          refine (declined.balance k a).trans ?_
          rw [created.spotClearinghouse]
          rfl
        all_goals
          intro k
          simp only [openOrders, completedOrders, getAccountInfoMut_info]
          split
          case isTrue hk => rw [hk]; rfl
          case isFalse   => rfl

end LedgerState

open LedgerState

-- A failed transaction leaves a trace if and only if it is a limit order that was entered before it failed.
theorem untouched_iff_not_enters {l l' : LedgerState} {t t' : SignedTransaction} {n : Option (PublicKeyHash × Nat)}
    (h : l.applyTransaction t = .ok (l', t', n)) (hf : l.Fails t t') : l.Untouched l' ↔ ¬l.Enters t := by
  obtain ⟨tx, _, _⟩ := t
  cases tx
  all_goals
    simp only [applyTransaction, Checked.bind_ok, Checked.pure_ok, Prod.exists, Prod.mk.injEq] at h
    obtain ⟨_, tx', _, hhandle, hl, ht, _⟩ := h
    subst hl ht
    simp only [Fails, SignedTransaction.getStatus, Enters, UnsignedTransaction.order.injEq, reduceCtorEq, false_and,
      exists_false, or_false, not_false_eq_true, iff_true, exists_eq_left'] at hf ⊢
  case transfer =>
    rcases handleTransferTransaction_cases hhandle with ⟨_, hl, _⟩ | ⟨_, _, hl, _⟩ | ⟨_, _, ht, _⟩
    · exact hl ▸ .touch l _
    · subst hl
      exact { Untouched.touch l _ with balance := fun _ _ => getAccountBalanceMut_balance }
    · subst ht
      cases hf <;> contradiction
  case cancelOrder =>
    cases handleCancelOrderTransaction_cases hhandle
    case inl hr => exact hr.1 ▸ ⟨rfl, fun _ _ => rfl, fun _ => rfl, fun _ => rfl⟩
    case inr hc =>
      obtain ⟨_, _, _, _, _, _, _, _, _, _, _, _, ht, _⟩ := hc
      subst ht
      cases hf <;> contradiction
  case order =>
    rw [handleOrderTransaction_untouched_iff hhandle hf]
    refine not_congr ⟨?_, ?_⟩
    · rintro ⟨hp, price, size, ht⟩
      exact ⟨_, price, size, rfl, ht, hp⟩
    · rintro ⟨_, price, size, rfl, ht, hp⟩
      exact ⟨hp, price, size, ht⟩

-- A market sell that account 7 cannot pay for.
theorem poorMarketSell_untouched : ∃ l t' n,
    (LedgerState.new 1).applyTransaction (.market 7 .sell 5 0) = .ok (l, t', n) ∧
    (LedgerState.new 1).Fails (.market 7 .sell 5 0) t' ∧ (LedgerState.new 1).Untouched l := by
  have hf (t' : SignedTransaction) : (LedgerState.new 1).Fails (.market 7 .sell 5 0) t' :=
    .inr ⟨_, rfl, ⟨rfl, rfl⟩, _, _, _, _, rfl, rfl, rfl⟩
  refine ⟨_, _, _, rfl, hf _, ?_⟩
  refine (untouched_iff_not_enters rfl (hf _)).mpr ?_
  rintro ⟨o, price, size, ho, ht, _⟩
  cases ho
  contradiction

-- A limit sell that it cannot pay for either stays among its open orders.
theorem poorLimitSell_not_untouched : ∃ l t' n,
    (LedgerState.new 1).applyTransaction (.limit 7 .sell 10 5 0) = .ok (l, t', n) ∧ (LedgerState.new 1).Reachable 1 ∧
    (LedgerState.new 1).Fails (.limit 7 .sell 10 5 0) t' ∧ (l.openOrders 7).length = 1 ∧
    ¬(LedgerState.new 1).Untouched l := by
  refine ⟨_, _, _, rfl, .of_apply (rfl : (LedgerState.new 1).apply [] = .ok _),
    .inr ⟨_, rfl, ⟨rfl, rfl⟩, _, _, _, _, rfl, rfl, rfl⟩, rfl, ?_⟩
  intro h
  exact absurd (congrArg List.length (h.openOrders 7)) (by decide)

end Superliquid

import Superliquid.State.Theorems.Backing

namespace Superliquid

open SpotMarket LedgerState

-- A resting order that trades in part with another account: what the part and the rest of it cost add up to
-- what the order has locked. Sells always do, since only quote lots are rounded.
def Fill.Divides (own : LimitOrder → Bool) (f : Fill) : Prop :=
  let pay := payAmount .supeUsd f.order.common.direction f.order.priceMultiple
  ¬f.Whole → own f.order = false → pay f.lots + pay (f.order.unfilled - f.lots) = pay f.order.unfilled

instance {own : LimitOrder → Bool} {f : Fill} : Decidable (f.Divides own) :=
  inferInstanceAs (Decidable (_ → _ → _ = _))

def SpotMarket.Divides (m : SpotMarket) (order : Order) : Prop :=
  ∀ f ∈ (m.sweep .supeUsd order).fills, f.Divides order.own

instance {m : SpotMarket} {order : Order} : Decidable (m.Divides order) :=
  inferInstanceAs (Decidable (∀ f ∈ _, Fill.Divides _ f))

theorem Fill.Divides.dust_eq {own : LimitOrder → Bool} {f : Fill} (h : f.Divides own) (k : PublicKeyHash)
    (a : AssetId) : dust own k a f = 0 := by
  have hpay (lots : Nat) (hd : payAmount .supeUsd f.order.common.direction f.order.priceMultiple lots +
        payAmount .supeUsd f.order.common.direction f.order.priceMultiple (f.order.unfilled - lots) =
      payAmount .supeUsd f.order.common.direction f.order.priceMultiple f.order.unfilled) :
      f.order.locks k a lots + f.order.locks k a (f.order.unfilled - lots) = f.order.locks k a f.order.unfilled := by
    simp only [LimitOrder.locks]
    split
    case isTrue  => exact hd
    case isFalse => rfl
  have hsettled : f.order.locks k a (f.settled own) + f.order.locks k a (f.order.unfilled - f.settled own) =
      f.order.locks k a f.order.unfilled := by
    by_cases hw : f.Whole
    case pos =>
      have he : f.settled own = f.order.unfilled := if_pos hw
      rw [he, Nat.sub_self, LimitOrder.locks_zero, Nat.add_zero]
    case neg =>
      cases hown : own f.order
      case true =>
        have he : f.settled own = 0 := by simp [Fill.settled, hw, hown]
        rw [he, LimitOrder.locks_zero, Nat.zero_add, Nat.sub_zero]
      case false =>
        have he : f.settled own = f.lots := by simp [Fill.settled, hw, hown]
        rw [he]
        exact hpay f.lots (h hw hown)
  simp only [dust]
  omega

namespace Exchange

-- Every account has locked exactly what its live orders are for.
structure Tight (e : Exchange) : Prop where
  counted : e.Counted
  used    : ∀ o ∈ liveOrders e.market.orders, o.remaining = 0 → o.unfilled = 0
  slack   : ∀ k a, slack e.accounts e.market.orders k a = 0

namespace Tight

variable {e e' : Exchange} {tx : UnsignedTransaction}

theorem step (hs : e.Step tx e') (hl : e.market.Listed) (ht : ∀ t, tx ≠ .transfer t)
    (hw : ∀ t, tx = .order t → t.marketId = 0 → t.orderType.Whole e.market t.direction)
    (hd : ∀ t, tx = .order t → t.marketId = 0 → e.market.Divides (t.toOrder e.nextId))
    (hc : CancelsClean e.openOrders tx) (h : e.Tight) : e'.Tight := by
  refine ⟨.step hs hc h.counted, hs.forall_live h.counted.consistent.sound h.used ?_ ?_, fun k a => ?_⟩
  · intro t o filled _ _ ho _ hz
    obtain ⟨_, _, _, heq⟩ := OrderTransaction.toOrder_limit ho
    simpa [heq, LimitOrder.remaining, LimitOrder.unfilled] using hz
  · intro own f hlt _ hz
    have hr := @Taken.after_remaining own f (Nat.not_le.mpr hlt)
    omega
  · have hk := h.slack k a
    rcases hs.slack_cases hl h.counted.consistent hw with
      hsame | ⟨⟨t, htx⟩, _⟩ | ⟨t, htx, hzero, hdust⟩ | ⟨t, order, lost, htx, hmem, hid, hlost, hlive, hgone⟩
    · exact (hsame k a).trans hk
    · exact absurd htx (ht t)
    · have hnone : ((e.market.sweep .supeUsd (t.toOrder e.nextId)).fills.map
          (dust (t.toOrder e.nextId).own k a)).sum = 0 :=
        List.sum_eq_zero fun x hx => by
          obtain ⟨f, hf, he⟩ := List.mem_map.mp hx
          exact he ▸ (hd t htx hzero f hf).dust_eq k a
      rw [hdust, hk, hnone, add_zero]
    · -- The counters are right, so nothing that is worth something goes with the order.
      subst htx
      have hnone : (lost.map fun o => o.locks k a o.unfilled).sum = 0 :=
        List.sum_eq_zero fun x hx => by
          obtain ⟨o, ho, he⟩ := List.mem_map.mp hx
          have hz := hgone h.counted.exact (hc order hmem hid) o ho
          rw [← he, h.used o (hlive o ho) hz, LimitOrder.locks_zero]
      rw [hlost, hk, hnone]
      rfl

-- An account without open orders has no live orders, and nothing locked.
theorem locked_eq (h : e.Tight) {k : PublicKeyHash} (hk : e.openOrders k = []) (a : AssetId) :
    e.accounts.locked k a = 0 := by
  have hnone : reserved k a e.market.orders = 0 :=
    List.sum_eq_zero fun x hx => by
      have ⟨o, ho, he⟩ := List.mem_map.mp hx
      have ⟨y, hy, _⟩ := h.counted.consistent.covered o ho
      have hne : o.common.account ≠ k := fun hacc => by simp [hacc, hk] at hy
      rw [← he, LimitOrder.locks, if_neg fun hc => hne hc.1]
  have hslack := h.slack k a
  rw [Superliquid.slack, hnone] at hslack
  omega

end Tight
end Exchange

-- No entry of an account has something locked.
def Accounts.Free (accounts : Accounts) : Prop :=
  ∀ entry ∈ accounts.entries, ∀ b ∈ entry.2.assetBalances, b.availableBalance = b.totalBalance

instance {accounts : Accounts} : Decidable accounts.Free :=
  inferInstanceAs (Decidable (∀ entry ∈ accounts.entries, ∀ b ∈ entry.2.assetBalances, _ = _))

theorem Accounts.Free.locked_eq {accounts : Accounts} (h : accounts.Free) (k : PublicKeyHash) (a : AssetId) :
    accounts.locked k a = 0 := by
  have hb : (accounts.balance k a).availableBalance = (accounts.balance k a).totalBalance := by
    cases hk : accounts.lookup k
    case none => simp [Accounts.balance, hk, AccountBalance.new, AccountBalance.findAssetId, AccountTokenBalance.empty]
    case some account =>
      cases hfind : account.findAssetId a
      case none => simp [Accounts.balance, hk, hfind, AccountTokenBalance.empty]
      case some b =>
        have hentry := AList.mem_lookup_iff.mp hk
        simpa [Accounts.balance, hk, hfind] using h _ hentry b (List.mem_of_find?_eq_some hfind)
  simp [Accounts.locked, hb]

-- The transactions that leave no lock behind: a limit order rests whole or is filled whole, a bid is filled
-- without rounding, and no order is cancelled that has traded with its own account. Transfers are left out.
def LedgerState.Releases (l : LedgerState) : UnsignedTransaction → Prop
  | .order t => ∀ m ∈ l.spotClearinghouse.markets[t.marketId]?,
    t.orderType.Whole m t.direction ∧ m.Divides (t.toOrder l.orderManager.nextId)
  | .cancelOrder t => Exchange.CancelsClean l.openOrders (.cancelOrder t)
  | .transfer _ => False

instance {l : LedgerState} : DecidablePred l.Releases
  | .order t       => inferInstanceAs (Decidable (∀ m ∈ l.spotClearinghouse.markets[t.marketId]?, _ ∧ _))
  | .cancelOrder t => inferInstanceAs (Decidable (Exchange.CancelsClean l.openOrders (.cancelOrder t)))
  | .transfer _    => inferInstanceAs (Decidable False)

-- An account without open orders has nothing locked, in every run from empty books and free balances whose
-- transactions leave no lock behind. The records may be those of any earlier run.
theorem free_of_releases {faucet : PublicKeyHash} {l l' : LedgerState} {accounts : Accounts}
    {ts ts' : List SignedTransaction} {ns : List (Option (PublicKeyHash × Nat))} (hl : l.Reachable faucet)
    (hbooks : ∀ m ∈ l.spotClearinghouse.markets, m.bidsLevels = [] ∧ m.asksLevels = []) (hfree : accounts.Free)
    (h : (l.setClearinghouseAccounts accounts).apply ts = .ok (l', ts', ns))
    (hc : Meets LedgerState.next (fun l t => l.Releases t.tx) (l.setClearinghouseAccounts accounts) ts)
    {k : PublicKeyHash} (hk : l'.openOrders k = []) (a : AssetId) :
    (l'.balance k a).availableBalance = (l'.balance k a).totalBalance := by
  obtain ⟨e, hshows, consistent⟩ := hl.invariant Exchange.Consistent.new Exchange.Consistent.step
  obtain ⟨hbids, hasks⟩ := hbooks e.market (by simp [hshows.markets])
  have hside (d : OrderDirection) : e.market.side d = [] := by cases d <;> assumption
  have hnone : e.market.orders = [] := by simp [SpotMarket.orders, sideOrders, hbids, hasks]
  have tight : Exchange.Tight { e with accounts } := by
    refine ⟨⟨⟨consistent.sound, consistent.entries, consistent.covered⟩, ?_, ?_⟩, ?_, fun k a => ?_⟩
    · intro d
      simp [hside]
    · simp [SpotMarket.Valid, hnone, liveOrders]
    · simp [hnone, liveOrders]
    · simp [slack, hfree.locked_eq, reserved, hnone, liveOrders]
  have reached := (hshows.setClearinghouseAccounts accounts).invariant tight h hc ?_
  · obtain ⟨e', hshows', tight'⟩ := reached
    have hlocked := tight'.locked_eq (hshows'.openOrders ▸ hk) a
    simp only [Accounts.locked, balance, hshows'.accounts] at hlocked ⊢
    omega
  · intro l e t e' hshows hcond hs
    have horder (t₁ : OrderTransaction) (htx : t.tx = .order t₁) (hzero : t₁.marketId = 0) :
        t₁.orderType.Whole e.market t₁.direction ∧ e.market.Divides (t₁.toOrder e.nextId) := by
      rw [htx] at hcond
      rw [← hshows.nextId]
      exact hcond e.market (by simp [hzero, hshows.markets])
    refine .step hs hshows.listed ?_ (fun t₁ htx hz => (horder t₁ htx hz).1) (fun t₁ htx hz => (horder t₁ htx hz).2) ?_
    · intro t₁ htx
      rw [htx] at hcond
      exact hcond
    · rw [← hshows.openOrders]
      cases htx : t.tx
      all_goals rw [htx] at hcond
      case transfer    => trivial
      case order       => trivial
      case cancelOrder => exact hcond

-- Account 7 holds the first asset and account 8 the second.
def sevenAndEight : Accounts :=
  (AList.insert 7 { assetBalances := [⟨0, 1000, 1000⟩] } ∅).insert 8 { assetBalances := [⟨1, 1000, 1000⟩] }

-- Account 8 bids for four lots, gets one of them from account 7 and takes the rest back.
theorem evenBid_free : ∃ l ts ns,
    ((LedgerState.new 1).setClearinghouseAccounts sevenAndEight).apply
      [.limit 8 .buy 10 4 0, .market 7 .sell 1 0, .cancel 8 0 1] = .ok (l, ts, ns) ∧
    l.openOrders 8 = [] ∧ (l.balance 8 1).totalBalance = 900 ∧
    (l.balance 8 1).availableBalance = (l.balance 8 1).totalBalance := by
  refine ⟨_, _, _, rfl, rfl, rfl, ?_⟩
  exact free_of_releases (.of_apply (rfl : (LedgerState.new 1).apply [] = .ok _)) (by decide)
    (by decide : sevenAndEight.Free)
    (rfl : ((LedgerState.new 1).setClearinghouseAccounts sevenAndEight).apply
      [.limit 8 .buy 10 4 0, .market 7 .sell 1 0, .cancel 8 0 1] = .ok _) (by decide) rfl 1

-- A bid for two lots at half a quote lot each is filled lot by lot, and each half is rounded off.
theorem halfLots_not_free : ∃ l ts ns, sevenAndEight.Free ∧
    ((LedgerState.new 1).setClearinghouseAccounts sevenAndEight).apply
      [.limit 8 .buy 5 2 0, .market 7 .sell 1 0, .market 7 .sell 1 1] = .ok (l, ts, ns) ∧
    l.openOrders 8 = [] ∧ (l.balance 8 1).totalBalance = 1000 ∧ (l.balance 8 1).availableBalance = 900 :=
  ⟨_, _, _, by decide, rfl, rfl, rfl, rfl⟩

end Superliquid

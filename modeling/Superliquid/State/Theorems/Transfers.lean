import Superliquid.State.Theorems.Exchange

namespace Superliquid

open LedgerState SpotClearingHouse AccountTokenBalance

section Debit

variable {accounts accounts' : Accounts} {delta : AssetDelta}

-- An entry is replaced by one of the same asset.
theorem find?_set {bs : List AccountTokenBalance} {b b' : AccountTokenBalance} {i : Nat} (hi : bs[i]? = some b)
    (hb : b'.assetId = b.assetId) (a : AssetId) :
    (bs.set i b').find? (·.assetId = a) = bs.find? (·.assetId = a) ∨
      (bs.find? (·.assetId = a) = some b ∧ (bs.set i b').find? (·.assetId = a) = some b') := by
  induction bs generalizing i
  case nil => simp at hi
  case cons c bs ih =>
    cases i
    case zero =>
      cases hi
      by_cases ha : b.assetId = a
      case pos => exact .inr (by simp [ha, hb])
      case neg => exact .inl (by simp [ha, hb])
    case succ i =>
      by_cases ha : c.assetId = a
      case pos => exact .inl (by simp [ha])
      case neg => simpa [ha] using ih hi

-- What a transfer takes is taken from the available balance of the entry at the asset's position, whatever
-- asset that entry is for.
theorem debitTransfer_cases (h : debitTransfer accounts delta = .ok accounts') :
    ∃ b, ((accounts.lookup delta.account).getD .new).assetBalances[delta.assetId]? = some b ∧
      delta.amount ≤ b.availableBalance ∧ ∀ k a, accounts'.balance k a = accounts.balance k a ∨
        (k = delta.account ∧ accounts.balance k a = b ∧
          accounts'.balance k a = { b with availableBalance := b.availableBalance - delta.amount }) := by
  simp only [debitTransfer, lock, Checked.bind_ok, Checked.pure_ok, Checked.index_ok, Checked.sub_ok] at h
  obtain ⟨b, hb, _, ⟨_, ⟨hle, hn⟩, hb'⟩, ha⟩ := h
  subst hn hb' ha
  refine ⟨b, hb, hle, fun k a => ?_⟩
  by_cases hk : k = delta.account
  case neg => exact .inl (by simp [Accounts.balance, AList.lookup_insert_ne hk])
  case pos =>
    subst hk
    simp only [Accounts.balance, AccountBalance.findAssetId, AList.lookup_insert, Option.getD_some]
    cases @find?_set _ b { b with availableBalance := b.availableBalance - delta.amount } _ hb rfl a
    case inl he => exact .inl (by rw [he])
    case inr he => exact .inr ⟨trivial, by simp [he.1], by simp [he.2]⟩

theorem debitTransfer_total (h : debitTransfer accounts delta = .ok accounts') (k : PublicKeyHash) (a : AssetId) :
    (accounts'.balance k a).totalBalance = (accounts.balance k a).totalBalance := by
  have ⟨b, _, _, hbal⟩ := debitTransfer_cases h
  rcases hbal k a with he | ⟨_, hb, he⟩
  · rw [he]
  · rw [he, hb]

theorem debitTransfer_zero (h : debitTransfer accounts delta = .ok accounts') (hz : delta.amount = 0)
    (k : PublicKeyHash) (a : AssetId) : accounts'.balance k a = accounts.balance k a := by
  have ⟨b, _, _, hbal⟩ := debitTransfer_cases h
  rcases hbal k a with he | ⟨_, hb, he⟩
  · exact he
  · rw [he, hb, hz]
    rfl

end Debit

-- Both numbers of a balance are 128 bits wide.
def AccountTokenBalance.InRange (b : AccountTokenBalance) : Prop :=
  b.availableBalance < 2 ^ 128 ∧ b.totalBalance < 2 ^ 128

def Accounts.InRange (accounts : Accounts) : Prop :=
  ∀ k a, (accounts.balance k a).InRange

-- An update of a balance that keeps to the width.
structure Bounded (f : AccountTokenBalance → Checked AccountTokenBalance) : Prop where
  assetId : ∀ {b b'}, f b = .ok b' → b'.assetId = b.assetId
  inRange : ∀ {b b'}, f b = .ok b' → b.InRange → b'.InRange

namespace Bounded

theorem credit (n : Nat) : Bounded (credit n) := by
  refine ⟨(Shifts.credit n).assetId, fun h hr => ?_⟩
  simp only [AccountTokenBalance.credit, Checked.bind_ok, Checked.pure_ok, U128.add_ok] at h
  obtain ⟨_, ⟨ht, htotal⟩, _, ⟨ha, havailable⟩, he⟩ := h
  subst htotal havailable he
  exact ⟨ha, ht⟩

theorem debitTotal (n : Nat) : Bounded (debitTotal n) := by
  refine ⟨(Shifts.debitTotal n).assetId, fun h hr => ?_⟩
  simp only [AccountTokenBalance.debitTotal, Checked.bind_ok, Checked.pure_ok, Checked.sub_ok] at h
  obtain ⟨_, ⟨_, ht⟩, he⟩ := h
  subst ht he
  exact ⟨hr.1, (Nat.sub_le _ _).trans_lt hr.2⟩

theorem unlock (n : Nat) : Bounded (unlock n) := by
  refine ⟨(Shifts.unlock n).assetId, fun h hr => ?_⟩
  simp only [AccountTokenBalance.unlock, Checked.bind_ok, Checked.pure_ok, U128.add_ok] at h
  obtain ⟨_, ⟨ha, havailable⟩, he⟩ := h
  subst havailable he
  exact ⟨ha, hr.2⟩

theorem lock (n : Nat) : Bounded (lock n) := by
  refine ⟨(Shifts.lock n).assetId, fun h hr => ?_⟩
  simp only [AccountTokenBalance.lock, Checked.bind_ok, Checked.pure_ok, Checked.sub_ok] at h
  obtain ⟨_, ⟨_, ha⟩, he⟩ := h
  subst ha he
  exact ⟨(Nat.sub_le _ _).trans_lt hr.1, hr.2⟩

theorem unlockAndSpend (n spent : Nat) : Bounded (unlockAndSpend n spent) := by
  refine ⟨(Shifts.unlockAndSpend n spent).assetId, fun h hr => ?_⟩
  simp only [AccountTokenBalance.unlockAndSpend, Checked.bind_ok, Checked.pure_ok, Checked.sub_ok, U128.add_ok] at h
  obtain ⟨_, ⟨ha, havailable⟩, _, ⟨_, ht⟩, _, ⟨_, hspent⟩, he⟩ := h
  subst havailable ht hspent he
  exact ⟨(Nat.sub_le _ _).trans_lt ha, (Nat.sub_le _ _).trans_lt hr.2⟩

theorem none : Bounded pure :=
  ⟨Shifts.none.assetId, fun h hr => Checked.pure_ok.mp h ▸ hr⟩

end Bounded

namespace Accounts.InRange

variable {accounts accounts' : Accounts} {k : PublicKeyHash} {asset : AssetId}
         {f : AccountTokenBalance → Checked AccountTokenBalance}

theorem getAccountBalanceMut (h : accounts.InRange) : (accounts.getAccountBalanceMut k).InRange := by
  intro k' a
  rw [getAccountBalanceMut_balance]
  exact h k' a

theorem getAccountTokenBalanceMut (h : accounts.InRange) (hf : Bounded f)
    (hm : accounts.getAccountTokenBalanceMut k asset f = .ok accounts') : accounts'.InRange := by
  have ⟨b, hb, hbal⟩ := getAccountTokenBalanceMut_balance hf.assetId hm
  intro k' a
  rw [hbal]
  split
  case isTrue  => exact hf.inRange hb (h k asset)
  case isFalse => exact h k' a

theorem reserve {amount : Nat} {enough : Bool} (h : accounts.InRange)
    (hr : accounts.reserve k asset amount = .ok (accounts', enough)) : accounts'.InRange := by
  unfold Accounts.reserve at hr
  split at hr
  all_goals
    simp only [Checked.bind_ok, Checked.pure_ok, Prod.mk.injEq] at hr
    have ⟨_, hm, he, _⟩ := hr
    subst he
  case isTrue  => exact h.getAccountTokenBalanceMut .none hm
  case isFalse => exact h.getAccountTokenBalanceMut (.lock amount) hm

theorem debitTransfer {delta : AssetDelta} (h : accounts.InRange)
    (hd : LedgerState.debitTransfer accounts delta = .ok accounts') : accounts'.InRange := by
  have ⟨b, _, _, hbal⟩ := debitTransfer_cases hd
  intro k a
  rcases hbal k a with he | ⟨_, hb, he⟩
  · exact he ▸ h k a
  · have ⟨ha, ht⟩ := hb ▸ h k a
    exact he ▸ ⟨(Nat.sub_le _ _).trans_lt ha, ht⟩

variable {isBuy : Bool} {baseAsset quoteAsset : AssetId} {precision : MarketPrecision} {price lots : Nat}

theorem settleLimitMaker
    (hs : settleLimitMaker isBuy baseAsset quoteAsset precision accounts k price lots = .ok accounts')
    (h : accounts.InRange) : accounts'.InRange := by
  simp only [SpotClearingHouse.settleLimitMaker, Checked.bind_ok] at hs
  obtain ⟨_, _, _, _, _, _, hs⟩ := hs
  split at hs
  all_goals
    obtain ⟨_, h₁, h₂⟩ := Checked.bind_ok.mp hs
    exact (h.getAccountTokenBalanceMut (.debitTotal _) h₁).getAccountTokenBalanceMut (.credit _) h₂

theorem settleSellMaker (hs : settleSellMaker baseAsset quoteAsset precision accounts k price lots = .ok accounts')
    (h : accounts.InRange) : accounts'.InRange := by
  simp only [SpotClearingHouse.settleSellMaker, Checked.bind_ok] at hs
  obtain ⟨_, _, _, h₁, _, _, _, _, h₂⟩ := hs
  exact (h.getAccountTokenBalanceMut (.credit _) h₁).getAccountTokenBalanceMut (.debitTotal _) h₂

theorem settleBuyMaker (hs : settleBuyMaker baseAsset quoteAsset precision accounts k price lots = .ok accounts')
    (h : accounts.InRange) : accounts'.InRange := by
  simp only [SpotClearingHouse.settleBuyMaker, Checked.bind_ok] at hs
  obtain ⟨_, _, _, h₁, _, _, _, _, h₂⟩ := hs
  exact (h.getAccountTokenBalanceMut (.debitTotal _) h₁).getAccountTokenBalanceMut (.credit _) h₂

theorem settleMakers {settle : Accounts → PublicKeyHash → Nat → Nat → Checked Accounts}
    {filled : List LimitOrder} {residual : Option ResidualOrder} (h : accounts.InRange)
    (hsettle : ∀ {accounts k price lots accounts'}, settle accounts k price lots = .ok accounts' →
      accounts.InRange → accounts'.InRange)
    (hs : settleMakers settle accounts filled residual = .ok accounts') : accounts'.InRange :=
  foldlM_invariant (settleMakers_eq hs) h hsettle

theorem handleLimitOrder {c c' : SpotClearingHouse} {o : LimitOrder} {r : Option ExecutionResults}
    (h : c.accounts.InRange) (hc : c.handleLimitOrder o precision = .ok (c', r)) : c'.accounts.InRange := by
  cases hm : c.markets[o.common.marketId]?
  case none =>
    simp only [SpotClearingHouse.handleLimitOrder, hm] at hc
    cases hc
    exact h.getAccountBalanceMut
  case some m =>
    obtain ⟨accounts₁, enough, hreserve, hrest⟩ := handleLimitOrder_eq hm hc
    have h₁ := h.getAccountBalanceMut.reserve hreserve
    cases enough
    case false => cases hrest; exact h₁
    case true =>
      simp only [if_true, settleLimit, Checked.bind_ok, Prod.exists] at hrest
      obtain ⟨m', results, _, hset⟩ := hrest
      cases results
      case none => cases hset; exact h₁
      case some result =>
        simp only [Checked.bind_ok] at hset
        obtain ⟨_, _, _, hout, _, _, _, hin, _, hmakers, _, _, hset⟩ := hset
        split at hset
        all_goals
          obtain ⟨_, _, hset⟩ := Checked.bind_ok.mp hset
          cases hset
          exact ((h₁.getAccountTokenBalanceMut (.unlockAndSpend _ _) hout).getAccountTokenBalanceMut (.credit _)
            hin).settleMakers settleLimitMaker hmakers

theorem lockMarketOrder {m : SpotMarket} {o : MarketOrder} {lock : Option Nat} (h : accounts.InRange)
    (hl : lockMarketOrder accounts m o precision = .ok (accounts', lock)) : accounts'.InRange := by
  cases o
  all_goals
    simp only [SpotClearingHouse.lockMarketOrder, Checked.bind_ok, Checked.pure_ok, Prod.exists, Prod.mk.injEq] at hl
  case sell =>
    obtain ⟨_, _, _, _, hreserve, he, _⟩ := hl
    exact he ▸ h.reserve hreserve
  case buy =>
    obtain ⟨_, _, _, hm, he, _⟩ := hl
    exact he ▸ h.getAccountTokenBalanceMut (.lock _) hm

theorem settleMarketSell {lock : Nat} {result : MarketSellResult} {r : ExecutionResults} (h : accounts.InRange)
    (hs : settleMarketSell accounts k baseAsset quoteAsset precision lock result = .ok (accounts', r)) :
    accounts'.InRange := by
  simp only [SpotClearingHouse.settleMarketSell, Checked.bind_ok, Checked.pure_ok, Prod.mk.injEq] at hs
  obtain ⟨_, _, _, hout, _, _, _, hin, _, hmakers, he, _⟩ := hs
  exact he ▸ ((h.getAccountTokenBalanceMut (.unlockAndSpend _ _) hout).getAccountTokenBalanceMut (.credit _)
    hin).settleMakers settleSellMaker hmakers

theorem settleMarketBuy {lock : Nat} {result : MarketBuyResult} {r : ExecutionResults} (h : accounts.InRange)
    (hs : settleMarketBuy accounts k baseAsset quoteAsset precision lock result = .ok (accounts', r)) :
    accounts'.InRange := by
  simp only [SpotClearingHouse.settleMarketBuy, Checked.bind_ok, Checked.pure_ok, Prod.mk.injEq] at hs
  obtain ⟨_, _, _, hout, _, _, _, hin, _, hmakers, he, _⟩ := hs
  exact he ▸ ((h.getAccountTokenBalanceMut (.unlockAndSpend _ _) hout).getAccountTokenBalanceMut (.credit _)
    hin).settleMakers settleBuyMaker hmakers

theorem handleMarketOrder {c c' : SpotClearingHouse} {id : MarketId} {o : MarketOrder} {r : Option ExecutionResults}
    (h : c.accounts.InRange) (hc : c.handleMarketOrder id o precision = .ok (c', r)) : c'.accounts.InRange := by
  cases hm : c.markets[id]? <;> simp only [SpotClearingHouse.handleMarketOrder, hm] at hc
  case none =>
    cases hc
    exact h.getAccountBalanceMut
  case some m =>
    simp only [Checked.bind_ok, Prod.exists] at hc
    obtain ⟨accounts₁, lock, hlock, hrest⟩ := hc
    have h₁ := h.getAccountBalanceMut.lockMarketOrder hlock
    cases lock
    case none => cases hrest; exact h₁
    case some lock =>
      simp only [Checked.bind_ok, Prod.exists] at hrest
      obtain ⟨_, results, _, hsettle⟩ := hrest
      cases results
      all_goals
        simp only [Checked.bind_ok, Prod.exists] at hsettle
        obtain ⟨_, _, hmakers, hrest⟩ := hsettle
        cases hrest
      case sell => exact h₁.settleMarketSell hmakers
      case buy  => exact h₁.settleMarketBuy hmakers

theorem handleOrder {c c' : SpotClearingHouse} {order : Order} {r : Option ExecutionResults}
    (h : c.accounts.InRange) (hc : c.handleOrder order precision = .ok (c', r)) : c'.accounts.InRange := by
  cases order
  case limit  => exact h.handleLimitOrder hc
  case market => exact h.handleMarketOrder hc

theorem cancelOrder {c c' : SpotClearingHouse} {o : LimitOrder} {cancelled : Bool} (h : c.accounts.InRange)
    (hc : c.cancelOrder o precision = .ok (c', cancelled)) : c'.accounts.InRange := by
  cases hm : c.markets[o.common.marketId]? <;> simp only [SpotClearingHouse.cancelOrder, hm] at hc
  case none =>
    cases hc
    exact h.getAccountBalanceMut
  case some m =>
    simp only [Checked.bind_ok, Prod.exists] at hc
    have ⟨_, _, _, hrest⟩ := hc
    split at hrest
    all_goals simp only [Checked.bind_ok] at hrest
    case h_1 =>
      have ⟨_, _, _, _, _, hunlock, hrest⟩ := hrest
      cases hrest
      exact h.getAccountBalanceMut.getAccountTokenBalanceMut (.unlock _) hunlock
    case h_2 =>
      have ⟨_, _, _, hunlock, hrest⟩ := hrest
      cases hrest
      exact h.getAccountBalanceMut.getAccountTokenBalanceMut (.unlock _) hunlock

end Accounts.InRange

namespace LedgerState

variable {l l' : LedgerState} {n : Option (PublicKeyHash × Nat)}

def InRange (l : LedgerState) : Prop :=
  l.spotClearinghouse.accounts.InRange

-- Nothing is locked at first.
theorem new_balance (faucet k : PublicKeyHash) (a : AssetId) :
    let b := (LedgerState.new faucet).spotClearinghouse.accounts.balance k a
    b.availableBalance = b.totalBalance ∧ b.totalBalance < 2 ^ 128 := by
  have hnew : (LedgerState.new faucet).spotClearinghouse.accounts =
      (SpotClearingHouse.new.addFaucetAccount faucet).accounts := rfl
  rw [hnew]
  simp only [SpotClearingHouse.addFaucetAccount, SpotClearingHouse.new, Accounts.balance, AccountBalance.findAssetId]
  by_cases hk : k = faucet
  case neg =>
    rw [AList.lookup_insert_ne hk, AList.lookup_empty]
    exact ⟨rfl, Nat.two_pow_pos _⟩
  case pos =>
    subst hk
    rw [AList.lookup_insert]
    by_cases h₀ : 0 = a
    case pos => simp [h₀.symm]
    by_cases h₁ : 1 = a
    case pos => simp [h₁.symm]
    simp [h₀, h₁, AccountTokenBalance.empty]

namespace InRange

theorem new {faucet : PublicKeyHash} : (LedgerState.new faucet).InRange := by
  intro k a
  have ⟨havailable, htotal⟩ := new_balance faucet k a
  exact ⟨havailable.trans_lt htotal, htotal⟩

theorem transfer {t t' : TransferTransaction} (h : l.InRange)
    (ht : l.handleTransferTransaction t = .ok (l', t', n)) : l'.InRange := by
  rcases handleTransferTransaction_cases ht with ⟨_, hl, _⟩ | ⟨_, _, hl, _⟩ | ⟨_, _, _, nonce, _, hc⟩
  · exact hl ▸ h
  · exact hl ▸ Accounts.InRange.getAccountBalanceMut h
  · have ⟨_, _, accounts₁, accounts₂, hdebit, hcredit, hl⟩ := commitTransferTransaction_cases hc
    have h₁ := (Accounts.InRange.getAccountBalanceMut h).debitTransfer hdebit
    exact hl ▸ h₁.getAccountTokenBalanceMut (.credit t.amount) hcredit

theorem order {t t' : OrderTransaction} (h : l.InRange)
    (ht : l.handleOrderTransaction t = .ok (l', t', n)) : l'.InRange := by
  cases handleOrderTransaction_cases ht
  case inl hr => exact hr.2.1 ▸ h
  case inr hp =>
    have ⟨_, l₁, order, hcreate, hrest⟩ := hp
    have h₁ : l₁.InRange := by
      unfold InRange
      rw [(createOrder_created hcreate).spotClearinghouse]
      exact h
    cases hrest
    case inl he =>
      have ⟨_, _, hl, _⟩ := he
      exact hl ▸ h₁
    case inr he =>
      have ⟨precision, c, r, l₂, nonce, _, hhandle, hrecord, hbump, _⟩ := he
      have hc := Accounts.InRange.handleOrder h₁ hhandle
      have h₂ : l₂.InRange := by
        unfold InRange
        rw [(Recorded.relation.recordResults hrecord).spotClearinghouse]
        exact hc
      exact (bumpNonce_cases hbump).2.2 ▸ h₂

theorem cancel {t t' : CancelOrderTransaction} (h : l.InRange)
    (ht : l.handleCancelOrderTransaction t = .ok (l', t', n)) : l'.InRange := by
  cases handleCancelOrderTransaction_cases ht
  case inl hr => exact hr.1 ▸ h
  case inr hc =>
    have ⟨_, order, precision, c, cancelled, l₁, nonce, _, _, hcancel, hl₁, hbump, _⟩ := hc
    have hc := Accounts.InRange.cancelOrder h hcancel
    have h₁ : l₁.InRange := by
      cases cancelled
      case false => cases hl₁; exact hc
      case true =>
        have ⟨_, _, _, _, hl₁⟩ := hl₁
        exact hl₁ ▸ hc
    exact (bumpNonce_cases hbump).2.2 ▸ h₁

theorem of_reachable {faucet : PublicKeyHash} (h : l.Reachable faucet) : l.InRange := by
  obtain ⟨_, _, _, hrun⟩ := h
  refine foldlM_invariant (foldlM_of_apply hrun) .new fun {l t l'} ht h => ?_
  obtain ⟨t', n, hx⟩ := next_ok.mp ht
  rcases applyTransaction_cases hx with ⟨_, _, _, _, hhandle⟩ | ⟨_, _, _, _, hhandle⟩ | ⟨_, _, _, _, hhandle⟩
  · exact h.transfer hhandle
  · exact h.order hhandle
  · exact h.cancel hhandle

end InRange

variable {t : TransferTransaction}

-- The sender has `amount` less of the asset afterwards, the receiver as much more, and all else is the same.
def Moved (l : LedgerState) (t : TransferTransaction) (l' : LedgerState) : Prop :=
  ∀ k a,
    let out := if k = t.source ∧ a = t.assetId then t.amount else 0
    let new := if k = t.target ∧ a = t.assetId then t.amount else 0
    (l'.balance k a).availableBalance + out = (l.balance k a).availableBalance + new ∧
    (l'.balance k a).totalBalance + out = (l.balance k a).totalBalance + new

-- A transfer does not panic. If it is executed it moves what it says, otherwise nothing.
def TransfersExactly (l : LedgerState) (t : TransferTransaction) : Prop :=
  ∃ l' t' n, l.handleTransferTransaction t = .ok (l', t', n) ∧ (t'.status = .executed → l.Moved t l') ∧
    (t'.status ≠ .executed → ∀ k a, l'.balance k a = l.balance k a)

-- The steps that carry a transfer of nothing out.
theorem commitTransferTransaction_zero {delta : TransferDelta} (hr : l.InRange) (hout : delta.assetOut.amount = 0)
    (hin : delta.assetIn.amount = 0) (hn : l.expectedNonce delta.nonceDelta + 1 < 2 ^ 64)
    (hlt : delta.assetOut.assetId <
      ((l.spotClearinghouse.accounts.lookup delta.assetOut.account).getD .new).assetBalances.length) :
    ∃ r, l.commitTransferTransaction delta = .ok r := by
  obtain ⟨accounts₁, hdebit⟩ : ∃ accounts₁,
      debitTransfer l.spotClearinghouse.accounts delta.assetOut = .ok accounts₁ := by
    simp only [debitTransfer, Checked.bind_total]
    refine ⟨_, Checked.index_ok.mpr (List.getElem?_eq_getElem hlt), ?_⟩
    simp only [lock, hout]
    exact ⟨_, Checked.bind_ok.mpr ⟨_, Checked.sub_eq_ok (Nat.zero_le _), rfl⟩, _, rfl⟩
  obtain ⟨accounts₂, hcredit⟩ : ∃ accounts₂, accounts₁.getAccountTokenBalanceMut delta.assetIn.account
      delta.assetIn.assetId (AccountTokenBalance.credit delta.assetIn.amount) = .ok accounts₂ := by
    obtain ⟨ha, ht⟩ := Accounts.InRange.debitTransfer hr hdebit delta.assetIn.account delta.assetIn.assetId
    obtain ⟨b, hb⟩ : ∃ b, AccountTokenBalance.credit delta.assetIn.amount
        (accounts₁.balance delta.assetIn.account delta.assetIn.assetId) = .ok b := by
      simp only [AccountTokenBalance.credit, hin, Checked.bind_total]
      exact ⟨_, U128.add_ok.mpr ⟨ht, rfl⟩, _, U128.add_ok.mpr ⟨ha, rfl⟩, _, rfl⟩
    exact getAccountTokenBalanceMut_ok hb
  simp only [commitTransferTransaction, Checked.bind_total]
  exact ⟨_, U64.add_ok.mpr ⟨hn, rfl⟩, accounts₁, hdebit, accounts₂, hcredit, _, rfl⟩

-- Only the last step of a transfer can panic.
theorem handleTransferTransaction_total
    (h : t.nonce = l.expectedNonce t.source → l.Funded t → ∃ r,
      (((l.getAccountInfoMut t.source id).setClearinghouseAccounts
        (l.spotClearinghouse.accounts.getAccountBalanceMut t.source)).getAccountInfoMut t.target
          id).commitTransferTransaction {
        assetIn := { account := t.target, assetId := t.assetId, amount := t.amount, isIncrease := true }
        assetOut := { account := t.source, assetId := t.assetId, amount := t.amount, isIncrease := false }
        nonceDelta := t.source } = .ok r) :
    ∃ r, l.handleTransferTransaction t = .ok r := by
  have hnonce : ((l.getAccountInfoMut t.source id).getAccountInfoOrDefault t.source).expectedNonce =
      l.expectedNonce t.source := by simp [expectedNonce]
  simp only [handleTransferTransaction, hnonce]
  split
  case isTrue => exact ⟨_, rfl⟩
  split
  case isTrue => exact ⟨_, rfl⟩
  case isFalse hlt hgt =>
  cases hp : (l.getAccountInfoMut t.source id).prepareTransferTransaction t
  case mk l₂ r =>
  cases prepareTransferTransaction_cases hp
  case inl hf =>
    obtain ⟨_, _, err, hr⟩ := hf
    subst hr
    exact ⟨_, rfl⟩
  case inr hf =>
    obtain ⟨hfunds, hl, hr⟩ := hf
    subst hr hl
    obtain ⟨r, hc⟩ := h (by omega) hfunds
    exact Checked.bind_total.mpr ⟨r, hc, _, rfl⟩

-- The balances after a transfer that is carried out.
theorem commitTransferTransaction_total {delta : TransferDelta} {nonce : Nat}
    (h : l.commitTransferTransaction delta = .ok (l', nonce)) (k : PublicKeyHash) (a : AssetId) :
    (l'.balance k a).totalBalance = (l.balance k a).totalBalance +
      if k = delta.assetIn.account ∧ a = delta.assetIn.assetId then delta.assetIn.amount else 0 := by
  have ⟨_, _, accounts₁, accounts₂, hdebit, hcredit, hl⟩ := commitTransferTransaction_cases h
  subst hl
  have ⟨b, hb, hbal⟩ := getAccountTokenBalanceMut_balance (Shifts.credit _).assetId hcredit
  have hb := (Shifts.credit delta.assetIn.amount).total hb
  have hd := debitTransfer_total hdebit
  simp only [balance, setClearinghouseAccounts, hbal]
  split
  case isTrue he =>
    rw [he.1, he.2, ← hd]
    omega
  case isFalse => rw [hd]; rfl

theorem commitTransferTransaction_same {delta : TransferDelta} {nonce : Nat} (hout : delta.assetOut.amount = 0)
    (hin : delta.assetIn.amount = 0) (h : l.commitTransferTransaction delta = .ok (l', nonce)) (k : PublicKeyHash)
    (a : AssetId) : l'.balance k a = l.balance k a := by
  obtain ⟨_, _, accounts₁, accounts₂, hdebit, hcredit, hl⟩ := commitTransferTransaction_cases h
  subst hl
  obtain ⟨b, hb, hbal⟩ := getAccountTokenBalanceMut_balance (Shifts.credit _).assetId hcredit
  have hd := debitTransfer_zero hdebit hout
  simp only [balance, setClearinghouseAccounts, hbal]
  split
  case isFalse => exact hd k a
  case isTrue he =>
    simp only [hin, AccountTokenBalance.credit, Checked.bind_ok, Checked.pure_ok, U128.add_ok] at hb
    obtain ⟨_, ⟨_, ht⟩, _, ⟨_, ha⟩, hb⟩ := hb
    subst ht ha hb
    rw [he.1, he.2, ← hd]
    rfl

end LedgerState

-- A transfer does what it says only if it is refused, or moves nothing from an account with enough entries.
theorem transfersExactly_iff {faucet : PublicKeyHash} {l : LedgerState} {t : TransferTransaction}
    (h : l.Reachable faucet) :
    l.TransfersExactly t ↔ t.nonce ≠ l.expectedNonce t.source ∨ ¬l.Funded t ∨
      (t.amount = 0 ∧ t.nonce + 1 < 2 ^ 64 ∧
        t.assetId < ((l.spotClearinghouse.accounts.lookup t.source).getD .new).assetBalances.length) := by
  -- Looking an account up does not change its entries.
  have hlookup : ((l.spotClearinghouse.accounts.getAccountBalanceMut t.source).lookup t.source).getD .new =
      (l.spotClearinghouse.accounts.lookup t.source).getD .new := by
    simp [Accounts.getAccountBalanceMut]
  have hsame (k : PublicKeyHash) (a : AssetId) :
      (l.spotClearinghouse.accounts.getAccountBalanceMut t.source).balance k a = l.balance k a :=
    getAccountBalanceMut_balance
  constructor
  · rintro ⟨l', t', n, hhandle, hexec, _⟩
    rcases handleTransferTransaction_cases hhandle with ⟨hn, _⟩ | ⟨_, hf, _⟩ | ⟨hn, _, ht, nonce, _, hc⟩
    · exact .inl hn
    · exact .inr (.inl hf)
    · obtain ⟨hnonce, hfit, _, _, hdebit, _⟩ := commitTransferTransaction_cases hc
      obtain ⟨b, hb, _⟩ := debitTransfer_cases hdebit
      have hlt := (List.getElem?_eq_some_iff.mp hb).1
      have htotal : (l'.balance t.source t.assetId).totalBalance = (l.balance t.source t.assetId).totalBalance +
          if t.source = t.target ∧ t.assetId = t.assetId then t.amount else 0 := by
        rw [← hsame]
        exact commitTransferTransaction_total hc t.source t.assetId
      have hmoved := (hexec (by rw [ht]) t.source t.assetId).2
      refine .inr (.inr ⟨?_, ?_, ?_⟩)
      · simp only [and_self, and_true, if_true] at hmoved htotal
        omega
      · simp only [expectedNonce, getAccountInfoMut_id_info, setClearinghouseAccounts_info] at hnonce hn
        omega
      · exact hlookup ▸ hlt
  · intro hcond
    obtain ⟨⟨l', t', n⟩, hhandle⟩ : ∃ r, l.handleTransferTransaction t = .ok r := by
      refine handleTransferTransaction_total fun hn hf => ?_
      rcases hcond with hn' | hf' | ⟨hz, hfit, hlt⟩
      · exact absurd hn hn'
      · exact absurd hf hf'
      · refine commitTransferTransaction_zero (InRange.of_reachable h).getAccountBalanceMut hz hz ?_ ?_
        · simp only [expectedNonce, getAccountInfoMut_id_info, setClearinghouseAccounts_info] at hn ⊢
          omega
        · exact hlookup.symm ▸ hlt
    refine ⟨l', t', n, hhandle, ?_⟩
    have hrefused (hs : ∃ status, Refused status ∧ t' = { t with status }) : t'.status ≠ .executed := by
      obtain ⟨_, refused, ht⟩ := hs
      subst ht
      cases refused <;> simp [*]
    rcases handleTransferTransaction_cases hhandle with ⟨_, hl, hs, _⟩ | ⟨_, _, hl, hs, _⟩ | ⟨hn, hf, ht, nonce, _, hc⟩
    · exact ⟨fun he => absurd he (hrefused hs), fun _ _ _ => hl ▸ rfl⟩
    · exact ⟨fun he => absurd he (hrefused hs), fun _ k a => hl ▸ hsame k a⟩
    · rcases hcond with hn' | hf' | ⟨hz, _⟩
      · exact absurd hn hn'
      · exact absurd hf hf'
      · have hbal (k : PublicKeyHash) (a : AssetId) : l'.balance k a = l.balance k a :=
          (commitTransferTransaction_same hz hz hc k a).trans (hsame k a)
        exact ⟨fun _ k a => by simp [hbal, hz], fun _ => hbal⟩

def sends (source target : PublicKeyHash) (assetId : AssetId) (amount nonce : Nat) : TransferTransaction where
  source
  target
  amount
  assetId
  status := .pending
  nonce

theorem sendsNothing_transfersExactly : (LedgerState.new 1).Reachable 1 ∧ (LedgerState.new 1).Funded (sends 1 7 0 0 0) ∧
    (LedgerState.new 1).TransfersExactly (sends 1 7 0 0 0) := by
  have h : (LedgerState.new 1).Reachable 1 := .of_apply (rfl : (LedgerState.new 1).apply [] = .ok _)
  refine ⟨h, ⟨_, rfl, Nat.zero_le _⟩, ?_⟩
  exact (@transfersExactly_iff 1 _ _ h).mpr (.inr (.inr ⟨rfl, by decide, by decide⟩))

-- What the faucet sends stays in its total, and an account that only has the second asset cannot pass it on.
theorem sendsSome_not_transfersExactly : (LedgerState.new 1).Reachable 1 ∧
    ¬(LedgerState.new 1).TransfersExactly (sends 1 7 0 100 0) ∧
    (∃ l t' n, (LedgerState.new 1).handleTransferTransaction (sends 1 7 0 100 0) = .ok (l, t', n) ∧
      t'.status = .executed ∧ (l.balance 7 0).totalBalance = 100 ∧
      (l.balance 1 0).totalBalance = ((LedgerState.new 1).balance 1 0).totalBalance) ∧
    ∃ l : LedgerState, l.Reachable 1 ∧ l.Funded (sends 7 8 1 50 0) ∧
      l.handleTransferTransaction (sends 7 8 1 50 0) = .error .outOfBounds := by
  refine ⟨.of_apply (rfl : (LedgerState.new 1).apply [] = .ok _), ?_, ⟨_, _, _, rfl, rfl, rfl, rfl⟩, ?_⟩
  · rintro ⟨l, t', n, h, hmoved, _⟩
    cases h
    exact absurd (hmoved rfl 1 0).2 (by decide)
  · exact ⟨_, .of_apply (rfl : (LedgerState.new 1).apply [.transfer 1 7 1 100 0] = .ok _), ⟨_, rfl, by decide⟩, rfl⟩

end Superliquid

import Superliquid.State.Ledger

namespace Superliquid.LedgerState

def openOrders (l : LedgerState) (k : PublicKeyHash) : List LimitOrder :=
  (l.getAccountInfoOrDefault k).openOrders

def completedOrders (l : LedgerState) (k : PublicKeyHash) : List Order :=
  (l.getAccountInfoOrDefault k).completedOrders

def expectedNonce (l : LedgerState) (k : PublicKeyHash) : Nat :=
  (l.getAccountInfoOrDefault k).expectedNonce

def balance (l : LedgerState) (k : PublicKeyHash) (a : AssetId) : AccountTokenBalance :=
  l.spotClearinghouse.accounts.balance k a

variable {l l' : LedgerState} {k k' : PublicKeyHash}

-- A new ledger knows nothing of any account.
theorem new_info {faucet : PublicKeyHash} : (new faucet).getAccountInfoOrDefault k = .new := by
  unfold getAccountInfoOrDefault new
  by_cases he : k = faucet
  case pos => subst he; rw [AList.lookup_insert]; rfl
  case neg => rw [AList.lookup_insert_ne he]; rfl

section Accounts

variable {f : AccountInfo → AccountInfo}

theorem getAccountInfoMut_info :
    (l.getAccountInfoMut k f).getAccountInfoOrDefault k' =
      if k' = k then f (l.getAccountInfoOrDefault k) else l.getAccountInfoOrDefault k' := by
  unfold getAccountInfoMut getAccountInfoOrDefault
  split
  case isTrue h  => subst h; simp
  case isFalse h => simp [AList.lookup_insert_ne h]

-- The entry of an account comes into being when it is looked at.
@[simp]
theorem getAccountInfoMut_id_info :
    (l.getAccountInfoMut k id).getAccountInfoOrDefault k' = l.getAccountInfoOrDefault k' := by
  rw [getAccountInfoMut_info]
  split <;> simp [*]

theorem updateAccount_cases {f : AccountInfo → Checked AccountInfo} (h : l.updateAccount k f = .ok l') :
    ∃ info, f (l.getAccountInfoOrDefault k) = .ok info ∧
      l' = { l with accounts := l.accounts.insert k info } ∧
      ∀ k', l'.getAccountInfoOrDefault k' = if k' = k then info else l.getAccountInfoOrDefault k' := by
  simp only [updateAccount, Checked.bind_ok, Checked.pure_ok] at h
  have ⟨info, hf, hl⟩ := h
  refine ⟨info, hf, hl.symm, fun k' => ?_⟩
  subst hl
  unfold getAccountInfoOrDefault
  split
  case isTrue he  => subst he; simp
  case isFalse he => simp [AList.lookup_insert_ne he]

theorem bumpNonce_cases {n : Nat} (h : l.bumpNonce k = .ok (l', n)) :
    n = l.expectedNonce k + 1 ∧ n < 2 ^ 64 ∧ l' = l.getAccountInfoMut k ({ · with expectedNonce := n }) := by
  simp only [bumpNonce, Checked.bind_ok, U64.add_ok, Checked.pure_ok, Prod.mk.injEq] at h
  have ⟨_, ⟨hfit, he⟩, hl, hn⟩ := h
  subst hn he
  exact ⟨rfl, hfit, hl.symm⟩

end Accounts

-- The two ledgers tell the same of all orders.
structure SameHistory (l l' : LedgerState) : Prop where
  openOrders      : l'.openOrders = l.openOrders
  completedOrders : l'.completedOrders = l.completedOrders

namespace SameHistory

theorem of_info (h : ∀ k, (l'.getAccountInfoOrDefault k).openOrders = (l.getAccountInfoOrDefault k).openOrders ∧
    (l'.getAccountInfoOrDefault k).completedOrders = (l.getAccountInfoOrDefault k).completedOrders) :
    l.SameHistory l' :=
  ⟨funext fun k => (h k).1, funext fun k => (h k).2⟩

theorem trans {l₁ l₂ l₃ : LedgerState} (h : l₁.SameHistory l₂) (h' : l₂.SameHistory l₃) : l₁.SameHistory l₃ :=
  ⟨h'.openOrders.trans h.openOrders, h'.completedOrders.trans h.completedOrders⟩

theorem getAccountInfoMut {k : PublicKeyHash} {f : AccountInfo → AccountInfo} (l : LedgerState)
    (hf : ∀ i, (f i).openOrders = i.openOrders ∧ (f i).completedOrders = i.completedOrders) :
    l.SameHistory (l.getAccountInfoMut k f) := by
  refine of_info fun k' => ?_
  rw [getAccountInfoMut_info]
  split
  case isTrue he => exact he ▸ hf _
  case isFalse   => exact ⟨rfl, rfl⟩

theorem setClearinghouse (l : LedgerState) (c : SpotClearingHouse) : l.SameHistory { l with spotClearinghouse := c } :=
  ⟨rfl, rfl⟩

theorem setClearinghouseAccounts (l : LedgerState) (accounts : Accounts) :
    l.SameHistory (l.setClearinghouseAccounts accounts) :=
  ⟨rfl, rfl⟩

theorem touch (l : LedgerState) (k : PublicKeyHash) : l.SameHistory (l.getAccountInfoMut k id) :=
  getAccountInfoMut l fun _ => ⟨rfl, rfl⟩

theorem bumpNonce {k : PublicKeyHash} {nonce : Nat} (h : l.bumpNonce k = .ok (l', nonce)) : l.SameHistory l' := by
  have ⟨_, _, hl⟩ := bumpNonce_cases h
  exact hl ▸ getAccountInfoMut l fun _ => ⟨rfl, rfl⟩

end SameHistory

-- The outcome of a transaction that was not executed.
inductive Refused (status : TransactionStatus) : Prop
  | rejected (reason : String) : (status = .rejected reason) → Refused status
  | error (err : ExecError) : (status = .error err) → Refused status

section Transfer

variable {t t' : TransferTransaction} {n : Option (PublicKeyHash × Nat)}

-- The funds that a transfer is checked against.
def transferFunds (l : LedgerState) (t : TransferTransaction) : Option AccountTokenBalance :=
  ((l.spotClearinghouse.accounts.lookup t.source).getD .new).findAssetId t.assetId

def Funded (l : LedgerState) (t : TransferTransaction) : Prop :=
  ∃ b, l.transferFunds t = some b ∧ t.amount ≤ b.availableBalance

theorem prepareTransferTransaction_cases {r : Except ExecError TransferDelta}
    (h : l.prepareTransferTransaction t = (l', r)) :
    let l₁ := l.setClearinghouseAccounts (l.spotClearinghouse.accounts.getAccountBalanceMut t.source)
    (¬l.Funded t ∧ l' = l₁ ∧ ∃ err, r = .error err) ∨
    (l.Funded t ∧ l' = l₁.getAccountInfoMut t.target id ∧ r = .ok {
      assetIn := { account := t.target, assetId := t.assetId, amount := t.amount, isIncrease := true }
      assetOut := { account := t.source, assetId := t.assetId, amount := t.amount, isIncrease := false }
      nonceDelta := t.source }) := by
  have hlookup : ((l.spotClearinghouse.accounts.getAccountBalanceMut t.source).lookup t.source).getD .new =
      (l.spotClearinghouse.accounts.lookup t.source).getD .new := by
    simp [Accounts.getAccountBalanceMut]
  simp only [prepareTransferTransaction, setClearinghouseAccounts, hlookup] at h
  split at h
  case h_1 hb =>
    cases h
    exact .inl ⟨fun ⟨b, hf, _⟩ => by simp [transferFunds, hb] at hf, rfl, _, rfl⟩
  case h_2 b hb =>
    split at h
    case isTrue hlt =>
      cases h
      refine .inl ⟨fun ⟨b', hf, hle⟩ => ?_, rfl, _, rfl⟩
      cases hb.symm.trans hf
      omega
    case isFalse hlt =>
      cases h
      exact .inr ⟨⟨b, hb, Nat.le_of_not_lt hlt⟩, rfl, rfl⟩

@[simp]
theorem setClearinghouseAccounts_info {accounts : Accounts} :
    (l.setClearinghouseAccounts accounts).getAccountInfoOrDefault k = l.getAccountInfoOrDefault k := rfl

theorem commitTransferTransaction_cases {delta : TransferDelta} {nonce : Nat}
    (h : l.commitTransferTransaction delta = .ok (l', nonce)) :
    nonce = l.expectedNonce delta.nonceDelta + 1 ∧ nonce < 2 ^ 64 ∧ ∃ accounts₁ accounts₂,
      debitTransfer l.spotClearinghouse.accounts delta.assetOut = .ok accounts₁ ∧
      accounts₁.getAccountTokenBalanceMut delta.assetIn.account delta.assetIn.assetId
        (AccountTokenBalance.credit delta.assetIn.amount) = .ok accounts₂ ∧
      l' = (l.getAccountInfoMut delta.nonceDelta ({ · with expectedNonce := nonce })).setClearinghouseAccounts
        accounts₂ := by
  simp only [commitTransferTransaction, Checked.bind_ok, Checked.pure_ok, Prod.mk.injEq, U64.add_ok] at h
  have ⟨_, ⟨hfit, he⟩, accounts₁, hdebit, accounts₂, hcredit, hl, hn⟩ := h
  subst hn he
  exact ⟨rfl, hfit, accounts₁, accounts₂, hdebit, hcredit, hl.symm⟩

-- A transfer is turned down for its nonce or for lack of funds, or carried out.
theorem handleTransferTransaction_cases (h : l.handleTransferTransaction t = .ok (l', t', n)) :
    let l₀ := l.getAccountInfoMut t.source id
    let l₁ := l₀.setClearinghouseAccounts (l.spotClearinghouse.accounts.getAccountBalanceMut t.source)
    (t.nonce ≠ l.expectedNonce t.source ∧ l' = l₀ ∧ (∃ status, Refused status ∧ t' = { t with status }) ∧ n = none) ∨
    (t.nonce = l.expectedNonce t.source ∧ ¬l.Funded t ∧ l' = l₁ ∧
      (∃ status, Refused status ∧ t' = { t with status }) ∧ n = none) ∨
    (t.nonce = l.expectedNonce t.source ∧ l.Funded t ∧ t' = { t with status := .executed } ∧
      ∃ nonce, n = some (t.source, nonce) ∧
        (l₁.getAccountInfoMut t.target id).commitTransferTransaction {
          assetIn := { account := t.target, assetId := t.assetId, amount := t.amount, isIncrease := true }
          assetOut := { account := t.source, assetId := t.assetId, amount := t.amount, isIncrease := false }
          nonceDelta := t.source } = .ok (l', nonce)) := by
  have hnonce : ((l.getAccountInfoMut t.source id).getAccountInfoOrDefault t.source).expectedNonce =
      l.expectedNonce t.source := by simp [expectedNonce]
  simp only [handleTransferTransaction, hnonce] at h
  split at h
  case isTrue hlt => cases h; exact .inl ⟨Nat.ne_of_lt hlt, rfl, ⟨_, .rejected _ rfl, rfl⟩, rfl⟩
  split at h
  case isTrue hgt => cases h; exact .inl ⟨Nat.ne_of_gt hgt, rfl, ⟨_, .rejected _ rfl, rfl⟩, rfl⟩
  case isFalse hlt hgt =>
  have heq : t.nonce = l.expectedNonce t.source := by omega
  cases hp : (l.getAccountInfoMut t.source id).prepareTransferTransaction t
  case mk l₂ r =>
  rw [hp] at h
  cases prepareTransferTransaction_cases hp
  case inl hf =>
    have ⟨hfunds, hl, err, hr⟩ := hf
    subst hr
    cases h
    exact .inr (.inl ⟨heq, hfunds, hl, ⟨_, .error err rfl, rfl⟩, rfl⟩)
  case inr hf =>
    have ⟨hfunds, hl, hr⟩ := hf
    subst hr hl
    simp only [Checked.bind_ok, Checked.pure_ok, Prod.exists, Prod.mk.injEq] at h
    have ⟨_, nonce, hc, hl, ht, hn⟩ := h
    subst hl ht hn
    exact .inr (.inr ⟨heq, hfunds, rfl, nonce, rfl, hc⟩)

theorem handleTransferTransaction_status (h : l.handleTransferTransaction t = .ok (l', t', n)) :
    ∃ status, t' = { t with status } := by
  rcases handleTransferTransaction_cases h with ⟨_, _, hs, _⟩ | ⟨_, _, _, hs, _⟩ | ⟨_, _, ht, _⟩
  · exact hs.imp fun _ hs => hs.2
  · exact hs.imp fun _ hs => hs.2
  · exact ⟨_, ht⟩

theorem handleTransferTransaction_history (h : l.handleTransferTransaction t = .ok (l', t', n)) : l.SameHistory l' := by
  have htouch := SameHistory.touch l t.source
  have hset := htouch.trans (.setClearinghouseAccounts _ (l.spotClearinghouse.accounts.getAccountBalanceMut t.source))
  rcases handleTransferTransaction_cases h with ⟨_, hl, _⟩ | ⟨_, _, hl, _⟩ | ⟨_, _, _, nonce, _, hc⟩
  · exact hl ▸ htouch
  · exact hl ▸ hset
  · obtain ⟨_, _, _, accounts₂, _, _, hl⟩ := commitTransferTransaction_cases hc
    have hnonce := (hset.trans (.touch _ t.target)).trans
      (.getAccountInfoMut _ (k := t.source) (f := ({ · with expectedNonce := nonce })) fun _ => ⟨rfl, rfl⟩)
    exact hl ▸ hnonce.trans (.setClearinghouseAccounts _ accounts₂)

end Transfer

section Order

variable {t t' : OrderTransaction} {n : Option (PublicKeyHash × Nat)}

-- The order gets as far as to be given an id.
def Placed (l : LedgerState) (t : OrderTransaction) : Prop :=
  t.nonce = l.expectedNonce t.source ∧ crossesOwnOrder (l.openOrders t.source) t = false

instance {l : LedgerState} {t : OrderTransaction} : Decidable (l.Placed t) :=
  inferInstanceAs (Decidable (_ ∧ _))

-- An order that is not placed is rejected.
theorem handleOrderTransaction_rejected (h : ¬l.Placed t) : ∃ l' t' n reason,
    l.handleOrderTransaction t = .ok (l', t', n) ∧ t'.status = .rejected reason := by
  have hinfo : (l.getAccountInfoMut t.source id).getAccountInfoOrDefault t.source =
      l.getAccountInfoOrDefault t.source := getAccountInfoMut_id_info
  simp only [handleOrderTransaction, hinfo]
  by_cases hlt : t.nonce < (l.getAccountInfoOrDefault t.source).expectedNonce
  case pos => rw [if_pos hlt]; exact ⟨_, _, _, _, rfl, rfl⟩
  by_cases hgt : t.nonce > (l.getAccountInfoOrDefault t.source).expectedNonce
  case pos => rw [if_neg hlt, if_pos hgt]; exact ⟨_, _, _, _, rfl, rfl⟩
  rw [if_neg hlt, if_neg hgt]
  have hc : crossesOwnOrder (l.getAccountInfoOrDefault t.source).openOrders t = true := by
    by_contra hn
    refine h ⟨?_, Bool.eq_false_of_not_eq_true hn⟩
    simp only [expectedNonce]
    omega
  rw [if_pos hc]
  exact ⟨_, _, _, _, rfl, rfl⟩

theorem handleOrderTransaction_cases (h : l.handleOrderTransaction t = .ok (l', t', n)) :
    let l₀ := l.getAccountInfoMut t.source id
    (¬l.Placed t ∧ l' = l₀ ∧ (∃ status, Refused status ∧ t' = { t with status }) ∧ n = none) ∨
    (l.Placed t ∧ ∃ l₁ order, l₀.createOrder t = .ok (l₁, order) ∧
      ((∃ err, l₁.marketPrecision t.marketId = .error err ∧ l' = l₁ ∧ t' = { t with status := .error err } ∧
          n = none) ∨
        (∃ precision c r l₂ nonce, l₁.marketPrecision t.marketId = .ok precision ∧
          l₁.spotClearinghouse.handleOrder order precision = .ok (c, r) ∧
          { l₁ with spotClearinghouse := c }.recordResults t.source order r = .ok l₂ ∧
          l₂.bumpNonce t.source = .ok (l', nonce) ∧ t' = { t with status := .executed } ∧
          n = some (t.source, nonce)))) := by
  have hinfo : (l.getAccountInfoMut t.source id).getAccountInfoOrDefault t.source =
      l.getAccountInfoOrDefault t.source := getAccountInfoMut_id_info
  simp only [handleOrderTransaction, hinfo] at h
  split at h
  case isTrue hlt => cases h; exact .inl ⟨fun hp => Nat.ne_of_lt hlt hp.1, rfl, ⟨_, .rejected _ rfl, rfl⟩, rfl⟩
  split at h
  case isTrue hgt => cases h; exact .inl ⟨fun hp => Nat.ne_of_gt hgt hp.1, rfl, ⟨_, .rejected _ rfl, rfl⟩, rfl⟩
  split at h
  case isTrue hc =>
    cases h
    exact .inl ⟨fun hp => Bool.false_ne_true (hp.2.symm.trans hc), rfl, ⟨_, .rejected _ rfl, rfl⟩, rfl⟩
  case isFalse hlt hgt hc =>
  have placed : l.Placed t :=
    ⟨Nat.le_antisymm (Nat.le_of_not_lt hgt) (Nat.le_of_not_lt hlt), Bool.eq_false_of_not_eq_true hc⟩
  simp only [Checked.bind_ok, Prod.exists] at h
  have ⟨l₁, order, hcreate, h⟩ := h
  refine .inr ⟨placed, l₁, order, hcreate, ?_⟩
  split at h
  case h_1 err he =>
    cases h
    exact .inl ⟨err, he, rfl, rfl, rfl⟩
  case h_2 precision hp =>
    simp only [Checked.bind_ok, Checked.pure_ok, Prod.exists, Prod.mk.injEq] at h
    have ⟨c, r, horder, l₂, hrecord, _, nonce, hbump, hl, ht, hn⟩ := h
    subst hl ht hn
    exact .inr ⟨precision, c, r, l₂, nonce, hp, horder, hrecord, hbump, rfl, rfl⟩

theorem handleOrderTransaction_status (h : l.handleOrderTransaction t = .ok (l', t', n)) :
    ∃ status, t' = { t with status } := by
  rcases handleOrderTransaction_cases h with ⟨_, _, hs, _⟩ | ⟨_, _, _, _, ⟨_, _, _, ht, _⟩ | hx⟩
  · exact hs.imp fun _ hs => hs.2
  · exact ⟨_, ht⟩
  · have ⟨_, _, _, _, _, _, _, _, _, ht, _⟩ := hx
    exact ⟨_, ht⟩

end Order

section Cancel

variable {t t' : CancelOrderTransaction} {n : Option (PublicKeyHash × Nat)}

theorem handleCancelOrderTransaction_cases (h : l.handleCancelOrderTransaction t = .ok (l', t', n)) :
    (l' = l ∧ (∃ status, Refused status ∧ t' = { t with status }) ∧ n = none ∧
      ¬(t.nonce = l.expectedNonce t.source ∧ (l.marketPrecision t.marketId).isOk ∧
        ((l.getAccountInfoOrDefault t.source).getOpenOrder t.orderId).isSome)) ∨
    (t.nonce = l.expectedNonce t.source ∧ ∃ order precision c cancelled l₁ nonce,
      (l.getAccountInfoOrDefault t.source).getOpenOrder t.orderId = some order ∧
      l.marketPrecision t.marketId = .ok precision ∧
      l.spotClearinghouse.cancelOrder order precision = .ok (c, cancelled) ∧
      (if cancelled then
        ∃ pre post, l.openOrders t.source = pre ++ order :: post ∧
          (∀ o ∈ pre, o.common.id ≠ order.common.id) ∧
          l₁ = { l with spotClearinghouse := c }.getAccountInfoMut t.source fun i => { i with
            openOrders := pre ++ post, completedOrders := i.completedOrders ++ [Order.limit order] }
       else l₁ = { l with spotClearinghouse := c }) ∧
      l₁.bumpNonce t.source = .ok (l', nonce) ∧ t' = { t with status := .executed } ∧
      n = some (t.source, nonce)) := by
  simp only [handleCancelOrderTransaction] at h
  split at h
  case isTrue hlt =>
    cases h
    exact .inl ⟨rfl, ⟨_, .rejected _ rfl, rfl⟩, rfl, fun hx => Nat.ne_of_lt hlt hx.1⟩
  split at h
  case isTrue hgt =>
    cases h
    exact .inl ⟨rfl, ⟨_, .rejected _ rfl, rfl⟩, rfl, fun hx => Nat.ne_of_gt hgt hx.1⟩
  case isFalse hlt hgt =>
  have heq : t.nonce = l.expectedNonce t.source := by
    simp only [expectedNonce]
    omega
  split at h
  case h_1 hnone =>
    cases h
    exact .inl ⟨rfl, ⟨_, .error _ rfl, rfl⟩, rfl, by simp [hnone]⟩
  case h_2 order horder =>
  split at h
  case h_1 err he =>
    cases h
    exact .inl ⟨rfl, ⟨_, .error _ rfl, rfl⟩, rfl, by simp [he, Except.isOk, Except.toBool]⟩
  case h_2 precision hp =>
  simp only [Checked.bind_ok, Prod.exists] at h
  have ⟨c, cancelled, hcancel, h⟩ := h
  -- The order was found by its id, so it has a position.
  have ⟨hid, pre, post, hopen, hpre⟩ := List.find?_eq_some_iff_append.mp horder
  have hid : order.common.id = t.orderId := by simpa using hid
  have hpre : ∀ o ∈ pre, o.common.id ≠ order.common.id := by
    intro o ho he
    simpa [he, hid] using hpre o ho
  have hpos : (l.getAccountInfoOrDefault t.source).openOrders.findIdx? (·.common.id = order.common.id) =
      some pre.length := by
    rw [hopen, List.findIdx?_append, List.findIdx?_eq_none_iff.mpr (by simpa using hpre)]
    simp [List.findIdx?_cons]
  refine .inr ⟨heq, order, precision, c, cancelled, ?_⟩
  cases cancelled
  case false =>
    simp only [Checked.bind_ok, Checked.pure_ok, Prod.exists, Prod.mk.injEq] at h
    have ⟨_, nonce, hbump, hl, ht, hn⟩ := h
    subst hl ht hn
    exact ⟨_, nonce, horder, hp, hcancel, by simp, hbump, rfl, rfl⟩
  case true =>
    have hfind : (({ l with spotClearinghouse := c } : LedgerState).getAccountInfoOrDefault
        t.source).openOrders.findIdx? (·.common.id = order.common.id) = some pre.length := hpos
    simp only [hfind, Checked.bind_ok, Checked.pure_ok, Prod.exists, Prod.mk.injEq] at h
    have ⟨_, nonce, hbump, hl, ht, hn⟩ := h
    subst hl ht hn
    refine ⟨_, nonce, horder, hp, hcancel, ?_, hbump, rfl, rfl⟩
    simp only [if_true]
    refine ⟨pre, post, hopen, hpre, ?_⟩
    have hopen : (({ l with spotClearinghouse := c } : LedgerState).getAccountInfoOrDefault
        t.source).openOrders = pre ++ order :: post := hopen
    have herase : (pre ++ order :: post).eraseIdx pre.length = pre ++ post := by
      simp [List.eraseIdx_append_of_length_le]
    simp only [getAccountInfoMut, hopen, herase]

theorem handleCancelOrderTransaction_status (h : l.handleCancelOrderTransaction t = .ok (l', t', n)) :
    ∃ status, t' = { t with status } := by
  rcases handleCancelOrderTransaction_cases h with ⟨_, hs, _⟩ | hx
  · exact hs.imp fun _ hs => hs.2
  · have ⟨_, _, _, _, _, _, _, _, _, _, _, _, ht, _⟩ := hx
    exact ⟨_, ht⟩

end Cancel

section Apply

variable {t t' : SignedTransaction} {n : Option (PublicKeyHash × Nat)} {ts ts' : List SignedTransaction}
         {ns : List (Option (PublicKeyHash × Nat))}

-- Every transaction goes to the handler of its kind.
theorem applyTransaction_cases (h : l.applyTransaction t = .ok (l', t', n)) :
    (∃ x x', t.tx = .transfer x ∧ t' = { t with tx := .transfer x' } ∧
      l.handleTransferTransaction x = .ok (l', x', n)) ∨
    (∃ x x', t.tx = .order x ∧ t' = { t with tx := .order x' } ∧ l.handleOrderTransaction x = .ok (l', x', n)) ∨
    (∃ x x', t.tx = .cancelOrder x ∧ t' = { t with tx := .cancelOrder x' } ∧
      l.handleCancelOrderTransaction x = .ok (l', x', n)) := by
  have ⟨tx, _, _⟩ := t
  cases tx
  all_goals
    simp only [applyTransaction, Checked.bind_ok, Checked.pure_ok, Prod.exists, Prod.mk.injEq] at h
    have ⟨_, x', _, hx, hl, ht, hn⟩ := h
    subst hl ht hn
  case transfer    => exact .inl ⟨_, x', rfl, rfl, hx⟩
  case order       => exact .inr (.inl ⟨_, x', rfl, rfl, hx⟩)
  case cancelOrder => exact .inr (.inr ⟨_, x', rfl, rfl, hx⟩)

theorem apply_cons (h : l.apply (t :: ts) = .ok (l', ts', ns)) :
    ∃ l₁ t' n ts'' ns', l.applyTransaction t = .ok (l₁, t', n) ∧ l₁.apply ts = .ok (l', ts'', ns') ∧
      ts' = t' :: ts'' ∧ ns = n :: ns' := by
  simp only [apply, Checked.bind_ok, Checked.pure_ok, Prod.exists, Prod.mk.injEq] at h
  have ⟨l₁, t', n, ht, _, ts'', ns', hts, hl, hts', hns⟩ := h
  subst hl
  exact ⟨l₁, t', n, ts'', ns', ht, hts, hts'.symm, hns.symm⟩

end Apply
end Superliquid.LedgerState

-- Transactions as they reach the ledger, which does not look at signatures and hashes.
namespace Superliquid.SignedTransaction

def ofTx (tx : UnsignedTransaction) : SignedTransaction where
  tx
  signature := ⟨[]⟩
  hash := 0

def transfer (source target : PublicKeyHash) (assetId : AssetId) (amount nonce : Nat) : SignedTransaction :=
  ofTx (.transfer { source, target, amount, assetId, status := .pending, nonce })

def limit (source : PublicKeyHash) (direction : OrderDirection) (price size nonce : Nat) : SignedTransaction :=
  ofTx (.order { source, marketId := 0, direction, orderType := .limit price size, status := .pending, nonce })

def market (source : PublicKeyHash) (direction : OrderDirection) (size nonce : Nat) : SignedTransaction :=
  ofTx (.order { source, marketId := 0, direction, orderType := .market size, status := .pending, nonce })

def cancel (source : PublicKeyHash) (orderId nonce : Nat) : SignedTransaction :=
  ofTx (.cancelOrder { source, marketId := 0, orderId, status := .pending, nonce })

end Superliquid.SignedTransaction

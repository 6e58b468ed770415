import Superliquid.State.Theorems.Handlers

namespace Superliquid
namespace LedgerState

-- The position of the first open order with an id.
theorem findIdx?_id {orders : List LimitOrder} {id index : Nat}
    (h : orders.findIdx? (·.common.id = id) = some index) :
    ∃ pre e post, orders = pre ++ e :: post ∧ pre.length = index ∧ e.common.id = id ∧
      ∀ o ∈ pre, o.common.id ≠ id := by
  have ⟨hlt, hid, hpre⟩ := List.findIdx?_eq_some_iff_getElem.mp h
  refine ⟨orders.take index, orders[index], orders.drop (index + 1), by simp, by simp; omega, by simpa using hid, ?_⟩
  intro o ho
  have ⟨j, hj, he⟩ := List.mem_take_iff_getElem.mp ho
  simpa [← he] using hpre j (by omega)

section Info

variable {i i' : AccountInfo} {order : Order}

-- A filled order that is still open goes over to the completed orders.
theorem recordFilledOrder_eq {filled : LimitOrder} (h : recordFilledOrder i filled = .ok i') :
    (i' = i ∧ ∀ o ∈ i.openOrders, o.common.id ≠ filled.common.id) ∨
    ∃ pre e post, i.openOrders = pre ++ e :: post ∧ e.common.id = filled.common.id ∧
      (∀ o ∈ pre, o.common.id ≠ filled.common.id) ∧ filled.selfFilled ≤ e.baseLots ∧
      i' = { i with
        openOrders := pre ++ post
        completedOrders := i.completedOrders ++ [.limit { e with
          selfFilled := filled.selfFilled
          filledBaseLots := e.baseLots - filled.selfFilled
          common.status := .filled }] } := by
  unfold recordFilledOrder at h
  cases hf : i.openOrders.findIdx? (·.common.id = filled.common.id) <;> simp only [hf] at h
  case none =>
    cases h
    exact .inl ⟨rfl, by simpa using List.findIdx?_eq_none_iff.mp hf⟩
  case some index =>
    simp only [Checked.bind_ok, Checked.index_ok, Checked.sub_ok, Checked.pure_ok] at h
    have ⟨e', he, _, ⟨hle, hfilled⟩, h⟩ := h
    have ⟨pre, e, post, ho, hlen, hid, hpre⟩ := findIdx?_id hf
    have heq : e = e' := by simpa [ho, ← hlen] using he
    subst heq hfilled h
    refine .inr ⟨pre, e, post, ho, hid, hpre, hle, ?_⟩
    simp [ho, ← hlen, List.eraseIdx_append_of_length_le]

theorem recordFilledOrder_cases {filled : LimitOrder} (h : recordFilledOrder i filled = .ok i') :
    i'.expectedNonce = i.expectedNonce ∧
    i'.openOrders = i.openOrders.eraseP (·.common.id = filled.common.id) := by
  cases recordFilledOrder_eq h
  case inl hn =>
    have ⟨hi, hn⟩ := hn
    subst hi
    exact ⟨rfl, (List.eraseP_of_forall_not (by simpa using hn)).symm⟩
  case inr hf =>
    have ⟨pre, e, post, ho, hid, hpre, _, hi⟩ := hf
    subst hi
    refine ⟨rfl, ?_⟩
    rw [ho, List.eraseP_append_right _ (by simpa using hpre), List.eraseP_cons_of_pos (by simpa using hid)]

-- The record of an order that was filled in part.
theorem recordResidualOrder_eq {r : ResidualOrder} (h : recordResidualOrder i r = .ok i') :
    ∃ pre e post, i.openOrders = pre ++ e :: post ∧ e.common.id = r.orderId ∧
      (∀ o ∈ pre, o.common.id ≠ r.orderId) ∧
      i' = { i with
        openOrders := pre ++ { e with
          filledBaseLots := e.filledBaseLots + r.filledBaseLots
          selfFilled := e.selfFilled + r.selfFill } :: post } := by
  simp only [recordResidualOrder, Checked.bind_ok, Checked.expect_ok, Checked.index_ok, U64.add_ok,
    Checked.pure_ok] at h
  have ⟨index, hf, e', he, _, ⟨_, hfilled⟩, _, ⟨_, hself⟩, h⟩ := h
  have ⟨pre, e, post, ho, hlen, hid, hpre⟩ := findIdx?_id hf
  subst hfilled hself h
  have heq : e = e' := by simpa [ho, ← hlen] using he
  subst heq
  refine ⟨pre, e, post, ho, hid, hpre, ?_⟩
  simp [ho, ← hlen]

theorem recordResidualOrder_cases {r : ResidualOrder} (h : recordResidualOrder i r = .ok i') :
    i'.expectedNonce = i.expectedNonce ∧
    ∃ pre e post, i.openOrders = pre ++ e :: post ∧ e.common.id = r.orderId ∧
      (∀ o ∈ pre, o.common.id ≠ r.orderId) ∧
      i'.openOrders = pre ++ { e with
        filledBaseLots := e.filledBaseLots + r.filledBaseLots
        selfFilled := e.selfFilled + r.selfFill } :: post := by
  have ⟨pre, e, post, ho, hid, hpre, hi⟩ := recordResidualOrder_eq h
  subst hi
  exact ⟨rfl, pre, e, post, ho, hid, hpre, rfl⟩

-- The record of a limit order that was matched on arrival. The counter of one that is used up is left alone.
theorem recordOrderChange_limit_eq {id filledLots price : Nat}
    (h : recordOrderChange i order (.limit id filledLots price) = .ok i') :
    ∃ pre e post, i.openOrders = pre ++ e :: post ∧ e.common.id = id ∧ (∀ o ∈ pre, o.common.id ≠ id) ∧
      i' =
        if filledLots < e.remaining then { i with
          openOrders := pre ++ { e with
            filledBaseLots := e.filledBaseLots + filledLots, common.status := .partiallyFilled } :: post }
        else { i with
          openOrders := pre ++ post
          completedOrders := i.completedOrders ++ [.limit { e with common.status := .filled }] } := by
  simp only [recordOrderChange, Checked.bind_ok, Checked.expect_ok, Checked.index_ok,
    LimitOrder.getOrderRemaining_ok] at h
  have ⟨index, hf, e', he, _, ⟨_, hr⟩, h⟩ := h
  have ⟨pre, e, post, ho, hlen, hid, hpre⟩ := findIdx?_id hf
  have heq : e = e' := by simpa [ho, ← hlen] using he
  subst hr heq
  refine ⟨pre, e, post, ho, hid, hpre, ?_⟩
  split at h
  case isTrue hlt =>
    simp only [Checked.bind_ok, U64.add_ok, Checked.pure_ok] at h
    have ⟨_, ⟨_, hfilled⟩, h⟩ := h
    subst hfilled h
    rw [if_pos hlt]
    simp [ho, ← hlen]
  case isFalse hlt =>
    cases h
    rw [if_neg hlt]
    simp [ho, ← hlen, List.eraseIdx_append_of_length_le]

theorem recordOrderChange_limit {id filledLots price : Nat}
    (h : recordOrderChange i order (.limit id filledLots price) = .ok i') :
    i'.expectedNonce = i.expectedNonce ∧
    ∃ pre e post, i.openOrders = pre ++ e :: post ∧ e.common.id = id ∧ (∀ o ∈ pre, o.common.id ≠ id) ∧
      i'.openOrders =
        if filledLots < e.remaining then
          pre ++ { e with
            filledBaseLots := e.filledBaseLots + filledLots, common.status := .partiallyFilled } :: post
        else pre ++ post := by
  have ⟨pre, e, post, ho, hid, hpre, hi⟩ := recordOrderChange_limit_eq h
  split at hi
  all_goals
    subst hi
    refine ⟨rfl, pre, e, post, ho, hid, hpre, ?_⟩
  case isTrue hlt  => rw [if_pos hlt]
  case isFalse hlt => rw [if_neg hlt]

-- A market order is completed, however much of it is filled.
theorem recordOrderChange_market_eq {id filledLots selfFill price : Nat}
    (h : recordOrderChange i order (.market id filledLots selfFill price) = .ok i') :
    (∃ o, order = .limit o ∧ i' = i) ∨
    ∃ o o', order = .market o ∧ i' = { i with completedOrders := i.completedOrders ++ [.market o'] } ∧
      (Order.market o').getId = (Order.market o).getId := by
  cases order
  case limit o  => cases h; exact .inl ⟨o, rfl, rfl⟩
  case market o => cases o <;> cases h <;> exact .inr ⟨_, _, rfl, rfl, rfl⟩

theorem recordOrderChange_market {id filledLots selfFill price : Nat}
    (h : recordOrderChange i order (.market id filledLots selfFill price) = .ok i') :
    i'.expectedNonce = i.expectedNonce ∧ i'.openOrders = i.openOrders := by
  rcases recordOrderChange_market_eq h with ⟨_, _, hi⟩ | ⟨_, _, _, hi, _⟩
  all_goals
    subst hi
    exact ⟨rfl, rfl⟩

theorem recordOrderChange_nonce {change : OrderChange} (h : recordOrderChange i order change = .ok i') :
    i'.expectedNonce = i.expectedNonce := by
  cases change
  case limit  => exact (recordOrderChange_limit h).1
  case market => exact (recordOrderChange_market h).1

end Info

variable {l l' : LedgerState} {k : PublicKeyHash}

-- What every update of an account's records keeps, all that are made for a match keep.
structure RecordRelation (R : LedgerState → LedgerState → Prop) : Prop where
  refl     : ∀ {l}, R l l
  trans    : ∀ {l₁ l₂ l₃}, R l₁ l₂ → R l₂ l₃ → R l₁ l₃
  change   : ∀ {l l' k order change}, l.updateAccount k (recordOrderChange · order change) = .ok l' → R l l'
  filled   : ∀ {l l' k filled}, l.updateAccount k (recordFilledOrder · filled) = .ok l' → R l l'
  residual : ∀ {l l' k r}, l.updateAccount k (recordResidualOrder · r) = .ok l' → R l l'

namespace RecordRelation

variable {R : LedgerState → LedgerState → Prop}

theorem recordUserOrder {order : Order} {change : Option OrderChange} (hR : RecordRelation R)
    (h : l.recordUserOrder k order change = .ok l') : R l l' := by
  unfold LedgerState.recordUserOrder at h
  cases change
  case none   => cases h; exact hR.refl
  case some c => exact hR.change h

theorem recordFilledOrders {filled : List LimitOrder} (hR : RecordRelation R)
    (h : l.recordFilledOrders filled = .ok l') : R l l' := by
  unfold LedgerState.recordFilledOrders at h
  induction filled generalizing l
  case nil => cases h; exact hR.refl
  case cons o os hi =>
    simp only [List.foldlM_cons, Checked.bind_ok] at h
    have ⟨l₁, ho, h⟩ := h
    exact hR.trans (hR.filled ho) (hi h)

theorem recordResidual {r : Option ResidualOrder} (hR : RecordRelation R)
    (h : l.recordResidual r = .ok l') : R l l' := by
  unfold LedgerState.recordResidual at h
  cases r
  case none   => cases h; exact hR.refl
  case some r => exact hR.residual h

theorem recordResults {order : Order} {r : Option ExecutionResults} (hR : RecordRelation R)
    (h : l.recordResults k order r = .ok l') : R l l' := by
  unfold LedgerState.recordResults at h
  cases r
  case none   => cases h; exact hR.refl
  case some r =>
    simp only [Checked.bind_ok] at h
    have ⟨l₁, h₁, l₂, h₂, h₃⟩ := h
    exact hR.trans (hR.recordUserOrder h₁) (hR.trans (hR.recordFilledOrders h₂) (hR.recordResidual h₃))

end RecordRelation

-- Updates of the accounts' records.
structure Recorded (l l' : LedgerState) : Prop where
  assetManager      : l'.assetManager = l.assetManager
  orderManager      : l'.orderManager = l.orderManager
  spotClearinghouse : l'.spotClearinghouse = l.spotClearinghouse
  expectedNonce     : ∀ k, l'.expectedNonce k = l.expectedNonce k

namespace Recorded

theorem refl : Recorded l l :=
  ⟨rfl, rfl, rfl, fun _ => rfl⟩

theorem trans {l₁ l₂ l₃ : LedgerState} (h : Recorded l₁ l₂) (h' : Recorded l₂ l₃) : Recorded l₁ l₃ where
  assetManager      := h'.assetManager.trans h.assetManager
  orderManager      := h'.orderManager.trans h.orderManager
  spotClearinghouse := h'.spotClearinghouse.trans h.spotClearinghouse
  expectedNonce k   := (h'.expectedNonce k).trans (h.expectedNonce k)

theorem updateAccount {f : AccountInfo → Checked AccountInfo}
    (hf : ∀ {i i'}, f i = .ok i' → i'.expectedNonce = i.expectedNonce) (h : l.updateAccount k f = .ok l') :
    Recorded l l' := by
  have ⟨info, hi, hl, hinfo⟩ := updateAccount_cases h
  refine ⟨by rw [hl], by rw [hl], by rw [hl], fun k' => ?_⟩
  simp only [LedgerState.expectedNonce, hinfo]
  split
  case isTrue he => rw [hf hi, he]
  case isFalse   => rfl

theorem relation : RecordRelation Recorded where
  refl     := refl
  trans    := trans
  change   := updateAccount recordOrderChange_nonce
  filled   := updateAccount fun hr => (recordFilledOrder_cases hr).1
  residual := updateAccount fun hr => (recordResidualOrder_cases hr).1

end Recorded

end LedgerState

-- The order that a transaction asks for.
def OrderTransaction.toOrder (t : OrderTransaction) (id : Nat) : Order :=
  let common : CommonOrderFields :=
    { id, marketId := t.marketId, status := .open, account := t.source, direction := t.direction }
  match t.orderType with
  | .limit price size =>
    .limit { common, priceMultiple := price, baseLots := size, filledBaseLots := 0, selfFilled := 0 }
  | .market size =>
    match t.direction with
    | .buy  => .market (.buy { quoteSize := size, filledSize := 0, selfFilled := 0
                               averageExecutionPrice := 0, common })
    | .sell => .market (.sell { baseSize := size, filledSize := 0, selfFilled := 0
                                averageExecutionPrice := 0, common })

-- What of an order is entered into the open orders.
def Order.entries : Order → List LimitOrder
  | limit o  => [o]
  | market _ => []

section

variable {t : OrderTransaction} {id : Nat}

@[simp]
theorem OrderTransaction.toOrder_account : (t.toOrder id).getAccount = t.source := by
  unfold toOrder
  cases t.orderType
  case limit  => rfl
  case market => cases t.direction <;> rfl

end

-- A placed order has the next id and is entered into the account's open orders if it is a limit order.
structure Created (t : OrderTransaction) (l : LedgerState) (order : Order) (l' : LedgerState) : Prop where
  placed            : order = t.toOrder l.orderManager.nextId
  nextId            : l'.orderManager.nextId = l.orderManager.nextId + 1
  assetManager      : l'.assetManager = l.assetManager
  spotClearinghouse : l'.spotClearinghouse = l.spotClearinghouse
  info              : ∀ k, l'.getAccountInfoOrDefault k =
    let i := l.getAccountInfoOrDefault k
    if k = t.source then { i with openOrders := i.openOrders ++ order.entries } else i

theorem LedgerState.createOrder_created {t : OrderTransaction} {l l' : LedgerState} {order : Order}
    (h : l.createOrder t = .ok (l', order)) : Created t l order l' := by
  unfold createOrder at h
  split at h
  case h_1 price size ht =>
    simp only [OrderStateManager.newLimitOrder, Checked.bind_ok, U64.add_ok, Checked.pure_ok, Prod.exists,
      Prod.mk.injEq] at h
    have ⟨_, _, ⟨_, ⟨hfit, hn⟩, hm, ho⟩, hl, horder⟩ := h
    subst hn hm ho hl horder
    refine ⟨by simp [OrderTransaction.toOrder, ht], rfl, rfl, rfl, fun k => ?_⟩
    rw [getAccountInfoMut_info]
    split
    case isTrue he => subst he; rfl
    case isFalse   => rfl
  case h_2 size ht =>
    simp only [OrderStateManager.newMarketOrder, Checked.bind_ok, U64.add_ok, Checked.pure_ok,
      Prod.exists, Prod.mk.injEq] at h
    have ⟨_, _, ⟨_, ⟨hfit, hn⟩, hm, ho⟩, hl, horder⟩ := h
    subst hn hm ho hl horder
    refine ⟨?_, rfl, rfl, rfl, fun k => ?_⟩
    · simp only [OrderTransaction.toOrder, ht]
      cases t.direction <;> rfl
    · simp only [Order.entries, List.append_nil, ite_self]
      rfl

theorem Created.expectedNonce {t : OrderTransaction} {l l' : LedgerState} {order : Order}
    (h : Created t l order l') (k : PublicKeyHash) : l'.expectedNonce k = l.expectedNonce k := by
  simp only [LedgerState.expectedNonce, h.info]
  split <;> rfl

theorem Created.openOrders {t : OrderTransaction} {l l' : LedgerState} {order : Order}
    (h : Created t l order l') (k : PublicKeyHash) :
    l'.openOrders k = if k = t.source then l.openOrders k ++ order.entries else l.openOrders k := by
  simp only [LedgerState.openOrders, h.info]
  split <;> rfl

end Superliquid

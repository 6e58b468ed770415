import Superliquid.State.Theorems.Backing
import Superliquid.State.Theorems.Funds
import Superliquid.State.Theorems.History

namespace Superliquid

open SpotMarket LedgerState SpotClearingHouse

-- What an account is told of its orders is true: `cancelled` are the orders that it has cancelled, `traded` the lots
-- that orders have traded with other accounts.
structure AccountInfo.Truthful (i : AccountInfo) (cancelled : Nat → Prop) (traded : Nat → Nat) : Prop where
  once      : (i.openOrders.map (·.common.id) ++ i.completedOrders.map Order.getId).Nodup
  status    : ∀ o, .limit o ∈ i.completedOrders → o.common.status = .filled ∨ o.common.status = .cancelled
  cancelled : ∀ o, .limit o ∈ i.completedOrders → (o.common.status = .cancelled ↔ cancelled o.common.id)
  filled    : ∀ o, .limit o ∈ i.completedOrders → o.common.status = .filled →
    o.filledBaseLots + o.selfFilled = o.baseLots ∧ o.filledBaseLots = traded o.common.id

-- The account of an order has what the order locks.
def SpotClearingHouse.Affords (c : SpotClearingHouse) (m : SpotMarket) (order : Order) (p : MarketPrecision) : Prop :=
  ∃ lock ∈ (order.lockAmount p).toOption, lock ≤ c.available m order

instance {c : SpotClearingHouse} {m : SpotMarket} {order : Order} {p : MarketPrecision} :
    Decidable (c.Affords m order p) :=
  inferInstanceAs (Decidable (∃ lock ∈ (order.lockAmount p).toOption, lock ≤ c.available m order))

theorem SpotClearingHouse.handleOrder_isSome {c c' : SpotClearingHouse} {m : SpotMarket} {order : Order}
    {p : MarketPrecision} {r : Option ExecutionResults} (hm : c.markets[order.getMarketId]? = some m)
    (h : c.handleOrder order p = .ok (c', r)) : r.isSome ↔ c.Affords m order p := by
  rw [handleOrder_eq hm, Checked.bind_ok] at h
  obtain ⟨⟨accounts, lock⟩, haccept, h⟩ := h
  cases lock
  case none =>
    obtain ⟨_, lock, hlock, hlt⟩ := accept_none haccept
    cases h
    simp [Affords, hlock, Except.toOption, hlt]
  case some lock =>
    obtain ⟨hlock, hle, _⟩ := accept_some haccept
    simp [Affords, hlock, Except.toOption, hle, execute_some h]

-- The book has all the lots that a limit order asks for.
def OrderType.MeetsWhole (m : SpotMarket) (d : OrderDirection) : OrderType → Prop
  | .limit price size => 0 < size ∧ size ≤ liveLots (sideOrders (m.reached d price))
  | .market _         => False

instance {m : SpotMarket} {d : OrderDirection} : DecidablePred (OrderType.MeetsWhole m d)
  | .limit _ _ => inferInstanceAs (Decidable (_ ∧ _))
  | .market _  => inferInstanceAs (Decidable False)

namespace LedgerState

-- The trades of an order transaction.
def orderTrades (l : LedgerState) (t : OrderTransaction) : List Trade :=
  (l.orderResults t).elim [] ExecutionResults.trades

-- The lots that an order trades with other accounts in a transaction.
def stepLots (l : LedgerState) (id : Nat) : UnsignedTransaction → Nat
  | .order t => lotsWithOthers l.orderManager.nextId t.source (l.orderTrades t) id
  | _        => 0

-- The same for a run.
def runLots (l : LedgerState) (id : Nat) : List SignedTransaction → Nat
  | []      => 0
  | t :: ts => l.stepLots id t.tx +
    match l.next t with
    | .ok l    => l.runLots id ts
    | .error _ => 0

-- The account cancels one of its open orders. An order for a market that does not exist stays open.
def Cancels (l : LedgerState) (t : CancelOrderTransaction) : Prop :=
  t.nonce = l.expectedNonce t.source ∧ (l.marketPrecision t.marketId).isOk ∧
  ∃ order ∈ (l.getAccountInfoOrDefault t.source).getOpenOrder t.orderId,
    order.common.marketId < l.spotClearinghouse.markets.length

instance {l : LedgerState} {t : CancelOrderTransaction} : Decidable (l.Cancels t) :=
  inferInstanceAs (Decidable (_ ∧ _ ∧ ∃ order ∈ (l.getAccountInfoOrDefault t.source).getOpenOrder t.orderId,
    order.common.marketId < l.spotClearinghouse.markets.length))

-- An order of an account is cancelled in a run.
def CancelsIn (l : LedgerState) (k : PublicKeyHash) (id : Nat) : List SignedTransaction → Prop
  | []      => False
  | t :: ts =>
    (∃ c, t.tx = .cancelOrder c ∧ c.source = k ∧ c.orderId = id ∧ l.Cancels c) ∨
    match l.next t with
    | .ok l    => l.CancelsIn k id ts
    | .error _ => False

-- A limit order is placed and paid for, and filled at once.
def FillsOnArrival (l : LedgerState) (t : OrderTransaction) : Prop :=
  l.Placed t ∧ ∃ p ∈ (l.marketPrecision t.marketId).toOption, ∃ m ∈ l.spotClearinghouse.markets[t.marketId]?,
    l.spotClearinghouse.Affords m (t.toOrder l.orderManager.nextId) p ∧ t.orderType.MeetsWhole m t.direction

instance {l : LedgerState} {t : OrderTransaction} : Decidable (l.FillsOnArrival t) :=
  inferInstanceAs (Decidable (_ ∧ ∃ p ∈ (l.marketPrecision t.marketId).toOption,
    ∃ m ∈ l.spotClearinghouse.markets[t.marketId]?,
      l.spotClearinghouse.Affords m (t.toOrder l.orderManager.nextId) p ∧ t.orderType.MeetsWhole m t.direction))

-- The two ways in which a limit order gets completed with a record that is not true.
def Misrecords (l : LedgerState) : UnsignedTransaction → Prop
  | .transfer _    => False
  | .order t       => l.FillsOnArrival t
  | .cancelOrder t => l.Cancels t

instance {l : LedgerState} : DecidablePred l.Misrecords
  | .transfer _    => inferInstanceAs (Decidable False)
  | .order t       => inferInstanceAs (Decidable (l.FillsOnArrival t))
  | .cancelOrder t => inferInstanceAs (Decidable (l.Cancels t))

section Orders

variable {l l' : LedgerState} {e : Exchange} {t t' : OrderTransaction} {n : Option (PublicKeyHash × Nat)}
         {r : ExecutionResults} {o : LimitOrder} {traded : Nat → Nat}

theorem orderResults_some (h : l.orderResults t = some r) : l.Placed t ∧ ∃ p c, l.marketPrecision t.marketId = .ok p ∧
    l.spotClearinghouse.handleOrder (t.toOrder l.orderManager.nextId) p = .ok (c, some r) := by
  unfold orderResults at h
  split at h
  case isFalse        => contradiction
  case isTrue placed  =>
    refine ⟨placed, ?_⟩
    cases hp : l.marketPrecision t.marketId <;> simp only [hp] at h
    case error => contradiction
    case ok p  =>
      cases hc : l.spotClearinghouse.handleOrder (t.toOrder l.orderManager.nextId) p <;> simp only [hc] at h
      case error => contradiction
      case ok cr => exact ⟨p, cr.1, rfl, by rw [hc, ← h]⟩

theorem Shows.fillsOnArrival_iff (h : l.Shows e) (ho : t.toOrder e.nextId = .limit o) :
    l.FillsOnArrival t ↔ l.Placed t ∧ l.marketPrecision t.marketId = .ok .supeUsd ∧ 0 < o.baseLots ∧
      l.spotClearinghouse.Affords e.market (.limit o) .supeUsd ∧
      o.baseLots ≤ sumLots (e.market.sweep .supeUsd (.limit o)).fills := by
  have hlots := e.market.sweep_lots .supeUsd o
  obtain ⟨price, size, ht, heq⟩ := OrderTransaction.toOrder_limit ho
  have hsize : o.baseLots = size := by rw [heq]
  have hdir : o.common.direction = t.direction := by rw [heq]
  have hprice : o.priceMultiple = price := by rw [heq]
  have hn : t.toOrder l.orderManager.nextId = .limit o := by rw [h.nextId, ho]
  rw [hdir, hprice, hsize] at hlots
  have hwhole : t.orderType.MeetsWhole e.market t.direction ↔
      0 < size ∧ size ≤ sumLots (e.market.sweep .supeUsd (.limit o)).fills := by
    simp only [ht, OrderType.MeetsWhole]
    omega
  rw [FillsOnArrival, hsize, hn]
  refine and_congr_right fun _ => ?_
  cases hp : l.marketPrecision t.marketId
  case error => simp [Except.toOption]
  case ok p  =>
    obtain ⟨hzero, hsupe⟩ := h.marketPrecision hp
    subst hsupe
    have hm : l.spotClearinghouse.markets[t.marketId]? = some e.market := by rw [h.markets, hzero]; rfl
    simp only [hm, Except.toOption, Option.mem_some_iff, exists_eq_left', hwhole, true_and]
    tauto

theorem Shows.market_of {i : Nat} (h : l.Shows e) (ho : t.toOrder i = .limit o) (hzero : t.marketId = 0) :
    l.spotClearinghouse.markets[(Order.limit o).getMarketId]? = some e.market := by
  obtain ⟨_, _, _, heq⟩ := OrderTransaction.toOrder_limit ho
  rw [heq, Order.getMarketId, hzero, h.markets]
  rfl

-- A limit order that asks for nothing meets nothing.
theorem baseLots_pos {m : SpotMarket} {p : MarketPrecision} (h : (m.sweep p (.limit o)).fills ≠ []) :
    0 < o.baseLots := by
  refine Nat.pos_of_ne_zero fun hz => h ?_
  have hlots (price : Nat) :
      (Budget.base (crosses o.common.direction.flip.cmp o.priceMultiple)).lots o.baseLots price = 0 := by
    simp [Budget.base, hz]
  rw [SpotMarket.sweep, limitSweep]
  cases (m.side o.common.direction.flip).reverse
  case nil  => rfl
  case cons => rw [sweep_stop (hlots _)]

end Orders

-- The ledger's records are true of all that has happened, and no entry of its book was cancelled.
structure Recounts (traded : Nat → Nat) (l : LedgerState) (e : Exchange) : Prop where
  shows : l.Shows e
  cons  : e.Consistent
  live  : e.market.AllLive
  told  : Told e.nextId traded l

namespace Recounts

variable {l l' : LedgerState} {e e' : Exchange} {traded : Nat → Nat} {n : Option (PublicKeyHash × Nat)}

theorem order {t t' : OrderTransaction} (h : l.Recounts traded e) (hc : ¬l.FillsOnArrival t)
    (ht : l.handleOrderTransaction t = .ok (l', t', n)) (h' : l'.Shows e') :
    e'.market.AllLive ∧
    Told e'.nextId (fun i => traded i + lotsWithOthers l.orderManager.nextId t.source (l.orderTrades t) i) l' := by
  have touched := h.told.same (.touch l t.source)
  have shows := h.shows.touch t.source
  cases h.shows.ordered ht
  case rejected hresults hl =>
    cases h'.unique (hl ▸ shows)
    refine ⟨h.live, ?_⟩
    rw [orderTrades, hresults, hl]
    exact touched
  case declined hresults created hsame _ h₁ =>
    cases h'.unique h₁
    refine ⟨h.live, ?_⟩
    rw [orderTrades, hresults]
    exact (touched.enter shows created).same hsame
  case rested hresults created hsame _ _ ho rested h₁ =>
    cases h'.unique h₁
    have hentered : Entered e.nextId (t.toOrder e.nextId) t.source _ := .enter (shows.created created)
    refine ⟨h.live.addOrder (hentered.live _ ho) rested.market, ?_⟩
    rw [orderTrades, hresults, rested.results]
    exact (touched.enter shows created).same hsame
  case matched hresults created hrecord hsame hzero hcross matched h₁ =>
    cases h'.unique h₁
    have hentered : Entered e.nextId (t.toOrder e.nextId) t.source _ := .enter (shows.created created)
    refine ⟨h.live.afterMatch hentered.live matched.market, ?_⟩
    rw [orderTrades, hresults, h.shows.nextId]
    refine (touched.matched shows h.cons h.live hcross matched (fun o ho => ?_) created hrecord).same hsame
    by_contra hle
    rw [ho] at matched hle
    refine hc ((h.shows.fillsOnArrival_iff ho).mpr ?_)
    obtain ⟨placed, p, c, hp, hhandle⟩ := orderResults_some hresults
    obtain ⟨_, hsupe⟩ := h.shows.marketPrecision hp
    subst hsupe
    rw [h.shows.nextId, ho] at hhandle
    refine ⟨placed, hp, baseLots_pos (matched.crossed o rfl), ?_, Nat.le_of_not_lt hle⟩
    refine (handleOrder_isSome (h.shows.market_of ho hzero) hhandle).mp rfl

-- Transactions that leave the orders alone.
theorem quiet (h : l.Recounts traded e) (h' : l'.Shows e') (hsame : l.SameHistory l')
    (hm : l'.spotClearinghouse.markets = l.spotClearinghouse.markets) (hn : l'.orderManager = l.orderManager) :
    e'.market.AllLive ∧ Told e'.nextId traded l' := by
  rw [h'.markets, h.shows.markets, List.singleton_inj] at hm
  rw [hm, ← h'.nextId, hn, h.shows.nextId]
  exact ⟨h.live, h.told.same hsame⟩

theorem transfer {t t' : TransferTransaction} (h : l.Recounts traded e)
    (ht : l.handleTransferTransaction t = .ok (l', t', n)) (h' : l'.Shows e') :
    e'.market.AllLive ∧ Told e'.nextId traded l' := by
  obtain ⟨e₁, hstep, h₁⟩ := h.shows.transfer ht
  cases h'.unique h₁
  have hhistory := handleTransferTransaction_history ht
  cases hstep <;> exact ⟨h.live, h.told.same hhistory⟩

theorem cancel {t t' : CancelOrderTransaction} (h : l.Recounts traded e) (hc : ¬l.Cancels t)
    (ht : l.handleCancelOrderTransaction t = .ok (l', t', n)) (h' : l'.Shows e') :
    e'.market.AllLive ∧ Told e'.nextId traded l' := by
  rcases handleCancelOrderTransaction_cases ht with ⟨hl, _⟩ | hx
  · subst hl
    exact h.quiet h' ⟨rfl, rfl⟩ rfl rfl
  · obtain ⟨hnonce, order, precision, c, cancelled, l₁, nonce, hopen, hprecision, hcancel, hl₁, hbump, _⟩ := hx
    rcases cancelOrder_cases hcancel with ⟨hfalse, _, hdeclined⟩ | ⟨_, m, _, _, hm, _⟩
    · subst hfalse
      cases hl₁
      have hhistory := (SameHistory.setClearinghouse l c).trans (.bumpNonce hbump)
      obtain ⟨_, _, hl⟩ := bumpNonce_cases hbump
      subst hl
      exact h.quiet h' hhistory hdeclined.markets rfl
    · refine absurd ⟨hnonce, ?_, order, hopen, ?_⟩ hc
      · rw [hprecision]; rfl
      · exact (List.getElem?_eq_some_iff.mp hm).1

theorem step {t t' : SignedTransaction} (h : l.Recounts traded e) (hc : ¬l.Misrecords t.tx)
    (ht : l.applyTransaction t = .ok (l', t', n)) : ∃ e', l'.Recounts (fun i => traded i + l.stepLots i t.tx) e' := by
  obtain ⟨e', hstep, h'⟩ := h.shows.step ht
  suffices hs : e'.market.AllLive ∧ Told e'.nextId (fun i => traded i + l.stepLots i t.tx) l' from
    ⟨e', h', .step hstep h.cons, hs.1, hs.2⟩
  rcases applyTransaction_cases ht with ⟨_, _, htx, _, hx⟩ | ⟨_, _, htx, _, hx⟩ | ⟨_, _, htx, _, hx⟩
  all_goals rw [htx] at hc ⊢
  · exact h.transfer hx h'
  · exact h.order hc hx h'
  · exact h.cancel hc hx h'

theorem run {ts ts' : List SignedTransaction} {ns : List (Option (PublicKeyHash × Nat))} (h : l.Recounts traded e)
    (hc : Meets next (fun l t => ¬l.Misrecords t.tx) l ts) (hrun : l.apply ts = .ok (l', ts', ns)) :
    (∃ e', l'.Recounts (fun i => traded i + l.runLots i ts) e') ∧ ∀ k i, ¬l.CancelsIn k i ts := by
  induction ts generalizing l e traded ts' ns
  case nil =>
    cases hrun
    exact ⟨⟨e, h⟩, fun _ _ => id⟩
  case cons t ts hi =>
    obtain ⟨l₁, t', n, ts'', ns', ht, hrun, _⟩ := apply_cons hrun
    have hnext := next_ok.mpr ⟨t', n, ht⟩
    obtain ⟨hc, hcs⟩ := hc
    rw [hnext] at hcs
    obtain ⟨e₁, h₁⟩ := h.step hc ht
    obtain ⟨⟨e', h'⟩, hnone⟩ := hi h₁ hcs hrun
    refine ⟨⟨e', ?_⟩, fun k i => ?_⟩
    · simp only [runLots, hnext, ← Nat.add_assoc]
      exact h'
    · simp only [CancelsIn, hnext]
      rintro (⟨c, htx, _, _, hcancel⟩ | hrest)
      · exact hc (htx ▸ hcancel)
      · exact hnone k i hrest

theorem new {faucet : PublicKeyHash} : (LedgerState.new faucet).Recounts (fun _ => 0) (.new faucet) where
  shows := .new
  cons  := .new
  live  := by simp [AllLive, Exchange.new, SpotMarket.supeUsd, SpotMarket.new, SpotMarket.orders, sideOrders]
  told  := .new

theorem truthful (h : l.Recounts traded e) {cancelled : Nat → Prop} (hnone : ∀ i, ¬cancelled i) (k : PublicKeyHash) :
    (l.getAccountInfoOrDefault k).Truthful cancelled traded := by
  have completed {o : LimitOrder} (ho : .limit o ∈ (l.getAccountInfoOrDefault k).completedOrders) :
      o.Settled (traded o.common.id) := h.told.completed k o ho
  constructor
  case once =>
    refine (h.told.entries.nodup k).append (h.told.nodup k) fun i hi hi' => ?_
    obtain ⟨x, hx, he⟩ := List.mem_map.mp hi
    obtain ⟨o, ho, he'⟩ := List.mem_map.mp hi'
    exact h.told.apart ho hx (he'.trans he.symm)
  case status    => exact fun o ho => .inl (completed ho).status
  case cancelled =>
    intro o ho
    simp [(completed ho).status, hnone]
  case filled    => exact fun o ho _ => ⟨(completed ho).whole, (completed ho).filled⟩

end Recounts

end LedgerState

-- A record that is not true of any order.
inductive LimitOrder.Untrue (o : LimitOrder) : Prop
  | status : (o.common.status ≠ .filled) → (o.common.status ≠ .cancelled) → Untrue o
  | filled : (o.common.status = .filled) → (o.filledBaseLots + o.selfFilled ≠ o.baseLots) → Untrue o

theorem AccountInfo.Truthful.not_untrue {i : AccountInfo} {cancelled : Nat → Prop} {traded : Nat → Nat} {o : LimitOrder}
    (h : i.Truthful cancelled traded) (ho : .limit o ∈ i.completedOrders) : ¬o.Untrue := by
  intro hu
  cases hu
  case status hf hc => exact (h.status o ho).elim hf hc
  case filled hf hs => exact hs (h.filled o ho hf).1

-- Completed orders stay.
def Keeps (l l' : LedgerState) : Prop :=
  ∀ k, l.completedOrders k ⊆ l'.completedOrders k

namespace Keeps

variable {l l' : LedgerState} {k : PublicKeyHash} {n : Option (PublicKeyHash × Nat)}

theorem refl : Keeps l l :=
  fun _ => List.Subset.refl _

theorem trans {l₁ l₂ l₃ : LedgerState} (h : Keeps l₁ l₂) (h' : Keeps l₂ l₃) : Keeps l₁ l₃ :=
  fun k => List.Subset.trans (h k) (h' k)

theorem same (h : l.SameHistory l') : Keeps l l' :=
  fun _ => h.completedOrders ▸ List.Subset.refl _

theorem updateAccount {f : AccountInfo → Checked AccountInfo}
    (hf : ∀ {i i'}, f i = .ok i' → i.completedOrders ⊆ i'.completedOrders)
    (h : l.updateAccount k f = .ok l') : Keeps l l' := by
  have ⟨info, hi, _, hinfo⟩ := updateAccount_cases h
  intro k'
  simp only [LedgerState.completedOrders, hinfo]
  split
  case isTrue he => exact he ▸ hf hi
  case isFalse   => exact List.Subset.refl _

theorem recordOrderChange {i i' : AccountInfo} {order : Order} {change : OrderChange}
    (h : recordOrderChange i order change = .ok i') : i.completedOrders ⊆ i'.completedOrders := by
  cases change
  case market =>
    rcases recordOrderChange_market_eq h with ⟨_, _, hi⟩ | ⟨_, _, _, hi, _⟩
    · simp [hi]
    · simp [hi]
  case limit =>
    have ⟨_, _, _, _, _, _, hi⟩ := recordOrderChange_limit_eq h
    rw [hi]
    split <;> simp

theorem relation : RecordRelation Keeps where
  refl   := refl
  trans  := trans
  change := updateAccount recordOrderChange
  filled := updateAccount fun hr => by
    rcases recordFilledOrder_eq hr with ⟨hi, _⟩ | ⟨_, _, _, _, _, _, _, hi⟩
    · simp [hi]
    · simp [hi]
  residual := updateAccount fun hr => by
    have ⟨_, _, _, _, _, _, hi⟩ := recordResidualOrder_eq hr
    simp [hi]

theorem created {t : OrderTransaction} {order : Order} (h : Created t l order l') : Keeps l l' := by
  intro k
  simp only [LedgerState.completedOrders, h.info]
  split <;> simp

theorem order {t t' : OrderTransaction} (h : l.handleOrderTransaction t = .ok (l', t', n)) : Keeps l l' := by
  have htouch : Keeps l (l.getAccountInfoMut t.source id) := same (.touch l t.source)
  rcases handleOrderTransaction_cases h with ⟨_, hl, _⟩ | ⟨_, l₁, order, hcreate, ⟨_, _, hl, _⟩ | he⟩
  · exact hl ▸ htouch
  · exact hl ▸ htouch.trans (created (createOrder_created hcreate))
  · obtain ⟨_, c, _, _, _, _, _, hrecord, hbump, _⟩ := he
    have hcreated := htouch.trans (created (createOrder_created hcreate))
    have hrecorded := (hcreated.trans (same (.setClearinghouse l₁ c))).trans (relation.recordResults hrecord)
    exact hrecorded.trans (same (.bumpNonce hbump))

theorem cancel {t t' : CancelOrderTransaction} (h : l.handleCancelOrderTransaction t = .ok (l', t', n)) :
    Keeps l l' := by
  rcases handleCancelOrderTransaction_cases h with ⟨hl, _⟩ | he
  · exact hl ▸ refl
  · obtain ⟨_, order, _, c, cancelled, l₁, _, _, _, _, hl₁, hbump, _⟩ := he
    refine trans ?_ (same (.bumpNonce hbump))
    cases cancelled
    case false => exact hl₁ ▸ same (.setClearinghouse l c)
    case true  =>
      obtain ⟨_, _, _, _, hl₁⟩ := hl₁
      intro k
      simp only [hl₁, LedgerState.completedOrders, getAccountInfoMut_info]
      split
      case isTrue hk => subst hk; exact List.subset_append_left _ _
      case isFalse   => exact List.Subset.refl _

theorem step {t t' : SignedTransaction} (h : l.applyTransaction t = .ok (l', t', n)) : Keeps l l' := by
  rcases applyTransaction_cases h with ⟨_, _, _, _, hx⟩ | ⟨_, _, _, _, hx⟩ | ⟨_, _, _, _, hx⟩
  · exact same (handleTransferTransaction_history hx)
  · exact order hx
  · exact cancel hx

theorem run {ts ts' : List SignedTransaction} {ns : List (Option (PublicKeyHash × Nat))}
    (h : l.apply ts = .ok (l', ts', ns)) : Keeps l l' := by
  refine (Steps.of_foldlM (foldlM_of_apply h) .trivial).relation (fun _ => refl) trans fun hs => ?_
  obtain ⟨t', n, hx⟩ := next_ok.mp hs.2
  exact step hx

end Keeps

namespace LedgerState.Recounts

variable {l l' : LedgerState} {e : Exchange} {traded : Nat → Nat} {n : Option (PublicKeyHash × Nat)}

-- A cancelled order is completed as it was.
theorem cancel_untrue {t t' : CancelOrderTransaction} (h : l.Recounts traded e) (hc : l.Cancels t)
    (ht : l.handleCancelOrderTransaction t = .ok (l', t', n)) :
    ∃ o, .limit o ∈ l'.completedOrders t.source ∧ o.Untrue := by
  obtain ⟨hnonce, hprecision, order, hopen, hlt⟩ := hc
  have hopen : (l.getAccountInfoOrDefault t.source).getOpenOrder t.orderId = some order := hopen
  rcases handleCancelOrderTransaction_cases ht with ⟨_, _, _, hn⟩ | hx
  · exact absurd ⟨hnonce, hprecision, by rw [hopen]; rfl⟩ hn
  · obtain ⟨_, order', _, c, cancelled, l₁, _, hopen', _, hcancel, hl₁, hbump, _⟩ := hx
    cases hopen.symm.trans hopen'
    rcases cancelOrder_cases hcancel with ⟨_, hnone, _⟩ | ⟨htrue, _⟩
    · exact absurd hlt (by simpa using hnone)
    · subst htrue
      obtain ⟨pre, post, hsplit, _, hl₁⟩ := hl₁
      have hmem : Order.limit order ∈ l₁.completedOrders t.source := by
        simp [hl₁, LedgerState.completedOrders, getAccountInfoMut_info]
      refine ⟨order, (SameHistory.bumpNonce hbump).completedOrders ▸ hmem, ?_⟩
      have hpending := h.told.pending t.source order (by simp [hsplit])
      rcases hpending.status with hs | hs
      · exact .status (by simp [hs]) (by simp [hs])
      · exact .status (by simp [hs]) (by simp [hs])

-- An order that is filled on arrival is completed without its lots.
theorem order_untrue {t t' : OrderTransaction} (h : l.Recounts traded e) (hf : l.FillsOnArrival t)
    (ht : l.handleOrderTransaction t = .ok (l', t', n)) : ∃ o, .limit o ∈ l'.completedOrders t.source ∧ o.Untrue := by
  obtain ⟨o, ho⟩ : ∃ o, t.toOrder e.nextId = .limit o := by
    cases htype : t.orderType
    case limit => exact ⟨_, by simp only [OrderTransaction.toOrder, htype]; rfl⟩
    case market =>
      obtain ⟨_, _, _, _, _, _, hwhole⟩ := hf
      simp [htype, OrderType.MeetsWhole] at hwhole
  obtain ⟨placed, hp, hpos, affords, hle⟩ := (h.shows.fillsOnArrival_iff ho).mp hf
  obtain ⟨hzero, _⟩ := h.shows.marketPrecision hp
  cases h.shows.ordered ht
  case rejected hn _ _   => exact absurd placed hn
  case declined hnone _ _ _ _ _ =>
    obtain ⟨c, hc⟩ := hnone _ hp
    rw [ho] at hc
    have hsome := (handleOrder_isSome (h.shows.market_of ho hzero) hc).mpr affords
    contradiction
  case rested ho' rested _ =>
    cases ho.symm.trans ho'
    rw [rested.fills] at hle
    simp [sumLots] at hle
    omega
  case matched c _ _ _ _ created hrecord hsame _ _ matched _ =>
    have shows := h.shows.touch t.source
    have hentered : Entered e.nextId (t.toOrder e.nextId) t.source _ := .enter (shows.created created)
    have told := ((h.told.same (.touch l t.source)).enter shows created).same (.setClearinghouse _ c)
    have hmem := hentered.entered o ho
    obtain ⟨hfilled, hself⟩ := hentered.fresh o ho
    rw [ho] at matched hrecord
    obtain ⟨change, hchange, hreports⟩ := matched.change
    obtain ⟨price, he⟩ := hreports
    subst he
    simp only [LedgerState.recordResults, Checked.bind_ok] at hrecord
    obtain ⟨l₃, huser, l₄, hmakers, hresidual⟩ := hrecord
    have hkeeps := (Keeps.relation.recordFilledOrders hmakers).trans
      ((Keeps.relation.recordResidual hresidual).trans (.same hsame))
    refine ⟨{ o with common.status := .filled }, hkeeps t.source ?_, .filled rfl ?_⟩
    · rw [hchange] at huser
      refine told.recordWhole hmem ?_ huser
      rw [LimitOrder.remaining, hfilled, hself]
      exact hle
    · dsimp only
      omega

theorem step_untrue {t t' : SignedTransaction} (h : l.Recounts traded e) (hm : l.Misrecords t.tx)
    (ht : l.applyTransaction t = .ok (l', t', n)) : ∃ k o, .limit o ∈ l'.completedOrders k ∧ o.Untrue := by
  rcases applyTransaction_cases ht with ⟨_, _, htx, _, hx⟩ | ⟨_, _, htx, _, hx⟩ | ⟨_, _, htx, _, hx⟩
  all_goals rw [htx] at hm
  · exact absurd hm id
  · exact ⟨_, h.order_untrue hm hx⟩
  · exact ⟨_, h.cancel_untrue hm hx⟩

-- One wrong record is there for good.
theorem run_untrue {ts ts' : List SignedTransaction} {ns : List (Option (PublicKeyHash × Nat))}
    (h : l.Recounts traded e)
    (hc : ¬Meets next (fun l t => ¬l.Misrecords t.tx) l ts) (hrun : l.apply ts = .ok (l', ts', ns)) :
    ∃ k o, .limit o ∈ l'.completedOrders k ∧ o.Untrue := by
  induction ts generalizing l e traded ts' ns
  case nil => exact absurd trivial hc
  case cons t ts hi =>
    obtain ⟨l₁, t', n, ts'', ns', ht, hrun, _⟩ := apply_cons hrun
    have hnext := next_ok.mpr ⟨t', n, ht⟩
    by_cases hm : l.Misrecords t.tx
    case pos =>
      obtain ⟨k, o, ho, hu⟩ := h.step_untrue hm ht
      exact ⟨k, o, Keeps.run hrun k ho, hu⟩
    case neg =>
      obtain ⟨e₁, h₁⟩ := h.step hm ht
      refine hi h₁ (fun hcs => hc ⟨hm, ?_⟩) hrun
      rw [hnext]
      exact hcs

end LedgerState.Recounts

-- The records of all accounts are true of a run just if nobody cancels an order in it, and no limit order finds all
-- that it asks for in the book.
theorem truthful_iff_not_misrecords {faucet : PublicKeyHash} {l : LedgerState} {ts ts' : List SignedTransaction}
    {ns : List (Option (PublicKeyHash × Nat))} (hrun : (LedgerState.new faucet).apply ts = .ok (l, ts', ns)) :
    (∀ k, (l.getAccountInfoOrDefault k).Truthful (fun id => (LedgerState.new faucet).CancelsIn k id ts)
      (fun id => (LedgerState.new faucet).runLots id ts)) ↔
    Meets LedgerState.next (fun l t => ¬l.Misrecords t.tx) (.new faucet) ts := by
  constructor
  · intro h
    by_contra hc
    obtain ⟨k, o, ho, hu⟩ := Recounts.new.run_untrue hc hrun
    exact (h k).not_untrue ho hu
  · intro hc k
    obtain ⟨⟨e, h⟩, hnone⟩ := Recounts.new.run hc hrun
    simp only [Nat.zero_add] at h
    exact h.truthful (hnone k) k

-- Account 7 sells five lots, buys two of them itself, and account 8 takes the rest.
def takesOwn : List SignedTransaction := [
  .transfer 1 7 0 5000 0,
  .transfer 1 7 1 5000 1,
  .transfer 1 8 1 5000 2,
  .limit 7 .sell 20 5 0,
  .market 7 .buy 4 1,
  .limit 8 .buy 20 8 0
]

theorem takesOwn_truthful : ∃ (l : LedgerState) (ts' : _) (ns : _) (o : LimitOrder) (m : Order),
    (LedgerState.new 1).apply takesOwn = .ok (l, ts', ns) ∧ l.completedOrders 7 = [m, .limit o] ∧
    o.filledBaseLots = 3 ∧ o.selfFilled = 2 ∧
    ∀ k, (l.getAccountInfoOrDefault k).Truthful (fun id => (LedgerState.new 1).CancelsIn k id takesOwn)
      (fun id => (LedgerState.new 1).runLots id takesOwn) := by
  refine ⟨_, _, _, _, _, rfl, rfl, rfl, rfl, ?_⟩
  exact (truthful_iff_not_misrecords (rfl : (LedgerState.new 1).apply takesOwn = .ok _)).mpr (by decide)

-- Account 8 takes two of five lots, and account 7 cancels the rest.
def takesAndCancels : List SignedTransaction := [
  .transfer 1 7 0 5000 0,
  .transfer 1 8 1 5000 1,
  .limit 7 .sell 20 5 0,
  .limit 8 .buy 20 2 0,
  .cancel 7 0 1
]

-- The order of account 8 is said to be filled, but with no lots, and the one of account 7 to be open.
theorem takesAndCancels_not_truthful : ∃ (l : LedgerState) (ts' : _) (ns : _) (x y : LimitOrder),
    (LedgerState.new 1).apply takesAndCancels = .ok (l, ts', ns) ∧
    l.completedOrders 7 = [.limit x] ∧ (LedgerState.new 1).CancelsIn 7 x.common.id takesAndCancels ∧
    x.common.status = .open ∧
    l.completedOrders 8 = [.limit y] ∧ y.common.status = .filled ∧ y.baseLots = 2 ∧ y.filledBaseLots = 0 ∧
    y.selfFilled = 0 ∧ (LedgerState.new 1).runLots y.common.id takesAndCancels = 2 ∧
    ∀ k, k = 7 ∨ k = 8 → ¬(l.getAccountInfoOrDefault k).Truthful
      (fun id => (LedgerState.new 1).CancelsIn k id takesAndCancels)
      (fun id => (LedgerState.new 1).runLots id takesAndCancels) := by
  obtain ⟨l, ts', ns, x, y, hrun, h₇, hcancel, hx, h₈, hy, hbase, hfilled, hself, hlots⟩ :
      ∃ (l : LedgerState) (ts' : _) (ns : _) (x y : LimitOrder),
        (LedgerState.new 1).apply takesAndCancels = .ok (l, ts', ns) ∧
        l.completedOrders 7 = [.limit x] ∧ (LedgerState.new 1).CancelsIn 7 x.common.id takesAndCancels ∧
        x.common.status = .open ∧
        l.completedOrders 8 = [.limit y] ∧ y.common.status = .filled ∧ y.baseLots = 2 ∧ y.filledBaseLots = 0 ∧
        y.selfFilled = 0 ∧ (LedgerState.new 1).runLots y.common.id takesAndCancels = 2 := by
    refine ⟨_, _, _, _, _, rfl, rfl, ?_, rfl, rfl, rfl, rfl, rfl, rfl, rfl⟩
    exact .inr (.inr (.inr (.inr (.inl ⟨_, rfl, rfl, rfl, by decide⟩))))
  refine ⟨l, ts', ns, x, y, hrun, h₇, hcancel, hx, h₈, hy, hbase, hfilled, hself, hlots, ?_⟩
  rintro k (hk | hk) h
  · subst hk
    refine h.not_untrue (?_ : .limit x ∈ l.completedOrders 7) (.status (by simp [hx]) (by simp [hx]))
    simp [h₇]
  · subst hk
    refine h.not_untrue (?_ : .limit y ∈ l.completedOrders 8) (.filled hy (by omega))
    simp [h₈]

end Superliquid

import Superliquid.Lib.Steps
import Superliquid.State.Theorems.Records
import Superliquid.State.Theorems.Sound

namespace Superliquid

open SpotMarket LedgerState SpotClearingHouse

-- The market that the ledger is made with.
structure SpotMarket.Listed (m : SpotMarket) : Prop where
  baseAsset    : m.baseAsset = 0
  quoteAsset   : m.quoteAsset = 1
  tick         : m.tick = 100
  tickDecimals : m.tickDecimals = 3

namespace SpotMarket.Listed

variable {m m' : SpotMarket} {d : OrderDirection} {levels : List Level} {price : Option Nat} {order : Order}

theorem setSide (h : m.Listed) : (m.setSide d levels).Listed := by
  cases d <;> exact ⟨h.baseAsset, h.quoteAsset, h.tick, h.tickDecimals⟩

theorem setLastExecutedPrice (h : m.Listed) : (m.setLastExecutedPrice price).Listed := by
  cases price <;> exact ⟨h.baseAsset, h.quoteAsset, h.tick, h.tickDecimals⟩

theorem addOrder {o : LimitOrder} (h : m.Listed) (ha : m.addOrder o = .ok m') : m'.Listed := by
  have ⟨_, hm, _⟩ := addOrder_added ha
  exact hm ▸ h.setSide

theorem afterMatch (h : m.Listed) (hm : m.AfterMatch .supeUsd order m') : m'.Listed := by
  have ⟨price, hm⟩ := hm
  have h₁ : ((m.setSide order.direction.flip (m.sweep .supeUsd order).levels.reverse).setLastExecutedPrice
      price).Listed := h.setSide.setLastExecutedPrice
  cases order
  case market => exact hm ▸ h₁
  case limit o =>
    dsimp only at hm
    split at hm
    case isTrue  => exact h₁.addOrder hm
    case isFalse => exact hm ▸ h₁

theorem cancelOrder {o : LimitOrder} {unfilled : Nat} (h : m.Listed) (hc : m.cancelOrder o = .ok (m', unfilled)) :
    m'.Listed := by
  have ⟨_, hm, _⟩ := cancelOrder_cancelled hc
  exact hm ▸ h.setSide

end SpotMarket.Listed

-- What the ledger keeps of its market: the book, the accounts' records of their orders and the balances.
structure Exchange where
  market     : SpotMarket
  nextId     : Nat
  openOrders : PublicKeyHash → List LimitOrder
  accounts   : Accounts

-- The ledger has one market for good, and two assets.
structure LedgerState.Shows (l : LedgerState) (e : Exchange) : Prop where
  assetManager : l.assetManager = .new
  markets      : l.spotClearinghouse.markets = [e.market]
  listed       : e.market.Listed
  nextId       : l.orderManager.nextId = e.nextId
  openOrders   : l.openOrders = e.openOrders
  accounts     : l.spotClearinghouse.accounts = e.accounts

theorem LedgerState.Shows.marketPrecision {l : LedgerState} {e : Exchange} (h : l.Shows e) {id : MarketId}
    {precision : MarketPrecision} (hp : l.marketPrecision id = .ok precision) :
    id = 0 ∧ precision = .supeUsd := by
  simp only [LedgerState.marketPrecision, SpotClearingHouse.getQuoteBaseTickFromId, h.markets, h.assetManager] at hp
  cases id
  case succ => simp at hp
  case zero =>
    simp only [List.getElem?_cons_zero, Option.map_some, h.listed.baseAsset, h.listed.quoteAsset, h.listed.tick,
      h.listed.tickDecimals] at hp
    cases hp
    exact ⟨rfl, rfl⟩

namespace Exchange

-- The balances are the same, whatever entries they are in.
def SameBalances (accounts accounts' : Accounts) : Prop :=
  ∀ k a, accounts'.balance k a = accounts.balance k a

-- An order that is given an id, and entered if it is a limit order.
def enter (e : Exchange) (t : OrderTransaction) : Exchange :=
  { e with
    nextId := e.nextId + 1
    openOrders k := if k = t.source then e.openOrders k ++ (t.toOrder e.nextId).entries else e.openOrders k }

-- The accounts' records after a match.
def Books (source : PublicKeyHash) (order : Order) (r : ExecutionResults)
    (openOrders openOrders' : PublicKeyHash → List LimitOrder) : Prop :=
  ∃ l l' : LedgerState, l.openOrders = openOrders ∧ l.recordResults source order (some r) = .ok l' ∧
    l'.openOrders = openOrders'

-- What one transaction can do.
inductive Step (e : Exchange) : UnsignedTransaction → Exchange → Prop
  | idle {tx : UnsignedTransaction} {accounts : Accounts} :
    (SameBalances e.accounts accounts) → Step e tx { e with accounts }
  | transfer {t : TransferTransaction} {accounts accounts₁ accounts₂ : Accounts} :
      (SameBalances e.accounts accounts) →
      (debitTransfer accounts { account := t.source, assetId := t.assetId, amount := t.amount, isIncrease := false } =
        .ok accounts₁) →
      (accounts₁.getAccountTokenBalanceMut t.target t.assetId (AccountTokenBalance.credit t.amount) =
        .ok accounts₂) →
      Step e (.transfer t) { e with accounts := accounts₂ }
  | declined {t : OrderTransaction} {accounts : Accounts} :
    (SameBalances e.accounts accounts) → Step e (.order t) { e.enter t with accounts }
  | rested {t : OrderTransaction} {o : LimitOrder} {market : SpotMarket} {accounts : Accounts} {r : ExecutionResults} :
      (t.marketId = 0) → (crossesOwnOrder (e.openOrders t.source) t = false) → (t.toOrder e.nextId = .limit o) →
      (Rested e.market .supeUsd o e.accounts market accounts r) →
      Step e (.order t) { e.enter t with market, accounts }
  | matched {t : OrderTransaction} {market : SpotMarket} {accounts : Accounts} {r : ExecutionResults}
      {openOrders : PublicKeyHash → List LimitOrder} :
      (t.marketId = 0) → (crossesOwnOrder (e.openOrders t.source) t = false) →
      (Matched e.market .supeUsd (t.toOrder e.nextId) e.accounts market accounts r) →
      (Books t.source (t.toOrder e.nextId) r (e.enter t).openOrders openOrders) →
      Step e (.order t) { e.enter t with market, accounts, openOrders }
  | cancelled {t : CancelOrderTransaction} {order : LimitOrder} {pre post : List LimitOrder} {market : SpotMarket}
      {unfilled : Nat} {accounts : Accounts} :
      (e.openOrders t.source = pre ++ order :: post) → (∀ o ∈ pre, o.common.id ≠ order.common.id) →
      (order.common.id = t.orderId) → (e.market.cancelOrder order = .ok (market, unfilled)) →
      (∀ k a, accounts.locked k a = e.accounts.locked k a -
        if k = order.common.account ∧ a = payAsset 0 1 order.common.direction then
          (payAmount .supeUsd order.common.direction order.priceMultiple unfilled : Int)
        else 0) →
      Step e (.cancelOrder t) { e with
        market, accounts
        openOrders := fun k => if k = t.source then pre ++ post else e.openOrders k }

end Exchange

namespace LedgerState

open Exchange

-- What the clearinghouse reports for an order, if it gets that far.
def orderResults (l : LedgerState) (t : OrderTransaction) : Option ExecutionResults :=
  if l.Placed t then
    match l.marketPrecision t.marketId with
    | .error _      => none
    | .ok precision =>
      match l.spotClearinghouse.handleOrder (t.toOrder l.orderManager.nextId) precision with
      | .ok (_, r) => r
      | .error _   => none
  else none

-- What an order comes to, with all that it changes.
inductive Ordered (l : LedgerState) (e : Exchange) (t : OrderTransaction) (l' : LedgerState) : Prop
  | rejected : (¬l.Placed t) → (l.orderResults t = none) → (l' = l.getAccountInfoMut t.source id) → Ordered l e t l'
  | declined {l₁ : LedgerState} {accounts : Accounts} :
      (∀ p, l.marketPrecision t.marketId = .ok p →
        ∃ c, l.spotClearinghouse.handleOrder (t.toOrder e.nextId) p = .ok (c, none)) →
      (l.orderResults t = none) → (Created t (l.getAccountInfoMut t.source id) (t.toOrder e.nextId) l₁) →
      (l₁.SameHistory l') → (SameBalances e.accounts accounts) → (l'.Shows { e.enter t with accounts }) →
      Ordered l e t l'
  | rested {l₁ : LedgerState} {o : LimitOrder} {market : SpotMarket} {accounts : Accounts} {r : ExecutionResults} :
      (l.orderResults t = some r) → (Created t (l.getAccountInfoMut t.source id) (t.toOrder e.nextId) l₁) →
      (l₁.SameHistory l') → (t.marketId = 0) → (crossesOwnOrder (e.openOrders t.source) t = false) →
      (t.toOrder e.nextId = .limit o) → (Rested e.market .supeUsd o e.accounts market accounts r) →
      (l'.Shows { e.enter t with market, accounts }) → Ordered l e t l'
  | matched {l₁ l₂ : LedgerState} {c : SpotClearingHouse} {market : SpotMarket} {accounts : Accounts}
      {r : ExecutionResults} :
      (l.orderResults t = some r) → (Created t (l.getAccountInfoMut t.source id) (t.toOrder e.nextId) l₁) →
      ({ l₁ with spotClearinghouse := c }.recordResults t.source (t.toOrder e.nextId) (some r) = .ok l₂) →
      (l₂.SameHistory l') → (t.marketId = 0) → (crossesOwnOrder (e.openOrders t.source) t = false) →
      (Matched e.market .supeUsd (t.toOrder e.nextId) e.accounts market accounts r) →
      (l'.Shows { e.enter t with market, accounts, openOrders := l₂.openOrders }) → Ordered l e t l'

end LedgerState

namespace LedgerState.Shows

open Exchange

variable {l l' : LedgerState} {e : Exchange} {n : Option (PublicKeyHash × Nat)}

-- Creating an entry for an account or counting its nonce changes nothing here.
theorem getAccountInfoMut (h : l.Shows e) (k : PublicKeyHash) (f : AccountInfo → AccountInfo)
    (hf : ∀ i, (f i).openOrders = i.openOrders) : (l.getAccountInfoMut k f).Shows e := by
  refine { h with openOrders := ?_ }
  rw [← h.openOrders]
  funext k'
  simp only [LedgerState.openOrders, getAccountInfoMut_info]
  split
  case isTrue he => rw [he, hf]
  case isFalse   => rfl

theorem touch (h : l.Shows e) (k : PublicKeyHash) : (l.getAccountInfoMut k id).Shows e :=
  h.getAccountInfoMut k id fun _ => rfl

theorem setOpenOrders (h : l.Shows e) (k : PublicKeyHash) (f : AccountInfo → AccountInfo) {os : List LimitOrder}
    (hf : ∀ i, (f i).openOrders = os) :
    (l.getAccountInfoMut k f).Shows { e with openOrders := fun k' => if k' = k then os else e.openOrders k' } := by
  refine { h with openOrders := ?_ }
  rw [← h.openOrders]
  funext k'
  simp only [LedgerState.openOrders, getAccountInfoMut_info]
  split
  case isTrue  => rw [hf]
  case isFalse => rfl

theorem bumpNonce (h : l.Shows e) {k : PublicKeyHash} {nonce : Nat} (hb : l.bumpNonce k = .ok (l', nonce)) :
    l'.Shows e := by
  have ⟨_, _, hl⟩ := bumpNonce_cases hb
  exact hl ▸ h.getAccountInfoMut k _ fun _ => rfl

theorem setClearinghouseAccounts (h : l.Shows e) (accounts : Accounts) :
    (l.setClearinghouseAccounts accounts).Shows { e with accounts } :=
  { h with accounts := rfl }

theorem setClearinghouse (h : l.Shows e) {c : SpotClearingHouse} {market : SpotMarket} (hm : c.markets = [market])
    (hl : market.Listed) : { l with spotClearinghouse := c }.Shows { e with market, accounts := c.accounts } :=
  { h with markets := hm, listed := hl, accounts := rfl }

theorem record (h : l.Shows e) (hr : Recorded l l') : l'.Shows { e with openOrders := l'.openOrders } where
  assetManager := hr.assetManager.trans h.assetManager
  markets      := hr.spotClearinghouse ▸ h.markets
  listed       := h.listed
  nextId       := hr.orderManager ▸ h.nextId
  openOrders   := rfl
  accounts     := hr.spotClearinghouse ▸ h.accounts

theorem transfer (h : l.Shows e) {t t' : TransferTransaction}
    (ht : l.handleTransferTransaction t = .ok (l', t', n)) : ∃ e', e.Step (.transfer t) e' ∧ l'.Shows e' := by
  have same : SameBalances e.accounts (l.spotClearinghouse.accounts.getAccountBalanceMut t.source) := by
    intro k a
    rw [getAccountBalanceMut_balance, h.accounts]
  have h₀ := h.touch t.source
  have h₁ := h₀.setClearinghouseAccounts (l.spotClearinghouse.accounts.getAccountBalanceMut t.source)
  rcases handleTransferTransaction_cases ht with ⟨_, hl, _⟩ | ⟨_, _, hl, _⟩ | ⟨_, _, _, nonce, _, hc⟩
  · exact ⟨e, .idle fun _ _ => rfl, hl ▸ h₀⟩
  · exact ⟨_, .idle same, hl ▸ h₁⟩
  · have ⟨_, _, accounts₁, accounts₂, hdebit, hcredit, hl⟩ := commitTransferTransaction_cases hc
    subst hl
    have h₂ := (h₁.touch t.target).getAccountInfoMut t.source ({ · with expectedNonce := nonce }) fun _ => rfl
    exact ⟨_, .transfer same hdebit hcredit, h₂.setClearinghouseAccounts accounts₂⟩

theorem market_eq (h : l.Shows e) {m : SpotMarket} {id : MarketId}
    (hm : l.spotClearinghouse.markets[id]? = some m) : id = 0 ∧ m = e.market := by
  rw [h.markets] at hm
  cases id
  case zero => exact ⟨rfl, (Option.some.inj hm).symm⟩
  case succ => simp at hm

theorem created (h : l.Shows e) {t : OrderTransaction} (hc : Created t l (t.toOrder e.nextId) l') :
    l'.openOrders = (e.enter t).openOrders := by
  funext k
  rw [hc.openOrders, h.openOrders]
  rfl

theorem createOrder (h : l.Shows e) {t : OrderTransaction} {order : Order}
    (hc : l.createOrder t = .ok (l', order)) : l'.Shows (e.enter t) ∧ order = t.toOrder e.nextId := by
  have created := createOrder_created hc
  have ho : order = t.toOrder e.nextId := created.placed.trans (by rw [h.nextId])
  subst ho
  refine ⟨⟨?_, ?_, h.listed, ?_, h.created created, ?_⟩, rfl⟩
  · rw [created.assetManager]; exact h.assetManager
  · rw [created.spotClearinghouse]; exact h.markets
  · rw [created.nextId, h.nextId]; rfl
  · rw [created.spotClearinghouse]; exact h.accounts

theorem ordered (h : l.Shows e) {t t' : OrderTransaction} (ht : l.handleOrderTransaction t = .ok (l', t', n)) :
    Ordered l e t l' := by
  cases handleOrderTransaction_cases ht
  case inl hr =>
    have ⟨hplaced, hl, _⟩ := hr
    exact .rejected hplaced (if_neg hplaced) hl
  case inr hp =>
    have ⟨placed, l₁, order, hcreate, hrest⟩ := hp
    have created := createOrder_created hcreate
    have ⟨h₁, ho⟩ := (h.touch t.source).createOrder hcreate
    subst ho
    have hcross : crossesOwnOrder (e.openOrders t.source) t = false := h.openOrders ▸ placed.2
    have hclearing : l₁.spotClearinghouse = l.spotClearinghouse := created.spotClearinghouse
    have hprecision : l₁.marketPrecision t.marketId = l.marketPrecision t.marketId := by
      rw [LedgerState.marketPrecision, LedgerState.marketPrecision, created.assetManager, hclearing]
      rfl
    cases hrest
    case inl he =>
      have ⟨err, herr, hl, _⟩ := he
      subst hl
      rw [hprecision] at herr
      refine .declined (by simp [herr]) ?_ created ⟨rfl, rfl⟩ (fun _ _ => rfl) h₁
      rw [orderResults, if_pos placed, herr]
    case inr he =>
      have ⟨precision, c, r, l₂, nonce, hprec, hhandle, hrecord, hbump, _⟩ := he
      have ⟨hzero, hsupe⟩ := h₁.marketPrecision hprec
      subst hsupe
      have hresults : l.orderResults t = r := by
        rw [hclearing, ← h.nextId] at hhandle
        rw [orderResults, if_pos placed, ← hprecision, hprec]
        simp only [hhandle]
      have hhistory := SameHistory.bumpNonce hbump
      cases handleOrder_cases hhandle
      case inl hd =>
        have ⟨hr, hdeclined⟩ := hd
        subst hr
        cases hrecord
        rw [hprecision] at hprec
        rw [hclearing] at hhandle
        refine .declined (by simp [hprec, hhandle]) hresults created (.trans (.setClearinghouse l₁ c) hhistory)
          (fun k a => ?_)
          ((h₁.setClearinghouse (hdeclined.markets.trans h₁.markets) h.listed).bumpNonce hbump)
        exact (hdeclined.balance k a).trans (by rw [h₁.accounts]; rfl)
      case inr hs =>
        have ⟨m, m', results, hm, hm', hr, hcase⟩ := hs
        have ⟨hid, hmarket⟩ := h₁.market_eq hm
        subst hr hmarket
        have hmarkets : c.markets = [m'] := by
          rw [hm', hid, h₁.markets]
          rfl
        have haccounts : l₁.spotClearinghouse.accounts = e.accounts := h₁.accounts
        rw [haccounts] at hcase
        cases hcase
        case inl hrest =>
          have ⟨o, ho, rested⟩ := hrest
          have hr := rested.results
          subst hr
          simp only [recordResults, recordUserOrder, recordFilledOrders, recordResidual, List.foldlM_nil, pure_bind,
            Checked.pure_ok] at hrecord
          subst hrecord
          exact .rested hresults created (.trans (.setClearinghouse l₁ c) hhistory) hzero hcross ho rested
            ((h₁.setClearinghouse hmarkets (h.listed.addOrder rested.market)).bumpNonce hbump)
        case inr matched =>
          have h₂ := (h₁.setClearinghouse hmarkets (h.listed.afterMatch matched.market)).record
            (Recorded.relation.recordResults hrecord)
          exact .matched hresults created hrecord hhistory hzero hcross matched (h₂.bumpNonce hbump)

theorem order (h : l.Shows e) {t t' : OrderTransaction}
    (ht : l.handleOrderTransaction t = .ok (l', t', n)) : ∃ e', e.Step (.order t) e' ∧ l'.Shows e' := by
  cases h.ordered ht
  case rejected hl                            => exact ⟨e, .idle fun _ _ => rfl, hl ▸ h.touch t.source⟩
  case declined hsame h'                      => exact ⟨_, .declined hsame, h'⟩
  case rested hzero hcross ho rested h'       => exact ⟨_, .rested hzero hcross ho rested, h'⟩
  case matched l₁ _ c _ _ _ _ created hrecord _ hzero hcross matched h' =>
    have hopen := (h.touch t.source).created created
    exact ⟨_, .matched hzero hcross matched ⟨{ l₁ with spotClearinghouse := c }, _, hopen, hrecord, rfl⟩, h'⟩

theorem cancel (h : l.Shows e) {t t' : CancelOrderTransaction}
    (ht : l.handleCancelOrderTransaction t = .ok (l', t', n)) : ∃ e', e.Step (.cancelOrder t) e' ∧ l'.Shows e' := by
  cases handleCancelOrderTransaction_cases ht
  case inl hr =>
    have ⟨hl, _⟩ := hr
    exact ⟨e, .idle fun _ _ => rfl, hl ▸ h⟩
  case inr hc =>
    have ⟨_, order, precision, c, cancelled, l₁, nonce, hopen, hprecision, hcancel, hl₁, hbump, _⟩ := hc
    have ⟨_, hp⟩ := h.marketPrecision hprecision
    subst hp
    have hid : order.common.id = t.orderId := by simpa using List.find?_some hopen
    cases cancelOrder_cases hcancel
    case inl hd =>
      have ⟨hfalse, _, hdeclined⟩ := hd
      subst hfalse
      cases hl₁
      refine ⟨_, .idle fun k a => ?_,
        (h.setClearinghouse (hdeclined.markets.trans h.markets) h.listed).bumpNonce hbump⟩
      rw [hdeclined.balance, h.accounts]
    case inr hs =>
      have ⟨htrue, m, m', unfilled, hm, hm', hcancelled, hlocked⟩ := hs
      have ⟨hzero, hmarket⟩ := h.market_eq hm
      subst htrue hmarket
      have ⟨pre, post, hsplit, hpre, hl₁⟩ := hl₁
      subst hl₁
      have hmarkets : c.markets = [m'] := by
        rw [hm', hzero, h.markets]
        rfl
      have h₁ := (h.setClearinghouse hmarkets (h.listed.cancelOrder hcancelled)).setOpenOrders t.source
        (fun i => { i with openOrders := pre ++ post, completedOrders := i.completedOrders ++ [.limit order] })
        fun _ => rfl
      rw [h.accounts, h.listed.baseAsset, h.listed.quoteAsset] at hlocked
      exact ⟨_, .cancelled (h.openOrders ▸ hsplit) hpre hid hcancelled hlocked, h₁.bumpNonce hbump⟩

theorem step (h : l.Shows e) {t t' : SignedTransaction} (ht : l.applyTransaction t = .ok (l', t', n)) :
    ∃ e', e.Step t.tx e' ∧ l'.Shows e' := by
  rcases applyTransaction_cases ht with ⟨_, _, htx, _, hx⟩ | ⟨_, _, htx, _, hx⟩ | ⟨_, _, htx, _, hx⟩
  · exact htx ▸ h.transfer hx
  · exact htx ▸ h.order hx
  · exact htx ▸ h.cancel hx

end LedgerState.Shows

namespace LedgerState

-- A ledger shows one exchange.
theorem Shows.unique {l : LedgerState} {e e' : Exchange} (h : l.Shows e) (h' : l.Shows e') : e = e' := by
  have hm := h.markets.symm.trans h'.markets
  have hn := h.nextId.symm.trans h'.nextId
  have ho := h.openOrders.symm.trans h'.openOrders
  have ha := h.accounts.symm.trans h'.accounts
  cases e
  cases e'
  simp_all

-- The ledger after one transaction.
def next (l : LedgerState) (t : SignedTransaction) : Checked LedgerState :=
  Prod.fst <$> l.applyTransaction t

def Reachable (faucet : PublicKeyHash) (l : LedgerState) : Prop :=
  ∃ ts ts' ns, (new faucet).apply ts = .ok (l, ts', ns)

variable {l l' : LedgerState} {e : Exchange} {ts ts' : List SignedTransaction}
         {ns : List (Option (PublicKeyHash × Nat))}

theorem Reachable.of_apply {faucet : PublicKeyHash} (h : (new faucet).apply ts = .ok (l, ts', ns)) :
    l.Reachable faucet :=
  ⟨ts, ts', ns, h⟩

theorem next_ok {t : SignedTransaction} : l.next t = .ok l' ↔ ∃ t' n, l.applyTransaction t = .ok (l', t', n) := by
  rw [next, Checked.map_ok]
  constructor
  · rintro ⟨⟨_, t', n⟩, hx, rfl⟩
    exact ⟨t', n, hx⟩
  · rintro ⟨t', n, hx⟩
    exact ⟨_, hx, rfl⟩

theorem foldlM_of_apply (h : l.apply ts = .ok (l', ts', ns)) : ts.foldlM next l = .ok l' := by
  induction ts generalizing l ts' ns
  case nil => cases h; rfl
  case cons t ts hi =>
    have ⟨l₁, t', n, ts'', ns', ht, hts, _⟩ := apply_cons h
    simp only [List.foldlM_cons, Checked.bind_ok]
    exact ⟨l₁, next_ok.mpr ⟨t', n, ht⟩, hi hts⟩

-- What every step keeps under a condition holds at the end of a run that meets it.
theorem Shows.invariant {I : Exchange → Prop} {cond : LedgerState → SignedTransaction → Prop} (h : l.Shows e)
    (hI : I e) (hrun : l.apply ts = .ok (l', ts', ns)) (hc : Meets next cond l ts)
    (hstep : ∀ {l e t e'}, l.Shows e → cond l t → e.Step t.tx e' → I e → I e') : ∃ e', l'.Shows e' ∧ I e' := by
  have hsteps := Steps.of_foldlM (foldlM_of_apply hrun) hc
  refine hsteps.invariant (I := fun l => ∃ e, l.Shows e ∧ I e) ⟨e, h, hI⟩ ?_
  rintro l t l' ⟨hcond, ht⟩ ⟨e, h, hI⟩
  have ⟨t', n, hx⟩ := next_ok.mp ht
  have ⟨e', hs, h'⟩ := h.step hx
  exact ⟨e', h', hstep h hcond hs hI⟩

end LedgerState

def Exchange.new (faucet : PublicKeyHash) : Exchange where
  market := .supeUsd
  nextId := 0
  openOrders _ := []
  accounts := (SpotClearingHouse.new.addFaucetAccount faucet).accounts

theorem LedgerState.Shows.new {faucet : PublicKeyHash} : (LedgerState.new faucet).Shows (.new faucet) where
  assetManager := rfl
  markets      := rfl
  listed       := ⟨rfl, rfl, rfl, rfl⟩
  nextId       := rfl
  openOrders   := by funext k; rw [LedgerState.openOrders, new_info]; rfl
  accounts     := rfl

theorem LedgerState.Reachable.invariant {I : Exchange → Prop} {faucet : PublicKeyHash} {l : LedgerState}
    (h : l.Reachable faucet) (hI : I (.new faucet)) (hstep : ∀ {e tx e'}, e.Step tx e' → I e → I e') :
    ∃ e, l.Shows e ∧ I e := by
  have ⟨_, _, _, hrun⟩ := h
  exact Shows.new.invariant hI hrun .trivial fun _ _ hs => hstep hs

-- All markets of a ledger have the same precision, as there is only one.
theorem LedgerState.Reachable.marketPrecision {faucet : PublicKeyHash} {l : LedgerState} (h : l.Reachable faucet)
    {id : MarketId} {precision : MarketPrecision} (hp : l.marketPrecision id = .ok precision) :
    precision = .supeUsd := by
  have ⟨_, shows, _⟩ := h.invariant (I := fun _ => True) trivial fun _ _ => trivial
  exact (shows.marketPrecision hp).2

-- A limit order starts with nothing filled.
theorem OrderTransaction.toOrder_limit {t : OrderTransaction} {id : Nat} {o : LimitOrder}
    (h : t.toOrder id = .limit o) :
    ∃ price size, t.orderType = .limit price size ∧ o = {
      common := { id, marketId := t.marketId, status := .open, account := t.source, direction := t.direction }
      priceMultiple := price, baseLots := size, filledBaseLots := 0, selfFilled := 0 } := by
  unfold toOrder at h
  cases ht : t.orderType <;> simp only [ht] at h
  case limit price size => exact ⟨price, size, rfl, (Order.limit.inj h).symm⟩
  case market           => cases hd : t.direction <;> simp [hd] at h

theorem OrderTransaction.toOrder_id {t : OrderTransaction} {id : Nat} {o : LimitOrder}
    (h : t.toOrder id = .limit o) : o.common.id = id := by
  have ⟨_, _, _, ho⟩ := toOrder_limit h
  rw [ho]

namespace Exchange

def Sound (e : Exchange) : Prop :=
  e.market.Sound e.nextId

theorem Sound.new {faucet : PublicKeyHash} : (Exchange.new faucet).Sound where
  sorted d := by cases d <;> exact .nil
  levels d := by cases d <;> simp [Exchange.new, SpotMarket.supeUsd, SpotMarket.new, SpotMarket.side]
  nodup    := .nil
  fresh    := by simp [Exchange.new, SpotMarket.supeUsd, SpotMarket.new, SpotMarket.orders, sideOrders]

theorem Sound.step {e e' : Exchange} {tx : UnsignedTransaction} (hs : e.Step tx e') (h : e.Sound) : e'.Sound := by
  cases hs
  case idle                            => exact h
  case transfer                        => exact h
  case declined                        => exact h.mono (Nat.le_succ _)
  case rested hcross ho rested         =>
    exact SpotMarket.Sound.addOrder h (OrderTransaction.toOrder_id ho) rested.market
  case matched hcross matched _        =>
    exact SpotMarket.Sound.afterMatch h (fun _ ho => OrderTransaction.toOrder_id ho) matched.market
  case cancelled hopen _ _ hcancel _   => exact SpotMarket.Sound.cancelOrder h hcancel

-- What holds of every new limit order, however much of it is filled on arrival, and survives a fill that
-- leaves something, holds of all live orders.
theorem Step.forall_live {e e' : Exchange} {tx : UnsignedTransaction} {P : LimitOrder → Prop} (hs : e.Step tx e')
    (hsound : e.Sound) (h : ∀ o ∈ liveOrders e.market.orders, P o)
    (hnew : ∀ {t o filled}, tx = .order t → t.marketId = 0 → t.toOrder e.nextId = .limit o →
      (filled = 0 ∨ filled < o.baseLots) → P { o with filledBaseLots := filled })
    (hpart : ∀ {own : LimitOrder → Bool} {f : Fill}, f.lots < f.order.remaining → P f.order → P (f.after own)) :
    ∀ o ∈ liveOrders e'.market.orders, P o := by
  cases hs
  case idle     => exact h
  case transfer => exact h
  case declined => exact h
  case rested o _ _ _ hzero _ ho rested =>
    intro x hx
    obtain ⟨hx, live⟩ := mem_liveOrders.mp hx
    cases List.mem_cons.mp ((addOrder_orders rested.market).mem_iff.mp hx)
    case inr hx => exact h x (mem_liveOrders.mpr ⟨hx, live⟩)
    case inl he =>
      obtain ⟨_, _, _, heq⟩ := OrderTransaction.toOrder_limit ho
      have hfilled : o = { o with filledBaseLots := 0 } := by rw [heq]
      rw [he, hfilled]
      exact hnew rfl hzero ho (.inl rfl)
  case matched t _ _ _ _ hzero _ matched _ =>
    obtain ⟨rest, hbefore, hafter⟩ := e.market.sweep_live .supeUsd (t.toOrder e.nextId)
    intro x hx
    obtain ⟨hx, live⟩ := mem_liveOrders.mp hx
    cases List.mem_append.mp (matched.market.orders.mem_iff.mp hx)
    case inl hleft =>
      cases ho : t.toOrder e.nextId
      case market => simp [ho, leftover] at hleft
      case limit o =>
        simp only [ho, leftover, List.mem_ite_nil_right, List.mem_singleton] at hleft
        exact hleft.2 ▸ hnew rfl hzero ho (.inr hleft.1)
    case inr hstay =>
      cases List.mem_append.mp (hafter.mem_iff.mp (mem_liveOrders.mpr ⟨hstay, live⟩))
      case inr hrest => exact h x (hbefore.mem_iff.mpr (List.mem_append_right _ hrest))
      case inl hpartly =>
        obtain ⟨f, hf, he⟩ := List.mem_map.mp hpartly
        obtain ⟨hmem, hp⟩ := List.mem_filter.mp hf
        have hlt : f.lots < f.order.remaining := by simpa [Fill.Whole] using hp
        exact he ▸ hpart hlt (h f.order (hbefore.mem_iff.mpr (List.mem_append_left _ (List.mem_map_of_mem hmem))))
  case cancelled hcancel _ =>
    intro x hx
    cases cancelOrder_live hsound hcancel
    case inl hm => exact h x (hm.1 ▸ hx)
    case inr hm =>
      obtain ⟨_, _, _, _, hperm, _⟩ := hm
      exact h x (hperm.mem_iff.mpr (List.mem_cons_of_mem _ (List.mem_append_right _ hx)))

end Exchange

-- A book as its operations expect it: both sides sorted, the orders of a level in the order of their ids,
-- and no id used twice. The searches of a cancellation find every live order.
structure SpotMarket.Represented (m : SpotMarket) : Prop where
  bids   : (m.bidsLevels.map Level.price).Pairwise (· < ·)
  asks   : (m.asksLevels.map Level.price).Pairwise (· > ·)
  levels : ∀ d, ∀ level ∈ m.side d, level.Sound d
  nodup  : (orderIds m.orders).Nodup
  found  : ∀ d, ∀ level ∈ m.side d, ∀ o ∈ level.orders, o.IsLive → ∃ i j,
    Search.search (probeLevel o.priceMultiple d.cmp) (m.side d) = .found i ∧ (m.side d)[i]? = some level ∧
    Search.search (probeOrder o.common.id) level.orders = .found j ∧ level.orders[j]? = some o

theorem SpotMarket.Sound.represented {m : SpotMarket} {n : Nat} (h : m.Sound n) : m.Represented where
  bids   := (h.sorted .buy).imp Nat.compare_eq_lt.mp
  asks   := (h.sorted .sell).imp Nat.compare_eq_lt.mp
  levels := h.levels
  nodup  := h.nodup
  found  := by
    intro d level hl o ho _
    have ⟨i, hs, hi⟩ := h.search_level hl ho
    have ⟨j, hs', hj⟩ := h.search_order hl ho
    exact ⟨i, j, hs, hi, hs', hj⟩

theorem sound_of_reachable {faucet : PublicKeyHash} {l : LedgerState} {m : SpotMarket} (h : l.Reachable faucet)
    (hm : m ∈ l.spotClearinghouse.markets) : m.Sound l.orderManager.nextId := by
  have ⟨e, hshows, hsound⟩ := h.invariant Exchange.Sound.new Exchange.Sound.step
  rw [hshows.markets, List.mem_singleton] at hm
  rw [hm, hshows.nextId]
  exact hsound

theorem represented_of_reachable {faucet : PublicKeyHash} {l : LedgerState} {m : SpotMarket}
    (h : l.Reachable faucet) (hm : m ∈ l.spotClearinghouse.markets) : m.Represented :=
  (sound_of_reachable h hm).represented

-- Two accounts trade at three prices, and an order is cancelled.
def threePrices : List SignedTransaction := [
  .transfer 1 7 0 5000 0,
  .transfer 1 8 1 5000 1,
  .limit 7 .sell 20 5 0,
  .limit 7 .sell 30 5 1,
  .limit 7 .sell 20 4 2,
  .limit 8 .buy 10 5 0,
  .cancel 7 0 3,
  .limit 8 .buy 20 3 1
]

theorem threePrices_represented : ∃ l ts ns m, (LedgerState.new 1).apply threePrices = .ok (l, ts, ns) ∧
    l.spotClearinghouse.markets = [m] ∧ m.bidsLevels.map Level.price = [10] ∧
    m.asksLevels.map Level.price = [30, 20] ∧ m.Represented := by
  refine ⟨_, _, _, _, rfl, rfl, rfl, rfl, ?_⟩
  have h := Reachable.of_apply (rfl : (LedgerState.new 1).apply threePrices = .ok _)
  exact represented_of_reachable h (List.mem_singleton_self _)

end Superliquid

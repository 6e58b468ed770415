import Superliquid.State.Query
import Superliquid.State.Theorems.Coverage

namespace Superliquid

open SpotClearingHouse

-- The accounts that have balances afterwards are those of before and some others.
def Accounts.Gains (accounts : Accounts) (ks : Set PublicKeyHash) (accounts' : Accounts) : Prop :=
  ∀ k, k ∈ accounts' ↔ k ∈ accounts ∨ k ∈ ks

namespace Accounts.Gains

variable {accounts accounts' accounts₁ accounts₂ accounts₃ : Accounts} {k : PublicKeyHash} {asset : AssetId}
         {ks ks₁ ks₂ : Set PublicKeyHash} {precision : MarketPrecision}

theorem trans (h₁ : Gains accounts₁ ks₁ accounts₂) (h₂ : Gains accounts₂ ks₂ accounts₃) :
    Gains accounts₁ (ks₁ ∪ ks₂) accounts₃ := by
  intro k
  rw [h₂ k, h₁ k, Set.mem_union, or_assoc]

theorem twice (h₁ : Gains accounts₁ ks accounts₂) (h₂ : Gains accounts₂ ks accounts₃) :
    Gains accounts₁ ks accounts₃ :=
  Set.union_self ks ▸ h₁.trans h₂

theorem insert {b : AccountBalance} : Gains accounts {k} (accounts.insert k b) := by
  intro k'
  rw [AList.mem_insert, Set.mem_singleton_iff, or_comm]

theorem getAccountBalanceMut : Gains accounts {k} (accounts.getAccountBalanceMut k) :=
  insert

theorem getAccountTokenBalanceMut {f : AccountTokenBalance → Checked AccountTokenBalance}
    (h : accounts.getAccountTokenBalanceMut k asset f = .ok accounts') : Gains accounts {k} accounts' := by
  simp only [Accounts.getAccountTokenBalanceMut, Checked.bind_ok, Checked.pure_ok] at h
  obtain ⟨_, _, rfl⟩ := h
  exact insert

theorem reserve {amount : Nat} {enough : Bool} (h : accounts.reserve k asset amount = .ok (accounts', enough)) :
    Gains accounts {k} accounts' := by
  unfold Accounts.reserve at h
  split at h
  all_goals
    simp only [Checked.bind_ok, Checked.pure_ok, Prod.mk.injEq] at h
    obtain ⟨_, hm, rfl, _⟩ := h
    exact getAccountTokenBalanceMut hm

theorem debitTransfer {delta : AssetDelta} (h : LedgerState.debitTransfer accounts delta = .ok accounts') :
    Gains accounts {delta.account} accounts' := by
  simp only [LedgerState.debitTransfer, Checked.bind_ok, Checked.pure_ok] at h
  obtain ⟨_, _, _, _, rfl⟩ := h
  exact insert

section Settle

variable {isBuy : Bool} {baseAsset quoteAsset : AssetId} {price lots : Nat}

theorem settleLimitMaker
    (h : settleLimitMaker isBuy baseAsset quoteAsset precision accounts k price lots = .ok accounts') :
    Gains accounts {k} accounts' := by
  simp only [SpotClearingHouse.settleLimitMaker, Checked.bind_ok] at h
  obtain ⟨_, _, _, _, _, _, h⟩ := h
  split at h
  all_goals
    obtain ⟨_, h₁, h₂⟩ := Checked.bind_ok.mp h
    exact (getAccountTokenBalanceMut h₁).twice (getAccountTokenBalanceMut h₂)

theorem settleSellMaker (h : settleSellMaker baseAsset quoteAsset precision accounts k price lots = .ok accounts') :
    Gains accounts {k} accounts' := by
  simp only [SpotClearingHouse.settleSellMaker, Checked.bind_ok] at h
  obtain ⟨_, _, _, h₁, _, _, _, _, h₂⟩ := h
  exact (getAccountTokenBalanceMut h₁).twice (getAccountTokenBalanceMut h₂)

theorem settleBuyMaker (h : settleBuyMaker baseAsset quoteAsset precision accounts k price lots = .ok accounts') :
    Gains accounts {k} accounts' := by
  simp only [SpotClearingHouse.settleBuyMaker, Checked.bind_ok] at h
  obtain ⟨_, _, _, h₁, _, _, _, _, h₂⟩ := h
  exact (getAccountTokenBalanceMut h₁).twice (getAccountTokenBalanceMut h₂)

theorem settleMakers {settle : Accounts → PublicKeyHash → Nat → Nat → Checked Accounts}
    {filled : List LimitOrder} {residual : Option ResidualOrder}
    (hsettle : ∀ {accounts k price lots accounts'}, settle accounts k price lots = .ok accounts' →
      Gains accounts {k} accounts')
    (h : settleMakers settle accounts filled residual = .ok accounts') :
    Gains accounts { k | ∃ m ∈ makers filled residual, m.account = k } accounts' := by
  replace h := settleMakers_eq h
  generalize makers filled residual = ms at h
  induction ms generalizing accounts
  case nil =>
    cases h
    simp [Gains]
  case cons m ms hi =>
    simp only [List.foldlM_cons, Checked.bind_ok] at h
    obtain ⟨accounts₁, h₁, h⟩ := h
    intro k
    rw [(hsettle h₁).trans (hi h) k]
    simp [eq_comm]

end Settle

-- An account with an order, and those that are settled with.
def involved (account : PublicKeyHash) : Option ExecutionResults → Set PublicKeyHash
  | none   => {account}
  | some r => {account} ∪ { k | ∃ m ∈ makers r.filledOrders r.residualOrder, m.account = k }

variable {c c' : SpotClearingHouse} {r : Option ExecutionResults}

theorem handleLimitOrder {o : LimitOrder} (h : c.handleLimitOrder o precision = .ok (c', r)) :
    Gains c.accounts (involved o.common.account r) c'.accounts := by
  cases hm : c.markets[o.common.marketId]?
  case none =>
    simp only [SpotClearingHouse.handleLimitOrder, hm] at h
    cases h
    exact getAccountBalanceMut
  case some m =>
    obtain ⟨accounts₁, enough, hreserve, h⟩ := handleLimitOrder_eq hm h
    have h₁ := getAccountBalanceMut.twice (reserve hreserve)
    cases enough
    case false => cases h; exact h₁
    case true =>
      simp only [if_true, settleLimit, Checked.bind_ok, Prod.exists] at h
      obtain ⟨m', results, _, h⟩ := h
      cases results
      case none =>
        cases h
        simpa [involved, makers] using h₁
      case some result =>
        simp only [Checked.bind_ok] at h
        obtain ⟨_, _, _, hout, _, _, _, hin, _, hmakers, _, _, h⟩ := h
        have h₂ := (h₁.twice (getAccountTokenBalanceMut hout)).twice (getAccountTokenBalanceMut hin)
        have h₃ := h₂.trans (settleMakers settleLimitMaker hmakers)
        split at h
        all_goals
          obtain ⟨_, _, h⟩ := Checked.bind_ok.mp h
          cases h
          exact h₃

theorem lockMarketOrder {m : SpotMarket} {o : MarketOrder} {lock : Option Nat}
    (h : lockMarketOrder accounts m o precision = .ok (accounts', lock)) : Gains accounts {o.getAccount} accounts' := by
  cases o
  all_goals
    simp only [SpotClearingHouse.lockMarketOrder, Checked.bind_ok, Checked.pure_ok, Prod.exists, Prod.mk.injEq] at h
  case sell =>
    obtain ⟨_, _, _, _, hreserve, rfl, _⟩ := h
    exact reserve hreserve
  case buy =>
    obtain ⟨_, _, _, hm, rfl, _⟩ := h
    exact getAccountTokenBalanceMut hm

theorem handleMarketOrder {id : MarketId} {o : MarketOrder} (h : c.handleMarketOrder id o precision = .ok (c', r)) :
    Gains c.accounts (involved o.getAccount r) c'.accounts := by
  cases hm : c.markets[id]? <;> simp only [SpotClearingHouse.handleMarketOrder, hm] at h
  case none =>
    cases h
    exact getAccountBalanceMut
  case some m =>
    simp only [Checked.bind_ok, Prod.exists] at h
    obtain ⟨accounts₁, lock, hlock, h⟩ := h
    have h₁ := getAccountBalanceMut.twice (lockMarketOrder hlock)
    cases lock
    case none => cases h; exact h₁
    case some lock =>
      simp only [Checked.bind_ok, Prod.exists] at h
      obtain ⟨_, results, _, h⟩ := h
      cases results
      all_goals
        simp only [settleMarketSell, settleMarketBuy, Checked.bind_ok, Checked.pure_ok, Prod.exists, Prod.mk.injEq] at h
        obtain ⟨_, _, ⟨_, _, _, hout, _, _, _, hin, _, hmakers, rfl, rfl⟩, rfl, rfl⟩ := h
        have h₂ := (h₁.twice (getAccountTokenBalanceMut hout)).twice (getAccountTokenBalanceMut hin)
      case sell => exact h₂.trans (settleMakers settleSellMaker hmakers)
      case buy  => exact h₂.trans (settleMakers settleBuyMaker hmakers)

theorem handleOrder {order : Order} (h : c.handleOrder order precision = .ok (c', r)) :
    Gains c.accounts (involved order.getAccount r) c'.accounts := by
  cases order
  case limit  => exact handleLimitOrder h
  case market o =>
    have h' := handleMarketOrder h
    cases o
    case buy  => exact h'
    case sell => exact h'

theorem cancelOrder {o : LimitOrder} {cancelled : Bool} (h : c.cancelOrder o precision = .ok (c', cancelled)) :
    Gains c.accounts {o.common.account} c'.accounts := by
  cases hm : c.markets[o.common.marketId]? <;> simp only [SpotClearingHouse.cancelOrder, hm] at h
  case none =>
    cases h
    exact getAccountBalanceMut
  case some m =>
    simp only [Checked.bind_ok, Prod.exists] at h
    obtain ⟨_, _, _, h⟩ := h
    split at h
    all_goals simp only [Checked.bind_ok] at h
    case h_1 =>
      obtain ⟨_, _, _, _, _, hunlock, h⟩ := h
      cases h
      exact getAccountBalanceMut.twice (getAccountTokenBalanceMut hunlock)
    case h_2 =>
      obtain ⟨_, _, _, hunlock, h⟩ := h
      cases h
      exact getAccountBalanceMut.twice (getAccountTokenBalanceMut hunlock)

end Accounts.Gains

namespace SpotMarket

variable {m m' : SpotMarket} {precision : MarketPrecision} {order : Order}

-- The orders that a match takes from the book.
theorem drained_mem {o : LimitOrder} (h : o ∈ (m.sweep precision order).drained) :
    ∃ o₀ ∈ m.orders, o₀.common.account = o.common.account := by
  have hmem := (m.sweep_terms precision order).mem_iff.mpr (List.mem_append_left _ (List.mem_map_of_mem h))
  obtain ⟨o₀, ho₀, he⟩ := List.mem_map.mp hmem
  exact ⟨o₀, ho₀, (LimitOrder.eq_of_terms he).2.2.2⟩

theorem residual_mem {r : ResidualOrder} (h : (m.sweep precision order).residual = some r) :
    ∃ o₀ ∈ m.orders, o₀.common.account = r.accountPublicKey := by
  obtain ⟨f, hparts, rfl⟩ := (m.taken precision order).residual_some h
  have hf : f ∈ (m.sweep precision order).fills :=
    List.mem_of_mem_filter (show f ∈ parts (m.sweep precision order).fills by simp [hparts])
  obtain ⟨rest, hlive, _⟩ := m.sweep_live precision order
  have hmem := hlive.mem_iff.mpr (List.mem_append_left rest (List.mem_map_of_mem hf))
  exact ⟨f.order, (mem_liveOrders.mp hmem).1, rfl⟩

theorem makers_mem {maker : Maker}
    (h : maker ∈ makers (m.sweep precision order).drained (m.sweep precision order).residual) :
    ∃ o₀ ∈ m.orders, o₀.common.account = maker.account := by
  simp only [makers, List.mem_append, List.mem_map, Option.mem_toList, List.mem_filter] at h
  rcases h with ⟨o, ⟨ho, _⟩, rfl⟩ | ⟨r, hr, rfl⟩
  · exact drained_mem ho
  · exact residual_mem hr

-- What is in the book after a match was there before, or is what is left of the order.
theorem AfterMatch.mem {o : LimitOrder} (h : m.AfterMatch precision order m') (ho : o ∈ m'.orders) :
    o.common.account = order.getAccount ∨ ∃ o₀ ∈ m.orders, o₀.common.account = o.common.account := by
  cases List.mem_append.mp (h.orders.mem_iff.mp ho)
  case inl hleft =>
    cases order
    case market => simp [leftover] at hleft
    case limit =>
      simp only [leftover, List.mem_ite_nil_right, List.mem_singleton] at hleft
      exact .inl (hleft.2 ▸ rfl)
  case inr hmem =>
    have hmem := (m.sweep_terms precision order).mem_iff.mpr (List.mem_append_right _ (List.mem_map_of_mem hmem))
    obtain ⟨o₀, ho₀, he⟩ := List.mem_map.mp hmem
    exact .inr ⟨o₀, ho₀, (LimitOrder.eq_of_terms he).2.2.2⟩

theorem cancelOrder_mem {o order : LimitOrder} {unfilled : Nat} (h : m.cancelOrder order = .ok (m', unfilled))
    (ho : o ∈ m'.orders) : ∃ o₀ ∈ m.orders, o₀.common.account = o.common.account := by
  obtain ⟨levels, rfl, cancelled⟩ := cancelOrder_cancelled h
  obtain ⟨lost, hlost⟩ := (Shrinks.cancelled cancelled).orders
  have horders := m.orders_perm order.common.direction
  cases List.mem_append.mp (orders_setSide.mem_iff.mp ho)
  case inr hother => exact ⟨o, horders.mem_iff.mpr (List.mem_append_right _ hother), rfl⟩
  case inl hside =>
    have hmem := hlost.mem_iff.mpr (List.mem_append_left lost (List.mem_map_of_mem hside))
    obtain ⟨o₀, ho₀, he⟩ := List.mem_map.mp hmem
    exact ⟨o₀, horders.mem_iff.mpr (List.mem_append_left _ ho₀), (LimitOrder.eq_of_terms he).2.2.2⟩

end SpotMarket

namespace SpotClearingHouse

variable {c c' : SpotClearingHouse} {precision : MarketPrecision}

-- Every order in a book is of an account that has balances.
def Booked (c : SpotClearingHouse) : Prop :=
  ∀ m ∈ c.markets, ∀ o ∈ m.orders, o.common.account ∈ c.accounts

theorem Booked.set {id : MarketId} {m' : SpotMarket} (h : c.Booked) (hm : c'.markets = c.markets.set id m')
    (ha : ∀ k ∈ c.accounts, k ∈ c'.accounts) (hb : ∀ o ∈ m'.orders, o.common.account ∈ c'.accounts) : c'.Booked := by
  intro m hmem
  rw [hm] at hmem
  rcases List.mem_or_eq_of_mem_set hmem with hmem | rfl
  · exact fun o ho => ha _ (h m hmem o ho)
  · exact hb

-- With an order, no account gets balances but that of the order.
theorem Booked.handleOrder {order : Order} {r : Option ExecutionResults} (h : c.Booked)
    (hc : c.handleOrder order precision = .ok (c', r)) :
    c'.Booked ∧ c.accounts.Gains {order.getAccount} c'.accounts ∧
      ∀ results, r = some results → (∀ f ∈ results.filledOrders, f.common.account ∈ c.accounts) ∧
        ∀ residual, results.residualOrder = some residual → residual.accountPublicKey ∈ c.accounts := by
  have gains := Accounts.Gains.handleOrder hc
  rcases handleOrder_cases hc with ⟨rfl, hd⟩ | ⟨m, m', results, hm, hm', rfl, hcase⟩
  · refine ⟨fun m hmem o ho => ?_, gains, by simp⟩
    rw [hd.markets] at hmem
    exact (gains _).mpr (.inl (h m hmem o ho))
  · have hbook := h m (List.mem_of_getElem? hm)
    have kept (k) (hk : k ∈ c.accounts) : k ∈ c'.accounts := (gains k).mpr (.inl hk)
    have own : order.getAccount ∈ c'.accounts := (gains _).mpr (.inr (.inl rfl))
    rcases hcase with ⟨o, rfl, rested⟩ | matched
    · obtain rfl := rested.results
      refine ⟨h.set hm' kept fun x hx => ?_, by simpa [Accounts.Gains.involved, makers] using gains, by simp⟩
      rcases List.mem_cons.mp ((SpotMarket.addOrder_orders rested.market).mem_iff.mp hx) with rfl | hx
      · exact own
      · exact kept _ (hbook x hx)
    · have filled (f) (hf : f ∈ results.filledOrders) : f.common.account ∈ c.accounts := by
        obtain ⟨o₀, ho₀, he⟩ := SpotMarket.drained_mem (matched.filled ▸ hf)
        exact he ▸ hbook o₀ ho₀
      have residual (r) (hr : results.residualOrder = some r) : r.accountPublicKey ∈ c.accounts := by
        obtain ⟨o₀, ho₀, he⟩ := SpotMarket.residual_mem (matched.residual ▸ hr)
        exact he ▸ hbook o₀ ho₀
      refine ⟨h.set hm' kept fun x hx => ?_, fun k => ?_, ?_⟩
      · rcases matched.market.mem hx with he | ⟨o₀, ho₀, he⟩
        · exact he ▸ own
        · exact he ▸ kept _ (hbook o₀ ho₀)
      · rw [gains k]
        constructor
        · rintro (hk | hk | ⟨maker, hmaker, rfl⟩)
          · exact .inl hk
          · exact .inr hk
          · rw [matched.filled, matched.residual] at hmaker
            obtain ⟨o₀, ho₀, he⟩ := SpotMarket.makers_mem hmaker
            exact .inl (he ▸ hbook o₀ ho₀)
        · exact Or.imp_right .inl
      · rintro _ ⟨⟩
        exact ⟨filled, residual⟩

theorem Booked.cancelOrder {order : LimitOrder} {cancelled : Bool} (h : c.Booked)
    (hc : c.cancelOrder order precision = .ok (c', cancelled)) : c'.Booked := by
  have gains := Accounts.Gains.cancelOrder hc
  have kept (k) (hk : k ∈ c.accounts) : k ∈ c'.accounts := (gains k).mpr (.inl hk)
  rcases cancelOrder_cases hc with ⟨_, _, hd⟩ | ⟨_, m, m', _, hm, hm', hcancel, _⟩
  · intro m hmem o ho
    rw [hd.markets] at hmem
    exact kept _ (h m hmem o ho)
  · refine h.set hm' kept fun x hx => ?_
    obtain ⟨o₀, ho₀, he⟩ := SpotMarket.cancelOrder_mem hcancel hx
    exact he ▸ kept _ (h m (List.mem_of_getElem? hm) o₀ ho₀)

end SpotClearingHouse

namespace LedgerState

theorem Shows.marketPrecision_zero {l : LedgerState} {e : Exchange} (h : l.Shows e) :
    l.marketPrecision 0 = .ok .supeUsd := by
  simp only [LedgerState.marketPrecision, SpotClearingHouse.getQuoteBaseTickFromId, h.markets, h.assetManager,
    List.getElem?_cons_zero, Option.map_some, h.listed.baseAsset, h.listed.quoteAsset, h.listed.tick,
    h.listed.tickDecimals]
  rfl

-- An account without balances has done nothing but place orders in markets that do not exist.
structure Registered (l : LedgerState) : Prop where
  known   : ∀ k ∈ l.spotClearinghouse.accounts, k ∈ l.accounts
  booked  : l.spotClearinghouse.Booked
  unknown : ∀ k ∉ l.spotClearinghouse.accounts,
    l.expectedNonce k = 0 ∧ l.completedOrders k = [] ∧ ∀ o ∈ l.openOrders k, o.common.marketId ≠ 0

namespace Registered

variable {l l' : LedgerState} {k : PublicKeyHash} {n : Option (PublicKeyHash × Nat)}

theorem new {faucet : PublicKeyHash} : (LedgerState.new faucet).Registered where
  known k hk := by
    have gains : Accounts.Gains ∅ {faucet} (LedgerState.new faucet).spotClearinghouse.accounts := .insert
    rcases (gains k).mp hk with hk | rfl
    · exact absurd hk (by simp)
    · exact AList.mem_insert _ |>.mpr (.inl rfl)
  booked m hm o ho := by
    rw [show (LedgerState.new faucet).spotClearinghouse.markets = [.supeUsd] from rfl, List.mem_singleton] at hm
    subst hm
    simp [SpotMarket.supeUsd, SpotMarket.new, SpotMarket.orders, sideOrders] at ho
  unknown k _ := by simp [expectedNonce, completedOrders, openOrders, new_info, AccountInfo.new]

-- An account that has balances may be told anything.
theorem insert (h : l.Registered) (hk : k ∈ l.spotClearinghouse.accounts) (info : AccountInfo) :
    { l with accounts := l.accounts.insert k info }.Registered where
  known k' hk' := AList.mem_insert _ |>.mpr (.inr (h.known k' hk'))
  booked := h.booked
  unknown k' hk' := by
    have hne : k' ≠ k := by
      rintro rfl
      exact hk' hk
    have same : ({ l with accounts := l.accounts.insert k info } : LedgerState).getAccountInfoOrDefault k' =
        l.getAccountInfoOrDefault k' := by
      simp [getAccountInfoOrDefault, AList.lookup_insert_ne hne]
    simpa only [expectedNonce, completedOrders, openOrders, same] using h.unknown k' hk'

theorem touch (h : l.Registered) : (l.getAccountInfoMut k id).Registered where
  known k' hk' := AList.mem_insert _ |>.mpr (.inr (h.known k' hk'))
  booked := h.booked
  unknown k' hk' := by
    simpa only [expectedNonce, completedOrders, openOrders, getAccountInfoMut_id_info] using h.unknown k' hk'

-- Balances come into being only for accounts that the ledger knows.
theorem clear (h : l.Registered) {c : SpotClearingHouse} (hb : c.Booked) {ks : Set PublicKeyHash}
    (hg : l.spotClearinghouse.accounts.Gains ks c.accounts) (hks : ∀ k ∈ ks, k ∈ l.accounts) :
    { l with spotClearinghouse := c }.Registered where
  known k hk := by
    rcases (hg k).mp hk with hk | hk
    · exact h.known k hk
    · exact hks k hk
  booked := hb
  unknown k hk := h.unknown k fun hk' => hk ((hg k).mpr (.inl hk'))

theorem setAccounts (h : l.Registered) {accounts : Accounts} {ks : Set PublicKeyHash}
    (hg : l.spotClearinghouse.accounts.Gains ks accounts) (hks : ∀ k ∈ ks, k ∈ l.accounts) :
    (l.setClearinghouseAccounts accounts).Registered :=
  h.clear (fun m hm o ho => (hg _).mpr (.inl (h.booked m hm o ho))) hg hks

theorem updateAccount {f : AccountInfo → Checked AccountInfo} (h : l.Registered)
    (hk : k ∈ l.spotClearinghouse.accounts) (hu : l.updateAccount k f = .ok l') :
    l'.Registered ∧ l'.spotClearinghouse = l.spotClearinghouse := by
  obtain ⟨info, _, rfl, _⟩ := updateAccount_cases hu
  exact ⟨h.insert hk info, rfl⟩

theorem bumpNonce {nonce : Nat} (h : l.Registered) (hk : k ∈ l.spotClearinghouse.accounts)
    (hb : l.bumpNonce k = .ok (l', nonce)) : l'.Registered := by
  obtain ⟨_, _, rfl⟩ := bumpNonce_cases hb
  exact h.insert hk _

theorem recordFilledOrders {filled : List LimitOrder} (h : l.Registered)
    (hk : ∀ f ∈ filled, f.common.account ∈ l.spotClearinghouse.accounts) (hr : l.recordFilledOrders filled = .ok l') :
    l'.Registered ∧ l'.spotClearinghouse = l.spotClearinghouse := by
  unfold LedgerState.recordFilledOrders at hr
  induction filled generalizing l
  case nil => cases hr; exact ⟨h, rfl⟩
  case cons f filled hi =>
    simp only [List.foldlM_cons, Checked.bind_ok] at hr
    obtain ⟨l₁, hf, hr⟩ := hr
    obtain ⟨hf', hrest⟩ := List.forall_mem_cons.mp hk
    obtain ⟨h₁, hc₁⟩ := h.updateAccount hf' hf
    obtain ⟨h₂, hc₂⟩ := hi h₁ (hc₁ ▸ hrest) hr
    exact ⟨h₂, hc₂.trans hc₁⟩

theorem recordResults {order : Order} {r : Option ExecutionResults} (h : l.Registered)
    (hk : k ∈ l.spotClearinghouse.accounts)
    (hm : ∀ results, r = some results → (∀ f ∈ results.filledOrders, f.common.account ∈ l.spotClearinghouse.accounts) ∧
      ∀ residual, results.residualOrder = some residual → residual.accountPublicKey ∈ l.spotClearinghouse.accounts)
    (hr : l.recordResults k order r = .ok l') : l'.Registered ∧ l'.spotClearinghouse = l.spotClearinghouse := by
  cases r
  case none => cases hr; exact ⟨h, rfl⟩
  case some results =>
    obtain ⟨hfilled, hresidual⟩ := hm results rfl
    simp only [LedgerState.recordResults, Checked.bind_ok] at hr
    obtain ⟨l₁, huser, l₂, hf, hr⟩ := hr
    obtain ⟨h₁, hc₁⟩ : l₁.Registered ∧ l₁.spotClearinghouse = l.spotClearinghouse := by
      cases hc : results.userOrderChange <;> simp only [hc, recordUserOrder] at huser
      case none => cases huser; exact ⟨h, rfl⟩
      case some => exact h.updateAccount hk huser
    obtain ⟨h₂, hc₂⟩ := h₁.recordFilledOrders (hc₁ ▸ hfilled) hf
    have hc := hc₂.trans hc₁
    cases hres : results.residualOrder <;> simp only [hres, recordResidual] at hr
    case none => cases hr; exact ⟨h₂, hc⟩
    case some residual =>
      obtain ⟨h₃, hc₃⟩ := h₂.updateAccount (hc ▸ hresidual residual hres) hr
      exact ⟨h₃, hc₃.trans hc⟩

theorem handleTransferTransaction {t t' : TransferTransaction} (h : l.Registered)
    (ht : l.handleTransferTransaction t = .ok (l', t', n)) : l'.Registered := by
  have hsource : t.source ∈ (l.getAccountInfoMut t.source id).accounts := AList.mem_insert _ |>.mpr (.inl rfl)
  have h₁ : ((l.getAccountInfoMut t.source id).setClearinghouseAccounts
      (l.spotClearinghouse.accounts.getAccountBalanceMut t.source)).Registered :=
    h.touch.setAccounts .getAccountBalanceMut (by simpa using hsource)
  rcases handleTransferTransaction_cases ht with ⟨_, rfl, _⟩ | ⟨_, _, rfl, _⟩ | ⟨_, _, _, nonce, _, hc⟩
  · exact h.touch
  · exact h₁
  · obtain ⟨_, _, accounts₁, accounts₂, hdebit, hcredit, rfl⟩ := commitTransferTransaction_cases hc
    have hbalance : t.source ∈ l.spotClearinghouse.accounts.getAccountBalanceMut t.source :=
      (Accounts.Gains.getAccountBalanceMut _).mpr (.inr rfl)
    refine ((h₁.touch (k := t.target)).insert hbalance _).setAccounts
      ((Accounts.Gains.debitTransfer hdebit).trans (.getAccountTokenBalanceMut hcredit)) ?_
    rintro k (rfl | rfl)
    · exact AList.mem_insert _ |>.mpr (.inl rfl)
    · exact AList.mem_insert _ |>.mpr (.inr (AList.mem_insert _ |>.mpr (.inl rfl)))

theorem createOrder_mem {t : OrderTransaction} {order : Order} (h : l.createOrder t = .ok (l', order))
    (hk : k ∈ l.accounts) : k ∈ l'.accounts := by
  unfold createOrder at h
  split at h
  all_goals
    simp only [Checked.bind_ok, Checked.pure_ok, Prod.exists, Prod.mk.injEq] at h
    obtain ⟨_, _, _, rfl, _⟩ := h
  case h_1 => exact AList.mem_insert _ |>.mpr (.inr hk)
  case h_2 => exact hk

-- The order is entered before anything is known of its market.
theorem created {t : OrderTransaction} {order : Order} (h : l.Registered) (hc : l.createOrder t = .ok (l', order))
    (ht : t.marketId ≠ 0) : l'.Registered := by
  have created := createOrder_created hc
  refine ⟨fun k hk => ?_, created.spotClearinghouse ▸ h.booked, fun k hk => ?_⟩
  · rw [created.spotClearinghouse] at hk
    exact createOrder_mem hc (h.known k hk)
  · rw [created.spotClearinghouse] at hk
    obtain ⟨hnonce, hcompleted, hopen⟩ := h.unknown k hk
    refine ⟨(created.expectedNonce k).trans hnonce, ?_, fun o ho => ?_⟩
    · simp only [completedOrders, created.info k] at hcompleted ⊢
      split
      case isTrue  => exact hcompleted
      case isFalse => exact hcompleted
    · rw [created.openOrders k] at ho
      split at ho
      case isFalse => exact hopen o ho
      case isTrue =>
        rcases List.mem_append.mp ho with ho | ho
        · exact hopen o ho
        · rw [created.placed] at ho
          rcases t.entries_cases l.orderManager.nextId with he | ⟨o', ho', he⟩
          · simp [he] at ho
          · obtain ⟨_, _, _, rfl⟩ := OrderTransaction.toOrder_limit ho'
            rw [he, List.mem_singleton] at ho
            exact ho ▸ ht

theorem placed {t : OrderTransaction} {order : Order} {c : SpotClearingHouse} (h : l.Registered)
    (hc : l.createOrder t = .ok (l', order)) (hsource : t.source ∈ l.accounts) (hb : c.Booked)
    (hg : l.spotClearinghouse.accounts.Gains {t.source} c.accounts) :
    { l' with spotClearinghouse := c }.Registered := by
  have created := createOrder_created hc
  refine ⟨fun k hk => ?_, hb, fun k hk => ?_⟩
  · show k ∈ l'.accounts
    rcases (hg k).mp hk with hk | rfl
    · exact createOrder_mem hc (h.known k hk)
    · exact createOrder_mem hc hsource
  · have hne : k ≠ t.source := fun he => hk ((hg k).mpr (.inr he))
    have same : ({ l' with spotClearinghouse := c } : LedgerState).getAccountInfoOrDefault k =
        l.getAccountInfoOrDefault k := (created.info k).trans (if_neg hne)
    simpa only [expectedNonce, completedOrders, openOrders, same] using
      h.unknown k fun hk' => hk ((hg k).mpr (.inl hk'))

theorem handleOrderTransaction {t t' : OrderTransaction} {e : Exchange} (h : l.Registered) (shows : l.Shows e)
    (ht : l.handleOrderTransaction t = .ok (l', t', n)) : l'.Registered := by
  rcases handleOrderTransaction_cases ht with ⟨_, rfl, _⟩ | ⟨_, l₁, order, hcreate, hrest⟩
  · exact h.touch
  have created := createOrder_created hcreate
  have hsource : t.source ∈ (l.getAccountInfoMut t.source id).accounts := AList.mem_insert _ |>.mpr (.inl rfl)
  rcases hrest with ⟨err, herr, rfl, _⟩ | ⟨precision, c, r, l₂, nonce, _, hhandle, hrecord, hbump, _⟩
  · refine h.touch.created hcreate fun hzero => ?_
    obtain ⟨shows₁, _⟩ := (shows.touch t.source).createOrder hcreate
    rw [hzero, shows₁.marketPrecision_zero] at herr
    cases herr
  · rw [created.spotClearinghouse] at hhandle
    obtain ⟨hb, gains, hmakers⟩ := h.booked.handleOrder hhandle
    rw [created.placed, OrderTransaction.toOrder_account] at gains
    have hbalance : t.source ∈ c.accounts := (gains _).mpr (.inr rfl)
    have kept (k) (hk : k ∈ l.spotClearinghouse.accounts) : k ∈ c.accounts := (gains k).mpr (.inl hk)
    obtain ⟨h₂, hc₂⟩ := (h.touch.placed hcreate hsource hb gains).recordResults hbalance
      (fun results hr => ⟨fun f hf => kept _ ((hmakers results hr).1 f hf),
        fun residual hres => kept _ ((hmakers results hr).2 residual hres)⟩) hrecord
    exact h₂.bumpNonce (hc₂ ▸ hbalance) hbump

theorem handleCancelOrderTransaction {t t' : CancelOrderTransaction} (h : l.Registered)
    (ho : ∀ o ∈ l.openOrders t.source, o.common.account = t.source)
    (ht : l.handleCancelOrderTransaction t = .ok (l', t', n)) : l'.Registered := by
  rcases handleCancelOrderTransaction_cases ht with
    ⟨rfl, _⟩ | ⟨_, order, precision, c, cancelled, l₁, nonce, hopen, _, hcancel, hl, hbump, _⟩
  · exact h
  have hmem : order ∈ l.openOrders t.source := List.mem_of_find?_eq_some hopen
  have gains := Accounts.Gains.cancelOrder hcancel
  rw [ho order hmem] at gains
  have hbalance : t.source ∈ c.accounts := (gains _).mpr (.inr rfl)
  have hknown : t.source ∈ l.accounts := by
    by_contra hn
    have hnone := AList.lookup_eq_none.mpr hn
    simp [openOrders, getAccountInfoOrDefault, hnone, AccountInfo.new] at hmem
  have h₁ := h.clear (h.booked.cancelOrder hcancel) gains (by simpa using hknown)
  cases cancelled
  case false =>
    obtain rfl := hl
    exact h₁.bumpNonce hbalance hbump
  case true =>
    obtain ⟨pre, post, _, _, rfl⟩ := hl
    exact (h₁.insert hbalance _).bumpNonce hbalance hbump

theorem applyTransaction {t t' : SignedTransaction} {e : Exchange} (h : l.Registered) (shows : l.Shows e)
    (consistent : e.Consistent) (ht : l.applyTransaction t = .ok (l', t', n)) : l'.Registered := by
  rcases applyTransaction_cases ht with ⟨_, _, _, _, hx⟩ | ⟨_, _, _, _, hx⟩ | ⟨x, _, _, _, hx⟩
  · exact h.handleTransferTransaction hx
  · exact h.handleOrderTransaction shows hx
  · refine h.handleCancelOrderTransaction (fun o ho => ?_) hx
    rw [shows.openOrders] at ho
    exact consistent.entries.account x.source o ho

theorem of_reachable {faucet : PublicKeyHash} (h : l.Reachable faucet) : l.Registered := by
  obtain ⟨ts, ts', ns, hrun⟩ := h
  have hinv := foldlM_invariant (I := fun l => ∃ e, l.Shows e ∧ e.Consistent ∧ l.Registered) (foldlM_of_apply hrun)
    ⟨_, Shows.new, .new, .new⟩ ?_
  · obtain ⟨_, _, _, h⟩ := hinv
    exact h
  · rintro l t l' hnext ⟨e, shows, consistent, h⟩
    obtain ⟨t', n, hx⟩ := next_ok.mp hnext
    obtain ⟨e', hstep, shows'⟩ := shows.step hx
    exact ⟨e', shows', consistent.step hstep, h.applyTransaction shows consistent hx⟩

-- The two things that the query of an account can tell.
theorem query (h : l.Registered) (k : PublicKeyHash) :
    (∃ info balances, l.accounts.lookup k = some info ∧ l.spotClearinghouse.accounts.lookup k = some balances ∧
      l.getAccountInfoWithBalancesOrDefault k = ⟨info, balances⟩) ∨
    (k ∉ l.spotClearinghouse.accounts ∧ l.getAccountInfoWithBalancesOrDefault k = .default) := by
  unfold getAccountInfoWithBalancesOrDefault getAccountInfoWithBalances getAccountBalance
  cases hb : l.spotClearinghouse.accounts.lookup k
  case some balances =>
    have hk : k ∈ l.spotClearinghouse.accounts := AList.lookup_isSome.mp (by simp [hb])
    obtain ⟨info, hi⟩ := Option.isSome_iff_exists.mp (AList.lookup_isSome.mpr (h.known k hk))
    exact .inl ⟨info, balances, hi, rfl, by simp [hi]⟩
  case none =>
    refine .inr ⟨AList.lookup_eq_none.mp hb, ?_⟩
    cases l.accounts.lookup k
    case none => rfl
    case some => rfl

theorem query_expectedNonce (h : l.Registered) (k : PublicKeyHash) :
    (l.getAccountInfoWithBalancesOrDefault k).accountInfo.expectedNonce = l.expectedNonce k := by
  rcases h.query k with ⟨info, _, hi, _, hq⟩ | ⟨hk, hq⟩
  · simp [hq, expectedNonce, getAccountInfoOrDefault, hi]
  · rw [hq, (h.unknown k hk).1]
    rfl

end Registered

-- What the query of an account tells is what the ledger has of it. Of an account that has only placed orders
-- in markets that do not exist nothing is told.
theorem account_query_truthful {faucet : PublicKeyHash} {l : LedgerState} (h : l.Reachable faucet) (k : PublicKeyHash) :
    let info := l.getAccountInfoWithBalancesOrDefault k
    info.accountInfo.expectedNonce = l.expectedNonce k ∧
    info.accountInfo.completedOrders = l.completedOrders k ∧
    (∀ a, (info.spotBalances.findAssetId a).getD (.empty a) = l.balance k a) ∧
    (info.accountInfo.openOrders = l.openOrders k ∨
      info.accountInfo.openOrders = [] ∧ ∀ o ∈ l.openOrders k, o.common.marketId ≠ 0) := by
  have registered := Registered.of_reachable h
  refine ⟨registered.query_expectedNonce k, ?_⟩
  rcases registered.query k with ⟨info, balances, hi, hb, hq⟩ | ⟨hk, hq⟩
  · simp [hq, hi, hb, completedOrders, openOrders, balance, Accounts.balance, getAccountInfoOrDefault]
  · obtain ⟨_, hcompleted, hopen⟩ := registered.unknown k hk
    rw [hq, hcompleted]
    refine ⟨rfl, fun a => ?_, .inr ⟨rfl, hopen⟩⟩
    simp [balance, Accounts.balance, AList.lookup_eq_none.mpr hk, AccountInfoWithBalances.default]

theorem threePrices_queried : ∃ l ts ns, (LedgerState.new 1).apply threePrices = .ok (l, ts, ns) ∧
    (l.getAccountInfoWithBalancesOrDefault 7).accountInfo.expectedNonce = 4 ∧
    (l.getAccountInfoWithBalancesOrDefault 7).accountInfo.completedOrders = l.completedOrders 7 := by
  have h := Reachable.of_apply (rfl : (LedgerState.new 1).apply threePrices = .ok _)
  obtain ⟨hnonce, hcompleted, _⟩ := account_query_truthful h 7
  exact ⟨_, _, _, rfl, hnonce.trans rfl, hcompleted⟩

end LedgerState

end Superliquid

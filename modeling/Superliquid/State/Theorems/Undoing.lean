import Superliquid.State.Theorems.Cancelling
import Superliquid.State.Theorems.Funds

namespace Superliquid

open SpotMarket SpotClearingHouse

-- The level that a new order enters survives when the order is taken back, or has nobody else in it.
def Level.Returns (level : Level) : Prop :=
  level.cancelled + 1 < 2 ^ 32 ∧ (level.volume ≠ 0 ∨ liveOrders level.orders = [])

instance {level : Level} : Decidable level.Returns :=
  inferInstanceAs (Decidable (_ ∧ (_ ∨ _)))

section Rests

variable {m m₁ m₂ : SpotMarket} {o : LimitOrder} {level : Level} {d : OrderDirection} {n unfilled : Nat}

theorem cancelOrder_ok_only_iff (h : m.Sound n) (hl : level ∈ m.side d) (ho : o ∈ level.orders) (live : o.IsLive)
    (hf : o.filledBaseLots ≤ o.baseLots) (hv : o.unfilled ≤ level.volume) :
    (∃ m' unfilled, m.cancelOrder o = .ok (m', unfilled) ∧ CancelsOnly o.common.id m m') ↔
      level.cancelled + 1 < 2 ^ 32 ∧ (level.volume ≠ o.unfilled ∨ liveOrders level.orders = [o]) := by
  constructor
  · rintro ⟨m', unfilled, hc, only⟩
    have ⟨_, _, hcount, _⟩ := cancelOrder_marks h hl ho live rfl rfl rfl hc
    exact ⟨hcount, (cancelOrder_only_iff h hl ho live rfl rfl rfl rfl hc).mp only⟩
  · rintro ⟨hcount, hcond⟩
    have hsound := h.levels d level hl
    have ⟨⟨m', unfilled⟩, hc⟩ : ∃ r, m.cancelOrder o = .ok r := by
      refine cancelOrder_total fun level' hl' hp _ _ _ _ => ?_
      have hlevel : level' = level :=
        (h.sorted d).eq_of_price (hsound.direction o ho ▸ hl') hl (hp.trans (hsound.price o ho))
      exact hlevel ▸ ⟨hf, hv, hcount⟩
    exact ⟨m', unfilled, hc, (cancelOrder_only_iff h hl ho live rfl rfl rfl rfl hc).mpr hcond⟩

-- But for the new order, a side has the live orders that it had.
theorem Added.filter_liveEntries {cmp : Nat → Nat → Ordering} {levels levels' : List Level}
    (h : Added cmp o levels levels') (live : o.IsLive) (hids : ∀ x ∈ sideOrders levels, x.common.id ≠ o.common.id) :
    (liveEntries levels').filter (·.2.common.id ≠ o.common.id) = liveEntries levels := by
  cases h
  case level pre level post _ _ =>
    simp only [sideOrders, List.flatMap_append, List.flatMap_cons, List.forall_mem_append] at hids
    rw [liveEntries_append, liveEntries_cons, liveEntries_append, liveEntries_cons]
    simp only [List.filter_append, Superliquid.filter_liveEntries hids.1, Superliquid.filter_liveEntries hids.2.2,
      Level.add, liveOrders_append, liveOrders_cons live, List.map_append, filter_liveOrders hids.2.1]
    simp [liveOrders]
  case new pre post _ =>
    simp only [sideOrders, List.flatMap_append, List.forall_mem_append] at hids
    rw [liveEntries_append, liveEntries_cons, liveEntries_append]
    simp only [List.filter_append, Superliquid.filter_liveEntries hids.1, Superliquid.filter_liveEntries hids.2,
      Level.ofOrder, liveOrders_cons live]
    simp [liveOrders]

-- An order that was added to a book can be taken from it again without a trace just if its level allows that.
theorem addOrder_cancelOrder_iff (h : m.Sound n) (hid : o.common.id = n) (live : o.IsLive)
    (ha : m.addOrder o = .ok m₁) :
    (∃ m₂ unfilled, m₁.cancelOrder o = .ok (m₂, unfilled) ∧ ∀ d, liveEntries (m₂.side d) = liveEntries (m.side d)) ↔
      ∀ level ∈ m.side o.common.direction, level.price = o.priceMultiple → level.Returns := by
  have sound := h.addOrder hid ha
  obtain ⟨levels, hm, hf, added⟩ := addOrder_added ha
  have hids : ∀ x ∈ m.orders, x.common.id ≠ o.common.id := fun x hx => hid ▸ (h.fresh x hx).ne
  have hbefore (d : OrderDirection) :
      (liveEntries (m₁.side d)).filter (·.2.common.id ≠ o.common.id) = liveEntries (m.side d) := by
    have hside (x : LimitOrder) (hx : x ∈ sideOrders (m.side d)) : x.common.id ≠ o.common.id := by
      obtain ⟨level, hl, hmem⟩ := List.mem_flatMap.mp hx
      exact hids x (mem_orders.mpr ⟨d, level, hl, hmem⟩)
    subst hm
    cases o.common.direction.eq_or_eq_flip d
    case inl hd =>
      subst hd
      rw [side_setSide]
      exact added.filter_liveEntries live hside
    case inr hd =>
      subst hd
      rw [side_flip_setSide]
      exact filter_liveEntries hside
  have honly (m₂ : SpotMarket) :
      (∀ d, liveEntries (m₂.side d) = liveEntries (m.side d)) ↔ CancelsOnly o.common.id m₁ m₂ := by
    constructor
    · intro hsame
      exact .of_others fun d => (hsame d).trans (hbefore d).symm
    · intro only d
      exact (only.others d).trans (hbefore d)
  simp only [honly]
  have hside : m₁.side o.common.direction = levels := by rw [hm, side_setSide]
  have hsorted := h.sorted o.common.direction
  generalize m.side o.common.direction = side at added hsorted
  cases added
  case level pre level post hp _ =>
    have hl : level.add o ∈ m₁.side o.common.direction := by simp [hside]
    have hmem : o ∈ (level.add o).orders := by simp [Level.add]
    have hvolume : (level.add o).volume ≠ o.unfilled ↔ level.volume ≠ 0 := by
      show level.volume + o.unfilled ≠ o.unfilled ↔ level.volume ≠ 0
      omega
    have hothers : liveOrders (level.add o).orders = [o] ↔ liveOrders level.orders = [] := by
      have hadd : liveOrders (level.add o).orders = liveOrders level.orders ++ [o] := by
        rw [Level.add, liveOrders_append, liveOrders_cons live]
        rfl
      rw [hadd, List.append_left_eq_self]
    rw [cancelOrder_ok_only_iff sound hl hmem live hf (Nat.le_add_left _ _), hvolume, hothers]
    constructor
    · intro hcond level' hl' hp'
      have hlevel : level' = level := hsorted.eq_of_price hl' (by simp) (hp'.trans hp.symm)
      exact hlevel ▸ hcond
    · intro hcond
      exact hcond level (by simp) hp
  case new pre post hsplit =>
    have hl : Level.ofOrder o ∈ m₁.side o.common.direction := by simp [hside]
    have hmem : o ∈ (Level.ofOrder o).orders := by simp [Level.ofOrder]
    rw [cancelOrder_ok_only_iff sound hl hmem live hf le_rfl]
    obtain ⟨hpre, hpost⟩ := hsplit hsorted
    refine iff_of_true ⟨show 0 + 1 < 2 ^ 32 by decide, .inr (liveOrders_cons live)⟩ fun level hlevel hp => ?_
    cases List.mem_append.mp hlevel
    case inl hmem => exact absurd hp (ne_of_cmp_lt (hpre level hmem))
    case inr hmem => exact absurd hp.symm (ne_of_cmp_lt (hpost level hmem))

theorem addOrder_cancelOrder_unfilled (h : m.Sound n) (hid : o.common.id = n) (live : o.IsLive)
    (ha : m.addOrder o = .ok m₁) (hc : m₁.cancelOrder o = .ok (m₂, unfilled)) : unfilled = o.unfilled := by
  have hmem : o ∈ m₁.orders := (addOrder_orders ha).mem_iff.mpr List.mem_cons_self
  have ⟨_, _, hl, ho⟩ := mem_orders.mp hmem
  exact (cancelOrder_marks (h.addOrder hid ha) hl ho live rfl rfl rfl hc).1

end Rests

-- What a reader of balances and live orders cannot tell apart.
structure SpotClearingHouse.Restores (c c' : SpotClearingHouse) : Prop where
  balances : ∀ k a, c'.accounts.balance k a = c.accounts.balance k a
  books    : ∀ (id : MarketId) (m : SpotMarket), c.markets[id]? = some m →
    ∃ m' : SpotMarket, c'.markets[id]? = some m' ∧ ∀ d, liveEntries (m'.side d) = liveEntries (m.side d)

section Clearinghouse

variable {c c₁ c₂ : SpotClearingHouse} {m m₂ : SpotMarket} {o : LimitOrder} {p : MarketPrecision} {lock : Nat}

-- An order that is accepted and meets nobody is locked and rests.
theorem handleOrder_rests {r : ExecutionResults} (hm : c.markets[o.common.marketId]? = some m)
    (h : c.handleOrder (.limit o) p = .ok (c₁, some r)) (hr : r.userOrderChange = none) :
    ∃ accounts lock m₁, c.accept m (.limit o) p = .ok (accounts, some lock) ∧ m.addOrder o = .ok m₁ ∧
      c₁ = { c with markets := c.markets.set o.common.marketId m₁, accounts } := by
  have hm' : c.markets[(Order.limit o).getMarketId]? = some m := hm
  rw [handleOrder_eq hm', Checked.bind_ok] at h
  obtain ⟨⟨accounts, lock⟩, haccept, h⟩ := h
  cases lock
  case none      => cases h
  case some lock =>
    simp only [execute, settleLimit, Checked.bind_ok, Prod.exists] at h
    obtain ⟨m₁, results, hadd, h⟩ := h
    cases results
    case some =>
      simp only [Checked.bind_ok] at h
      obtain ⟨_, _, _, _, _, _, _, _, _, _, _, _, h⟩ := h
      split at h
      all_goals
        obtain ⟨_, _, h⟩ := Checked.bind_ok.mp h
        cases h
        contradiction
    case none =>
      cases h
      cases addLimitOrder_cases hadd
      case inl hrest => exact ⟨accounts, lock, m₁, haccept, hrest.2.2.2, rfl⟩
      case inr hmatch =>
        obtain ⟨_, _, hsome, _⟩ := hmatch
        contradiction

-- The refund of an order of which nothing was filled is what was locked for it.
theorem cancelOrder_refunds (hm : c.markets[o.common.marketId]? = some m) (hf : o.filledBaseLots = 0)
    (hlock : (Order.limit o).lockAmount p = .ok lock) (hc : m.cancelOrder o = .ok (m₂, o.unfilled))
    (hfits : c.available m (.limit o) + lock < 2 ^ 128) :
    ∃ accounts, c.cancelOrder o p =
        .ok ({ c with markets := c.markets.set o.common.marketId m₂, accounts }, true) ∧
      ∀ k a, accounts.balance k a =
        if k = o.common.account ∧ a = payAsset m.baseAsset m.quoteAsset o.common.direction then
          { c.accounts.balance k a with availableBalance := c.available m (.limit o) + lock }
        else c.accounts.balance k a := by
  obtain ⟨hbase, hquote⟩ := cancelOrder_assets hc
  have hunfilled : o.unfilled = o.baseLots := by rw [LimitOrder.unfilled, hf, Nat.sub_zero]
  have hwide {x y : Nat} (hxy : x * y < 2 ^ 64) : U128.mul x y = .ok (x * y) :=
    U128.mul_ok.mpr ⟨hxy.trans (by decide), rfl⟩
  have hunlock : AccountTokenBalance.unlock lock ((c.accounts.getAccountBalanceMut o.common.account).balance
      o.common.account (payAsset m.baseAsset m.quoteAsset o.common.direction)) =
        .ok { c.accounts.balance o.common.account (payAsset m.baseAsset m.quoteAsset o.common.direction) with
          availableBalance := c.available m (.limit o) + lock } := by
    rw [getAccountBalanceMut_balance]
    exact Checked.bind_ok.mpr ⟨_, U128.add_ok.mpr ⟨hfits, rfl⟩, rfl⟩
  obtain ⟨accounts, haccounts⟩ := getAccountTokenBalanceMut_ok hunlock
  refine ⟨accounts, ?_, fun k a => ?_⟩
  · simp only [SpotClearingHouse.cancelOrder, hm, hc, Checked.ok_bind, hunfilled, hbase, hquote]
    cases hd : o.common.direction
    case buy =>
      rw [hd] at haccounts
      simp only [Order.lockAmount, hd, Checked.bind_ok, U64.mul_ok] at hlock
      obtain ⟨q, hq, hlt, hlock⟩ := hlock
      subst hlock
      simp only [hq, Checked.ok_bind, hwide hlt]
      exact Checked.bind_ok.mpr ⟨accounts, haccounts, rfl⟩
    case sell =>
      rw [hd] at haccounts
      simp only [Order.lockAmount, hd, U64.mul_ok] at hlock
      obtain ⟨hlt, hlock⟩ := hlock
      subst hlock
      simp only [Checked.ok_bind, hwide hlt]
      exact Checked.bind_ok.mpr ⟨accounts, haccounts, rfl⟩
  · obtain ⟨b, hb, hbal⟩ := getAccountTokenBalanceMut_balance (Shifts.unlock lock).assetId haccounts
    rw [hunlock] at hb
    cases hb
    rw [hbal, getAccountBalanceMut_balance]
    split
    case isTrue he => rw [he.1, he.2]
    case isFalse   => rfl

-- Placing an order that rests and taking it back changes nothing just if the level that it enters allows that.
theorem place_cancel_iff {r : ExecutionResults} (hm : c.markets[o.common.marketId]? = some m)
    (sound : m.Sound o.common.id) (live : o.IsLive) (hf : o.filledBaseLots = 0)
    (hrange : c.available m (.limit o) < 2 ^ 128)
    (h : c.handleOrder (.limit o) p = .ok (c₁, some r)) (hr : r.userOrderChange = none) :
    (∃ c₂, c₁.cancelOrder o p = .ok (c₂, true) ∧ c.Restores c₂) ↔
      ∀ level ∈ m.side o.common.direction, level.price = o.priceMultiple → level.Returns := by
  obtain ⟨accounts, lock, m₁, haccept, ha, hc₁⟩ := handleOrder_rests hm h hr
  obtain ⟨hlock, hle, hbal⟩ := accept_some haccept
  have hid : o.common.marketId < c.markets.length := (List.getElem?_eq_some_iff.mp hm).1
  have hm₁ : c₁.markets[o.common.marketId]? = some m₁ := by simp [hc₁, hid]
  rw [← addOrder_cancelOrder_iff sound rfl live ha]
  constructor
  · rintro ⟨c₂, hc, restores⟩
    cases cancelOrder_cases hc
    case inl hnone =>
      obtain ⟨hfalse, _⟩ := hnone
      contradiction
    case inr hsome =>
      obtain ⟨_, m', m₂, unfilled, hm', hm₂, hcancel, _⟩ := hsome
      cases hm₁.symm.trans hm'
      obtain ⟨m₃, hm₃, hsame⟩ := restores.books _ m hm
      have hlast : m₃ = m₂ := by simpa [hm₂, hc₁, hid, eq_comm] using hm₃
      exact ⟨m₂, unfilled, hcancel, hlast ▸ hsame⟩
  · rintro ⟨m₂, unfilled, hcancel, hsame⟩
    have hu := addOrder_cancelOrder_unfilled sound rfl live ha hcancel
    subst hu
    have hassets : m₁.baseAsset = m.baseAsset ∧ m₁.quoteAsset = m.quoteAsset := by
      obtain ⟨_, hm, _⟩ := addOrder_added ha
      cases hd : o.common.direction <;> exact hm ▸ hd ▸ ⟨rfl, rfl⟩
    have hav : c₁.available m₁ (.limit o) + lock = c.available m (.limit o) := by
      have hleft : c₁.available m₁ (.limit o) = c.available m (.limit o) - lock := by
        rw [SpotClearingHouse.available, hassets.1, hassets.2, hc₁]
        exact congrArg _ ((hbal _ _).trans (if_pos ⟨rfl, rfl⟩))
      rw [hleft, Nat.sub_add_cancel hle]
    obtain ⟨accounts₂, hc₂, hbal₂⟩ := cancelOrder_refunds hm₁ hf hlock hcancel (hav ▸ hrange)
    refine ⟨_, hc₂, fun k a => ?_, fun id m' hm' => ?_⟩
    · show accounts₂.balance k a = _
      have hold : c₁.accounts.balance k a = _ := (congrArg (·.accounts.balance k a) hc₁).trans (hbal k a)
      rw [hbal₂, hav, hold, hassets.1, hassets.2]
      split
      case isFalse he => exact if_neg he
      case isTrue he  =>
        have he : k = (Order.limit o).getAccount ∧ a = payAsset m.baseAsset m.quoteAsset (Order.limit o).direction := he
        rw [if_pos he, he.1, he.2]
        rfl
    · by_cases hsame' : id = o.common.marketId
      case pos =>
        subst hsame'
        cases hm.symm.trans hm'
        exact ⟨m₂, by simp [hc₁, hid], hsame⟩
      case neg => exact ⟨m', by simpa [hc₁, List.getElem?_set_ne (Ne.symm hsame')] using hm', fun _ => rfl⟩

-- Account 7 has another order at 30, and takes the new one back.
theorem threePrices_undone : ∃ (l : LedgerState) (m : SpotMarket) (c₁ : SpotClearingHouse) (r : ExecutionResults),
    l.Reachable 1 ∧ l.spotClearinghouse.markets = [m] ∧
    l.spotClearinghouse.handleOrder (.limit (.place 5 7 .sell 30 2)) .supeUsd = .ok (c₁, some r) ∧
    ∃ c₂, c₁.cancelOrder (.place 5 7 .sell 30 2) .supeUsd = .ok (c₂, true) ∧ l.spotClearinghouse.Restores c₂ := by
  have ⟨l, ts, ns, m, c₁, r, hrun, hm, hid, hplace, hr, hrange, hcond⟩ :
      ∃ (l : LedgerState) (ts : _) (ns : _) (m : SpotMarket) (c₁ : SpotClearingHouse) (r : ExecutionResults),
        (LedgerState.new 1).apply threePrices = .ok (l, ts, ns) ∧ l.spotClearinghouse.markets = [m] ∧
        l.orderManager.nextId = 5 ∧
        l.spotClearinghouse.handleOrder (.limit (.place 5 7 .sell 30 2)) .supeUsd = .ok (c₁, some r) ∧
        r.userOrderChange = none ∧ l.spotClearinghouse.available m (.limit (.place 5 7 .sell 30 2)) < 2 ^ 128 ∧
        ∀ level ∈ m.asksLevels, level.price = 30 → level.Returns :=
    ⟨_, _, _, _, _, _, rfl, rfl, rfl, rfl, rfl, by decide, by decide⟩
  have reachable := LedgerState.Reachable.of_apply hrun
  have sound := sound_of_reachable reachable (hm ▸ List.mem_singleton_self m)
  have hmarket : l.spotClearinghouse.markets[0]? = some m := by rw [hm]; rfl
  exact ⟨l, m, c₁, r, reachable, hm, hplace,
    (place_cancel_iff (o := .place 5 7 .sell 30 2) hmarket (hid ▸ sound) (by decide) rfl hrange hplace hr).mpr hcond⟩

-- The cancellation of the first order has taken two lots too many from the volume, so that there are two lots in a
-- level without volume in the end.
def emptiedLevel : List SignedTransaction :=
  ownLots ++ [.cancel 7 0 3, .market 8 .buy 8 0]

theorem emptiedLevel_not_undone : ∃ (l : LedgerState) (m : SpotMarket) (level : Level) (c₁ : SpotClearingHouse)
    (r : ExecutionResults) (c₂ : SpotClearingHouse) (m₂ : SpotMarket),
    l.Reachable 1 ∧ l.spotClearinghouse.markets = [m] ∧ m.asksLevels = [level] ∧ level.volume = 0 ∧
    liveLots level.orders = 2 ∧
    l.spotClearinghouse.handleOrder (.limit (.place 4 7 .sell 10 5)) .supeUsd = .ok (c₁, some r) ∧
    r.userOrderChange = none ∧ c₁.cancelOrder (.place 4 7 .sell 10 5) .supeUsd = .ok (c₂, true) ∧
    c₂.markets = [m₂] ∧ m₂.asksLevels = [] ∧ ¬l.spotClearinghouse.Restores c₂ := by
  have ⟨l, ts, ns, m, level, c₁, r, c₂, m₂, hrun, hm, hlevel, hvolume, hlots, hplace, hr, hc, hm₂, hnone, hentries⟩ :
      ∃ (l : LedgerState) (ts : _) (ns : _) (m : SpotMarket) (level : Level) (c₁ : SpotClearingHouse)
        (r : ExecutionResults) (c₂ : SpotClearingHouse) (m₂ : SpotMarket),
        (LedgerState.new 1).apply emptiedLevel = .ok (l, ts, ns) ∧ l.spotClearinghouse.markets = [m] ∧
        m.asksLevels = [level] ∧ level.volume = 0 ∧ liveLots level.orders = 2 ∧
        l.spotClearinghouse.handleOrder (.limit (.place 4 7 .sell 10 5)) .supeUsd = .ok (c₁, some r) ∧
        r.userOrderChange = none ∧ c₁.cancelOrder (.place 4 7 .sell 10 5) .supeUsd = .ok (c₂, true) ∧
        c₂.markets = [m₂] ∧ m₂.asksLevels = [] ∧ (liveEntries m.asksLevels).length = 1 :=
    ⟨_, _, _, _, _, _, _, _, _, rfl, rfl, rfl, rfl, rfl, rfl, rfl, rfl, rfl, rfl, rfl⟩
  refine ⟨l, m, level, c₁, r, c₂, m₂, .of_apply hrun, hm, hlevel, hvolume, hlots, hplace, hr, hc, hm₂, hnone, ?_⟩
  intro restores
  have ⟨m', hm', hsame⟩ := restores.books 0 m (by simp [hm])
  have hlast : m' = m₂ := by simpa [hm₂, eq_comm] using hm'
  have hlost : liveEntries m₂.asksLevels = liveEntries m.asksLevels := hlast ▸ hsame .sell
  rw [← hlost, hnone] at hentries
  contradiction

end Clearinghouse
end Superliquid

import Superliquid.State.Theorems.Expects

namespace Superliquid

open SpotMarket LedgerState

namespace SpotMarket

-- The counters of all levels are right.
def Exact (m : SpotMarket) : Prop :=
  ∀ d, ∀ level ∈ m.side d, level.Exact

-- No more is filled of a live order than it has.
def Valid (m : SpotMarket) : Prop :=
  ∀ o ∈ liveOrders m.orders, o.Valid

variable {m m' : SpotMarket} {o : LimitOrder} {d : OrderDirection} {levels : List Level} {price : Option Nat}
         {precision : MarketPrecision} {order : Order}

namespace Exact

theorem setSide (h : m.Exact) (hl : ∀ level ∈ levels, level.Exact) : (m.setSide d levels).Exact := by
  intro d'
  cases d.eq_or_eq_flip d'
  case inl hd => subst hd; simpa using hl
  case inr hd => subst hd; simpa using h d.flip

theorem addOrder (h : m.Exact) (live : o.IsLive) (hs : o.selfFilled = 0) (ha : m.addOrder o = .ok m') :
    m'.Exact := by
  have ⟨levels, hm, _, added⟩ := addOrder_added ha
  subst hm
  exact h.setSide (added.forall (h _) (fun level _ _ hl => hl.add live hs) (.ofOrder live hs))

theorem sweep (h : m.Exact) (precision : MarketPrecision) (order : Order) :
    (m.setSide order.direction.flip (m.sweep precision order).levels.reverse).Exact := by
  have ⟨b, budget, hs⟩ := m.sweep_eq precision order
  refine h.setSide fun level hm => ?_
  rw [hs, List.mem_reverse] at hm
  cases sweep_levels_mem hm
  case inl hm => exact h _ level (List.mem_reverse.mp hm)
  case inr hm =>
    have ⟨level₀, hm, lots, _, he, _⟩ := hm
    exact he ▸ (h _ level₀ (List.mem_reverse.mp hm)).matched order.own lots

theorem afterMatch (h : m.Exact) (hlive : ∀ o, order = .limit o → o.IsLive ∧ o.selfFilled = 0)
    (hafter : m.AfterMatch precision order m') : m'.Exact := by
  have ⟨price, hm⟩ := hafter
  have swept : ((m.setSide order.direction.flip (m.sweep precision order).levels.reverse).setLastExecutedPrice
      price).Exact := by
    intro d
    rw [side_setLastExecutedPrice]
    exact h.sweep precision order d
  cases order
  case market => exact hm ▸ swept
  case limit o =>
    have ⟨live, hs⟩ := hlive o rfl
    dsimp only at hm
    split at hm
    case isTrue  => exact @addOrder _ m' (m.leaves precision o) swept live hs hm
    case isFalse => exact hm ▸ swept

-- A cancellation books what the given copy of the order says.
theorem cancelOrder {unfilled : Nat} (h : m.Exact) (hc : m.cancelOrder o = .ok (m', unfilled))
    (hr : ∀ x ∈ liveOrders m.orders, x.common.id = o.common.id → x.remaining = o.unfilled) : m'.Exact := by
  have ⟨levels, hm, cancelled⟩ := cancelOrder_cancelled hc
  subst hm
  refine h.setSide (cancelled.forall (h _) ?_)
  intro level hl os x os' _ hsplit hid live _ hexact level' hlevel'
  have hx : x ∈ liveOrders m.orders :=
    mem_liveOrders.mpr ⟨mem_orders.mpr ⟨_, level, hl, by simp [hsplit]⟩, live⟩
  exact (hexact.cancel hsplit live (hr x hx hid) hlevel').1

end Exact
end SpotMarket

namespace Exchange

variable {e e' : Exchange} {tx : UnsignedTransaction}

structure Counted (e : Exchange) : Prop where
  consistent : e.Consistent
  exact      : e.market.Exact
  valid      : e.market.Valid

-- The order that a transaction cancels has not traded with its own account.
def CancelsClean (openOrders : PublicKeyHash → List LimitOrder) : UnsignedTransaction → Prop
  | .cancelOrder t => ∀ x ∈ openOrders t.source, x.common.id = t.orderId → x.selfFilled = 0
  | _              => True

instance {openOrders : PublicKeyHash → List LimitOrder} : DecidablePred (CancelsClean openOrders)
  | .cancelOrder _ => inferInstanceAs (Decidable (∀ x ∈ _, _ → _))
  | .transfer _    => inferInstanceAs (Decidable True)
  | .order _       => inferInstanceAs (Decidable True)

namespace Counted

theorem new {faucet : PublicKeyHash} : (Exchange.new faucet).Counted where
  consistent := .new
  exact d    := by cases d <;> simp [Exchange.new, SpotMarket.supeUsd, SpotMarket.new, SpotMarket.side]
  valid      := by
    simp [SpotMarket.Valid, Exchange.new, SpotMarket.supeUsd, SpotMarket.new, SpotMarket.orders, sideOrders, liveOrders]

theorem step (hs : e.Step tx e') (hc : CancelsClean e.openOrders tx) (h : e.Counted) : e'.Counted := by
  have hfresh {t : OrderTransaction} {o} (ho : t.toOrder e.nextId = .limit o) : o.IsLive ∧ o.selfFilled = 0 := by
    obtain ⟨_, _, _, heq⟩ := OrderTransaction.toOrder_limit ho
    simp [heq, LimitOrder.IsLive]
  refine ⟨.step hs h.consistent, ?_, hs.forall_live h.consistent.sound h.valid ?_ ?_⟩
  · cases hs
    case idle                 => exact h.exact
    case transfer             => exact h.exact
    case declined             => exact h.exact
    case rested ho rested     => exact h.exact.addOrder (hfresh ho).1 (hfresh ho).2 rested.market
    case matched matched _    => exact h.exact.afterMatch (fun o ho => hfresh ho) matched.market
    case cancelled order _ _ _ _ _ hopen _ hid hcancel _ =>
      refine h.exact.cancelOrder hcancel fun x hx hxid => ?_
      have hmem : order ∈ e.openOrders _ := hopen ▸ List.mem_append_right _ List.mem_cons_self
      obtain ⟨_, hcore⟩ := h.consistent.entry_eq hx hmem hxid.symm
      obtain ⟨_, _, _, _, hbase, hfilled, hself⟩ := LimitOrder.eq_of_core hcore
      have hzero := hc order hmem hid
      simp only [LimitOrder.remaining, LimitOrder.unfilled]
      omega
  · intro t o filled _ _ ho hf
    have hself := (hfresh ho).2
    simp only [LimitOrder.Valid]
    omega
  · exact fun hlt _ => Fill.after_valid hlt

end Counted
end Exchange

section InRange

variable {levels : List Level} {order : LimitOrder} {cmp : Nat → Nat → Ordering} {level : Level}

theorem addOrderWithCmp_ok (hf : order.filledBaseLots ≤ order.baseLots)
    (hv : ∀ level ∈ levels, level.price = order.priceMultiple → level.volume + order.unfilled < 2 ^ 64) :
    ∃ levels', addOrderWithCmp levels order cmp = .ok levels' := by
  unfold addOrderWithCmp
  cases hs : Search.search (probeLevel order.priceMultiple cmp) levels
  case missing left =>
    simp only [hs, Checked.sub_eq_ok hf]
    exact ⟨_, rfl⟩
  case found mid =>
    have ⟨pre, level, post, he, hlen, hp⟩ := Search.search_found hs
    have hindex : Checked.index levels mid = .ok level := Checked.index_ok.mpr (by simp [he, hlen])
    have hadd : U64.add level.volume (order.baseLots - order.filledBaseLots) =
        .ok (level.volume + (order.baseLots - order.filledBaseLots)) :=
      U64.add_ok.mpr ⟨hv level (by simp [he]) (probeLevel_hit hp), rfl⟩
    simp only [hs, Checked.bind_total]
    exact ⟨level, hindex, _, Checked.sub_eq_ok hf, _, hadd, _, rfl⟩

theorem cancelOrderWithCmp_ok
    (h : ∀ level ∈ levels, level.price = order.priceMultiple → ∀ o ∈ level.orders, o.IsLive →
      o.common.id = order.common.id → order.filledBaseLots ≤ order.baseLots ∧ order.unfilled ≤ level.volume ∧
        level.cancelled + 1 < 2 ^ 32) :
    ∃ r, cancelOrderWithCmp levels order cmp = .ok r := by
  unfold cancelOrderWithCmp
  cases hs : Search.search (probeLevel order.priceMultiple cmp) levels
  case missing left =>
    simp only [hs]
    exact ⟨_, rfl⟩
  case found mid =>
    have ⟨pre, level, post, he, hlen, hp⟩ := Search.search_found hs
    have hindex : Checked.index levels mid = .ok level := Checked.index_ok.mpr (by simp [he, hlen])
    simp only [hs, Checked.bind_total]
    refine ⟨level, hindex, ?_⟩
    cases hmark : markOrderAsCancelled level.orders order
    case none => exact ⟨_, rfl⟩
    case some orders =>
      have ⟨os, o, os', ho, hid, live, _⟩ := markOrderAsCancelled_some hmark
      have ⟨hf, hv, hc⟩ := h level (by simp [he]) (probeLevel_hit hp) o (by simp [ho]) live hid
      simp only [Checked.bind_total]
      refine ⟨_, U32.add_ok.mpr ⟨hc, rfl⟩, _, Checked.sub_eq_ok hf, _, Checked.sub_eq_ok hv, ?_⟩
      split
      case isTrue  => exact ⟨_, rfl⟩
      case isFalse => split <;> exact ⟨_, rfl⟩

theorem SpotMarket.cancelOrder_total {m : SpotMarket}
    (h : ∀ level ∈ m.side order.common.direction, level.price = order.priceMultiple → ∀ o ∈ level.orders, o.IsLive →
      o.common.id = order.common.id → order.filledBaseLots ≤ order.baseLots ∧ order.unfilled ≤ level.volume ∧
        level.cancelled + 1 < 2 ^ 32) :
    ∃ r, m.cancelOrder order = .ok r := by
  have ⟨_, hr⟩ : ∃ r, cancelOrderWithCmp (m.side order.common.direction) order order.common.direction.cmp = .ok r :=
    cancelOrderWithCmp_ok h
  unfold SpotMarket.cancelOrder
  cases hd : order.common.direction
  all_goals
    rw [hd] at hr
    simp only [cancelBid, cancelAsk, Checked.bind_total]
    exact ⟨_, hr, _, rfl⟩

end InRange

-- The subtractions that end a match in the middle of a level: `s` is what the loop over its orders
-- starts with. No match has set a residual order by then.
structure Level.MatchesInRange (level : Level) : Prop where
  limit : ∀ {isBuy precision s orders s'}, s.residualOrder = none → s.toDrainEndIndex = 0 → s.cancelledSeen = 0 →
    executeLimitOrders level.price isBuy precision level.orders s = .ok (orders, s') →
    s'.toDrainEndIndex < orders.length → s.remainingBaseAmount ≤ level.volume ∧ s'.cancelledSeen ≤ level.cancelled
  sell : ∀ {account precision s orders s'}, s.residualOrder = none → s.toDrainEndIndex = 0 → s.cancelledSeen = 0 →
    executeMarketSellOrders account level.price precision level.orders s = .ok (orders, s') →
    s'.toDrainEndIndex < orders.length → s.remainingBaseLots ≤ level.volume ∧ s'.cancelledSeen ≤ level.cancelled
  buy : ∀ {account precision s orders s'}, s.residualOrder = none → s.toDrainEndIndex = 0 → s.levelFilled = 0 →
    s.levelCancelled = 0 → executeMarketBuyOrders account level.price precision level.orders s = .ok (orders, s') →
    s'.toDrainEndIndex < orders.length → s'.levelFilled ≤ level.volume ∧ s'.levelCancelled ≤ level.cancelled

namespace Level.Exact

variable {level : Level} {own : LimitOrder → Bool} {lots stop seen : Nat} {orders : List LimitOrder}
         {residual : Option ResidualOrder}

theorem walked (h : level.Exact) (hw : Walked (walk own level.price lots level.orders) orders 0 stop 0 seen residual) :
    sumLots (walk own level.price lots level.orders).fills ≤ level.volume ∧ seen ≤ level.cancelled ∧
      (stop < orders.length → sumLots (walk own level.price lots level.orders).fills = lots) := by
  have ht := walk_taken own level.price lots level.orders
  have hr := ht.remaining
  have hc := ht.cancelled
  have hseen := hw.cancelled
  refine ⟨?_, ?_, fun hl => walk_lots_eq (hw.stop_lt_iff.mp hl)⟩
  · rw [h.volume]; omega
  · rw [h.cancelled]; omega

theorem matchesInRange (h : level.Exact) : level.MatchesInRange where
  limit hr hz hc hx hl := by
    have hw := (executeLimitOrders_walked hr hx).walked
    rw [hz, hc] at hw
    have ⟨hv, hseen, hlots⟩ := h.walked hw
    exact ⟨hlots hl ▸ hv, hseen⟩
  sell hr hz hc hx hl := by
    have hw := (executeMarketSellOrders_walked hr hx).walked
    rw [hz, hc] at hw
    have ⟨hv, hseen, hlots⟩ := h.walked hw
    exact ⟨hlots hl ▸ hv, hseen⟩
  buy hr hz hf hc hx hl := by
    have hm := executeMarketBuyOrders_walked hr hx
    have hw := hm.walked
    rw [hz, hc] at hw
    have ⟨hv, hseen, _⟩ := h.walked hw
    have hfilled := hm.levelFilled
    exact ⟨by omega, hseen⟩

end Level.Exact

namespace LedgerState

-- What a transaction adds to the counters of a level fits into them.
def Fits (l : LedgerState) : UnsignedTransaction → Prop
  | .order t => ∀ price size, t.orderType = .limit price size → ∀ m ∈ l.spotClearinghouse.markets,
    ∀ level ∈ m.side t.direction, level.price = price → level.volume + size < 2 ^ 64
  | .cancelOrder t => ∀ x ∈ l.openOrders t.source, x.common.id = t.orderId → ∀ m ∈ l.spotClearinghouse.markets,
    ∀ level ∈ m.side x.common.direction, level.price = x.priceMultiple → level.cancelled + 1 < 2 ^ 32
  | .transfer _ => True

-- An order can be entered, however much of it is filled on arrival, and an open order can be cancelled.
def UpdatesInRange (l : LedgerState) : UnsignedTransaction → Prop
  | .order t => ∀ price size, t.orderType = .limit price size → ∀ m ∈ l.spotClearinghouse.markets,
    ∀ o : LimitOrder, o.priceMultiple = price → o.baseLots = size → o.filledBaseLots ≤ size →
      ∃ levels, addOrderWithCmp (m.side t.direction) o t.direction.cmp = .ok levels
  | .cancelOrder t => ∀ x ∈ l.openOrders t.source, x.common.id = t.orderId → ∀ m ∈ l.spotClearinghouse.markets,
    ∃ r, m.cancelOrder x = .ok r
  | .transfer _ => True

end LedgerState

namespace Exchange.Counted

variable {e : Exchange}

theorem cancelOrder_ok (h : e.Counted) {k : PublicKeyHash} {x : LimitOrder} (hx : x ∈ e.openOrders k)
    (hs : x.selfFilled = 0)
    (hc : ∀ level ∈ e.market.side x.common.direction, level.price = x.priceMultiple → level.cancelled + 1 < 2 ^ 32) :
    ∃ r, e.market.cancelOrder x = .ok r := by
  refine SpotMarket.cancelOrder_total fun level hl hp o ho live hid => ?_
  have hlive : o ∈ liveOrders e.market.orders := mem_liveOrders.mpr ⟨mem_orders.mpr ⟨_, level, hl, ho⟩, live⟩
  have ⟨_, hcore⟩ := h.consistent.entry_eq hlive hx hid.symm
  have ⟨_, _, _, _, hbase, hfilled, hself⟩ := LimitOrder.eq_of_core hcore
  have hvalid := h.valid o hlive
  have ⟨os, os', hsplit⟩ := List.append_of_mem ho
  have ⟨hv, _⟩ := (h.exact _ level hl).split hsplit live
  refine ⟨?_, ?_, hc level hl hp⟩
  all_goals simp only [LimitOrder.Valid, LimitOrder.remaining, LimitOrder.unfilled] at *; omega

end Exchange.Counted

-- The counters are right after every run in which no order is cancelled that has traded with its own
-- account. No match takes them below zero then, and neither does a transaction that fits.
theorem exactLevels_of_clean {faucet : PublicKeyHash} {l : LedgerState} {ts ts' : List SignedTransaction}
    {ns : List (Option (PublicKeyHash × Nat))} (h : (LedgerState.new faucet).apply ts = .ok (l, ts', ns))
    (hc : Meets LedgerState.next (fun l t => Exchange.CancelsClean l.openOrders t.tx) (.new faucet) ts) :
    (∀ m ∈ l.spotClearinghouse.markets, ∀ d, ∀ level ∈ m.side d, level.Exact ∧ level.MatchesInRange) ∧
      ∀ tx, Exchange.CancelsClean l.openOrders tx → l.Fits tx → l.UpdatesInRange tx := by
  have ⟨e, hshows, counted⟩ := Shows.new.invariant Exchange.Counted.new h hc
    fun hshows hcond hs => Exchange.Counted.step hs (hshows.openOrders ▸ hcond)
  simp only [Fits, UpdatesInRange, hshows.markets, List.mem_singleton, forall_eq, hshows.openOrders]
  refine ⟨fun d level hl => ⟨counted.exact d level hl, (counted.exact d level hl).matchesInRange⟩, ?_⟩
  intro tx clean fits
  cases tx
  case transfer => trivial
  case order t =>
    intro price size ht o hp hb hf
    refine addOrderWithCmp_ok (hb ▸ hf) fun level hl hlevel => ?_
    have := fits price size ht level hl (hlevel.trans hp)
    simp only [LimitOrder.unfilled]
    omega
  case cancelOrder t =>
    intro x hx hid
    exact counted.cancelOrder_ok hx (clean x hx hid) (fits x hx hid)

-- Account 7 has two orders for ten lots each and takes two lots of the first one itself.
def ownLots : List SignedTransaction := [
  .transfer 1 7 0 5000 0,
  .transfer 1 7 1 5000 1,
  .transfer 1 8 1 5000 2,
  .limit 7 .sell 10 10 0,
  .limit 7 .sell 10 10 1,
  .market 7 .buy 2 2
]

theorem ownLots_exactLevels : ∃ l ts ns m level,
    (LedgerState.new 1).apply (ownLots ++ [.cancel 7 1 3]) = .ok (l, ts, ns) ∧
    l.spotClearinghouse.markets = [m] ∧ m.asksLevels = [level] ∧ level.volume = 8 ∧ level.cancelled = 1 ∧
    level.Exact ∧ level.MatchesInRange ∧ l.UpdatesInRange (.order ⟨8, 0, .sell, .limit 10 5, .pending, 0⟩) := by
  have h := exactLevels_of_clean (rfl : (LedgerState.new 1).apply (ownLots ++ [.cancel 7 1 3]) = .ok _) (by decide)
  have hlevel := h.1 _ (List.mem_singleton_self _) .sell _ (List.mem_singleton_self _)
  refine ⟨_, _, _, _, _, rfl, rfl, rfl, rfl, rfl, hlevel.1, hlevel.2, h.2 _ trivial ?_⟩
  intro price size ht m hm level hl _
  cases ht
  cases List.mem_singleton.mp hm
  cases List.mem_singleton.mp hl
  decide

-- The first order has eight lots left but is taken for ten when it is cancelled.
theorem ownLots_not_exactLevels : ∃ l ts ns m level,
    (LedgerState.new 1).apply (ownLots ++ [.cancel 7 0 3]) = .ok (l, ts, ns) ∧
    l.spotClearinghouse.markets = [m] ∧ m.asksLevels = [level] ∧ level.volume = 8 ∧ liveLots level.orders = 10 ∧
    ¬level.Exact ∧ l.apply [.limit 8 .buy 10 9 0] = .error .overflow := by
  refine ⟨_, _, _, _, _, rfl, rfl, rfl, rfl, rfl, ?_, rfl⟩
  intro h
  exact absurd h.volume (by decide)

end Superliquid

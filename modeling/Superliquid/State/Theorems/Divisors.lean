import Superliquid.State.Theorems.Backing
import Superliquid.State.Theorems.Cancelling
import Superliquid.State.Theorems.Panics

namespace Superliquid

open Checked SpotMarket SpotClearingHouse

-- Every panic but a division by zero.
def NotDivision (e : Panic) : Prop :=
  e ≠ .divisionByZero

instance : Ordinary NotDivision where
  overflow    := by simp [NotDivision]
  outOfBounds := by simp [NotDivision]

-- The lots of a part of a queue.
def queueLots (entries : List (Nat × LimitOrder)) : Nat :=
  (entries.map (·.2.remaining)).sum

-- The lots of a limit order last until one of the orders that it reaches, and a quote lot's worth can be taken there.
def SpotMarket.HasQuoteLot (m : SpotMarket) (p : MarketPrecision) (o : LimitOrder) : Prop :=
  ∃ pre price x post, liveEntries (m.reached o.common.direction o.priceMultiple) = pre ++ (price, x) :: post ∧
    queueLots pre < o.baseLots ∧ quoteLots p price (min (o.baseLots - queueLots pre) x.remaining) ≠ 0

-- A limit order that reaches a price trades a quote lot with somebody, and a market buy does not start at a price of
-- zero.
def SpotMarket.Divisible (m : SpotMarket) (p : MarketPrecision) : Order → Prop
  | .limit o =>
    (∀ best ∈ (m.side o.common.direction.flip).getLast?,
      o.common.direction.flip.cmp o.priceMultiple best.price = .gt) ∨ m.HasQuoteLot p o
  | .market (.sell _) => True
  | .market (.buy o)  => o.quoteSize = 0 ∨ ∀ best ∈ m.asksLevels.getLast?, best.price ≠ 0

section Queue

variable {own : LimitOrder → Bool} {crossing : Nat → Bool} {f : Fill} {lots price : Nat} {orders : List LimitOrder}
         {levels : List Level} {entries : List (Nat × LimitOrder)}

-- The fills of a number of lots with a queue.
def queueFills : Nat → List (Nat × LimitOrder) → List Fill
  | _, [] => []
  | lots, (price, order) :: entries =>
    if lots = 0 then []
    else { price, order, lots := min lots order.remaining } :: queueFills (lots - order.remaining) entries

theorem queueLots_cons {order : LimitOrder} :
    queueLots ((price, order) :: entries) = order.remaining + queueLots entries :=
  List.sum_cons

theorem queueLots_level : queueLots ((liveOrders orders).map fun o => (price, o)) = liveLots orders := by
  simp [queueLots, liveLots, Function.comp_def]

theorem queueFills_zero : queueFills 0 entries = [] := by
  cases entries <;> simp [queueFills]

theorem queueFills_append (xs ys : List (Nat × LimitOrder)) :
    queueFills lots (xs ++ ys) = queueFills lots xs ++ queueFills (lots - queueLots xs) ys := by
  induction xs generalizing lots
  case nil => rfl
  case cons entry xs hi =>
    have ⟨price, order⟩ := entry
    by_cases hz : lots = 0
    case pos => simp [hz, queueFills_zero]
    case neg => simp [queueFills, queueLots_cons, hz, hi, Nat.sub_sub]

theorem mem_queueFills : f ∈ queueFills lots entries ↔ ∃ pre post, entries = pre ++ (f.price, f.order) :: post ∧
    queueLots pre < lots ∧ f.lots = min (lots - queueLots pre) f.order.remaining := by
  induction entries generalizing lots
  case nil => simp [queueFills]
  case cons entry entries hi =>
    have ⟨price, order⟩ := entry
    by_cases hz : lots = 0
    case pos => simp [hz, queueFills_zero]
    rw [queueFills, if_neg hz, List.mem_cons, hi]
    constructor
    · rintro (hf | ⟨pre, post, he, hlt, hlots⟩)
      · subst hf
        exact ⟨[], entries, rfl, Nat.pos_of_ne_zero hz, rfl⟩
      · refine ⟨(price, order) :: pre, post, by rw [he]; rfl, ?_⟩
        rw [queueLots_cons, ← Nat.sub_sub]
        exact ⟨by omega, hlots⟩
    · rintro ⟨pre, post, he, hlt, hlots⟩
      cases pre
      case nil =>
        injection he with hentry _
        injection hentry with hprice horder
        subst hprice horder
        have hlots : f.lots = min lots f.order.remaining := hlots
        exact .inl (by rw [← hlots])
      case cons entry pre =>
        injection he with hentry he
        subst hentry
        rw [queueLots_cons] at hlt
        rw [queueLots_cons, ← Nat.sub_sub] at hlots
        exact .inr ⟨pre, post, he, by omega, hlots⟩

theorem walk_queueFills (hz : lots ≠ 0) :
    (walk own price lots orders).fills = queueFills lots ((liveOrders orders).map fun o => (price, o)) := by
  induction orders generalizing lots
  case nil => rfl
  case cons order orders hi =>
    by_cases live : order.IsLive
    case neg => rw [walk_skip live, liveOrders_skip live, ← hi hz]
    case pos =>
      rw [liveOrders_cons live, List.map_cons, queueFills, if_neg hz]
      rcases Nat.lt_trichotomy lots order.remaining with hl | hl | hl
      · rw [walk_part live hl, Nat.min_eq_left hl.le, Nat.sub_eq_zero_of_le hl.le, queueFills_zero]
      · rw [walk_last live hl, ← hl, Nat.min_self, Nat.sub_self, queueFills_zero]
      · rw [walk_next live hl, Nat.min_eq_right hl.le, ← hi (Nat.sub_ne_zero_of_lt hl)]

theorem sweep_queueFills : (sweep own (.base crossing) lots levels).fills =
    queueFills lots (liveEntries (levels.takeWhile fun level => crossing level.price)) := by
  induction levels generalizing lots
  case nil => rfl
  case cons level levels hi =>
    by_cases hz : lots = 0
    case pos =>
      rw [hz, queueFills_zero, sweep_stop (by simp [Budget.base])]
    case neg =>
      by_cases hc : crossing level.price
      case neg =>
        have hstop : (Budget.base crossing).lots lots level.price = 0 := by simp [Budget.base, hc]
        rw [sweep_stop hstop]
        simp [hc, liveEntries, queueFills]
      case pos =>
        have hlots : (Budget.base crossing).lots lots level.price = lots := by simp [Budget.base, hc]
        have htake : ((level :: levels).takeWhile fun level => crossing level.price) =
            level :: levels.takeWhile fun level => crossing level.price := by
          simp [hc]
        have taken := (walk_taken own level.price lots level.orders).remaining
        rw [htake, liveEntries_cons, queueFills_append, ← walk_queueFills hz, queueLots_level, taken]
        by_cases hl : (walk own level.price lots level.orders).left = []
        case neg =>
          rw [sweep_part (hlots.symm ▸ hz) (hlots.symm ▸ hl), walk_lots_eq hl, Nat.sub_add_eq,
            Nat.sub_self, Nat.zero_sub,
            queueFills_zero, List.append_nil, hlots]
        case pos =>
          have hnil : liveLots [] = 0 := rfl
          rw [sweep_whole (hlots.symm ▸ hz) (hlots.symm ▸ hl), hl, hnil, Nat.add_zero, hlots]
          exact congrArg _ hi

end Queue

section Divisors

variable {m m' : SpotMarket} {p : MarketPrecision} {o : LimitOrder} {fills : List Fill} {c : SpotClearingHouse}
         {order : Order}

theorem sumQuotes_ne_zero : sumQuotes p fills ≠ 0 ↔ ∃ f ∈ fills, quoteLots p f.price f.lots ≠ 0 := by
  simp [sumQuotes, List.sum_eq_zero_iff]

-- The quote lots of a limit order's fills, by the queue that it meets.
theorem hasQuoteLot_iff : m.HasQuoteLot p o ↔ sumQuotes p (m.sweep p (.limit o)).fills ≠ 0 := by
  have hfills : (m.sweep p (.limit o)).fills =
      queueFills o.baseLots (liveEntries (m.reached o.common.direction o.priceMultiple)) := sweep_queueFills
  rw [sumQuotes_ne_zero, hfills]
  constructor
  · rintro ⟨pre, price, x, post, he, hlt, hq⟩
    exact ⟨{ price, order := x, lots := _ }, mem_queueFills.mpr ⟨pre, post, he, hlt, rfl⟩, hq⟩
  · rintro ⟨f, hf, hq⟩
    obtain ⟨pre, post, he, hlt, hlots⟩ := mem_queueFills.mp hf
    exact ⟨pre, f.price, f.order, post, he, hlt, hlots ▸ hq⟩

-- Nothing is paid for no lots.
theorem sumLots_ne_zero (h : sumQuotes p fills ≠ 0) : sumLots fills ≠ 0 := by
  have ⟨f, hf, hq⟩ := sumQuotes_ne_zero.mp h
  intro hz
  have hlots : f.lots = 0 := List.sum_eq_zero_iff.mp hz f.lots (List.mem_map_of_mem hf)
  rw [hlots, quoteLots_zero] at hq
  contradiction

theorem addLimitOrder_none {baseAsset quoteAsset : AssetId} {r : Option LimitFillResult}
    (hb : ∀ best ∈ (m.side o.common.direction.flip).getLast?,
      o.common.direction.flip.cmp o.priceMultiple best.price = .gt)
    (h : m.addLimitOrder o baseAsset quoteAsset p = .ok (m', r)) : r = none := by
  rw [addLimitOrder_eq _ rfl] at h
  cases hlast : (m.side o.common.direction.flip).getLast?
  all_goals simp only [hlast] at h
  case none =>
    have ⟨_, _, h⟩ := bind_ok.mp h
    exact (Prod.mk.inj (pure_ok.mp h)).2.symm
  case some best =>
    rw [if_pos (hb best hlast)] at h
    have ⟨_, _, h⟩ := bind_ok.mp h
    exact (Prod.mk.inj (pure_ok.mp h)).2.symm

theorem SpotMarket.Divisible.zeroDivisors (hs : SortedBy OrderDirection.sell.cmp m.asksLevels)
    (hcost : ∀ price, p.lotCost price = 0 → price = 0) (h : m.Divisible p order) :
    m.ZeroDivisors NotDivision p order := by
  cases order
  case limit o =>
    intro m' result hadd
    cases addLimitOrder_cases hadd
    case inl hrest =>
      have ⟨_, _, hnone, _⟩ := hrest
      contradiction
    case inr hmatch =>
      have ⟨result', res, hr, _⟩ := hmatch
      cases hr
      have hquotes : sumQuotes p (m.sweep p (.limit o)).fills ≠ 0 := by
        cases h
        case inl hbest => exact absurd (addLimitOrder_none hbest hadd) (by simp)
        case inr hquote => exact hasQuoteLot_iff.mp hquote
      have hlots := sumLots_ne_zero hquotes
      rw [res.userOrder]
      cases o.common.direction
      all_goals
        refine ⟨fun hz => absurd hz ?_, fun _ hz => absurd hz ?_⟩
        all_goals assumption
  case market o =>
    cases o
    case sell => trivial
    case buy o =>
      intro hz level hl hprice
      have hbest := h.resolve_left hz
      have hlt : OrderDirection.sell.cmp level.price 0 = .lt := by
        refine hs.head_le (fun best hlast => ?_) _ (List.mem_map_of_mem hl)
        exact Nat.compare_eq_lt.mpr (Nat.pos_of_ne_zero (hbest best hlast))
      exact absurd (hcost _ hprice) (Nat.compare_eq_lt.mp hlt).ne'

-- The narrow widths only make a lock smaller.
theorem Order.lockAmount_le {lock : Nat} (h : order.lockAmount p = .ok lock) : lock ≤ order.exactAmount p := by
  cases order
  case limit o =>
    cases hd : o.common.direction
    case buy =>
      simp only [Order.lockAmount, hd, bind_ok, baseToQuoteLots_ok, U64.mul_ok] at h
      obtain ⟨_, ⟨_, hq⟩, _, hlock⟩ := h
      subst hq hlock
      simp only [Order.exactAmount, hd]
      exact Nat.mul_le_mul_right _ (Nat.mod_le _ _)
    case sell =>
      simp only [Order.lockAmount, hd, U64.mul_ok] at h
      simp only [Order.exactAmount, hd]
      exact h.2.ge
  case market o =>
    cases o
    all_goals
      simp only [Order.lockAmount, U128.mul_ok] at h
      exact h.2.ge

theorem divisible_of_execute {accounts : Accounts} {lock : Nat} {r : SpotClearingHouse × Option ExecutionResults}
    (h : c.execute m order p accounts lock = .ok r) : m.Divisible p order := by
  cases order
  case limit o =>
    simp only [execute, settleLimit, bind_ok, Prod.exists] at h
    obtain ⟨m', result, hadd, h⟩ := h
    cases addLimitOrder_cases hadd
    case inl hrest => exact .inl hrest.1
    case inr hmatch =>
      obtain ⟨result', res, hr, _⟩ := hmatch
      subst hr
      simp only [bind_ok, div_ok] at h
      obtain ⟨_, _, _, _, _, _, _, _, _, _, _, ⟨hin, _⟩, h⟩ := h
      refine .inr (hasQuoteLot_iff.mpr ?_)
      cases hd : o.common.direction
      case sell => simpa [res.userOrder, hd, OrderDirection.isBuy] using hin
      case buy =>
        have hasset : result'.userOrder.assetIn = m.baseAsset := by simp [res.userOrder, hd, OrderDirection.isBuy]
        rw [if_pos hasset] at h
        simp only [bind_ok, div_ok] at h
        obtain ⟨_, ⟨hout, _⟩, _⟩ := h
        simpa [res.userOrder, hd, OrderDirection.isBuy] using hout
  case market o =>
    cases o
    case sell  => trivial
    case buy o =>
      simp only [execute, SpotMarket.handleMarketOrder, executeMarketBuyOrder, bind_ok, Prod.exists] at h
      obtain ⟨_, _, ⟨_, _, ⟨_, _, _, hlevels, _⟩, _⟩, _⟩ := h
      by_cases hz : o.quoteSize = 0
      case pos => exact .inl hz
      case neg =>
        refine .inr fun best hlast hprice => ?_
        obtain ⟨levels, hl⟩ : ∃ levels, m.asksLevels.reverse = best :: levels := by
          rw [Option.mem_def, List.getLast?_eq_head?_reverse] at hlast
          exact List.head?_eq_some_iff.mp hlast
        simp only [hl, executeMarketBuyLevels, if_neg hz, bind_ok] at hlevels
        obtain ⟨_, hbase, _⟩ := hlevels
        obtain ⟨_, _, _, _, _, hcost, _⟩ := quoteLotsToBaseLots_ok.mp hbase
        simp [MarketPrecision.lotCost, hprice] at hcost

-- In every reachable state: orders that trade for something do not divide by zero, and an account that can pay does
-- not get any other order through.
theorem handleOrder_divisors {faucet : PublicKeyHash} {l : LedgerState} (hl : l.Reachable faucet)
    (hm : l.spotClearinghouse.markets[order.getMarketId]? = some m) (hp : l.marketPrecision order.getMarketId = .ok p)
    (hfunds : order.exactAmount p ≤ l.spotClearinghouse.available m order) :
    (m.Divisible p order → l.spotClearinghouse.handleOrder order p ≠ .error .divisionByZero) ∧
    ((∃ r, l.spotClearinghouse.handleOrder order p = .ok r) → m.Divisible p order) := by
  have hsupe := hl.marketPrecision hp
  have sound := sound_of_reachable hl (List.mem_of_getElem? hm)
  constructor
  · intro hdiv herror
    have hcost (price : Nat) (hz : p.lotCost price = 0) : price = 0 := by
      simpa [hsupe, MarketPrecision.lotCost, MarketPrecision.supeUsd] using hz
    have hunit : p.quoteUnit = 0 → NotDivision .divisionByZero := by
      intro hz
      simp [hsupe, MarketPrecision.quoteUnit, MarketPrecision.supeUsd] at hz
    refine handleOrder_panics hunit (fun m' hm' => ?_) _ herror rfl
    cases hm.symm.trans hm'
    exact hdiv.zeroDivisors (sound.sorted .sell) hcost
  · rintro ⟨r, h⟩
    rw [handleOrder_eq hm, bind_ok] at h
    obtain ⟨⟨accounts, lock⟩, haccept, h⟩ := h
    cases lock
    case some lock => exact divisible_of_execute h
    case none =>
      obtain ⟨_, lock, hlock, hlt⟩ := accept_none haccept
      exact absurd (Order.lockAmount_le hlock) (by omega)

theorem threePrices_divisors : ∃ (l : LedgerState) (m : SpotMarket),
    l.Reachable 1 ∧ l.spotClearinghouse.markets = [m] ∧ m.Divisible .supeUsd (.limit (.place 5 8 .buy 30 2)) ∧
    l.spotClearinghouse.handleOrder (.limit (.place 5 8 .buy 30 2)) .supeUsd ≠ .error .divisionByZero := by
  have ⟨l, ts, ns, m, hrun, hm, hp, hfunds, hdiv⟩ : ∃ (l : LedgerState) (ts : _) (ns : _) (m : SpotMarket),
      (LedgerState.new 1).apply threePrices = .ok (l, ts, ns) ∧ l.spotClearinghouse.markets = [m] ∧
      l.marketPrecision 0 = .ok .supeUsd ∧
      (Order.limit (.place 5 8 .buy 30 2)).exactAmount .supeUsd ≤
        l.spotClearinghouse.available m (.limit (.place 5 8 .buy 30 2)) ∧
      m.Divisible .supeUsd (.limit (.place 5 8 .buy 30 2)) :=
    ⟨_, _, _, _, rfl, rfl, rfl, by decide, .inr ⟨[], _, _, _, rfl, by decide, by decide⟩⟩
  have hmarket : l.spotClearinghouse.markets[(Order.limit (.place 5 8 .buy 30 2)).getMarketId]? = some m := by
    rw [hm]
    rfl
  have reachable := LedgerState.Reachable.of_apply hrun
  exact ⟨l, m, reachable, hm, hdiv, (handleOrder_divisors reachable hmarket hp hfunds).1 hdiv⟩

-- An ask for half a quote lot, and one for nothing.
def halfLotAsk : List SignedTransaction := [
  .transfer 1 7 0 5000 0,
  .transfer 1 8 1 5000 1,
  .limit 7 .sell 5 1 0
]

def freeAsk : List SignedTransaction := [
  .transfer 1 7 0 5000 0,
  .transfer 1 8 1 5000 1,
  .limit 7 .sell 0 1 0
]

-- Who buys all of the first with a limit order, or some of the second with a market order, has enough for it.
theorem asks_divide_by_zero :
    (∃ (l : LedgerState) (m : SpotMarket), l.Reachable 1 ∧ l.spotClearinghouse.markets = [m] ∧
      (Order.limit (.place 1 8 .buy 5 1)).exactAmount .supeUsd ≤
        l.spotClearinghouse.available m (.limit (.place 1 8 .buy 5 1)) ∧
      l.spotClearinghouse.handleOrder (.limit (.place 1 8 .buy 5 1)) .supeUsd = .error .divisionByZero) ∧
    (∃ (l : LedgerState) (m : SpotMarket), l.Reachable 1 ∧ l.spotClearinghouse.markets = [m] ∧
      (Order.market (.buy (.place 1 8 1))).exactAmount .supeUsd ≤
        l.spotClearinghouse.available m (.market (.buy (.place 1 8 1))) ∧
      l.spotClearinghouse.handleOrder (.market (.buy (.place 1 8 1))) .supeUsd = .error .divisionByZero) := by
  have ⟨l, ts, ns, m, hrun, hrest⟩ : ∃ (l : LedgerState) (ts : _) (ns : _) (m : SpotMarket),
      (LedgerState.new 1).apply halfLotAsk = .ok (l, ts, ns) ∧ l.spotClearinghouse.markets = [m] ∧
      (Order.limit (.place 1 8 .buy 5 1)).exactAmount .supeUsd ≤
        l.spotClearinghouse.available m (.limit (.place 1 8 .buy 5 1)) ∧
      l.spotClearinghouse.handleOrder (.limit (.place 1 8 .buy 5 1)) .supeUsd = .error .divisionByZero :=
    ⟨_, _, _, _, rfl, rfl, by decide, rfl⟩
  have ⟨l', ts', ns', m', hrun', hrest'⟩ : ∃ (l : LedgerState) (ts : _) (ns : _) (m : SpotMarket),
      (LedgerState.new 1).apply freeAsk = .ok (l, ts, ns) ∧ l.spotClearinghouse.markets = [m] ∧
      (Order.market (.buy (.place 1 8 1))).exactAmount .supeUsd ≤
        l.spotClearinghouse.available m (.market (.buy (.place 1 8 1))) ∧
      l.spotClearinghouse.handleOrder (.market (.buy (.place 1 8 1))) .supeUsd = .error .divisionByZero :=
    ⟨_, _, _, _, rfl, rfl, by decide, rfl⟩
  exact ⟨⟨l, m, .of_apply hrun, hrest⟩, ⟨l', m', .of_apply hrun', hrest'⟩⟩

end Divisors
end Superliquid

import Mathlib.Data.List.TakeWhile
import Superliquid.State.Theorems.Backing
import Superliquid.State.Theorems.Naive

namespace Superliquid

open SpotMarket

section Split

variable {own : LimitOrder → Bool} {price lots : Nat} {orders : List LimitOrder}

theorem wholes_nil_parts {fills : List Fill} (h : parts fills = []) : wholes fills = fills := by
  simp only [parts, List.filter_eq_nil_iff, decide_not, Bool.not_eq_true', decide_eq_false_iff_not, not_not] at h
  simpa [wholes, List.filter_eq_self] using h

-- Only the last order that a match meets can be left with something.
theorem walk_fills_eq :
    let fills := (walk own price lots orders).fills
    fills = wholes fills ++ parts fills := by
  induction orders generalizing lots
  case nil => rfl
  case cons order orders hi =>
    by_cases live : order.IsLive
    case neg => simpa only [walk_skip live] using hi
    case pos =>
      rcases Nat.lt_trichotomy lots order.remaining with hl | hl | hl
      · rw [walk_part live hl]
        have hp : ¬Fill.Whole { price, order, lots } := Nat.not_le.mpr hl
        simp [wholes_part hp, parts_part hp]
      · rw [walk_last live hl]
        have hw : Fill.Whole { price, order, lots } := hl.ge
        simp only [wholes_cons hw, parts_cons hw]
        rfl
      · rw [walk_next live hl]
        have hw : Fill.Whole { price, order, lots := order.remaining } := le_rfl
        simp only [wholes_cons hw, parts_cons hw, List.cons_append]
        exact congrArg _ hi

theorem sweep_fills_eq (b : Budget) (budget : Nat) (levels : List Level) :
    let fills := (sweep own b budget levels).fills
    fills = wholes fills ++ parts fills := by
  induction levels generalizing budget
  case nil => rfl
  case cons level levels hi =>
    by_cases hz : b.lots budget level.price = 0
    case pos => rw [sweep_stop hz]; rfl
    by_cases hl : (walk own level.price (b.lots budget level.price) level.orders).left = []
    case neg => rw [sweep_part hz hl]; exact walk_fills_eq
    case pos =>
      have hparts : parts (walk own level.price (b.lots budget level.price) level.orders).fills = [] := by
        have ⟨rest, _, hafter⟩ := (walk_taken own level.price (b.lots budget level.price) level.orders).live
        rw [hl] at hafter
        exact List.map_eq_nil_iff.mp (List.append_eq_nil_iff.mp hafter.symm).1
      rw [sweep_whole hz hl]
      simp only [wholes_append, parts_append, hparts, wholes_nil_parts hparts, List.nil_append, List.append_assoc]
      exact congrArg _ (hi _)

end Split

-- An order of direction `d` trades with the first live orders of a queue. All of them are used up but the
-- last one, which may be left with less.
structure Consumes (d : OrderDirection) (own : LimitOrder → Bool) (fills : List Fill) (levels levels' : List Level)
    (filledOrders : List LimitOrder) (residual : Option ResidualOrder) : Prop where
  queue  : ∃ rest, liveQueue d levels = fills.map Fill.order ++ rest ∧
             liveQueue d levels' = (parts fills).map (Fill.after own) ++ rest
  split  : fills = wholes fills ++ parts fills
  single : (parts fills).length ≤ 1
  used   : liveOrders filledOrders = (wholes fills).map (Fill.after own)
  rested : residual.toList = (parts fills).map (Fill.residual own)
  prices : ∀ f ∈ fills, f.price = f.order.priceMultiple
  whole  : ∀ f ∈ wholes fills, f.lots = f.order.remaining
  part   : ∀ f ∈ parts fills, f.lots < f.order.remaining

theorem sweep_consumes {d : OrderDirection} {levels : List Level} (h : RepresentedSide d.flip levels)
    (own : LimitOrder → Bool) (b : Budget) (budget : Nat) :
    let sw := sweep own b budget levels.reverse
    Consumes d own sw.fills levels sw.levels.reverse sw.drained sw.residual := by
  have represented : ∀ l ∈ levels.reverse, l.Represented := by simpa using h.levels
  have queued := queued_of_represented h.prefers represented
  have taken := sweep_taken own b budget levels.reverse
  obtain ⟨rest, hbefore, hafter⟩ := taken.live
  have left : Queued d (liveOrders (sideOrders (sweep own b budget levels.reverse).levels)) := by
    refine queued.of_terms ?_
    rw [hbefore, hafter, orderTerms_append, orderTerms_append]
    refine List.Sublist.append ?_ (List.Sublist.refl _)
    simp only [orderTerms, List.map_map, Function.comp_def, Fill.after_terms]
    exact List.filter_sublist.map _
  constructor
  case queue =>
    refine ⟨rest, (liveQueue_eq queued).trans hbefore, ?_⟩
    rw [← hafter, liveQueue_eq, List.reverse_reverse]
    rwa [List.reverse_reverse]
  case split => exact sweep_fills_eq b budget levels.reverse
  case single =>
    rw [← List.length_map, ← taken.rested]
    exact Option.length_toList_le
  case used => exact taken.used
  case rested => exact taken.rested
  case prices =>
    intro f hf
    obtain ⟨level, hl, hp, ho, _⟩ := sweep_fills_mem hf
    rw [hp, (represented level hl).price f.order ho]
  case whole =>
    intro f hf
    obtain ⟨hf, hw⟩ := List.mem_filter.mp hf
    exact le_antisymm (taken.lots f hf) (of_decide_eq_true hw)
  case part =>
    intro f hf
    obtain ⟨_, hp⟩ := List.mem_filter.mp hf
    exact Nat.not_le.mp (of_decide_eq_true hp)

-- What a market sell and a market buy report about the orders they took.
structure SellAccounts (own : LimitOrder → Bool) (precision : MarketPrecision) (fills : List Fill)
    (result : MarketSellResult) : Prop where
  baseFilledLots : result.baseFilledLots = sumLots (traded own fills)
  quoteLotsIn    : result.quoteLotsIn = sumQuotes precision (traded own fills)
  selfFill       : result.selfFill = sumLots (selfTraded own fills)
  total          : result.baseFilledLots + result.selfFill = sumLots fills

structure BuyAccounts (own : LimitOrder → Bool) (precision : MarketPrecision) (fills : List Fill)
    (result : MarketBuyResult) : Prop where
  quoteFilledLots : result.quoteFilledLots = sumQuotes precision (traded own fills)
  baseLotsIn      : result.baseLotsIn = sumLots (traded own fills)
  selfFill        : result.selfFill = sumQuotes precision (selfTraded own fills)
  total           : result.quoteFilledLots + result.selfFill = sumQuotes precision fills

section Market

variable {levels levels' : List Level} {precision : MarketPrecision}

theorem executeMarketSellOrder_accounts {order : MarketSellOrder} {result : MarketSellResult}
    (h : executeMarketSellOrder levels order precision = .ok (levels', result)) :
    SellAccounts (ofAccount order.common.account) precision (marketSellSweep levels order).fills result := by
  have out := executeMarketSellOrder_outcome h
  have self : result.selfFill =
      sumLots (selfTraded (ofAccount order.common.account) (marketSellSweep levels order).fills) := by
    simp only [executeMarketSellOrder, Checked.bind_ok, Checked.pure_ok, Prod.exists, Prod.mk.injEq] at h
    obtain ⟨_, _, s, hx, _, _, _, _, _, hr⟩ := h
    subst hr
    exact (executeMarketSellLevels_swept rfl hx).selfFill.trans (Nat.zero_add _)
  refine ⟨out.baseFilledLots, out.quoteLotsIn, self, ?_⟩
  rw [out.baseFilledLots, self, ← sumLots_traded]

theorem executeMarketBuyOrder_accounts {order : MarketBuyOrder} {result : MarketBuyResult}
    (h : executeMarketBuyOrder levels order precision = .ok (levels', result)) :
    BuyAccounts (ofAccount order.common.account) precision (marketBuySweep levels order precision).fills result := by
  have out := executeMarketBuyOrder_outcome h
  have self : result.selfFill = sumQuotes precision
      (selfTraded (ofAccount order.common.account) (marketBuySweep levels order precision).fills) := by
    simp only [executeMarketBuyOrder, Checked.bind_ok, Checked.pure_ok, Prod.exists, Prod.mk.injEq] at h
    obtain ⟨_, _, s, hx, _, _, _, _, _, hr⟩ := h
    subst hr
    exact (executeMarketBuyLevels_swept rfl hx).selfFillQuotes.trans (Nat.zero_add _)
  refine ⟨out.quoteFilledLots, out.baseLotsIn, self, ?_⟩
  rw [out.quoteFilledLots, self, ← sumQuotes_traded]

-- A market order takes the best prices and the oldest orders first, and every lot that it takes is counted
-- once: as traded with others, or as traded with its own account.
theorem marketOrders_consume (precision : MarketPrecision) :
    (∀ levels levels' order result, RepresentedSide .buy levels →
      executeMarketSellOrder levels order precision = .ok (levels', result) →
      ∃ fills, Consumes .sell (ofAccount order.common.account) fills levels levels' result.filledOrders
          result.residualOrder ∧
        SellAccounts (ofAccount order.common.account) precision fills result ∧
        sumLots fills = min order.baseSize (liveLots (sideOrders levels))) ∧
    (∀ levels levels' order result, RepresentedSide .sell levels →
      executeMarketBuyOrder levels order precision = .ok (levels', result) →
      ∃ fills, Consumes .buy (ofAccount order.common.account) fills levels levels' result.filledOrders
          result.residualOrder ∧
        BuyAccounts (ofAccount order.common.account) precision fills result) := by
  constructor
  · intro levels levels' order result represented h
    have swept := (executeMarketSellOrder_outcome h).swept
    have consumes := sweep_consumes (d := .sell) represented (ofAccount order.common.account) (.base anyPrice)
      order.baseSize
    have lots : sumLots (marketSellSweep levels order).fills = min order.baseSize (liveLots (sideOrders levels)) := by
      have hall : (levels.reverse.takeWhile fun level => anyPrice level.price) = levels.reverse :=
        List.takeWhile_eq_self_iff.mpr fun _ _ => rfl
      rw [marketSellSweep, sweep_lots_eq, hall]
      exact congrArg _ ((liveOrders_perm sideOrders_reverse).map _).sum_eq
    refine ⟨_, ?_, executeMarketSellOrder_accounts h, lots⟩
    rw [swept.filled, swept.residual, ← List.reverse_reverse levels', swept.levels]
    exact consumes
  · intro levels levels' order result represented h
    have swept := (executeMarketBuyOrder_outcome h).swept
    have consumes := sweep_consumes (d := .buy) represented (ofAccount order.common.account) (.quote precision)
      order.quoteSize
    refine ⟨_, ?_, executeMarketBuyOrder_accounts h⟩
    rw [swept.filled, swept.residual, ← List.reverse_reverse levels', swept.levels]
    exact consumes

-- Bids at 20, one of them cancelled, and at 10.
def mixedBids : List Level := [
  { price := 10, volume := 6, orders := [.place 1 7 .buy 10 6], cancelled := 0 },
  { price := 20, volume := 8, cancelled := 1
    orders := [
      { LimitOrder.place 0 7 .buy 20 9 with common.status := .cancelled },
      { LimitOrder.place 2 7 .buy 20 5 with filledBaseLots := 2 },
      { LimitOrder.place 3 8 .buy 20 6 with selfFilled := 1 }] }]

def eightSells : MarketSellOrder where
  baseSize := 10
  filledSize := 0
  selfFilled := 0
  averageExecutionPrice := 0
  common := { id := 4, marketId := 0, status := .open, account := 8, direction := .sell }

def eightBuys : MarketBuyOrder where
  quoteSize := 20
  filledSize := 0
  selfFilled := 0
  averageExecutionPrice := 0
  common := { id := 4, marketId := 0, status := .open, account := 8, direction := .buy }

-- Account 8 sells 3 and 2 lots to account 7, and 5 to itself. It buys 3 lots of account 7 for 6 quote lots and
-- its own 5 for 10, at 20, then a lot for 3 at 30.
theorem mixed_consume :
    (∃ levels result fills, executeMarketSellOrder mixedBids eightSells .supeUsd = .ok (levels, result) ∧
      Consumes .sell (ofAccount 8) fills mixedBids levels result.filledOrders result.residualOrder ∧
      SellAccounts (ofAccount 8) .supeUsd fills result ∧ sumLots fills = min 10 (liveLots (sideOrders mixedBids)) ∧
      result.baseFilledLots = 5 ∧ result.selfFill = 5) ∧
    (∃ levels result fills, executeMarketBuyOrder mixedAsks eightBuys .supeUsd = .ok (levels, result) ∧
      Consumes .buy (ofAccount 8) fills mixedAsks levels result.filledOrders result.residualOrder ∧
      BuyAccounts (ofAccount 8) .supeUsd fills result ∧ result.quoteFilledLots = 9 ∧ result.selfFill = 10) := by
  have bids : RepresentedSide .buy mixedBids := by
    refine ⟨by simp [SortedBy, mixedBids, OrderDirection.cmp, ascending, compare_lt_iff_lt], fun level hl => ?_⟩
    simp only [mixedBids, List.mem_cons, List.not_mem_nil, or_false] at hl
    rcases hl with rfl | rfl
    · exact ⟨⟨by decide, by decide⟩, by decide, by decide, by decide, by decide⟩
    · exact ⟨⟨by decide, by decide⟩, by decide, by decide, by decide, by decide⟩
  have asks : RepresentedSide .sell mixedAsks := mixedAsks_represented
  obtain ⟨sells, buys⟩ := marketOrders_consume .supeUsd
  constructor
  · obtain ⟨levels, result, hx⟩ : ∃ levels result,
      executeMarketSellOrder mixedBids eightSells .supeUsd = .ok (levels, result) ∧
        result.baseFilledLots = 5 ∧ result.selfFill = 5 :=
      ⟨_, _, rfl, rfl, rfl⟩
    obtain ⟨fills, hsell, hsold, hlots⟩ := sells _ _ _ _ bids hx.1
    exact ⟨levels, result, fills, hx.1, hsell, hsold, hlots, hx.2⟩
  · obtain ⟨levels, result, hx⟩ : ∃ levels result,
      executeMarketBuyOrder mixedAsks eightBuys .supeUsd = .ok (levels, result) ∧
        result.quoteFilledLots = 9 ∧ result.selfFill = 10 :=
      ⟨_, _, rfl, rfl, rfl⟩
    obtain ⟨fills, hbuy, hbought⟩ := buys _ _ _ _ asks hx.1
    exact ⟨levels, result, fills, hx.1, hbuy, hbought, hx.2⟩

end Market
end Superliquid

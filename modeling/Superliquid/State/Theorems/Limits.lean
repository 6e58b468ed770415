import Mathlib.Algebra.BigOperators.Group.List.Lemmas
import Mathlib.Algebra.BigOperators.Ring.List
import Superliquid.State.Theorems.Funds
import Superliquid.State.Theorems.Priority

namespace Superliquid

open MarketPrecision SpotMarket

-- The price and the lots of the fills that a result reports: orders that are used up, then the residual order.
def LimitFillResult.fills (result : LimitFillResult) : List (Nat × Nat) :=
  (liveOrders result.filledOrders).map (fun o => (o.priceMultiple, o.remaining)) ++
    result.residualOrder.toList.map fun r => (r.priceMultiple, r.filledBaseLots)

-- The quote lots of a trade fit into 64 bits, and so does the arithmetic that computes them.
def MarketPrecision.InRange (p : MarketPrecision) (price lots : Nat) : Prop :=
  p.Fits price lots ∧ p.exactQuoteLots price lots < 2 ^ 64

section Exact

variable {p : MarketPrecision} {price price' lots lots' : Nat}

theorem MarketPrecision.InRange.mono (h : p.InRange price' lots') (hp : price ≤ price') (hl : lots ≤ lots') :
    p.InRange price lots :=
  ⟨h.1.mono hp hl, (exactQuoteLots_mono hp hl).trans_lt h.2⟩

theorem MarketPrecision.InRange.baseToQuoteLots (h : p.InRange price lots) :
    baseToQuoteLots lots price p = .ok (p.exactQuoteLots price lots) :=
  baseToQuoteLots_ok.mpr ⟨h.1, (Nat.mod_eq_of_lt h.2).symm⟩

theorem MarketPrecision.InRange.quoteLots_eq (h : p.InRange price lots) :
    quoteLots p price lots = p.exactQuoteLots price lots :=
  quoteLots_of_ok h.baseToQuoteLots

-- Lots that are converted in pieces come to no more than all of them at once.
theorem MarketPrecision.sum_exactQuoteLots_le (p : MarketPrecision) (price : Nat) (xs : List α) (lots : α → Nat) :
    (xs.map fun x => p.exactQuoteLots price (lots x)).sum ≤ p.exactQuoteLots price (xs.map lots).sum := by
  have hsum : (xs.map fun x => lots x * p.lotCost price).sum = (xs.map lots).sum * p.lotCost price :=
    List.sum_map_mul_right ..
  simp only [exactQuoteLots, ← hsum]
  exact Floor.sum_div_le _ _ _

end Exact

section Limit

variable {levels levels' : List Level} {order order' : LimitOrder} {assetIn assetOut : AssetId} {p : MarketPrecision}
         {result : LimitFillResult}

-- The reported fills are those of the naive matcher.
theorem executeLimit_fills (represented : RepresentedSide order.common.direction.flip levels)
    (h : executeLimit levels order assetIn assetOut order.common.direction.isBuy p order.common.direction.flip.cmp =
      .ok (levels', order', result)) :
    result.fills = (limitSweep levels order order.common.direction.flip.cmp).fills.map fun f => (f.price, f.lots) := by
  have out := executeLimit_result h
  have consumes := sweep_consumes represented notOwn
    (.base (crosses order.common.direction.flip.cmp order.priceMultiple)) order.baseLots
  have filled : result.filledOrders = (limitSweep levels order order.common.direction.flip.cmp).drained :=
    out.swept.filled
  have used : liveOrders result.filledOrders =
      (wholes (limitSweep levels order order.common.direction.flip.cmp).fills).map Fill.order := by
    rw [filled]
    refine consumes.used.trans (List.map_congr_left fun f hf => Fill.after_whole rfl (consumes.whole f hf).ge)
  have rested : result.residualOrder.toList =
      (parts (limitSweep levels order order.common.direction.flip.cmp).fills).map (Fill.residual notOwn) := by
    rw [out.swept.residual]
    exact consumes.rested
  have split : (limitSweep levels order order.common.direction.flip.cmp).fills = _ := consumes.split
  rw [LimitFillResult.fills, used, rested, split, List.map_append, List.map_map, List.map_map, ← split]
  congr 1
  refine List.map_congr_left fun f hf => ?_
  have hfill : f ∈ (limitSweep levels order order.common.direction.flip.cmp).fills := List.mem_of_mem_filter hf
  exact Prod.ext (consumes.prices f hfill).symm (consumes.whole f hf).symm

theorem executeLimit_reaches (represented : RepresentedSide order.common.direction.flip levels)
    (h : executeLimit levels order assetIn assetOut order.common.direction.isBuy p order.common.direction.flip.cmp =
      .ok (levels', order', result)) {price lots : Nat} (hf : (price, lots) ∈ result.fills) :
    order.common.direction.Reaches order.priceMultiple price := by
  rw [executeLimit_fills represented h, List.mem_map] at hf
  have ⟨f, hf, heq⟩ := hf
  have ⟨hp, _⟩ := Prod.mk.inj heq
  have ⟨n, hn⟩ := sweep_fills_lots hf
  by_contra hreach
  have hgt := OrderDirection.cmp_gt_iff.mpr hreach
  simp [Budget.base, crosses, hp, hgt] at hn

-- What the order itself got and paid, in terms of the reported fills.
theorem executeLimit_userOrder (represented : RepresentedSide order.common.direction.flip levels)
    (h : executeLimit levels order assetIn assetOut order.common.direction.isBuy p order.common.direction.flip.cmp =
      .ok (levels', order', result)) :
    let quotes := (result.fills.map fun f => quoteLots p f.1 f.2).sum
    result.userOrder.filledSize = (result.fills.map Prod.snd).sum ∧
    result.userOrder.filledSize ≤ order.baseLots ∧
    (order.common.direction = .buy → result.userOrder.lotsOut = quotes) ∧
    (order.common.direction = .sell → result.userOrder.lotsIn = quotes) := by
  have user := (executeLimit_result h).userOrder
  rw [executeLimit_fills represented h, user]
  simp only [List.map_map, Function.comp_def]
  refine ⟨rfl, sweep_lots_le _ _ _ _, fun hd => ?_, fun hd => ?_⟩
  · simp only [hd, OrderDirection.isBuy, decide_true, if_true]
    rfl
  · simp only [hd, OrderDirection.isBuy, reduceCtorEq, decide_false, Bool.false_eq_true, if_false]
    rfl

-- No trade is worse than the limit. Where no conversion loses bits, a buy pays no more than its lots cost at
-- the limit, which is within its lock, and a sell gets no less for each of its fills.
theorem executeLimit_protects (represented : RepresentedSide order.common.direction.flip levels)
    (h : executeLimit levels order assetIn assetOut order.common.direction.isBuy p order.common.direction.flip.cmp =
      .ok (levels', order', result)) :
    (∀ f ∈ result.fills, order.common.direction.Reaches order.priceMultiple f.1) ∧
    (order.common.direction = .buy → p.InRange order.priceMultiple result.userOrder.filledSize →
      ∃ q, baseToQuoteLots result.userOrder.filledSize order.priceMultiple p = .ok q ∧ result.userOrder.lotsOut ≤ q) ∧
    (order.common.direction = .buy → p.InRange order.priceMultiple order.baseLots →
      ∀ lock, (Order.limit order).lockAmount p = .ok lock → p.quoteLotSize * result.userOrder.lotsOut ≤ lock) ∧
    (order.common.direction = .sell → (∀ f ∈ result.fills, p.InRange f.1 f.2) →
      ∃ quotes, result.fills.mapM (fun f => baseToQuoteLots f.2 order.priceMultiple p) = .ok quotes ∧
        quotes.sum ≤ result.userOrder.lotsIn) := by
  have reaches {f : Nat × Nat} (hf : f ∈ result.fills) : order.common.direction.Reaches order.priceMultiple f.1 :=
    executeLimit_reaches represented h hf
  obtain ⟨hsize, hle, hbuy, hsell⟩ := executeLimit_userOrder represented h
  have buys (hd : order.common.direction = .buy)
      (range : p.InRange order.priceMultiple result.userOrder.filledSize) :
      result.userOrder.lotsOut ≤ p.exactQuoteLots order.priceMultiple result.userOrder.filledSize := by
    have hlots {f : Nat × Nat} (hf : f ∈ result.fills) : f.2 ≤ result.userOrder.filledSize :=
      hsize ▸ List.single_le_sum (by simp) _ (List.mem_map_of_mem hf)
    have price {f : Nat × Nat} (hf : f ∈ result.fills) : f.1 ≤ order.priceMultiple := by
      have := reaches hf
      rwa [hd] at this
    calc result.userOrder.lotsOut
      _ = (result.fills.map fun f => quoteLots p f.1 f.2).sum := hbuy hd
      _ ≤ (result.fills.map fun f => p.exactQuoteLots order.priceMultiple f.2).sum := by
        refine List.sum_le_sum fun f hf => ?_
        rw [(range.mono (price hf) (hlots hf)).quoteLots_eq]
        exact exactQuoteLots_mono (price hf) le_rfl
      _ ≤ p.exactQuoteLots order.priceMultiple result.userOrder.filledSize := by
        rw [hsize]
        exact p.sum_exactQuoteLots_le _ _ _
  refine ⟨fun f hf => reaches hf, fun hd range => ⟨_, range.baseToQuoteLots, buys hd range⟩,
    fun hd range lock hlock => ?_,
    fun hd range => ?_⟩
  · simp only [Order.lockAmount, hd, range.baseToQuoteLots, Checked.ok_bind, U64.mul_ok] at hlock
    obtain ⟨_, hlock⟩ := hlock
    rw [← hlock, Nat.mul_comm]
    exact Nat.mul_le_mul_right _ ((buys hd (range.mono le_rfl hle)).trans (exactQuoteLots_mono le_rfl hle))
  · have price {f : Nat × Nat} (hf : f ∈ result.fills) : order.priceMultiple ≤ f.1 := by
      have := reaches hf
      rwa [hd] at this
    refine ⟨_, Checked.mapM_ok fun f hf => ((range f hf).mono (price hf) le_rfl).baseToQuoteLots, ?_⟩
    rw [hsell hd]
    refine List.sum_le_sum fun f hf => ?_
    rw [(range f hf).quoteLots_eq]
    exact exactQuoteLots_mono (price hf) le_rfl

-- The buyer gets 8 lots at 20 and 2 at 30, for 22 quote lots of the 30 at most.
theorem mixedAsks_protects :
    let order := LimitOrder.place 4 9 .buy 30 10
    ∃ r, executeLimit mixedAsks order 0 1 true .supeUsd descending = .ok r ∧ r.2.2.userOrder.lotsOut = 22 ∧
      (∀ f ∈ r.2.2.fills, f.1 ≤ 30) ∧
      (∃ q, baseToQuoteLots r.2.2.userOrder.filledSize 30 .supeUsd = .ok q ∧ r.2.2.userOrder.lotsOut ≤ q) ∧
      ∀ lock, (Order.limit order).lockAmount .supeUsd = .ok lock → 100 * r.2.2.userOrder.lotsOut ≤ lock := by
  have ⟨⟨levels', order', result⟩, h, hsize, hout⟩ : ∃ r,
      executeLimit mixedAsks (.place 4 9 .buy 30 10) 0 1 true .supeUsd descending = .ok r ∧
      r.2.2.userOrder.filledSize = 10 ∧ r.2.2.userOrder.lotsOut = 22 := ⟨_, rfl, rfl, rfl⟩
  have range : MarketPrecision.supeUsd.InRange 30 10 :=
    ⟨⟨by decide, by decide, by decide, by decide, by decide, by decide⟩, by decide⟩
  have represented : RepresentedSide (LimitOrder.place 4 9 .buy 30 10).common.direction.flip mixedAsks :=
    mixedAsks_represented
  have ⟨reaches, pays, locks, _⟩ := executeLimit_protects represented h
  exact ⟨_, h, hout, reaches, pays rfl (hsize ▸ range), locks rfl range⟩

end Limit

-- What was taken from the available balance for a limit buy pays for its lots at its price, however they are
-- split into fills.
def LockCovers (c : SpotClearingHouse) (m : SpotMarket) (o : LimitOrder) (p : MarketPrecision) (accounts : Accounts) :
    Prop :=
  ∀ fills : List Nat, fills.sum ≤ o.baseLots →
    ∃ quotes, fills.mapM (fun lots => baseToQuoteLots lots o.priceMultiple p) = .ok quotes ∧
      (quotes.map (· * p.quoteLotSize)).sum ≤
        c.available m (.limit o) - (accounts.balance o.common.account m.quoteAsset).availableBalance

section Lock

variable {c : SpotClearingHouse} {m : SpotMarket} {o : LimitOrder} {accounts : Accounts} {lock : Nat}

theorem lockCovers_iff (hd : o.common.direction = .buy) (hlots : o.baseLots < 2 ^ 64)
    (hprice : o.priceMultiple < 2 ^ 64)
    (h : c.accept m (.limit o) .supeUsd = .ok (accounts, some lock)) :
    LockCovers c m o .supeUsd accounts ↔ o.baseLots * o.priceMultiple < 10 * 2 ^ 64 := by
  obtain ⟨hlock, hle, hbal⟩ := SpotClearingHouse.accept_some h
  simp only [Order.lockAmount, hd, Checked.bind_ok, baseToQuoteLots_ok, U64.mul_ok] at hlock
  obtain ⟨_, ⟨fits, hq⟩, hlt, hlock⟩ := hlock
  have hasset : payAsset m.baseAsset m.quoteAsset (Order.limit o).direction = m.quoteAsset := by
    simp [Order.direction, hd, payAsset]
  have htaken : c.available m (.limit o) - (accounts.balance o.common.account m.quoteAsset).availableBalance =
      lock := by
    rw [hbal, if_pos ⟨rfl, hasset.symm⟩]
    exact Nat.sub_sub_self hle
  have hquotes (fills : List Nat) (hfills : fills.sum ≤ o.baseLots) :
      fills.mapM (fun lots => baseToQuoteLots lots o.priceMultiple .supeUsd) =
        .ok (fills.map fun lots => lots * o.priceMultiple / 10 % 2 ^ 64) := by
    refine Checked.mapM_ok fun lots hl => baseToQuoteLots_ok.mpr ⟨?_, by rw [exactQuoteLots_supeUsd]⟩
    exact fits.mono le_rfl ((List.single_le_sum (by simp) _ hl).trans hfills)
  rw [exactQuoteLots_supeUsd] at hq
  subst hq
  have hsum (quotes : List Nat) :
      (quotes.map (· * MarketPrecision.supeUsd.quoteLotSize)).sum =
        quotes.sum * MarketPrecision.supeUsd.quoteLotSize := by
    rw [List.sum_map_mul_right, List.map_id']
  constructor
  · -- One lot at a time costs about as much as all at once, which the lock has lost the upper bits of.
    intro hcovers
    by_contra hge
    have hfills : (List.replicate o.baseLots 1).sum ≤ o.baseLots := by simp
    obtain ⟨quotes, hok, hle⟩ := hcovers _ hfills
    rw [hquotes _ hfills] at hok
    injection hok with hok
    subst hok
    have hten : 10 < o.priceMultiple := by
      by_contra hten
      have := Nat.mul_le_mul_left o.baseLots (Nat.le_of_not_lt hten)
      omega
    have hpiece : o.priceMultiple / 10 % 2 ^ 64 = o.priceMultiple / 10 := Nat.mod_eq_of_lt (by omega)
    have htotal : o.baseLots * o.priceMultiple ≤ o.baseLots * (20 * (o.priceMultiple / 10)) :=
      Nat.mul_le_mul_left _ (by omega)
    rw [Nat.mul_left_comm] at htotal
    rw [htaken, hsum, List.map_replicate, List.sum_replicate, nsmul_eq_mul, Nat.cast_id, Nat.one_mul,
      hpiece, ← hlock] at hle
    have hsize : MarketPrecision.supeUsd.quoteLotSize = 100 := rfl
    rw [hsize] at hle hlt
    omega
  · intro hfit fills hfills
    refine ⟨_, hquotes fills hfills, ?_⟩
    rw [htaken, hsum, ← hlock]
    refine Nat.mul_le_mul_right _ ?_
    have hall : o.baseLots * o.priceMultiple / 10 % 2 ^ 64 = o.baseLots * o.priceMultiple / 10 :=
      Nat.mod_eq_of_lt (by omega)
    have hpieces : (fills.map fun lots => lots * o.priceMultiple).sum = fills.sum * o.priceMultiple := by
      rw [List.sum_map_mul_right, List.map_id']
    rw [hall]
    calc (fills.map fun lots => lots * o.priceMultiple / 10 % 2 ^ 64).sum
      _ ≤ (fills.map fun lots => lots * o.priceMultiple / 10).sum :=
        List.sum_le_sum fun lots _ => Nat.mod_le _ _
      _ ≤ (fills.map fun lots => lots * o.priceMultiple).sum / 10 :=
        Floor.sum_div_le _ _ _
      _ ≤ o.baseLots * o.priceMultiple / 10 := by
        rw [hpieces]
        exact Nat.div_le_div_right (Nat.mul_le_mul_right _ hfills)

-- The lock of a limit buy covers its fills just if no bits of the quote lots are lost.
theorem limitBuy_lockCovers_iff {faucet : PublicKeyHash} {l : LedgerState} {id : MarketId} {p : MarketPrecision}
    (hl : l.Reachable faucet) (hp : l.marketPrecision id = .ok p) (hd : o.common.direction = .buy)
    (hlots : o.baseLots < 2 ^ 64) (hprice : o.priceMultiple < 2 ^ 64)
    (h : c.accept m (.limit o) p = .ok (accounts, some lock)) :
    LockCovers c m o p accounts ↔ o.baseLots * o.priceMultiple < 10 * 2 ^ 64 := by
  have hsupe := hl.marketPrecision hp
  subst hsupe
  exact lockCovers_iff hd hlots hprice h

theorem fiveLots_lockCovers : ∃ accounts lock,
    (LedgerState.new 1).spotClearinghouse.accept .supeUsd (.limit (.place 0 1 .buy 10 5)) .supeUsd =
      .ok (accounts, some lock) ∧
    LockCovers (LedgerState.new 1).spotClearinghouse .supeUsd (.place 0 1 .buy 10 5) .supeUsd accounts := by
  have reachable : (LedgerState.new 1).Reachable 1 := .of_apply (rfl : (LedgerState.new 1).apply [] = .ok _)
  have ⟨accounts, lock, h⟩ : ∃ accounts lock,
      (LedgerState.new 1).spotClearinghouse.accept .supeUsd (.limit (.place 0 1 .buy 10 5)) .supeUsd =
        .ok (accounts, some lock) := ⟨_, _, rfl⟩
  have hp : (LedgerState.new 1).marketPrecision 0 = .ok .supeUsd := rfl
  exact ⟨accounts, lock, h, (limitBuy_lockCovers_iff reachable hp rfl (by decide) (by decide) h).mpr (by decide)⟩

-- At this price, 64 bits hold nothing of the quote lots for so many base lots, and nothing is locked.
def unlocked : LimitOrder :=
  .place 0 7 .buy (2 ^ 32) (10 * 2 ^ 32)

theorem unlocked_not_lockCovers : ∃ accounts,
    (LedgerState.new 1).Reachable 1 ∧ (LedgerState.new 1).marketPrecision 0 = .ok .supeUsd ∧
    (LedgerState.new 1).spotClearinghouse.accept .supeUsd (.limit unlocked) .supeUsd = .ok (accounts, some 0) ∧
    ¬LockCovers (LedgerState.new 1).spotClearinghouse .supeUsd unlocked .supeUsd accounts := by
  refine ⟨_, .of_apply (rfl : (LedgerState.new 1).apply [] = .ok _), rfl, rfl, fun hcovers => ?_⟩
  have ⟨quotes, hok, hle⟩ := hcovers [1] (by decide)
  have hval : [1].mapM (fun lots => baseToQuoteLots lots unlocked.priceMultiple .supeUsd) = .ok [429496729] := rfl
  rw [hval] at hok
  injection hok with hok
  subst hok
  exact absurd hle (by decide)

end Lock
end Superliquid

import Superliquid.Lib.Steps
import Superliquid.State.Theorems.Orders

namespace Superliquid

-- The calls that change a market.
inductive MarketCall
  | addLimitOrder (order : LimitOrder) (baseAsset quoteAsset : AssetId) (precision : MarketPrecision)
  | handleMarketOrder (order : MarketOrder) (precision : MarketPrecision)
  | cancelOrder (order : LimitOrder)

namespace SpotMarket

def call (m : SpotMarket) : MarketCall → Checked SpotMarket
  | .addLimitOrder order baseAsset quoteAsset precision =>
    Prod.fst <$> m.addLimitOrder order baseAsset quoteAsset precision
  | .handleMarketOrder order precision => Prod.fst <$> m.handleMarketOrder order precision
  | .cancelOrder order                 => Prod.fst <$> m.cancelOrder order

def prices (m : SpotMarket) (d : OrderDirection) : List Nat :=
  (m.side d).map Level.price

-- Both sides are sorted, and every bid is below every ask.
structure Uncrossed (m : SpotMarket) : Prop where
  sorted : ∀ d, SortedBy d.cmp (m.side d)
  apart  : ∀ d, ∀ p ∈ m.prices d, ∀ q ∈ m.prices d.flip, d.cmp p q = .lt

end SpotMarket

-- A limit order that is not filled whole has used up all levels that it reaches.
theorem sweep_head_not_crosses {own : LimitOrder → Bool} {crosses : Nat → Bool} {budget : Nat}
    {levels : List Level} {best : Level}
    (h : sumLots (sweep own (.base crosses) budget levels).fills < budget)
    (hb : (sweep own (.base crosses) budget levels).levels.head? = some best) : crosses best.price = false := by
  induction levels generalizing budget
  case nil => simp [sweep] at hb
  case cons level levels hi =>
    by_cases hz : (Budget.base crosses).lots budget level.price = 0
    case pos =>
      rw [sweep_stop hz] at h hb
      cases hb
      have hz : crosses best.price = true → budget = 0 := by simpa [Budget.base] using hz
      by_contra hc
      simp [hz (Bool.eq_true_of_not_eq_false hc)] at h
    case neg =>
      have hlots : (Budget.base crosses).lots budget level.price = budget := by
        simp only [Budget.base] at hz ⊢
        split at hz <;> simp_all
      by_cases hl : (walk own level.price ((Budget.base crosses).lots budget level.price) level.orders).left = []
      case neg =>
        rw [sweep_part hz hl] at h
        exact absurd (walk_lots_eq hl) (Nat.ne_of_lt (hlots.symm ▸ h))
      case pos =>
        rw [sweep_whole hz hl] at h hb
        simp only [sumLots_append] at h
        refine hi ?_ hb
        simp only [Budget.base] at h ⊢
        omega

theorem SortedBy.head_le {cmp : Nat → Nat → Ordering} [Std.TransCmp cmp] {levels : List Level} {price : Nat}
    (hs : SortedBy cmp levels) (hb : ∀ best, levels.getLast? = some best → cmp best.price price = .lt) :
    ∀ p ∈ levels.map Level.price, cmp p price = .lt := by
  intro p hp
  cases List.eq_nil_or_concat levels
  case inl he => simp [he] at hp
  case inr he =>
    have ⟨levels, best, he⟩ := he
    rw [he, List.concat_eq_append] at hb hs hp
    have hb := hb best (by simp)
    simp only [SortedBy, List.map_append, List.map_cons, List.map_nil, List.pairwise_append,
      List.mem_singleton] at hs
    simp only [List.map_append, List.map_cons, List.map_nil, List.mem_append, List.mem_singleton] at hp
    cases hp
    case inl hp => exact Std.TransCmp.lt_trans (hs.2.2 p hp best.price rfl) hb
    case inr hp => exact hp ▸ hb

namespace SpotMarket.Uncrossed

variable {m m' : SpotMarket} {order : LimitOrder} {d : OrderDirection} {levels : List Level}
         {precision : MarketPrecision} {price : Option Nat} {c : MarketCall}

theorem apart_of (h : ∀ p ∈ m.prices d, ∀ q ∈ m.prices d.flip, d.cmp p q = .lt) :
    ∀ d, ∀ p ∈ m.prices d, ∀ q ∈ m.prices d.flip, d.cmp p q = .lt := by
  intro d' p hp q hq
  cases d.eq_or_eq_flip d'
  case inl hd => subst hd; exact h p hp q hq
  case inr hd =>
    subst hd
    rw [OrderDirection.cmp_flip]
    exact h q (by simpa using hq) p hp

theorem new {marketId baseAsset quoteAsset : Nat} {pair : AssetId × AssetId} {base quote : String}
    {tick tickDecimals : Nat} :
    (SpotMarket.new marketId pair baseAsset quoteAsset base quote tick tickDecimals).Uncrossed := by
  constructor
  case sorted => intro d; cases d <;> exact .nil
  case apart  => intro d p hp; cases d <;> cases hp

theorem setLastExecutedPrice (h : m.Uncrossed) : (m.setLastExecutedPrice price).Uncrossed := by
  constructor
  case sorted => simpa using h.sorted
  case apart  => simpa [prices] using h.apart

-- Levels that go do not matter.
theorem setSide (h : m.Uncrossed) (hl : (levels.map Level.price).Sublist (m.prices d)) :
    (m.setSide d levels).Uncrossed := by
  constructor
  case sorted =>
    intro d'
    cases d.eq_or_eq_flip d'
    case inl hd => subst hd; simpa [SortedBy] using List.Pairwise.sublist hl (h.sorted d')
    case inr hd => subst hd; simpa using h.sorted d.flip
  case apart =>
    refine apart_of (d := d) fun p hp q hq => ?_
    simp only [prices, side_setSide, side_flip_setSide] at hp hq
    exact h.apart d p (hl.subset hp) q hq

theorem addOrder (h : m.Uncrossed)
    (hp : ∀ q ∈ m.prices order.common.direction.flip, order.common.direction.cmp order.priceMultiple q = .lt)
    (ha : m.addOrder order = .ok m') : m'.Uncrossed := by
  have ⟨levels, hm, _, added⟩ := addOrder_added ha
  subst hm
  constructor
  case sorted =>
    intro d
    cases order.common.direction.eq_or_eq_flip d
    case inl hd => subst hd; simpa using added.sorted (h.sorted _)
    case inr hd => subst hd; simpa using h.sorted _
  case apart =>
    refine apart_of (d := order.common.direction) fun p hmem q hq => ?_
    simp only [prices, side_setSide, side_flip_setSide] at hmem hq
    cases List.mem_cons.mp (added.prices hmem)
    case inl he    => exact he ▸ hp q hq
    case inr hold  => exact h.apart _ p hold q hq

theorem sweep (h : m.Uncrossed) {own : LimitOrder → Bool} {b : Budget} {budget : Nat} :
    (m.setSide d (Superliquid.sweep own b budget (m.side d).reverse).levels.reverse).Uncrossed := by
  refine h.setSide ?_
  have hsub := (sweep_prices own b budget (m.side d).reverse).sublist.reverse
  simpa only [prices, ← List.map_reverse, List.reverse_reverse] using hsub

-- What a limit order leaves of the other side when it is not filled whole does not reach it.
theorem apart_of_leaves (h : m.Uncrossed)
    (hl : sumLots (m.sweep precision (.limit order)).fills < order.baseLots) :
    ∀ q ∈ (m.sweep precision (.limit order)).levels.reverse.map Level.price,
      order.common.direction.cmp order.priceMultiple q = .lt := by
  intro q hq
  rw [← OrderDirection.cmp_flip]
  refine SortedBy.head_le (sweep_sorted (h.sorted order.common.direction.flip)) ?_ q hq
  intro best hbest
  rw [List.getLast?_reverse] at hbest
  have hc := sweep_head_not_crosses hl hbest
  rw [← Std.OrientedCmp.gt_iff_lt]
  simpa [crosses] using hc

theorem step (h : m.Uncrossed) (hc : m.call c = .ok m') : m'.Uncrossed := by
  cases c
  case addLimitOrder order baseAsset quoteAsset precision =>
    have ⟨⟨m', result⟩, hr, hm⟩ := Checked.map_ok.mp hc
    cases hm
    cases addLimitOrder_cases hr
    case inl hrest =>
      have ⟨hbest, _, _, ha⟩ := hrest
      refine h.addOrder (fun q hq => ?_) ha
      rw [← OrderDirection.cmp_flip]
      refine SortedBy.head_le (h.sorted _) ?_ q hq
      intro best hb
      rw [← Std.OrientedCmp.gt_iff_lt]
      exact hbest best hb
    case inr hmatch =>
      have ⟨result, _, _, hm⟩ := hmatch
      let m₁ := (m.setSide order.common.direction.flip
        (m.sweep precision (.limit order)).levels.reverse).setLastExecutedPrice result.lastExecutedPrice
      have swept : m₁.Uncrossed := h.sweep.setLastExecutedPrice
      split at hm
      case isFalse    => exact hm ▸ swept
      case isTrue hlt =>
        refine @addOrder m₁ m' (m.leaves precision order) swept (fun q hq => h.apart_of_leaves hlt q ?_) hm
        have hside : m₁.side order.common.direction.flip = (m.sweep precision (.limit order)).levels.reverse := by
          simp [m₁]
        rw [← hside]
        exact hq
  case handleMarketOrder order precision =>
    have ⟨⟨m', result⟩, hr, hm⟩ := Checked.map_ok.mp hc
    cases hm
    have ⟨_, hm⟩ := handleMarketOrder_outcome hr
    rw [hm]
    cases order
    case sell => exact (h.sweep (d := .buy)).setLastExecutedPrice
    case buy  => exact (h.sweep (d := .sell)).setLastExecutedPrice
  case cancelOrder order =>
    have ⟨⟨m', unfilled⟩, hr, hm⟩ := Checked.map_ok.mp hc
    cases hm
    have ⟨levels, hm, cancelled⟩ := cancelOrder_cancelled hr
    rw [hm]
    exact h.setSide cancelled.prices

theorem best_lt (h : m.Uncrossed) {bid ask : Nat} (hb : m.getBestPrices = (some bid, some ask)) : bid < ask := by
  simp only [getBestPrices, Prod.mk.injEq, Option.map_eq_some_iff] at hb
  obtain ⟨⟨b, hbid, hb⟩, ⟨a, hask, ha⟩⟩ := hb
  subst hb ha
  have hlt := h.apart .buy b.price (List.mem_map_of_mem (List.mem_of_getLast? hbid)) a.price
    (List.mem_map_of_mem (List.mem_of_getLast? hask))
  exact Nat.compare_eq_lt.mp hlt

end SpotMarket.Uncrossed

-- A market that starts empty never has a bid at or above an ask.
theorem bestBid_lt_bestAsk {marketId : MarketId} {pair : AssetId × AssetId} {baseAsset quoteAsset : AssetId}
    {baseName quoteName : String} {tick tickDecimals : Nat} {calls : List MarketCall} {m : SpotMarket}
    {bid ask : Nat}
    (h : calls.foldlM SpotMarket.call
      (.new marketId pair baseAsset quoteAsset baseName quoteName tick tickDecimals) = .ok m)
    (hb : m.getBestPrices = (some bid, some ask)) : bid < ask :=
  (foldlM_invariant h SpotMarket.Uncrossed.new fun hc hu => hu.step hc).best_lt hb

def MarketCall.place (order : LimitOrder) : MarketCall :=
  .addLimitOrder order 0 1 .supeUsd

-- A sell order for 10 lots takes the bid for 4 lots at 30, and the rest of it rests at 20.
def partialFill : List MarketCall := [
  .place (.place 0 7 .buy 10 5),
  .place (.place 1 7 .buy 30 4),
  .place (.place 2 8 .sell 20 10)
]

theorem partialFill_bestBid_lt_bestAsk : ∃ m,
    partialFill.foldlM SpotMarket.call .supeUsd = .ok m ∧ m.getBestPrices = (some 10, some 20) ∧ 10 < 20 :=
  ⟨_, rfl, rfl, bestBid_lt_bestAsk (rfl : partialFill.foldlM SpotMarket.call .supeUsd = .ok _) (by rfl)⟩

end Superliquid

import Mathlib.Algebra.Order.BigOperators.Group.List
import Superliquid.State.Theorems.Crossing

namespace Superliquid

section Lots

variable {order : LimitOrder} {orders : List LimitOrder}

theorem liveLots_cons (h : order.IsLive) : liveLots (order :: orders) = order.remaining + liveLots orders := by
  simp [liveLots, liveOrders_cons h]

theorem liveLots_skip (h : ¬order.IsLive) : liveLots (order :: orders) = liveLots orders := by
  simp [liveLots, liveOrders_skip h]

theorem liveLots_pos (h : 0 < liveLots orders) : ∃ o ∈ orders, o.IsLive ∧ 0 < o.remaining := by
  induction orders
  case nil => simp [liveLots, liveOrders] at h
  case cons order orders hi =>
    by_cases live : order.IsLive
    case neg =>
      obtain ⟨o, ho, hr⟩ := hi (liveLots_skip live ▸ h)
      exact ⟨o, List.mem_cons_of_mem _ ho, hr⟩
    case pos =>
      rw [liveLots_cons live] at h
      by_cases hz : 0 < order.remaining
      case pos => exact ⟨order, List.mem_cons_self, live, hz⟩
      case neg =>
        obtain ⟨o, ho, hr⟩ := hi (by omega)
        exact ⟨o, List.mem_cons_of_mem _ ho, hr⟩

theorem LimitOrder.cancel_not_isLive : ¬order.cancel.IsLive := by
  simp [LimitOrder.IsLive, LimitOrder.cancel]

theorem liveOrders_liveOrders : liveOrders (liveOrders orders) = liveOrders orders := by
  simp [liveOrders]

theorem countCancelled_liveOrders : countCancelled (liveOrders orders) = 0 := by
  simp [countCancelled, liveOrders, List.countP_filter]

end Lots

namespace Level

-- The two counters of a level say what its orders say.
structure Exact (level : Level) : Prop where
  volume    : level.volume = liveLots level.orders
  cancelled : level.cancelled = countCancelled level.orders

namespace Exact

variable {level level' : Level} {order o : LimitOrder} {os os' : List LimitOrder}

theorem ofOrder (live : order.IsLive) (hs : order.selfFilled = 0) : (Level.ofOrder order).Exact where
  volume    := by simp [Level.ofOrder, liveLots, liveOrders, live, LimitOrder.unfilled, LimitOrder.remaining, hs]
  cancelled := by simp [Level.ofOrder, countCancelled, live]

theorem add (h : level.Exact) (live : order.IsLive) (hs : order.selfFilled = 0) : (level.add order).Exact where
  volume := by
    have : order.unfilled = order.remaining := by simp [LimitOrder.unfilled, LimitOrder.remaining, hs]
    simp only [Level.add, liveLots_append, h.volume, liveLots_cons live, this]
    simp [liveLots, liveOrders]
  cancelled := by
    simp only [Level.add, countCancelled_append, countCancelled_live live, h.cancelled]
    simp [countCancelled]

theorem split (h : level.Exact) (ho : level.orders = os ++ o :: os') (live : o.IsLive) :
    level.volume = o.remaining + liveLots (os ++ o.cancel :: os') ∧
    level.cancelled + 1 = countCancelled (os ++ o.cancel :: os') := by
  rw [h.volume, h.cancelled, ho]
  simp only [liveLots_append, countCancelled_append, liveLots_cons live, countCancelled_live live,
    liveLots_skip LimitOrder.cancel_not_isLive, countCancelled_cancelled LimitOrder.cancel_not_isLive]
  omega

-- A cancellation is booked right if the order that goes has what the given copy of it says.
theorem cancel (h : level.Exact) (ho : level.orders = os ++ o :: os') (live : o.IsLive)
    (hr : o.remaining = order.unfilled)
    (hc : level' ∈ level.cancel (os ++ o.cancel :: os') order.unfilled) :
    level'.Exact ∧ 0 < liveLots level'.orders ∧
      liveOrders level'.orders = liveOrders os ++ liveOrders os' := by
  have ⟨hv, hn⟩ := h.split ho live
  have hlive : liveOrders (os ++ o.cancel :: os') = liveOrders os ++ liveOrders os' := by
    rw [liveOrders_append, liveOrders_skip LimitOrder.cancel_not_isLive]
  simp only [Level.cancel, Option.mem_def] at hc
  split at hc <;> try contradiction
  case isFalse hz =>
  split at hc <;> cases hc
  case isTrue =>
    refine ⟨⟨?_, by simp [countCancelled_liveOrders]⟩, ?_, liveOrders_liveOrders.trans hlive⟩
    all_goals simp only [liveLots, liveOrders_liveOrders] at *; omega
  case isFalse =>
    refine ⟨⟨?_, hn⟩, ?_, hlive⟩
    all_goals dsimp only; omega

-- A match keeps the counters right.
theorem matched (h : level.Exact) (own : LimitOrder → Bool) (lots : Nat) : (level.matched own lots).Exact := by
  have ht := walk_taken own level.price lots level.orders
  have hr := ht.remaining
  have hc := ht.cancelled
  constructor
  case volume    => simp only [Level.matched, h.volume]; omega
  case cancelled => simp only [Level.matched, h.cancelled]; omega

end Exact

-- A level at which something can be traded.
def Real (level : Level) : Prop :=
  ∃ o ∈ level.orders, o.IsLive ∧ ∃ n, o.getOrderRemaining = .ok n ∧ 0 < n

theorem real_of_liveLots {level : Level} (h : 0 < liveLots level.orders) : level.Real := by
  have ⟨o, ho, live, hr⟩ := liveLots_pos h
  refine ⟨o, ho, live, o.remaining, LimitOrder.getOrderRemaining_ok.mpr ⟨?_, rfl⟩, hr⟩
  simp only [LimitOrder.remaining] at hr
  omega

-- What an order takes that uses up a level.
def takes (level : Level) : List Fill :=
  (liveOrders level.orders).map fun order => { price := level.price, order, lots := order.remaining }

end Level

-- A match does not end with the last live order of a level if cancelled ones come after it.
def StopsClean (b : Budget) (budget : Nat) : List Level → Prop
  | [] => True
  | level :: levels =>
    let lots := b.lots budget level.price
    lots = 0 ∨ lots < liveLots level.orders ∨
      (lots = liveLots level.orders → level.orders.getLast?.all (·.IsLive)) ∧
      StopsClean b (b.spend budget level.takes) levels

instance StopsClean.decidable {b : Budget} : ∀ budget levels, Decidable (StopsClean b budget levels)
  | _, [] => inferInstanceAs (Decidable True)
  | budget, level :: levels =>
    have : Decidable (StopsClean b (b.spend budget level.takes) levels) := decidable _ levels
    inferInstanceAs (Decidable (_ ∨ _ ∨ (_ → Option.all _ _ = true) ∧ _))

section Stops

variable {own : LimitOrder → Bool} {b : Budget} {price lots budget : Nat} {orders : List LimitOrder}
         {levels : List Level}

-- With enough lots for all of them a walk uses up the orders, unless it ends before cancelled ones.
theorem walk_left_nil (own : LimitOrder → Bool) (price : Nat)
    (hpos : ∀ o ∈ orders, o.IsLive → 0 < o.remaining) (hl : liveLots orders ≤ lots)
    (hlast : lots = liveLots orders → orders.getLast?.all (·.IsLive)) (hlots : lots ≠ 0) :
    (walk own price lots orders).left = [] ∧
    (walk own price lots orders).fills =
      (liveOrders orders).map fun order => { price, order, lots := order.remaining } := by
  induction orders generalizing lots
  case nil => simp [walk, liveOrders]
  case cons order orders hi =>
    obtain ⟨hp, hps⟩ := List.forall_mem_cons.mp hpos
    have tail (h : (order :: orders).getLast?.all (·.IsLive)) : orders.getLast?.all (·.IsLive) := by
      cases orders
      case nil    => simp
      case cons _ => simpa [List.getLast?_cons_cons] using h
    by_cases live : order.IsLive
    case neg =>
      rw [liveLots_skip live] at hl hlast
      rw [walk_skip live, liveOrders_skip live]
      exact hi hps hl (fun he => tail (hlast he)) hlots
    case pos =>
      rw [liveLots_cons live] at hl hlast
      rcases Nat.lt_trichotomy lots order.remaining with hr | hr | hr
      · omega
      · -- Nothing else is left, and the last entry is this one.
        have hz : liveLots orders = 0 := by omega
        have hdone : orders = [] := by
          by_contra hne
          obtain ⟨o, ho⟩ : ∃ o, orders.getLast? = some o := ⟨_, List.getLast?_eq_getLast_of_ne_nil hne⟩
          have hlive : o.IsLive := by simpa [ho] using tail (hlast (by omega))
          have hmem := List.mem_of_getLast? ho
          have := hps o hmem hlive
          have hle : o.remaining ≤ liveLots orders :=
            List.single_le_sum (by simp) _ (List.mem_map_of_mem (mem_liveOrders.mpr ⟨hmem, hlive⟩))
          omega
        subst hdone
        rw [walk_last live hr, liveOrders_cons live]
        simp [liveOrders, hr]
      · obtain ⟨hleft, hfills⟩ := @hi (lots - order.remaining) hps (by omega)
          (fun he => tail (hlast (by omega))) (by omega)
        rw [walk_next live hr, liveOrders_cons live]
        exact ⟨hleft, by simp [hfills]⟩

-- What a match leaves of a side can be traded.
theorem sweep_liveLots (hpos : ∀ level ∈ levels, ∀ o ∈ level.orders, o.IsLive → 0 < o.remaining)
    (h : ∀ level ∈ levels, 0 < liveLots level.orders) (hs : StopsClean b budget levels) :
    ∀ level ∈ (sweep own b budget levels).levels, 0 < liveLots level.orders := by
  induction levels generalizing budget
  case nil => simp [sweep]
  case cons level levels hi =>
    obtain ⟨hp, hps⟩ := List.forall_mem_cons.mp hpos
    obtain ⟨hl, hls⟩ := List.forall_mem_cons.mp h
    by_cases hz : b.lots budget level.price = 0
    case pos => rw [sweep_stop hz]; exact h
    case neg =>
      have ht := (walk_taken own level.price (b.lots budget level.price) level.orders).remaining
      have hle := walk_lots_le own level.price (b.lots budget level.price) level.orders
      by_cases hlt : b.lots budget level.price < liveLots level.orders
      case pos =>
        have hleft : (walk own level.price (b.lots budget level.price) level.orders).left ≠ [] := by
          intro hn
          simp only [hn, liveLots, liveOrders, List.filter_nil, List.map_nil, List.sum_nil] at ht hlt
          omega
        rw [sweep_part hz hleft]
        refine List.forall_mem_cons.mpr ⟨?_, hls⟩
        dsimp only at ht ⊢
        omega
      case neg =>
        obtain ⟨hlast, hrest⟩ := (hs.resolve_left hz).resolve_left hlt
        obtain ⟨hleft, hfills⟩ := walk_left_nil own level.price hp (by omega) hlast hz
        rw [sweep_whole hz hleft]
        simp only [hfills]
        exact hi hps hls hrest

end Stops

-- Nothing in a level is used up except for the cancelled orders.
structure Level.Tradable (level : Level) : Prop where
  exact    : level.Exact
  positive : ∀ o ∈ level.orders, o.IsLive → 0 < o.remaining
  live     : 0 < liveLots level.orders

namespace Level.Tradable

variable {level level' : Level} {order o : LimitOrder} {os os' : List LimitOrder}

theorem ofOrder (live : order.IsLive) (hs : order.selfFilled = 0) (hp : 0 < order.remaining) :
    (Level.ofOrder order).Tradable where
  exact    := .ofOrder live hs
  positive := by simpa [Level.ofOrder] using fun _ => hp
  live     := by simpa [Level.ofOrder, liveLots_cons live] using .inl hp

theorem add (h : level.Tradable) (live : order.IsLive) (hs : order.selfFilled = 0) (hp : 0 < order.remaining) :
    (level.add order).Tradable where
  exact    := h.exact.add live hs
  positive := by
    intro o ho hlive
    simp only [Level.add, List.mem_append, List.mem_singleton] at ho
    cases ho
    case inl ho => exact h.positive o ho hlive
    case inr ho => exact ho ▸ hp
  live     := by
    simp only [Level.add, liveLots_append]
    exact Nat.add_pos_left h.live _

theorem cancel (h : level.Tradable) (ho : level.orders = os ++ o :: os') (live : o.IsLive)
    (hr : o.remaining = order.unfilled)
    (hc : level' ∈ level.cancel (os ++ o.cancel :: os') order.unfilled) : level'.Tradable := by
  have ⟨hexact, hlive, hsame⟩ := h.exact.cancel ho live hr hc
  refine ⟨hexact, ?_, hlive⟩
  intro o' ho' live'
  have hmem : o' ∈ liveOrders os ++ liveOrders os' := hsame ▸ mem_liveOrders.mpr ⟨ho', live'⟩
  refine h.positive o' ?_ live'
  simp only [List.mem_append, mem_liveOrders] at hmem
  rw [ho]
  simp only [List.mem_append, List.mem_cons]
  tauto

theorem matched_positive (h : level.Tradable) (own : LimitOrder → Bool) (lots : Nat) :
    ∀ o ∈ (level.matched own lots).orders, o.IsLive → 0 < o.remaining := by
  intro o ho live
  have ⟨rest, hbefore, hafter⟩ := (walk_taken own level.price lots level.orders).live
  have hmem : o ∈ liveOrders (walk own level.price lots level.orders).left := mem_liveOrders.mpr ⟨ho, live⟩
  rw [hafter, List.mem_append, List.mem_map] at hmem
  cases hmem
  case inl hf =>
    have ⟨f, hf, he⟩ := hf
    have hw : ¬f.Whole := by simpa using (List.mem_filter.mp hf).2
    rw [← he, Taken.after_remaining hw]
    exact Nat.sub_pos_of_lt (Nat.lt_of_not_le hw)
  case inr hr =>
    have hold : o ∈ liveOrders level.orders := hbefore ▸ List.mem_append_right _ hr
    exact h.positive o (mem_liveOrders.mp hold).1 live

end Level.Tradable

-- The calls that keep the levels tradable: limit orders are new, cancelled ones have what the given
-- copy says, and matches do not end before cancelled orders.
def MarketCall.Clean (m : SpotMarket) : MarketCall → Prop
  | .addLimitOrder order _ _ _ =>
    order.IsLive ∧ order.filledBaseLots = 0 ∧ order.selfFilled = 0 ∧ 0 < order.baseLots ∧
    StopsClean (.base (crosses order.common.direction.flip.cmp order.priceMultiple)) order.baseLots
      (m.side order.common.direction.flip).reverse
  | .handleMarketOrder (.sell order) _ => StopsClean (.base anyPrice) order.baseSize m.bidsLevels.reverse
  | .handleMarketOrder (.buy order) precision =>
    StopsClean (.quote precision) order.quoteSize m.asksLevels.reverse
  | .cancelOrder order =>
    ∀ level ∈ m.side order.common.direction, level.price = order.priceMultiple →
      ∀ o ∈ level.orders, o.IsLive → o.common.id = order.common.id → o.remaining = order.unfilled

instance MarketCall.Clean.decidable {m : SpotMarket} : ∀ call, Decidable (MarketCall.Clean m call)
  | .addLimitOrder _ _ _ _          => inferInstanceAs (Decidable (_ ∧ _ ∧ _ ∧ _ ∧ _))
  | .handleMarketOrder (.sell _) _  => inferInstanceAs (Decidable (StopsClean _ _ _))
  | .handleMarketOrder (.buy _) _   => inferInstanceAs (Decidable (StopsClean _ _ _))
  | .cancelOrder _                  => inferInstanceAs (Decidable (∀ level ∈ _, _ → ∀ o ∈ _, _ → _ → _))

namespace SpotMarket

def Tradable (m : SpotMarket) : Prop :=
  ∀ d, ∀ level ∈ m.side d, level.Tradable

namespace Tradable

variable {m m' : SpotMarket} {order : LimitOrder} {d : OrderDirection} {levels : List Level}
         {price : Option Nat} {c : MarketCall}

theorem setLastExecutedPrice (h : m.Tradable) : (m.setLastExecutedPrice price).Tradable := by
  simpa [Tradable] using h

theorem setSide (h : m.Tradable) (hl : ∀ level ∈ levels, level.Tradable) : (m.setSide d levels).Tradable := by
  intro d'
  cases d.eq_or_eq_flip d'
  case inl hd => subst hd; simpa using hl
  case inr hd => subst hd; simpa using h d.flip

theorem addOrder (h : m.Tradable) (live : order.IsLive) (hs : order.selfFilled = 0)
    (hf : order.filledBaseLots < order.baseLots) (ha : m.addOrder order = .ok m') : m'.Tradable := by
  have ⟨levels, hm, _, added⟩ := addOrder_added ha
  have hp : 0 < order.remaining := by simp only [LimitOrder.remaining, hs]; omega
  subst hm
  exact h.setSide (added.forall (h _) (fun level _ _ hl => hl.add live hs hp) (.ofOrder live hs hp))

theorem sweep (h : m.Tradable) {own : LimitOrder → Bool} {b : Budget} {budget : Nat}
    (hs : StopsClean b budget (m.side d).reverse) :
    (m.setSide d (Superliquid.sweep own b budget (m.side d).reverse).levels.reverse).Tradable := by
  refine h.setSide fun level hm => ?_
  rw [List.mem_reverse] at hm
  have hlive := sweep_liveLots (fun l hl => (h d l (List.mem_reverse.mp hl)).positive)
    (fun l hl => (h d l (List.mem_reverse.mp hl)).live) hs level hm
  cases sweep_levels_mem hm
  case inl hold => exact h d level (List.mem_reverse.mp hold)
  case inr hnew =>
    have ⟨level₀, hm₀, lots, _, he, _⟩ := hnew
    have hl := h d level₀ (List.mem_reverse.mp hm₀)
    subst he
    exact ⟨hl.exact.matched own lots, hl.matched_positive own lots, hlive⟩

theorem step (h : m.Tradable) (clean : c.Clean m) (hc : m.call c = .ok m') : m'.Tradable := by
  cases c
  case addLimitOrder order baseAsset quoteAsset precision =>
    have ⟨live, hfilled, hself, hpos, hstops⟩ := clean
    have ⟨⟨m', result⟩, hr, hm⟩ := Checked.map_ok.mp hc
    cases hm
    cases addLimitOrder_cases hr
    case inl hrest => exact h.addOrder live hself (hfilled ▸ hpos) hrest.2.2.2
    case inr hmatch =>
      have ⟨result, _, _, hm⟩ := hmatch
      let m₁ := (m.setSide order.common.direction.flip
        (m.sweep precision (.limit order)).levels.reverse).setLastExecutedPrice result.lastExecutedPrice
      have swept : m₁.Tradable := (h.sweep hstops).setLastExecutedPrice
      split at hm
      case isFalse    => exact hm ▸ swept
      case isTrue hlt => exact @addOrder m₁ m' (m.leaves precision order) swept live hself hlt hm
  case handleMarketOrder order precision =>
    have ⟨⟨m', result⟩, hr, hm⟩ := Checked.map_ok.mp hc
    cases hm
    have ⟨_, hm⟩ := handleMarketOrder_outcome hr
    rw [hm]
    cases order
    case sell => exact (h.sweep (d := .buy) clean).setLastExecutedPrice
    case buy  => exact (h.sweep (d := .sell) clean).setLastExecutedPrice
  case cancelOrder order =>
    have ⟨⟨m', unfilled⟩, hr, hm⟩ := Checked.map_ok.mp hc
    cases hm
    have ⟨levels, hm, cancelled⟩ := cancelOrder_cancelled hr
    rw [hm]
    refine h.setSide (cancelled.forall (h _) ?_)
    intro level hmem os o os' hprice ho hid live _ hl level' hlevel
    exact hl.cancel ho live (clean level hmem hprice o (by simp [ho]) live hid) hlevel

end Tradable

-- A price at which a live order rests.
def Rests (m : SpotMarket) (d : OrderDirection) (price : Nat) : Prop :=
  ∃ level ∈ m.side d, level.price = price ∧ level.Real

-- Every level can be traded at, in particular the best ones.
structure BestPricesReal (m : SpotMarket) : Prop where
  levels     : ∀ d, ∀ level ∈ m.side d, level.Real
  bestPrices : (∀ price ∈ m.getBestPrices.1, m.Rests .buy price) ∧ (∀ price ∈ m.getBestPrices.2, m.Rests .sell price)
  marketInfo : (∀ info ∈ m.getMarketInfo.bestBidsInfo, m.Rests .buy info.price) ∧
                 (∀ info ∈ m.getMarketInfo.bestAsksInfo, m.Rests .sell info.price)

theorem bestPricesReal_of_levels {m : SpotMarket} (h : ∀ d, ∀ level ∈ m.side d, level.Real) :
    m.BestPricesReal := by
  have best (d : OrderDirection) : ∀ level ∈ (m.side d).getLast?, m.Rests d level.price := fun level hl =>
    have hm := List.mem_of_getLast? hl
    ⟨level, hm, rfl, h d level hm⟩
  refine ⟨h, ⟨?_, ?_⟩, ?_, ?_⟩
  all_goals
    intro x hx
    have ⟨level, hl, he⟩ := Option.map_eq_some_iff.mp hx
    subst he
  · exact best .buy level hl
  · exact best .sell level hl
  · exact best .buy level hl
  · exact best .sell level hl

end SpotMarket

-- A market in which all calls are clean has no dead levels.
theorem bestPricesReal_of_clean {marketId : MarketId} {pair : AssetId × AssetId}
    {baseAsset quoteAsset : AssetId} {baseName quoteName : String} {tick tickDecimals : Nat}
    {calls : List MarketCall} {m₀ m : SpotMarket}
    (h₀ : m₀ = .new marketId pair baseAsset quoteAsset baseName quoteName tick tickDecimals)
    (h : calls.foldlM SpotMarket.call m₀ = .ok m)
    (hc : Meets SpotMarket.call (fun m call => call.Clean m) m₀ calls) : m.BestPricesReal := by
  have start : m₀.Tradable := by
    intro d level hm
    subst h₀
    cases d <;> cases hm
  have tradable := (Steps.of_foldlM h hc).invariant (I := SpotMarket.Tradable) start
    fun hn ht => ht.step hn.1 hn.2
  exact SpotMarket.bestPricesReal_of_levels fun d level hm => Level.real_of_liveLots (tradable d level hm).live

-- The first of two orders is filled exactly after the second one was cancelled.
def deadLevel : List MarketCall := [
  .place (.place 0 7 .sell 10 5),
  .place (.place 1 7 .sell 10 5),
  .cancelOrder (.place 1 7 .sell 10 5),
  .place (.place 2 8 .buy 10 5)
]

theorem deadLevel_not_bestPricesReal : ∃ m,
    deadLevel.foldlM SpotMarket.call .supeUsd = .ok m ∧
    (∀ order baseAsset quoteAsset precision,
      .addLimitOrder order baseAsset quoteAsset precision ∈ deadLevel → 0 < order.baseLots) ∧
    m.getBestPrices.2 = some 10 ∧ ¬m.BestPricesReal := by
  refine ⟨_, rfl, ?_, rfl, ?_⟩
  · intro order baseAsset quoteAsset precision hm
    simp only [deadLevel, MarketCall.place, List.mem_cons, MarketCall.addLimitOrder.injEq, reduceCtorEq,
      List.not_mem_nil, or_false, false_or] at hm
    rcases hm with ⟨rfl, -⟩ | ⟨rfl, -⟩ | ⟨rfl, -⟩ <;> decide
  · intro h
    have ⟨o, ho, live, _⟩ := h.levels .sell _ List.mem_cons_self
    cases ho
    case head   => exact live rfl
    case tail h => cases h

-- The same with one lot more, which is taken from a third order.
def liveLevel : List MarketCall := [
  .place (.place 0 7 .sell 10 5),
  .place (.place 1 7 .sell 10 5),
  .place (.place 2 7 .sell 10 5),
  .cancelOrder (.place 1 7 .sell 10 5),
  .place (.place 3 8 .buy 10 6)
]

theorem liveLevel_bestPricesReal : ∃ m,
    liveLevel.foldlM SpotMarket.call .supeUsd = .ok m ∧ m.getBestPrices.2 = some 10 ∧ m.BestPricesReal :=
  ⟨_, rfl, rfl, bestPricesReal_of_clean rfl (rfl : liveLevel.foldlM SpotMarket.call .supeUsd = .ok _) (by decide)⟩

end Superliquid

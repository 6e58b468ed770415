import Superliquid.State.Theorems.Priority

namespace Superliquid

open SpotMarket

namespace SpotMarket.MarketBuyMatch

-- The variables of `execute_market_buy_order` before the first level.
def start (quoteSize : Nat) : MarketBuyMatch where
  remainingQuoteLots := quoteSize
  baseLotsIn := 0
  selfFillQuotes := 0
  lastExecutedPrice := none
  residualOrder := none
  remainingBaseLots := 0
  levelFilled := 0
  levelCancelled := 0
  toDrainEndIndex := 0

-- The variables before the first order of a level.
def atLevel (s : MarketBuyMatch) (remainingBaseLots : Nat) : MarketBuyMatch :=
  { s with remainingBaseLots, levelFilled := 0, levelCancelled := 0, toDrainEndIndex := 0 }

-- The quote lots that are left pay for the base lots that are left.
def Covers (p : MarketPrecision) (price : Nat) (s : MarketBuyMatch) : Prop :=
  s.remainingBaseLots * p.lotCost price ≤ s.remainingQuoteLots * p.quoteUnit

end SpotMarket.MarketBuyMatch

open MarketBuyMatch

section Loops

variable {account : PublicKeyHash} {p : MarketPrecision} {price : Nat} {orders orders' : List LimitOrder}
         {levels : List Level} {s s' : MarketBuyMatch}

-- The loop over the orders of a level can be cut anywhere.
theorem executeMarketBuyOrders_append {rest : List LimitOrder} (hs : s.remainingBaseLots ≠ 0) :
    executeMarketBuyOrders account price p (orders ++ rest) s = (do
      let (orders, s) ← executeMarketBuyOrders account price p orders s
      if s.remainingBaseLots = 0 then return (orders ++ rest, s)
      else
        let (rest, s) ← executeMarketBuyOrders account price p rest s
        return (orders ++ rest, s)) := by
  induction orders generalizing s
  case nil =>
    show _ = if s.remainingBaseLots = 0 then _ else _
    rw [if_neg hs]
    exact (bind_pure _).symm
  case cons order orders hi =>
    have next (order : LimitOrder) {s : MarketBuyMatch} (hs : s.remainingBaseLots ≠ 0) :
        (do let (os, s) ← executeMarketBuyOrders account price p (orders ++ rest) s
            return (order :: os, s)) =
        (do let (os, s) ← executeMarketBuyOrders account price p orders s
            return (order :: os, s)) >>= fun (os, s) =>
          if s.remainingBaseLots = 0 then return (os ++ rest, s)
          else do
            let (rest, s) ← executeMarketBuyOrders account price p rest s
            return (os ++ rest, s) := by
      rw [hi hs]
      simp only [bind_assoc, pure_bind]
      refine Checked.bind_congr fun r _ => ?_
      split <;> simp
    rw [List.cons_append, executeMarketBuyOrders, executeMarketBuyOrders]
    split
    case isTrue =>
      rw [bind_assoc]
      exact Checked.bind_congr fun _ _ => next order hs
    case isFalse =>
      simp only [bind_assoc]
      refine Checked.bind_congr fun n _ => Checked.bind_congr fun _ _ => Checked.bind_congr fun b hb =>
        Checked.bind_congr fun _ _ => Checked.bind_congr fun _ _ => ?_
      split
      case isTrue =>
        simp only [bind_assoc]
        refine Checked.bind_congr fun _ _ => Checked.bind_congr fun _ _ => ?_
        split
        case isTrue hz => split <;> simp [hz]
        case isFalse hz => exact next _ hz
      case isFalse =>
        simp only [bind_assoc]
        refine Checked.bind_congr fun _ _ => ?_
        split
        case isTrue hz =>
          split
          case isTrue  => simp [hz]
          case isFalse => simp [hz]
        case isFalse hz => exact next _ hz

-- So can the loop over the levels: a level after the cut is met if those before it are used up.
theorem executeMarketBuyLevels_append {rest : List Level} {filled : List LimitOrder} :
    executeMarketBuyLevels account p (levels ++ rest) filled s = (do
      let (levels, filled, s) ← executeMarketBuyLevels account p levels filled s
      if levels = [] then executeMarketBuyLevels account p rest filled s
      else return (levels ++ rest, filled, s)) := by
  induction levels generalizing filled s
  case nil => rfl
  case cons level levels hi =>
    rw [List.cons_append, executeMarketBuyLevels, executeMarketBuyLevels]
    split
    case isTrue => rfl
    case isFalse =>
      rw [bind_assoc]
      refine Checked.bind_congr fun n _ => ?_
      split
      case isTrue => rfl
      case isFalse =>
        rw [bind_assoc]
        refine Checked.bind_congr fun r _ => ?_
        dsimp only
        split
        case isTrue  => simp
        case isFalse => exact hi

theorem executeMarketBuyOrders_covers (h : p.Regular) (hp : 0 < price) (hq : s.remainingQuoteLots < 2 ^ 64)
    (hc : s.Covers p price) (hx : executeMarketBuyOrders account price p orders s = .ok (orders', s')) :
    s'.Covers p price := by
  induction orders generalizing s orders'
  case nil => cases hx; exact hc
  case cons order orders hi =>
    by_cases live : order.IsLive
    case neg =>
      obtain ⟨_, _, hrest⟩ := executeMarketBuyOrders_skip live hx
      exact hi (by exact hq) (by exact hc) hrest
    case pos =>
      obtain ⟨_, hquote, _, visited⟩ := executeMarketBuyOrders_visited live hx
      have hmin : min s.remainingBaseLots order.remaining ≤ s.remainingBaseLots := Nat.min_le_left _ _
      have hcost := (Nat.mul_le_mul_right _ hmin).trans hc
      have hexact := Except.ok.inj ((h.baseToQuoteLots hp hq hcost).symm.trans hquote)
      have hcovers := (Floor.sub_mul_le hc hmin).2
      rw [← MarketPrecision.exactQuoteLots, hexact] at hcovers
      cases visited
      case part         => exact hcovers
      case last         => exact hcovers
      case next _ hrest => exact hi (by exact (Nat.sub_le _ _).trans_lt hq) (by exact hcovers) hrest

end Loops

-- The variables with which `execute_market_buy_order` comes to a live order of a level.
structure MarketBuyReaches (levels : List Level) (order : MarketBuyOrder) (p : MarketPrecision) (level : Level)
    (o : LimitOrder) (s : MarketBuyMatch) : Prop where
  live   : o.IsLive
  level  : ∃ pre post filled s₀ n, levels.reverse = pre ++ level :: post ∧
    executeMarketBuyLevels order.common.account p pre [] (start order.quoteSize) = .ok ([], filled, s₀) ∧
    s₀.remainingQuoteLots ≠ 0 ∧ quoteLotsToBaseLots s₀.remainingQuoteLots level.price p = .ok n ∧ n ≠ 0 ∧
    ∃ os rest os', level.orders = os ++ o :: rest ∧
      executeMarketBuyOrders order.common.account level.price p os (s₀.atLevel n) = .ok (os', s)
  budget : s.remainingBaseLots ≠ 0

section Spending

variable {levels : List Level} {order : MarketBuyOrder} {p : MarketPrecision}

-- While levels are used up, no order is left with something.
theorem sweep_residual {own : LimitOrder → Bool} {b : Budget} {budget : Nat}
    (h : (sweep own b budget levels).levels = []) :
    (sweep own b budget levels).residual = none := by
  have taken := sweep_taken own b budget levels
  have ⟨rest, _, hafter⟩ := taken.live
  rw [h] at hafter
  have hparts : parts (sweep own b budget levels).fills = [] :=
    List.map_eq_nil_iff.mp (List.append_eq_nil_iff.mp hafter.symm).1
  have rested := taken.rested
  rw [hparts] at rested
  exact Option.toList_eq_nil_iff.mp rested

-- The order is come to indeed: what fails from there on is what the whole match fails with.
theorem MarketBuyReaches.fails {level : Level} {o : LimitOrder} {s : MarketBuyMatch}
    (h : MarketBuyReaches levels order p level o s) :
    ∃ rest, ∀ e, executeMarketBuyOrders order.common.account level.price p (o :: rest) s = .error e →
      executeMarketBuyOrder levels order p = .error e := by
  have ⟨pre, post, filled, s₀, n, hlevels, hpre, hquote, hn, hpos, os, rest, os', horders, hos⟩ := h.level
  refine ⟨rest, fun e he => ?_⟩
  have hlevel : executeMarketBuyOrders order.common.account level.price p level.orders (s₀.atLevel n) = .error e := by
    rw [horders, executeMarketBuyOrders_append hpos, hos, Checked.ok_bind]
    dsimp only
    rw [if_neg h.budget, he]
    rfl
  have hloop : executeMarketBuyLevels order.common.account p levels.reverse [] (start order.quoteSize) = .error e := by
    rw [hlevels, executeMarketBuyLevels_append, hpre, Checked.ok_bind]
    dsimp only
    rw [if_pos rfl, executeMarketBuyLevels, if_neg hquote, hn, Checked.ok_bind, if_neg hpos]
    unfold atLevel at hlevel
    rw [hlevel]
    rfl
  unfold start at hloop
  rw [executeMarketBuyOrder, hloop]
  rfl

theorem MarketBuyReaches.covers {level : Level} {o : LimitOrder} {s : MarketBuyMatch}
    (h : MarketBuyReaches levels order p level o s) (hp : p.Regular)
    (hprice : 0 < level.price ∧ level.price < 2 ^ 64) (hq : order.quoteSize < 2 ^ 64) :
    s.Covers p level.price ∧ s.remainingQuoteLots < 2 ^ 64 := by
  have ⟨pre, post, filled, s₀, n, _, hpre, _, hn, _, os, rest, os', _, hos⟩ := h.level
  have swept := executeMarketBuyLevels_swept rfl hpre
  have left : s₀.remainingQuoteLots ≤ order.quoteSize := Nat.le.intro swept.remaining
  have fits := left.trans_lt hq
  have ⟨n', hn', hcovers⟩ := hp.quoteLotsToBaseLots hprice.1 hprice.2 fits
  rw [hn] at hn'
  injection hn' with hn'
  subst hn'
  have residual : s₀.residualOrder = none := swept.swept.residual.trans (sweep_residual swept.swept.levels.symm)
  have walked := executeMarketBuyOrders_walked (s := s₀.atLevel n) residual hos
  exact ⟨executeMarketBuyOrders_covers (s := s₀.atLevel n) hp hprice.1 fits hcovers hos,
    (Nat.le.intro walked.remaining).trans_lt fits⟩

-- Whatever a market buy meets, what it takes is within its budget.
theorem executeMarketBuyOrder_in_budget (hp : p.Regular)
    (hprices : ∀ level ∈ levels, 0 < level.price ∧ level.price < 2 ^ 64)
    (hvalid : ∀ level ∈ levels, ∀ o ∈ level.orders, o.Valid) (hq : order.quoteSize < 2 ^ 64) :
    (∀ level o s, MarketBuyReaches levels order p level o s →
      ∃ remaining quote base' quote', o.getOrderRemaining = .ok remaining ∧
        baseToQuoteLots (min s.remainingBaseLots remaining) level.price p = .ok quote ∧
        Checked.sub s.remainingBaseLots (min s.remainingBaseLots remaining) = .ok base' ∧
        Checked.sub s.remainingQuoteLots quote = .ok quote') ∧
    (∀ levels' filled s,
      executeMarketBuyLevels order.common.account p levels.reverse [] (start order.quoteSize) =
        .ok (levels', filled, s) →
      ∃ r, executeMarketBuyOrder levels order p = .ok r) ∧
    (∀ levels' result, executeMarketBuyOrder levels order p = .ok (levels', result) →
      result.quoteFilledLots + result.selfFill ≤ order.quoteSize) := by
  refine ⟨fun level o s reaches => ?_, fun levels' filled s hx => ?_, fun levels' result hx => ?_⟩
  · obtain ⟨pre, post, _, _, _, hlevels, _, _, _, _, os, rest, _, horders, _⟩ := reaches.level
    have hl : level ∈ levels := List.mem_reverse.mp (hlevels ▸ List.mem_append_right pre List.mem_cons_self)
    have hv := hvalid level hl o (horders ▸ List.mem_append_right os List.mem_cons_self)
    obtain ⟨covers, fits⟩ := reaches.covers hp (hprices level hl) hq
    have hmin := Nat.min_le_left s.remainingBaseLots o.remaining
    have hcost := (Nat.mul_le_mul_right _ hmin).trans covers
    exact ⟨o.remaining, _, _, _, LimitOrder.getOrderRemaining_ok.mpr ⟨hv, rfl⟩,
      hp.baseToQuoteLots (hprices level hl).1 fits hcost, Checked.sub_eq_ok hmin,
      Checked.sub_eq_ok (Floor.sub_mul_le covers hmin).1⟩
  · have swept := executeMarketBuyLevels_swept rfl hx
    have remaining : s.remainingQuoteLots + _ = order.quoteSize := swept.remaining
    have self := swept.selfFillQuotes.trans (Nat.zero_add _)
    have traded := sumQuotes_traded (ofAccount order.common.account) p (marketBuySweep levels order p).fills
    simp only [marketBuySweep] at traded
    have hself : s.selfFillQuotes ≤ order.quoteSize - s.remainingQuoteLots := by
      simp only [start] at remaining self
      omega
    exact Checked.bind_total.mpr ⟨_, hx, Checked.bind_total.mpr ⟨_, Checked.sub_eq_ok (Nat.le.intro remaining),
      Checked.bind_total.mpr ⟨_, Checked.sub_eq_ok hself, _, rfl⟩⟩⟩
  · have accounts := executeMarketBuyOrder_accounts hx
    simp only [executeMarketBuyOrder, Checked.bind_ok, Prod.exists] at hx
    obtain ⟨_, _, s, hloop, _⟩ := hx
    have remaining : s.remainingQuoteLots + sumQuotes p (marketBuySweep levels order p).fills = order.quoteSize :=
      (executeMarketBuyLevels_swept rfl hloop).remaining
    rw [accounts.total]
    omega

-- 16 of the 20 quote lots are spent at 20, and the rest pays for one lot at 30.
def spentAtTwenty : MarketBuyMatch where
  remainingQuoteLots := 4
  baseLotsIn := 3
  selfFillQuotes := 10
  lastExecutedPrice := some 20
  residualOrder := none
  remainingBaseLots := 2
  levelFilled := 8
  levelCancelled := 1
  toDrainEndIndex := 3

theorem mixedAsks_in_budget : ∃ level o s, MarketBuyReaches mixedAsks eightBuys .supeUsd level o s ∧
    s.remainingBaseLots = 1 ∧ s.remainingQuoteLots = 4 ∧
    (∃ remaining quote base' quote', o.getOrderRemaining = .ok remaining ∧
      baseToQuoteLots (min s.remainingBaseLots remaining) level.price .supeUsd = .ok quote ∧
      Checked.sub s.remainingBaseLots (min s.remainingBaseLots remaining) = .ok base' ∧
      Checked.sub s.remainingQuoteLots quote = .ok quote') ∧
    ∃ levels result, executeMarketBuyOrder mixedAsks eightBuys .supeUsd = .ok (levels, result) ∧
      result.quoteFilledLots + result.selfFill ≤ 20 := by
  have regular : MarketPrecision.supeUsd.Regular :=
    ⟨by decide, by decide, by decide, by decide⟩
  have valid : ∀ level ∈ mixedAsks, ∀ o ∈ level.orders, o.Valid := by
    unfold LimitOrder.Valid
    decide
  have size : eightBuys.quoteSize < 2 ^ 64 := by decide
  have ⟨hsub, _, htotal⟩ := executeMarketBuyOrder_in_budget regular (by decide) valid size
  have reaches : MarketBuyReaches mixedAsks eightBuys .supeUsd (mixedAsks.get ⟨0, by decide⟩) (.place 1 7 .sell 30 4)
      (spentAtTwenty.atLevel 1) :=
    ⟨by decide, ⟨mixedAsks.drop 1, [], _, spentAtTwenty, 1, rfl, rfl, by decide, rfl,
      by decide, [], [], [], rfl, rfl⟩, by decide⟩
  have ⟨levels, result, hx⟩ : ∃ levels result,
      executeMarketBuyOrder mixedAsks eightBuys .supeUsd = .ok (levels, result) :=
    ⟨_, _, rfl⟩
  exact ⟨_, _, _, reaches, rfl, rfl, hsub _ _ _ reaches, levels, result, hx, htotal levels result hx⟩

end Spending
end Superliquid

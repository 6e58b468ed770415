import Superliquid.State.Theorems.Counters
import Superliquid.State.Theorems.Transfers

namespace Superliquid

open SpotMarket LedgerState

section Amounts

variable {d : OrderDirection} {price lots n : Nat}

theorem lotCost_supeUsd : lots * MarketPrecision.supeUsd.lotCost price = lots * price * 10000 := by
  simp only [MarketPrecision.lotCost, MarketPrecision.supeUsd]
  ring

theorem exactQuoteLots_supeUsd : MarketPrecision.supeUsd.exactQuoteLots price lots = lots * price / 10 := by
  have hunit : MarketPrecision.supeUsd.quoteUnit = 10 * 10000 := rfl
  rw [MarketPrecision.exactQuoteLots, lotCost_supeUsd, hunit, Nat.mul_div_mul_right _ _ (by decide)]

theorem fits_supeUsd (hp : 0 < price) (h : lots * price < 10 * 2 ^ 64) : MarketPrecision.supeUsd.Fits price lots := by
  have hlots : lots ≤ lots * price := Nat.le_mul_of_pos_right _ hp
  have hpriced : lots * MarketPrecision.supeUsd.baseLotSize * price = lots * price * 100 := by
    simp only [MarketPrecision.supeUsd]
    ring
  have hunits : lots * MarketPrecision.supeUsd.baseLotSize = lots * 100 := rfl
  refine ⟨?_, ?_, ?_, by decide, by decide, by decide⟩
  · rw [hunits]
    omega
  · rw [hpriced]
    omega
  · rw [lotCost_supeUsd]
    omega

theorem quoteLots_supeUsd (h : lots * price < 10 * 2 ^ 64) : quoteLots .supeUsd price lots = lots * price / 10 := by
  have hq : lots * price / 10 % 2 ^ 64 = lots * price / 10 := Nat.mod_eq_of_lt (by omega)
  cases hx : baseToQuoteLots lots price .supeUsd
  case ok q =>
    rw [quoteLots_of_ok hx, (baseToQuoteLots_ok.mp hx).2, exactQuoteLots_supeUsd, hq]
  case error err =>
    -- Nothing overflows unless the price is zero.
    cases price
    case zero => simp [quoteLots, hx, Except.toOption]
    case succ price =>
      rw [baseToQuoteLots_ok.mpr ⟨fits_supeUsd price.succ_pos h, rfl⟩] at hx
      contradiction

theorem payAmount_zero : payAmount .supeUsd d price 0 = 0 := by
  cases d
  case buy  => simp [payAmount, quoteLots_zero]
  case sell => simp [payAmount]

-- What is rounded down in two parts comes to no more than the whole.
theorem payAmount_split (h : d = .buy → n * price < 10 * 2 ^ 64) (hl : lots ≤ n) :
    payAmount .supeUsd d price lots + payAmount .supeUsd d price (n - lots) ≤ payAmount .supeUsd d price n := by
  cases d
  case sell =>
    simp only [payAmount]
    rw [← Nat.add_mul, Nat.add_sub_cancel' hl]
  case buy =>
    have h := h rfl
    have hfst : lots * price ≤ n * price := Nat.mul_le_mul_right _ hl
    have hsnd : (n - lots) * price ≤ n * price := Nat.mul_le_mul_right _ (Nat.sub_le _ _)
    simp only [payAmount, quoteLots_supeUsd h, quoteLots_supeUsd (hfst.trans_lt h), quoteLots_supeUsd (hsnd.trans_lt h)]
    have hsum : lots * price + (n - lots) * price = n * price := by
      rw [← Nat.add_mul, Nat.add_sub_cancel' hl]
    rw [← Nat.add_mul]
    exact Nat.mul_le_mul_right _ (by omega)

end Amounts

namespace LimitOrder

-- What account `k` has to lock of an asset for a number of lots of an order.
def locks (k : PublicKeyHash) (a : AssetId) (lots : Nat) (o : LimitOrder) : Nat :=
  if o.common.account = k ∧ a = payAsset 0 1 o.common.direction then
    payAmount .supeUsd o.common.direction o.priceMultiple lots
  else 0

-- The quote lots for a bid fit into 64 bits.
def Quoted (o : LimitOrder) : Prop :=
  o.common.direction = .buy → o.baseLots * o.priceMultiple < 10 * 2 ^ 64

variable {o o' : LimitOrder} {k : PublicKeyHash} {a : AssetId} {lots n : Nat}

theorem locks_zero : o.locks k a 0 = 0 := by
  simp [locks, payAmount_zero]

theorem locks_cast : (if k = o.common.account ∧ a = payAsset 0 1 o.common.direction then
    (payAmount .supeUsd o.common.direction o.priceMultiple lots : Int) else 0) = o.locks k a lots := by
  simp only [locks, eq_comm]
  split <;> rfl

theorem locks_of_terms (h : o'.terms = o.terms) : o'.locks k a lots = o.locks k a lots := by
  have ⟨_, hp, hd, hacc⟩ := eq_of_terms h
  simp only [locks, hp, hd, hacc]

theorem locks_split (hq : o.Quoted) (hn : n ≤ o.baseLots) (hl : lots ≤ n) :
    o.locks k a lots + o.locks k a (n - lots) ≤ o.locks k a n := by
  unfold locks
  split
  case isFalse => exact le_rfl
  case isTrue  => exact payAmount_split (fun hd => (Nat.mul_le_mul_right _ hn).trans_lt (hq hd)) hl

end LimitOrder

-- What account `k` has to lock for the lots that live orders have not traded with others.
def reserved (k : PublicKeyHash) (a : AssetId) (orders : List LimitOrder) : Nat :=
  ((liveOrders orders).map fun o => o.locks k a o.unfilled).sum

section Fills

variable {own : LimitOrder → Bool} {f : Fill} {fills : List Fill} {k : PublicKeyHash} {a : AssetId}

-- The lock of a resting order is released in full when it is used up, even for what it has traded with its
-- own account, and not at all while it only trades with that.
theorem Fill.settled_le (h : f.lots ≤ f.order.remaining) : f.settled own ≤ f.order.unfilled := by
  simp only [Fill.settled, LimitOrder.unfilled, LimitOrder.remaining] at h ⊢
  split
  · exact le_rfl
  · split <;> omega

theorem Fill.after_unfilled (h : ¬f.Whole) : (f.after own).unfilled = f.order.unfilled - f.settled own := by
  simp only [Fill.after, Fill.settled, if_neg h, LimitOrder.unfilled]
  split
  · rfl
  · simp [Nat.sub_sub]

theorem sum_after_eq :
    ((parts fills).map fun f => (f.after own).locks k a (f.after own).unfilled).sum =
      (fills.map fun f => f.order.locks k a (f.order.unfilled - f.settled own)).sum := by
  induction fills
  case nil => rfl
  case cons f fills hi =>
    by_cases hw : f.Whole
    case pos =>
      have hz : f.order.unfilled - f.settled own = 0 := by simp [Fill.settled, hw, LimitOrder.unfilled]
      rw [parts_cons hw, hi, List.map_cons, List.sum_cons, hz, LimitOrder.locks_zero, Nat.zero_add]
    case neg =>
      have hparts : parts (f :: fills) = f :: parts fills := by simp [parts, hw]
      rw [hparts, List.map_cons, List.sum_cons, hi, List.map_cons, List.sum_cons, Fill.after_unfilled hw,
        LimitOrder.locks_of_terms Fill.after_terms]

end Fills

section Match

variable {m m' : SpotMarket} {order : Order} {accounts accounts' : Accounts} {n : Nat}

theorem reserved_perm {k : PublicKeyHash} {a : AssetId} {xs ys : List LimitOrder}
    (h : (liveOrders xs).Perm ys) : reserved k a xs = (ys.map fun o => o.locks k a o.unfilled).sum :=
  (h.map _).sum_eq

theorem reserved_afterMatch (hm : m.AfterMatch .supeUsd order m') (hleft : m.leftover .supeUsd order = [])
    (k : PublicKeyHash) (a : AssetId) :
    let fills := (m.sweep .supeUsd order).fills
    reserved k a m'.orders + (fills.map fun f => f.order.locks k a f.order.unfilled).sum =
      reserved k a m.orders + (fills.map fun f => f.order.locks k a (f.order.unfilled - f.settled order.own)).sum := by
  dsimp only
  have ⟨rest, hbefore, hafter⟩ := m.sweep_live .supeUsd order
  have hperm := liveOrders_perm hm.orders
  rw [hleft, List.nil_append] at hperm
  rw [reserved_perm hbefore, reserved_perm (hperm.trans hafter), List.map_append, List.map_append, List.sum_append,
    List.sum_append, List.map_map, List.map_map, ← sum_after_eq]
  simp only [Function.comp_def]
  omega

-- A resting order that is met has the price and the direction of its side.
theorem fill_terms (h : m.Sound n) {f : Fill} (hf : f ∈ (m.sweep .supeUsd order).fills) :
    f.order.common.direction = order.direction.flip ∧ f.order.priceMultiple = f.price ∧
      f.order ∈ liveOrders m.orders := by
  have ⟨b, budget, hs⟩ := m.sweep_eq .supeUsd order
  rw [hs] at hf
  have ⟨level, hl, hp, hmem, live⟩ := sweep_fills_mem hf
  have hl := List.mem_reverse.mp hl
  have hsound := h.levels _ level hl
  exact ⟨hsound.direction _ hmem, (hsound.price _ hmem).trans hp.symm,
    mem_liveOrders.mpr ⟨mem_orders.mpr ⟨_, level, hl, hmem⟩, live⟩⟩

theorem Settled.locked_eq (hs : Settled m .supeUsd order accounts accounts') (hl : m.Listed) (hsound : m.Sound n)
    (k : PublicKeyHash) (a : AssetId) :
    accounts'.locked k a = accounts.locked k a -
      (((m.sweep .supeUsd order).fills.map fun f => f.order.locks k a (f.settled order.own)).sum : Nat) := by
  rw [hs.locked, hl.baseAsset, hl.quoteAsset]
  have hpaid {f : Fill} (hf : f ∈ (m.sweep .supeUsd order).fills) : f.order.locks k a (f.settled order.own) =
      if a = payAsset 0 1 order.direction.flip then f.paid order.own .supeUsd order.direction.flip k else 0 := by
    have ⟨hd, hp, _⟩ := fill_terms hsound hf
    simp only [LimitOrder.locks, Fill.paid, hd, hp]
    split <;> split <;> simp_all
  rw [List.map_congr_left fun f hf => hpaid hf]
  split
  case isTrue  => simp
  case isFalse => simp

end Match

-- The levels of the other side that a limit order reaches, best price first.
def SpotMarket.reached (m : SpotMarket) (d : OrderDirection) (price : Nat) : List Level :=
  (m.side d.flip).reverse.takeWhile fun level => crosses d.flip.cmp price level.price

-- A limit order either reaches no level and rests, or is filled whole.
def SpotMarket.RestsOrFills (m : SpotMarket) (d : OrderDirection) (price size : Nat) : Prop :=
  m.reached d price = [] ∨ size ≤ liveLots (sideOrders (m.reached d price))

instance {m : SpotMarket} {d : OrderDirection} {price size : Nat} : Decidable (m.RestsOrFills d price size) :=
  inferInstanceAs (Decidable (_ = [] ∨ _ ≤ _))

section Depth

variable {own : LimitOrder → Bool} {crossing : Nat → Bool}

-- A match takes all that it may, or all that there is.
theorem sweep_lots_eq (budget : Nat) (levels : List Level) :
    sumLots (sweep own (.base crossing) budget levels).fills =
      min budget (liveLots (sideOrders (levels.takeWhile fun level => crossing level.price))) := by
  induction levels generalizing budget
  case nil => simp [sweep, sumLots, sideOrders, liveLots, liveOrders]
  case cons level levels hi =>
    by_cases hc : crossing level.price
    case neg =>
      have hz : (Budget.base crossing).lots budget level.price = 0 := by simp [Budget.base, hc]
      simp [sweep_stop hz, hc, sumLots, sideOrders, liveLots, liveOrders]
    case pos =>
      have hlots : (Budget.base crossing).lots budget level.price = budget := by simp [Budget.base, hc]
      have hside : liveLots (sideOrders ((level :: levels).takeWhile fun level => crossing level.price)) =
          liveLots level.orders + liveLots (sideOrders (levels.takeWhile fun level => crossing level.price)) := by
        simp [hc, sideOrders, liveLots_append]
      rw [hside]
      by_cases hz : budget = 0
      case pos =>
        rw [sweep_stop (hlots.trans hz), hz]
        simp [sumLots]
      case neg =>
        have hz := hlots ▸ hz
        have ht := (walk_taken own level.price budget level.orders).remaining
        by_cases hl : (walk own level.price budget level.orders).left = []
        case neg =>
          rw [sweep_part hz (hlots.symm ▸ hl), hlots]
          have := walk_lots_eq hl
          dsimp only
          omega
        case pos =>
          have hle := walk_lots_le own level.price budget level.orders
          have hspend : (Budget.base crossing).spend budget (walk own level.price budget level.orders).fills =
            budget - sumLots (walk own level.price budget level.orders).fills := rfl
          have hnil : liveLots [] = 0 := rfl
          rw [hl] at ht
          rw [sweep_whole hz (hlots.symm ▸ hl), hlots]
          simp only [sumLots_append, hi, hspend]
          omega

theorem sweep_fills_nil {budget : Nat} {levels : List Level}
    (h : (levels.takeWhile fun level => crossing level.price) = []) :
    (sweep own (.base crossing) budget levels).fills = [] := by
  cases levels
  case nil => rfl
  case cons level levels =>
    have hc : ¬crossing level.price := by simpa [List.takeWhile_cons] using h
    have hz : (Budget.base crossing).lots budget level.price = 0 := by simp [Budget.base, hc]
    rw [sweep_stop hz]

theorem SpotMarket.sweep_lots (m : SpotMarket) (p : MarketPrecision) (o : LimitOrder) :
    sumLots (m.sweep p (.limit o)).fills =
      min o.baseLots (liveLots (sideOrders (m.reached o.common.direction o.priceMultiple))) :=
  sweep_lots_eq o.baseLots _

theorem SpotMarket.RestsOrFills.leftover_eq {m : SpotMarket} {o : LimitOrder}
    (h : m.RestsOrFills o.common.direction o.priceMultiple o.baseLots)
    (hne : (m.sweep .supeUsd (.limit o)).fills ≠ []) : m.leftover .supeUsd (.limit o) = [] := by
  have hlots := m.sweep_lots .supeUsd o
  cases h
  case inr hle =>
    rw [leftover, if_neg]
    omega
  case inl hnone => exact absurd (sweep_fills_nil hnone) hne

end Depth

-- What an account has locked beyond what its live orders are for.
def slack (accounts : Accounts) (orders : List LimitOrder) (k : PublicKeyHash) (a : AssetId) : Int :=
  accounts.locked k a - reserved k a orders

section Slack

variable {m m' : SpotMarket} {order : Order} {o : LimitOrder} {accounts accounts' : Accounts} {r : ExecutionResults}
         {n : Nat}

-- What a match leaves locked of the orders it fills: what is rounded off.
def dust (own : LimitOrder → Bool) (k : PublicKeyHash) (a : AssetId) (f : Fill) : Int :=
  f.order.locks k a f.order.unfilled -
    (f.order.locks k a (f.settled own) + f.order.locks k a (f.order.unfilled - f.settled own))

theorem Matched.slack_eq (h : Matched m .supeUsd order accounts m' accounts' r) (hl : m.Listed) (hs : m.Sound n)
    (hleft : m.leftover .supeUsd order = []) (k : PublicKeyHash) (a : AssetId) :
    slack accounts' m'.orders k a =
      slack accounts m.orders k a + ((m.sweep .supeUsd order).fills.map (dust order.own k a)).sum := by
  have hlocked := (h.settled (hs.priced _)).locked_eq hl hs k a
  have hreserved := reserved_afterMatch h.market hleft k a
  have hdust (fills : List Fill) : (fills.map (dust order.own k a)).sum =
      ((fills.map fun f => f.order.locks k a f.order.unfilled).sum : Nat) -
        (((fills.map fun f => f.order.locks k a (f.settled order.own)).sum : Nat) +
          ((fills.map fun f => f.order.locks k a (f.order.unfilled - f.settled order.own)).sum : Nat) : Int) := by
    induction fills
    case nil => rfl
    case cons f fills hi =>
      simp only [List.map_cons, List.sum_cons, hi, dust, Nat.cast_add]
      ring
  rw [hdust]
  simp only [slack]
  omega

theorem Rested.slack_eq (h : Rested m .supeUsd o accounts m' accounts' r) (hl : m.Listed) (live : o.IsLive)
    (hz : o.filledBaseLots = 0) (k : PublicKeyHash) (a : AssetId) :
    slack accounts' m'.orders k a = slack accounts m.orders k a := by
  have hperm := liveOrders_perm (addOrder_orders h.market)
  rw [liveOrders_cons live] at hperm
  have hreserved : reserved k a m'.orders = o.locks k a o.unfilled + reserved k a m.orders := reserved_perm hperm
  have hunfilled : o.unfilled = o.baseLots := by simp [LimitOrder.unfilled, hz]
  have hlocked := h.locked k a
  rw [hl.baseAsset, hl.quoteAsset, LimitOrder.locks_cast] at hlocked
  rw [hunfilled] at hreserved
  simp only [slack]
  omega

end Slack

-- A transfer takes from what is available only.
theorem transfer_locked {accounts accounts₁ accounts₂ : Accounts} {t : TransferTransaction}
    (hdebit : debitTransfer accounts
      { account := t.source, assetId := t.assetId, amount := t.amount, isIncrease := false } =
      .ok accounts₁)
    (hcredit : accounts₁.getAccountTokenBalanceMut t.target t.assetId (AccountTokenBalance.credit t.amount) =
      .ok accounts₂) (k : PublicKeyHash) (a : AssetId) : accounts.locked k a ≤ accounts₂.locked k a := by
  have ⟨b, _, hle, hbal⟩ := debitTransfer_cases hdebit
  have hcredit := getAccountTokenBalanceMut_locked (.credit t.amount) hcredit k a
  simp only [sub_self, ite_self, add_zero] at hcredit
  rw [hcredit, Accounts.locked, Accounts.locked]
  rcases hbal k a with he | ⟨_, hb, he⟩
  · rw [he]
  · rw [he, hb]
    dsimp only at hle ⊢
    omega

-- A cancellation releases the lock of the order that goes, but not of those that go with it.
theorem Exchange.Consistent.slack_cancelled {e : Exchange} (h : e.Consistent) {source : PublicKeyHash}
    {order : LimitOrder} {market : SpotMarket} {accounts : Accounts} {unfilled : Nat}
    (hmem : order ∈ e.openOrders source) (hc : e.market.cancelOrder order = .ok (market, unfilled))
    (hlocked : ∀ k a, accounts.locked k a = e.accounts.locked k a -
      if k = order.common.account ∧ a = payAsset 0 1 order.common.direction then
        (payAmount .supeUsd order.common.direction order.priceMultiple unfilled : Int)
      else 0) :
    ∃ lost : List LimitOrder, (∀ k a, slack accounts market.orders k a =
        slack e.accounts e.market.orders k a + ((lost.map fun o => o.locks k a o.unfilled).sum : Nat)) ∧
      (∀ o ∈ lost, o ∈ liveOrders e.market.orders) ∧
      (e.market.Exact → order.selfFilled = 0 → ∀ o ∈ lost, o.remaining = 0) := by
  simp only [LimitOrder.locks_cast] at hlocked
  cases cancelOrder_live h.sound hc
  case inl hm =>
    have ⟨hm, hz, _⟩ := hm
    subst hm hz
    refine ⟨[], fun k a => ?_, by simp, by simp⟩
    simp [slack, hlocked, LimitOrder.locks_zero]
  case inr hm =>
    have ⟨hunfilled, o, lost, hid, hperm, hzero⟩ := hm
    have ho : o ∈ liveOrders e.market.orders := hperm.mem_iff.mpr List.mem_cons_self
    have ⟨_, hcore⟩ := h.entry_eq ho hmem hid.symm
    have ⟨_, hacc, hdir, hprice, hbase, hfilled, hself⟩ := LimitOrder.eq_of_core hcore
    refine ⟨lost, fun k a => ?_, fun x hx => ?_, fun hexact hclean => hzero hexact ?_⟩
    · have hlocks : order.locks k a unfilled = o.locks k a o.unfilled := by
        simp only [LimitOrder.locks, LimitOrder.unfilled, hunfilled, hacc, hdir, hprice, hbase, hfilled]
      have hreserved := reserved_perm (k := k) (a := a) hperm
      simp only [List.map_cons, List.map_append, List.sum_cons, List.sum_append] at hreserved
      simp only [slack, hlocked, hlocks, reserved] at hreserved ⊢
      omega
    · exact hperm.mem_iff.mpr (List.mem_cons_of_mem _ (List.mem_append_left _ hx))
    · simp only [LimitOrder.remaining, LimitOrder.unfilled]
      omega

namespace OrderType

-- A limit order that meets something is filled whole.
def Whole (m : SpotMarket) (d : OrderDirection) : OrderType → Prop
  | .limit price size => m.RestsOrFills d price size
  | .market _         => True

-- The quote lots for a limit buy fit into 64 bits.
def Quoted (d : OrderDirection) : OrderType → Prop
  | .limit price size => d = .buy → size * price < 10 * 2 ^ 64
  | .market _         => True

instance {m : SpotMarket} {d : OrderDirection} : DecidablePred (Whole m d)
  | .limit _ _ => inferInstanceAs (Decidable (m.RestsOrFills d _ _))
  | .market _  => inferInstanceAs (Decidable True)

instance {d : OrderDirection} : DecidablePred (Quoted d)
  | .limit _ _ => inferInstanceAs (Decidable (d = .buy → _))
  | .market _  => inferInstanceAs (Decidable True)

end OrderType

theorem OrderTransaction.leftover_eq {m : SpotMarket} {t : OrderTransaction} {id : Nat}
    (hw : t.orderType.Whole m t.direction)
    (hne : ∀ o, t.toOrder id = .limit o → (m.sweep .supeUsd (t.toOrder id)).fills ≠ []) :
    m.leftover .supeUsd (t.toOrder id) = [] := by
  cases ho : t.toOrder id
  case market => rfl
  case limit o =>
    have ⟨price, size, ht, heq⟩ := toOrder_limit ho
    refine RestsOrFills.leftover_eq ?_ (ho ▸ hne o ho)
    rw [ht] at hw
    rw [heq]
    exact hw

namespace Exchange

theorem SameBalances.slack_eq {accounts accounts' : Accounts} (h : SameBalances accounts accounts')
    (orders : List LimitOrder) (k : PublicKeyHash) (a : AssetId) :
    slack accounts' orders k a = slack accounts orders k a := by
  simp only [slack, Accounts.locked, h k a]

-- What a step can do to the difference between the locks and the orders they are for, as long as no limit
-- order is filled in part on arrival.
theorem Step.slack_cases {e e' : Exchange} {tx : UnsignedTransaction} (hs : e.Step tx e') (hl : e.market.Listed)
    (h : e.Consistent)
    (hw : ∀ t, tx = .order t → t.marketId = 0 → t.orderType.Whole e.market t.direction) :
    (∀ k a, slack e'.accounts e'.market.orders k a = slack e.accounts e.market.orders k a) ∨
    ((∃ t, tx = .transfer t) ∧
      ∀ k a, slack e.accounts e.market.orders k a ≤ slack e'.accounts e'.market.orders k a) ∨
    (∃ t, tx = .order t ∧ t.marketId = 0 ∧ ∀ k a, slack e'.accounts e'.market.orders k a =
      slack e.accounts e.market.orders k a +
        ((e.market.sweep .supeUsd (t.toOrder e.nextId)).fills.map (dust (t.toOrder e.nextId).own k a)).sum) ∨
    (∃ t order, ∃ lost : List LimitOrder, tx = .cancelOrder t ∧ order ∈ e.openOrders t.source ∧
      order.common.id = t.orderId ∧
      (∀ k a, slack e'.accounts e'.market.orders k a = slack e.accounts e.market.orders k a +
        ((lost.map fun o => o.locks k a o.unfilled).sum : Nat)) ∧
      (∀ o ∈ lost, o ∈ liveOrders e.market.orders) ∧
      (e.market.Exact → order.selfFilled = 0 → ∀ o ∈ lost, o.remaining = 0)) := by
  cases hs
  case idle hsame     => exact .inl (hsame.slack_eq _)
  case declined hsame => exact .inl (hsame.slack_eq _)
  case transfer t _ _ _ hsame hdebit hcredit =>
    refine .inr (.inl ⟨⟨t, rfl⟩, fun k a => ?_⟩)
    have hlocked := transfer_locked hdebit hcredit k a
    rw [← hsame.slack_eq]
    simp only [slack]
    omega
  case rested ho rested =>
    obtain ⟨_, _, _, heq⟩ := OrderTransaction.toOrder_limit ho
    exact .inl (rested.slack_eq hl (by simp [heq, LimitOrder.IsLive]) (by rw [heq]))
  case matched t _ _ _ _ hzero _ matched _ =>
    have hleft := OrderTransaction.leftover_eq (hw t rfl hzero) matched.crossed
    exact .inr (.inr (.inl ⟨t, rfl, hzero, matched.slack_eq hl h.sound hleft⟩))
  case cancelled t order _ _ _ _ _ hopen _ hid hcancel hlocked =>
    have hmem : order ∈ e.openOrders t.source := hopen ▸ List.mem_append_right _ List.mem_cons_self
    obtain ⟨lost, hslack, hlive, hzero⟩ := h.slack_cancelled hmem hcancel hlocked
    exact .inr (.inr (.inr ⟨t, order, lost, rfl, hmem, hid, hslack, hlive, hzero⟩))

-- The orders of every account are backed.
structure Backed (e : Exchange) : Prop where
  consistent : e.Consistent
  quoted     : ∀ o ∈ liveOrders e.market.orders, o.Quoted
  slack      : ∀ k a, 0 ≤ slack e.accounts e.market.orders k a

namespace Backed

variable {e e' : Exchange} {tx : UnsignedTransaction}

theorem dust_nonneg (h : e.Backed) (order : Order) (k : PublicKeyHash) (a : AssetId) :
    0 ≤ ((e.market.sweep .supeUsd order).fills.map (dust order.own k a)).sum := by
  refine List.sum_nonneg fun x hx => ?_
  have ⟨f, hf, he⟩ := List.mem_map.mp hx
  subst he
  have ⟨_, _, hlive⟩ := fill_terms h.consistent.sound hf
  have hle : f.settled order.own ≤ f.order.unfilled := Fill.settled_le ((e.market.taken .supeUsd order).lots f hf)
  have hn : f.order.unfilled ≤ f.order.baseLots := Nat.sub_le _ _
  have hsplit := @LimitOrder.locks_split _ k a _ _ (h.quoted _ hlive) hn hle
  simp only [dust]
  omega

theorem step (hs : e.Step tx e') (hl : e.market.Listed)
    (hw : ∀ t, tx = .order t → t.marketId = 0 → t.orderType.Whole e.market t.direction)
    (hq : ∀ t, tx = .order t → t.marketId = 0 → t.orderType.Quoted t.direction) (h : e.Backed) : e'.Backed := by
  refine ⟨.step hs h.consistent, hs.forall_live h.consistent.sound h.quoted ?_ ?_, fun k a => ?_⟩
  · intro t o filled htx hzero ho _
    have ⟨price, size, ht, heq⟩ := OrderTransaction.toOrder_limit ho
    have hquoted := hq t htx hzero
    rw [ht] at hquoted
    rw [heq]
    exact hquoted
  · intro own f _ hquoted
    have hterms : (f.after own).terms.Quoted := Fill.after_terms ▸ hquoted
    exact hterms
  · have hk := h.slack k a
    rcases hs.slack_cases hl h.consistent hw with hsame | ⟨_, hup⟩ | ⟨t, _, _, hdust⟩ | ⟨_, _, lost, _, _, _, hlost, _⟩
    · rw [hsame]
      exact hk
    · exact hk.trans (hup k a)
    · have := h.dust_nonneg (t.toOrder e.nextId) k a
      rw [hdust]
      omega
    · rw [hlost]
      omega

theorem new {faucet : PublicKeyHash} : (Exchange.new faucet).Backed where
  consistent := .new
  quoted     := by
    simp [Exchange.new, SpotMarket.supeUsd, SpotMarket.new, SpotMarket.orders, sideOrders, liveOrders]
  slack k a  := by
    have hempty : reserved k a (Exchange.new faucet).market.orders = 0 := rfl
    obtain ⟨havailable, _⟩ := new_balance faucet k a
    have hlocked : (Exchange.new faucet).accounts.locked k a = 0 := by
      rw [Accounts.locked, sub_eq_zero]
      exact_mod_cast havailable.symm
    simp [Superliquid.slack, hempty, hlocked]

end Backed
end Exchange

namespace LedgerState

-- A limit order locks what its remainder needs: it rests whole or is filled whole, and a buy costs less than
-- 2 ^ 64 quote lots.
def LocksWhole (l : LedgerState) : UnsignedTransaction → Prop
  | .order t => ∀ m ∈ l.spotClearinghouse.markets[t.marketId]?,
    t.orderType.Whole m t.direction ∧ t.orderType.Quoted t.direction
  | _ => True

instance {l : LedgerState} : DecidablePred l.LocksWhole
  | .order t       => inferInstanceAs (Decidable (∀ m ∈ l.spotClearinghouse.markets[t.marketId]?, _ ∧ _))
  | .transfer _    => inferInstanceAs (Decidable True)
  | .cancelOrder _ => inferInstanceAs (Decidable True)

-- What an account cannot spend of an asset covers what its live orders in the market need of it.
def Backed (l : LedgerState) : Prop :=
  ∃ m, l.spotClearinghouse.markets = [m] ∧ m.baseAsset = 0 ∧ m.quoteAsset = 1 ∧
    l.marketPrecision 0 = .ok .supeUsd ∧ ∀ k a,
      (l.balance k a).availableBalance ≤ (l.balance k a).totalBalance ∧
      ((liveOrders m.orders).map fun o => o.locks k a o.remaining).sum ≤
        (l.balance k a).totalBalance - (l.balance k a).availableBalance

theorem Shows.marketPrecision_eq {l : LedgerState} {e : Exchange} (h : l.Shows e) :
    l.marketPrecision 0 = .ok .supeUsd := by
  simp only [LedgerState.marketPrecision, SpotClearingHouse.getQuoteBaseTickFromId, h.markets, h.assetManager,
    List.getElem?_cons_zero, Option.map_some, h.listed.baseAsset, h.listed.quoteAsset, h.listed.tick,
    h.listed.tickDecimals]
  rfl

theorem Shows.backed {l : LedgerState} {e : Exchange} (h : l.Shows e) (hb : e.Backed) : l.Backed := by
  refine ⟨e.market, h.markets, h.listed.baseAsset, h.listed.quoteAsset, h.marketPrecision_eq, fun k a => ?_⟩
  have hneed : ((liveOrders e.market.orders).map fun o => o.locks k a o.remaining).sum ≤
      reserved k a e.market.orders := by
    refine List.sum_le_sum fun o ho => ?_
    have hle : o.remaining ≤ o.unfilled := Nat.sub_le _ _
    have hn : o.unfilled ≤ o.baseLots := Nat.sub_le _ _
    exact (Nat.le_add_right _ _).trans (LimitOrder.locks_split (hb.quoted o ho) hn hle)
  have hslack := hb.slack k a
  simp only [slack, Accounts.locked, balance, h.accounts] at hslack ⊢
  omega

end LedgerState

-- All orders are backed after every run in which each limit order locks what it needs.
theorem backed_of_locksWhole {faucet : PublicKeyHash} {l : LedgerState} {ts ts' : List SignedTransaction}
    {ns : List (Option (PublicKeyHash × Nat))} (h : (LedgerState.new faucet).apply ts = .ok (l, ts', ns))
    (hc : Meets LedgerState.next (fun l t => l.LocksWhole t.tx) (.new faucet) ts) : l.Backed := by
  have ⟨e, hshows, backed⟩ := Shows.new.invariant Exchange.Backed.new h hc ?_
  · exact hshows.backed backed
  · intro l e t e' hshows hcond hs hb
    have hlocks (t₁ : OrderTransaction) (htx : t.tx = .order t₁) (hzero : t₁.marketId = 0) :
        t₁.orderType.Whole e.market t₁.direction ∧ t₁.orderType.Quoted t₁.direction := by
      rw [htx] at hcond
      exact hcond e.market (by simp [hzero, hshows.markets])
    exact .step hs hshows.listed (fun t₁ htx hz => (hlocks t₁ htx hz).1) (fun t₁ htx hz => (hlocks t₁ htx hz).2) hb

-- Account 8 takes three of the five lots that account 7 offers, and bids for four more.
def bidsBelow : List SignedTransaction := [
  .transfer 1 7 0 1000 0,
  .transfer 1 8 1 5000 1,
  .limit 7 .sell 10 5 0,
  .limit 8 .buy 10 3 0,
  .limit 8 .buy 9 4 1,
  .market 7 .sell 1 1
]

theorem bidsBelow_backed : ∃ l ts ns m, (LedgerState.new 1).apply bidsBelow = .ok (l, ts, ns) ∧
    l.spotClearinghouse.markets = [m] ∧ ((liveOrders m.orders).map fun o => o.locks 8 1 o.remaining).sum = 200 ∧
    (l.balance 8 1).totalBalance - (l.balance 8 1).availableBalance = 300 ∧ l.Backed := by
  refine ⟨_, _, _, _, rfl, rfl, rfl, rfl, ?_⟩
  exact backed_of_locksWhole (rfl : (LedgerState.new 1).apply bidsBelow = .ok _) (by decide)

-- Account 8 bids for ten lots at once. What is left of its order has no lock.
def bidsTen : List SignedTransaction := [
  .transfer 1 7 0 1000 0,
  .transfer 1 8 1 5000 1,
  .limit 7 .sell 10 5 0,
  .limit 8 .buy 10 10 0
]

theorem bidsTen_not_backed : ∃ l ts ns m, (LedgerState.new 1).apply bidsTen = .ok (l, ts, ns) ∧
    l.spotClearinghouse.markets = [m] ∧ ((liveOrders m.orders).map fun o => o.locks 8 1 o.remaining).sum = 500 ∧
    (l.balance 8 1).totalBalance - (l.balance 8 1).availableBalance = 0 ∧ ¬l.Backed := by
  refine ⟨_, _, _, _, rfl, rfl, rfl, rfl, ?_⟩
  rintro ⟨m, hm, _, _, _, h⟩
  cases hm
  exact absurd (h 8 1).2 (by decide)

end Superliquid

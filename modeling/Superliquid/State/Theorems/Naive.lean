import Mathlib.Data.List.Sort
import Superliquid.State.Theorems.Counters

namespace Superliquid

open SpotMarket

namespace OrderDirection

-- An order may trade at this price.
def Reaches (d : OrderDirection) (limit price : Nat) : Prop :=
  match d with
  | buy  => price ≤ limit
  | sell => limit ≤ price

-- An order trades at the price `p` rather than at `q`.
def Prefers (d : OrderDirection) (p q : Nat) : Prop :=
  match d with
  | buy  => p < q
  | sell => q < p

instance {d : OrderDirection} {limit price : Nat} : Decidable (d.Reaches limit price) :=
  match d with
  | buy  => inferInstanceAs (Decidable (price ≤ limit))
  | sell => inferInstanceAs (Decidable (limit ≤ price))

instance {d : OrderDirection} {p q : Nat} : Decidable (d.Prefers p q) :=
  match d with
  | buy  => inferInstanceAs (Decidable (p < q))
  | sell => inferInstanceAs (Decidable (q < p))

-- Of two resting orders, an order meets the one with the better price first, then the older one.
def Ahead (d : OrderDirection) (o o' : LimitOrder) : Prop :=
  d.Prefers o.priceMultiple o'.priceMultiple ∨
    o.priceMultiple = o'.priceMultiple ∧ o.common.id ≤ o'.common.id

instance {d : OrderDirection} : DecidableRel d.Ahead :=
  fun _ _ => inferInstanceAs (Decidable (_ ∨ _))

end OrderDirection

-- The live orders of a side as an order of direction `d` meets them.
def liveQueue (d : OrderDirection) (levels : List Level) : List LimitOrder :=
  (liveOrders (sideOrders levels)).insertionSort d.Ahead

-- What the naive matcher has done so far.
structure NaiveMatch where
  remaining         : Nat
  baseLots          : Nat
  quoteLots         : Nat
  lastExecutedPrice : Option Nat
  filledOrders      : List LimitOrder
  residualOrder     : Option ResidualOrder

-- Takes from one order after the other, and returns the orders that are left.
def naiveMatch (d : OrderDirection) (limit : Nat) (precision : MarketPrecision) :
    List LimitOrder → NaiveMatch → Checked (List LimitOrder × NaiveMatch)
  | [], s => return ([], s)
  | order :: orders, s =>
    if s.remaining = 0 ∨ ¬d.Reaches limit order.priceMultiple then
      return (order :: orders, s)
    else do
      let orderRemaining ← order.getOrderRemaining
      let lots := min s.remaining orderRemaining
      let quoteLots ← U64.add s.quoteLots (← baseToQuoteLots lots order.priceMultiple precision)
      let s := { s with
        remaining := s.remaining - lots, baseLots := s.baseLots + lots, quoteLots
        lastExecutedPrice := some order.priceMultiple }
      if lots = orderRemaining then
        naiveMatch d limit precision orders { s with filledOrders := s.filledOrders ++ [order] }
      else
        return ({ order with filledBaseLots := order.filledBaseLots + lots } :: orders, { s with
          residualOrder := some {
            orderId := order.common.id, accountPublicKey := order.common.account
            priceMultiple := order.priceMultiple, filledBaseLots := lots, selfFill := 0 } })

-- All the lots of an order are on offer, whatever it says was filled of it. A buyer gets the base lots, a
-- seller the quote lots.
def naiveLimit (d : OrderDirection) (queue : List LimitOrder) (order : LimitOrder) (assetIn assetOut : AssetId)
    (precision : MarketPrecision) : Checked (List LimitOrder × LimitOrder × LimitFillResult) := do
  let (left, s) ← naiveMatch d order.priceMultiple precision queue {
    remaining := order.baseLots, baseLots := 0, quoteLots := 0, lastExecutedPrice := none
    filledOrders := [], residualOrder := none }
  return (left, { order with filledBaseLots := s.baseLots }, {
    filledOrders := s.filledOrders
    residualOrder := s.residualOrder
    userOrder := {
      orderId := order.common.id, assetIn, assetOut, filledSize := s.baseLots
      lotsIn := if d = .buy then s.baseLots else s.quoteLots
      lotsOut := if d = .buy then s.quoteLots else s.baseLots }
    lastExecutedPrice := s.lastExecutedPrice })

-- What there is to see of the result of `execute_limit` if cancelled orders and levels are invisible.
def liveResult (d : OrderDirection) :
    List Level × LimitOrder × LimitFillResult → List LimitOrder × LimitOrder × LimitFillResult
  | (levels, order, result) =>
    (liveQueue d levels, order, { result with filledOrders := liveOrders result.filledOrders })

-- What a side relies on. The two bounds are those of the types of the fields.
structure Level.Represented (level : Level) : Prop extends level.Exact where
  price         : ∀ o ∈ level.orders, o.priceMultiple = level.price
  ids           : (orderIds level.orders).Pairwise (· < ·)
  cancelledFits : level.cancelled < 2 ^ 32
  lotsFit       : ∀ o ∈ level.orders, o.baseLots < 2 ^ 64

structure RepresentedSide (d : OrderDirection) (levels : List Level) : Prop where
  sorted : SortedBy d.cmp levels
  levels : ∀ level ∈ levels, level.Represented

-- The base lots that change hands go in for a buyer and out for a seller.
def SpotMarket.LimitMatch.baseLots (s : LimitMatch) (isBuy : Bool) : Nat :=
  if isBuy then s.lotsIn else s.lotsOut

def SpotMarket.LimitMatch.quoteLots (s : LimitMatch) (isBuy : Bool) : Nat :=
  if isBuy then s.lotsOut else s.lotsIn

-- The variables of `execute_limit`, seen as those of the naive matcher.
def SpotMarket.LimitMatch.naive (s : LimitMatch) (isBuy : Bool) (filledOrders : List LimitOrder) : NaiveMatch where
  remaining := s.remainingBaseAmount
  baseLots := s.baseLots isBuy
  quoteLots := s.quoteLots isBuy
  lastExecutedPrice := s.lastExecutedPrice
  filledOrders
  residualOrder := s.residualOrder

section Naive

variable {d : OrderDirection} {limit : Nat} {precision : MarketPrecision} {order : LimitOrder}
         {orders : List LimitOrder} {s : NaiveMatch}

theorem naiveMatch_done (h : s.remaining = 0) : naiveMatch d limit precision orders s = .ok (orders, s) := by
  cases orders
  case nil  => rfl
  case cons => rw [naiveMatch, if_pos (.inl h)]; rfl

theorem naiveMatch_apart (h : ∀ o ∈ orders, ¬d.Reaches limit o.priceMultiple) :
    naiveMatch d limit precision orders s = .ok (orders, s) := by
  cases orders
  case nil  => rfl
  case cons => rw [naiveMatch, if_pos (.inr (h _ List.mem_cons_self))]; rfl

end Naive

section Orders

variable {d : OrderDirection} {limit price : Nat} {isBuy : Bool} {precision : MarketPrecision}
         {orders rest filled : List LimitOrder} {s : LimitMatch}

-- Lots are added on both sides of the trade. Those that come out of the incoming order fit.
theorem addLots {lots quote : Nat} {k : Nat → Nat → Checked α}
    (h : s.baseLots isBuy + lots < 2 ^ 64) :
    (do let lotsIn ← U64.add s.lotsIn (if isBuy then lots else quote)
        let lotsOut ← U64.add s.lotsOut (if isBuy then quote else lots)
        k lotsIn lotsOut) =
      (do let quoteLots ← U64.add (s.quoteLots isBuy) quote
          k (if isBuy then s.lotsIn + lots else quoteLots) (if isBuy then quoteLots else s.lotsOut + lots)) := by
  cases isBuy
  case true =>
    have fits : U64.add s.lotsIn lots = .ok (s.lotsIn + lots) := U64.add_ok.mpr ⟨h, rfl⟩
    simp only [if_true, fits]
    rfl
  case false =>
    have fits : U64.add s.lotsOut lots = .ok (s.lotsOut + lots) := U64.add_ok.mpr ⟨h, rfl⟩
    simp only [Bool.false_eq_true, if_false, fits]
    rfl

-- The variables after `lots` were taken from an order, which makes it `quoteLots` altogether.
def SpotMarket.LimitMatch.take (s : LimitMatch) (isBuy : Bool) (price lots quoteLots : Nat) : LimitMatch :=
  { s with
    remainingBaseAmount := s.remainingBaseAmount - lots
    lotsIn := if isBuy then s.lotsIn + lots else quoteLots
    lotsOut := if isBuy then quoteLots else s.lotsOut + lots
    lastExecutedPrice := some price }

theorem take_baseLots {lots quoteLots : Nat} :
    (s.take isBuy price lots quoteLots).baseLots isBuy = s.baseLots isBuy + lots := by
  cases isBuy <;> rfl

-- The round of the loop for a live order, without the checks that always succeed.
theorem executeLimitOrders_live {order : LimitOrder} (live : order.IsLive) (hb : order.baseLots < 2 ^ 64)
    (hlots : s.baseLots isBuy + s.remainingBaseAmount < 2 ^ 64) :
    executeLimitOrders price isBuy precision (order :: orders) s =
      (do let orderRemaining ← order.getOrderRemaining
          let lots := min s.remainingBaseAmount orderRemaining
          let quoteLots ← U64.add (s.quoteLots isBuy) (← baseToQuoteLots lots price precision)
          let t := s.take isBuy price lots quoteLots
          if lots = orderRemaining then
            let t := { t with toDrainEndIndex := s.toDrainEndIndex + 1 }
            if t.remainingBaseAmount = 0 then
              return (order :: orders, t)
            else
              let (orders, t) ← executeLimitOrders price isBuy precision orders t
              return (order :: orders, t)
          else
            return ({ order with filledBaseLots := order.filledBaseLots + lots } :: orders, { t with
              residualOrder := some {
                orderId := order.common.id, accountPublicKey := order.common.account
                priceMultiple := price, filledBaseLots := lots, selfFill := 0 } })) := by
  rw [executeLimitOrders, if_neg live]
  refine Checked.bind_congr fun orderRemaining hv => ?_
  obtain ⟨hv, he⟩ := LimitOrder.getOrderRemaining_ok.mp hv
  have hmin := Nat.min_le_left s.remainingBaseAmount orderRemaining
  dsimp only
  rw [Checked.sub_eq_ok hmin, Checked.ok_bind]
  refine Checked.bind_congr fun quote _ => ?_
  rw [addLots (s := s) (by omega)]
  refine Checked.bind_congr fun quoteLots _ => ?_
  by_cases hl : min s.remainingBaseAmount orderRemaining = orderRemaining
  case pos => simp only [hl, if_true, Nat.lt_irrefl, if_false, LimitMatch.take]
  case neg =>
    have hl : s.remainingBaseAmount < orderRemaining := by omega
    have fits : U64.add order.filledBaseLots s.remainingBaseAmount =
        .ok (order.filledBaseLots + s.remainingBaseAmount) := by
      rw [LimitOrder.remaining] at he
      exact U64.add_ok.mpr ⟨by omega, rfl⟩
    simp only [Nat.min_eq_left hl.le, Nat.ne_of_lt hl, Nat.sub_self, hl, fits, if_true, if_false,
      Checked.ok_bind, LimitMatch.take]

-- What is left to do for the naive matcher after the loop over the orders of a level.
def resume (d : OrderDirection) (limit : Nat) (precision : MarketPrecision) (rest filled : List LimitOrder)
    (start : Nat) : List LimitOrder × LimitMatch → Checked (List LimitOrder × NaiveMatch)
  | (orders, s) =>
    let stop := s.toDrainEndIndex - start
    let n := s.naive d.isBuy (filled ++ liveOrders (orders.take stop))
    if stop < orders.length then .ok (liveOrders (orders.drop stop) ++ rest, n)
    else naiveMatch d limit precision rest n

theorem resume_cons {order : LimitOrder} {start : Nat} (h : start + 1 ≤ s.toDrainEndIndex) :
    resume d limit precision rest filled start (order :: orders, s) =
      resume d limit precision rest (filled ++ liveOrders [order]) (start + 1) (orders, s) := by
  have ⟨n, hn⟩ := Nat.exists_eq_add_of_le h
  have hstop : s.toDrainEndIndex - start = n + 1 := by omega
  have hstop' : s.toDrainEndIndex - (start + 1) = n := by omega
  have hfilled : filled ++ liveOrders (order :: orders.take n) =
      filled ++ liveOrders [order] ++ liveOrders (orders.take n) := by
    rw [List.append_assoc, ← liveOrders_append]
    rfl
  simp only [resume, hstop, hstop', List.take_succ_cons, List.drop_succ_cons, List.length_cons,
    Nat.add_lt_add_iff_right, hfilled]

-- The rest of the loop adds to what the first order has given.
theorem resume_next {order : LimitOrder} {start : Nat} (hn : s.residualOrder = none)
    (hs : s.toDrainEndIndex = start + 1) :
    (executeLimitOrders price d.isBuy precision orders s >>=
      resume d limit precision rest (filled ++ liveOrders [order]) s.toDrainEndIndex) =
    (do let (orders, s) ← executeLimitOrders price d.isBuy precision orders s
        return (order :: orders, s)) >>= resume d limit precision rest filled start := by
  rw [bind_assoc]
  refine Checked.bind_congr ?_
  rintro ⟨orders', s'⟩ h
  have hstop : start + 1 ≤ s'.toDrainEndIndex := by
    rw [(executeLimitOrders_walked hn h).walked.drained, hs]
    omega
  show resume _ _ _ _ _ _ (orders', s') = resume _ _ _ _ _ _ (order :: orders', s')
  rw [resume_cons hstop, hs]

theorem resume_done {start : Nat} (hs : s.toDrainEndIndex = start) (hz : s.remainingBaseAmount = 0) :
    resume d limit precision rest filled start (orders, s) =
      .ok (liveOrders orders ++ rest, s.naive d.isBuy filled) := by
  simp only [resume, hs, Nat.sub_self, List.take_zero, List.drop_zero]
  rw [show liveOrders [] = [] from rfl, List.append_nil]
  split
  case isTrue => rfl
  case isFalse hl =>
    rw [List.length_eq_zero_iff.mp (Nat.eq_zero_of_not_pos hl)]
    exact naiveMatch_done hz

-- By induction on the orders: the matchers agree on each, whatever they have taken before.
theorem executeLimitOrders_naive (hp : ∀ o ∈ orders, o.priceMultiple = price) (hr : d.Reaches limit price)
    (hz : s.remainingBaseAmount ≠ 0) (hn : s.residualOrder = none)
    (hlots : s.baseLots d.isBuy + s.remainingBaseAmount < 2 ^ 64)
    (hseen : s.cancelledSeen + countCancelled orders < 2 ^ 32) (hb : ∀ o ∈ orders, o.baseLots < 2 ^ 64) :
    naiveMatch d limit precision (liveOrders orders ++ rest) (s.naive d.isBuy filled) =
      executeLimitOrders price d.isBuy precision orders s >>=
        resume d limit precision rest filled s.toDrainEndIndex := by
  induction orders generalizing s filled
  case nil =>
    show _ = resume _ _ _ _ _ _ ([], s)
    simp [resume, liveOrders]
  case cons order orders hi =>
    have hp := List.forall_mem_cons.mp hp
    have hb := List.forall_mem_cons.mp hb
    by_cases live : order.IsLive
    case neg =>
      have hc : order.common.status = .cancelled := not_not.mp live
      rw [countCancelled_cancelled live] at hseen
      have seen : U32.add s.cancelledSeen 1 = .ok (s.cancelledSeen + 1) := U32.add_ok.mpr ⟨by omega, rfl⟩
      have hfilled : filled ++ liveOrders [order] = filled := by simp [liveOrders, live]
      have seen' : s.cancelledSeen + 1 + countCancelled orders < 2 ^ 32 := by omega
      rw [executeLimitOrders, if_pos hc, liveOrders_skip live, seen, Checked.ok_bind,
        ← resume_next (by exact hn) (by rfl), hfilled]
      exact hi (s := { s with cancelledSeen := s.cancelledSeen + 1, toDrainEndIndex := s.toDrainEndIndex + 1 })
        hp.2 hz hn hlots seen' hb.2
    case pos =>
      rw [countCancelled_live live] at hseen
      have hreach : ¬((s.naive d.isBuy filled).remaining = 0 ∨ ¬d.Reaches limit order.priceMultiple) := by
        simp [LimitMatch.naive, hz, hp.1, hr]
      rw [liveOrders_cons live, List.cons_append, naiveMatch, if_neg hreach,
        executeLimitOrders_live live hb.1 hlots, bind_assoc, hp.1]
      refine Checked.bind_congr fun orderRemaining hv => ?_
      dsimp only
      rw [bind_assoc]
      refine Checked.bind_congr fun quote _ => ?_
      rw [bind_assoc]
      refine Checked.bind_congr fun quoteLots _ => ?_
      by_cases hl : min s.remainingBaseAmount orderRemaining = orderRemaining
      case pos =>
        have hfilled : liveOrders [order] = [order] := by simp [liveOrders, live]
        simp only [LimitMatch.naive, hl, if_true]
        by_cases hz : s.remainingBaseAmount - orderRemaining = 0
        case pos =>
          rw [if_pos (by exact hz), pure_bind, resume_cons le_rfl, naiveMatch_done hz, hfilled]
          refine Eq.trans ?_ (resume_done rfl hz).symm
          cases d <;> rfl
        case neg =>
          rw [if_neg (by exact hz), ← resume_next (by exact hn) (by rfl), hfilled]
          have taken : (s.take d.isBuy price orderRemaining quoteLots).baseLots d.isBuy +
              (s.remainingBaseAmount - orderRemaining) < 2 ^ 64 := by
            rw [take_baseLots]
            omega
          refine Eq.trans ?_ (hi hp.2 hz hn taken hseen hb.2)
          cases d <;> rfl
      case neg =>
        have hl : s.remainingBaseAmount < orderRemaining := by omega
        simp only [LimitMatch.naive, Nat.min_eq_left hl.le, Nat.ne_of_lt hl, if_false]
        rw [pure_bind]
        refine Eq.trans ?_ (resume_done rfl (Nat.sub_self _)).symm
        rw [liveOrders_cons (by exact live)]
        cases d <;> rfl

-- What an order takes and what it still wants make up what it came with.
theorem baseLots_of_fills {s' : LimitMatch} {fills : List Fill} (hle : sumLots fills ≤ s.remainingBaseAmount)
    (hr : s'.remainingBaseAmount = s.remainingBaseAmount - sumLots fills)
    (hin : s'.lotsIn = s.lotsIn + if isBuy then sumLots fills else sumQuotes precision fills)
    (hout : s'.lotsOut = s.lotsOut + if isBuy then sumQuotes precision fills else sumLots fills) :
    s'.baseLots isBuy + s'.remainingBaseAmount = s.baseLots isBuy + s.remainingBaseAmount := by
  cases isBuy <;> simp only [LimitMatch.baseLots, if_true, Bool.false_eq_true, if_false] at * <;> omega

end Orders

section Levels

variable {d : OrderDirection} {limit : Nat} {precision : MarketPrecision} {levels : List Level} {level : Level}
         {filled : List LimitOrder} {s : LimitMatch}

theorem sideOrders_cons : sideOrders (level :: levels) = level.orders ++ sideOrders levels :=
  List.flatMap_cons

theorem OrderDirection.cmp_gt_iff {price : Nat} : d.flip.cmp limit price = .gt ↔ ¬d.Reaches limit price := by
  cases d
  case buy  => simp [flip, cmp, descending, Reaches, compare_gt_iff_gt]
  case sell => simp [flip, cmp, ascending, Reaches, compare_gt_iff_gt]

theorem OrderDirection.cmp_lt_iff {p q : Nat} : d.flip.cmp q p = .lt ↔ d.Prefers p q := by
  cases d
  case buy  => simp [flip, cmp, descending, Prefers, compare_lt_iff_lt]
  case sell => simp [flip, cmp, ascending, Prefers, compare_lt_iff_lt]

theorem OrderDirection.Reaches.of_prefers {p q : Nat} (h : d.Reaches limit q) (hp : d.Prefers p q) :
    d.Reaches limit p := by
  cases d
  case buy  => exact hp.le.trans h
  case sell => exact le_trans h hp.le

-- Levels that a limit order does not reach are followed by others that it does not reach.
theorem naiveMatch_stop {n : NaiveMatch} (hs : (level :: levels).Pairwise fun l l' => d.Prefers l.price l'.price)
    (hl : ∀ l ∈ level :: levels, l.Represented) (hr : ¬d.Reaches limit level.price) :
    naiveMatch d limit precision (liveOrders (sideOrders (level :: levels))) n =
      .ok (liveOrders (sideOrders (level :: levels)), n) := by
  refine naiveMatch_apart fun o ho reaches => hr ?_
  have ⟨l, hm, ho⟩ := List.mem_flatMap.mp (mem_liveOrders.mp ho).1
  rw [(hl l hm).price o ho] at reaches
  rcases List.mem_cons.mp hm with rfl | hm
  · exact reaches
  · exact reaches.of_prefers (List.rel_of_pairwise_cons hs hm)

-- By induction on the levels, best price first.
theorem executeLimitLevels_naive (hs : levels.Pairwise fun l l' => d.Prefers l.price l'.price)
    (hl : ∀ l ∈ levels, l.Represented) (hn : s.residualOrder = none)
    (hlots : s.baseLots d.isBuy + s.remainingBaseAmount < 2 ^ 64) :
    naiveMatch d limit precision (liveOrders (sideOrders levels)) (s.naive d.isBuy (liveOrders filled)) =
      (fun r => (liveOrders (sideOrders r.1), r.2.2.naive d.isBuy (liveOrders r.2.1))) <$>
        executeLimitLevels limit d.isBuy precision d.flip.cmp levels filled s := by
  induction levels generalizing filled s
  case nil => rfl
  case cons level levels hi =>
    have ⟨represented, hl'⟩ := List.forall_mem_cons.mp hl
    unfold executeLimitLevels
    split
    case isTrue hz => exact naiveMatch_done hz
    case isFalse hz =>
    split
    case isTrue hg => exact naiveMatch_stop hs hl (OrderDirection.cmp_gt_iff.mp hg)
    case isFalse hg =>
    have reaches : d.Reaches limit level.price := not_not.mp (mt OrderDirection.cmp_gt_iff.mpr hg)
    have hseen := represented.cancelled ▸ represented.cancelledFits
    rw [sideOrders_cons, liveOrders_append]
    refine (executeLimitOrders_naive (s := { s with toDrainEndIndex := 0, cancelledSeen := 0 })
      represented.price reaches hz hn hlots (by simpa using hseen) represented.lotsFit).trans ?_
    rw [map_bind]
    refine Checked.bind_congr ?_
    rintro ⟨orders', s'⟩ h
    have walked := executeLimitOrders_walked (by exact hn) h
    simp only [resume, Nat.sub_zero]
    split
    case isTrue hstop =>
      have ⟨hvolume, hcancelled⟩ := represented.matchesInRange.limit (by exact hn) rfl rfl h hstop
      rw [Checked.sub_eq_ok hvolume, Checked.sub_eq_ok hcancelled]
      simp only [Checked.ok_bind, map_pure, sideOrders_cons, liveOrders_append]
      rfl
    case isFalse hstop =>
      have left := not_not.mp (mt walked.walked.stop_lt_iff.mpr hstop)
      rw [List.take_of_length_le (Nat.le_of_not_lt hstop), ← liveOrders_append]
      refine hi hs.of_cons hl' (walked.walked.residual.trans (walk_residual left)) ?_
      rw [baseLots_of_fills (walk_lots_le _ _ _ _) walked.remaining walked.lotsIn walked.lotsOut]
      exact hlots

end Levels

section Queue

variable {d : OrderDirection} {limit : Nat} {precision : MarketPrecision} {queue left : List LimitOrder}
         {o o' : LimitOrder}

instance : Std.Total d.Ahead where
  total o o' := by cases d <;> simp only [OrderDirection.Ahead, OrderDirection.Prefers] <;> omega

instance : IsTrans LimitOrder d.Ahead where
  trans o o' o'' := by cases d <;> simp only [OrderDirection.Ahead, OrderDirection.Prefers] <;> omega

-- The orders are queued, and no two of them are on a par.
def Queued (d : OrderDirection) (queue : List LimitOrder) : Prop :=
  queue.Pairwise fun o o' => ¬d.Ahead o' o

theorem Queued.ahead (h : Queued d queue) : queue.Pairwise d.Ahead :=
  h.imp fun hn => (Std.Total.total _ _).resolve_right hn

-- There is only one way to sort such orders.
theorem Queued.insertionSort_eq {orders : List LimitOrder} (h : Queued d queue) (hp : orders.Perm queue) :
    orders.insertionSort d.Ahead = queue := by
  have sorted := List.perm_insertionSort d.Ahead orders
  refine List.Perm.eq_of_pairwise ?_ (List.pairwise_insertionSort d.Ahead orders) h.ahead (sorted.trans hp)
  intro o o' ho ho' hle hle'
  by_contra hne
  have apart : Std.Symm fun o o' => ¬(d.Ahead o o' ∧ d.Ahead o' o) := ⟨fun _ _ hn h => hn h.symm⟩
  have hpair : queue.Pairwise fun o o' => ¬(d.Ahead o o' ∧ d.Ahead o' o) := h.imp fun hn h => hn h.2
  exact hpair.forall ((sorted.trans hp).mem_iff.mp ho) ho' hne ⟨hle, hle'⟩

theorem Queued.of_terms (h : Queued d queue) (ht : (orderTerms left).Sublist (orderTerms queue)) : Queued d left := by
  have h : (orderTerms queue).Pairwise fun o o' => ¬d.Ahead o' o := List.pairwise_map.mpr h
  exact List.pairwise_map.mp (h.sublist ht)

-- What the naive matcher leaves is the end of the queue, with a first order that may be smaller.
theorem naiveMatch_left {s s' : NaiveMatch} (h : naiveMatch d limit precision queue s = .ok (left, s')) :
    orderTerms left <:+ orderTerms queue := by
  induction queue generalizing s
  case nil => cases h; exact List.suffix_rfl
  case cons order queue hi =>
    unfold naiveMatch at h
    split at h
    case isTrue => cases h; exact List.suffix_rfl
    case isFalse =>
      simp only [Checked.bind_ok] at h
      have ⟨_, _, _, _, _, _, h⟩ := h
      split at h
      case isTrue  => exact (hi h).trans (List.suffix_cons _ _)
      case isFalse => cases h; exact List.suffix_rfl

theorem queued_of_represented {levels : List Level} (hs : levels.Pairwise fun l l' => d.Prefers l.price l'.price)
    (hl : ∀ l ∈ levels, l.Represented) : Queued d (liveOrders (sideOrders levels)) := by
  have queued : Queued d (sideOrders levels) := by
    refine List.pairwise_flatMap.mpr ⟨fun l hm => ?_, hs.imp_of_mem fun hm hm' hp o ho o' ho' => ?_⟩
    · refine (List.pairwise_map.mp (hl l hm).ids).imp_of_mem fun {o o'} ho ho' hid => ?_
      have hp : o.priceMultiple = o'.priceMultiple := ((hl l hm).price o ho).trans ((hl l hm).price o' ho').symm
      cases d <;> simp only [OrderDirection.Ahead, OrderDirection.Prefers] <;> omega
    · rw [← (hl _ hm).price o ho, ← (hl _ hm').price o' ho'] at hp
      cases d <;> simp only [OrderDirection.Ahead, OrderDirection.Prefers] at hp ⊢ <;> omega
  exact queued.sublist List.filter_sublist

end Queue

section Limit

variable {d : OrderDirection} {precision : MarketPrecision} {levels : List Level} {order : LimitOrder}
         {assetIn assetOut : AssetId}

theorem RepresentedSide.prefers (h : RepresentedSide d.flip levels) :
    levels.reverse.Pairwise fun l l' => d.Prefers l.price l'.price :=
  List.pairwise_reverse.mpr ((List.pairwise_map.mp h.sorted).imp OrderDirection.cmp_lt_iff.mp)

theorem liveQueue_eq (h : Queued d (liveOrders (sideOrders levels.reverse))) :
    liveQueue d levels = liveOrders (sideOrders levels.reverse) :=
  h.insertionSort_eq (liveOrders_perm sideOrders_reverse.symm)

theorem executeLimit_eq_naive (h : RepresentedSide d.flip levels) (hb : order.baseLots < 2 ^ 64) :
    liveResult d <$> executeLimit levels order assetIn assetOut d.isBuy precision d.flip.cmp =
      naiveLimit d (liveQueue d levels) order assetIn assetOut precision := by
  have represented : ∀ l ∈ levels.reverse, l.Represented := by simpa using h.levels
  have queued := queued_of_represented h.prefers represented
  let start : LimitMatch := {
    remainingBaseAmount := order.baseLots, lotsIn := 0, lotsOut := 0, lastExecutedPrice := none
    residualOrder := none, toDrainEndIndex := 0, cancelledSeen := 0 }
  have lots : start.baseLots d.isBuy + start.remainingBaseAmount = order.baseLots := by
    cases d <;> exact Nat.zero_add _
  have naive : naiveMatch d order.priceMultiple precision _ (start.naive d.isBuy (liveOrders [])) = _ :=
    executeLimitLevels_naive h.prefers represented rfl (lots ▸ hb)
  have hstart : start.naive d.isBuy (liveOrders []) = {
      remaining := order.baseLots, baseLots := 0, quoteLots := 0, lastExecutedPrice := none
      filledOrders := [], residualOrder := none } := by cases d <;> rfl
  unfold naiveLimit executeLimit
  rw [liveQueue_eq queued, ← hstart, naive, bind_map_left, map_bind]
  refine Checked.bind_congr ?_
  rintro ⟨levels', filled, s⟩ hx
  rw [hx] at naive
  have left : liveQueue d levels'.reverse = liveOrders (sideOrders levels') := by
    rw [liveQueue_eq, List.reverse_reverse]
    rw [List.reverse_reverse]
    exact queued.of_terms (naiveMatch_left naive).sublist
  have swept := executeLimitLevels_swept rfl hx
  have lots : s.baseLots d.isBuy + s.remainingBaseAmount = order.baseLots :=
    (baseLots_of_fills (sweep_lots_le _ _ _ _) swept.remaining swept.lotsIn swept.lotsOut).trans lots
  have filledLots : Checked.sub order.baseLots s.remainingBaseAmount = .ok (s.baseLots d.isBuy) :=
    Checked.sub_ok.mpr ⟨by omega, by omega⟩
  dsimp only
  rw [filledLots, Checked.ok_bind, map_pure]
  simp only [liveResult, left]
  cases d <;> rfl

-- At 20, a cancelled order, one that was filled in part and one that its owner traded with itself. A
-- buyer of 10 lots uses up the last two, and takes 2 of the 4 lots at 30.
def mixedAsks : List Level := [
  { price := 30, volume := 4, orders := [.place 1 7 .sell 30 4], cancelled := 0 },
  { price := 20, volume := 8, cancelled := 1
    orders := [
      { LimitOrder.place 0 7 .sell 20 9 with common.status := .cancelled },
      { LimitOrder.place 2 7 .sell 20 5 with filledBaseLots := 2 },
      { LimitOrder.place 3 8 .sell 20 6 with selfFilled := 1 }] }]

theorem mixedAsks_represented : RepresentedSide .sell mixedAsks := by
  refine ⟨by simp [SortedBy, mixedAsks, OrderDirection.cmp, descending, compare_lt_iff_lt], fun level hl => ?_⟩
  simp only [mixedAsks, List.mem_cons, List.not_mem_nil, or_false] at hl
  rcases hl with rfl | rfl
  · exact ⟨⟨by decide, by decide⟩, by decide, by decide, by decide, by decide⟩
  · exact ⟨⟨by decide, by decide⟩, by decide, by decide, by decide, by decide⟩

theorem mixedAsks_eq_naive :
    let order := LimitOrder.place 4 9 .buy 30 10
    let executed := executeLimit mixedAsks order 0 1 true .supeUsd descending
    RepresentedSide .sell mixedAsks ∧
    (∃ r, executed = .ok r ∧ r.2.2.filledOrders.map (·.common.id) = [0, 2, 3]) ∧
    liveResult .buy <$> executed = naiveLimit .buy (liveQueue .buy mixedAsks) order 0 1 .supeUsd := by
  have represented := mixedAsks_represented
  exact ⟨represented, ⟨_, rfl, rfl⟩, executeLimit_eq_naive (d := .buy) represented (by decide)⟩

end Limit

end Superliquid

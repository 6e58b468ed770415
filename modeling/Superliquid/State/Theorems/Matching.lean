import Superliquid.State.Market

namespace Superliquid

-- The lots that an incoming order takes from a resting one, at the price of its level.
structure Fill where
  price : Nat
  order : LimitOrder
  lots  : Nat
  deriving DecidableEq

namespace Fill

-- Nothing is left of the resting order.
def Whole (f : Fill) : Prop :=
  f.order.remaining ≤ f.lots

instance : DecidablePred Whole :=
  fun f => inferInstanceAs (Decidable (f.order.remaining ≤ f.lots))

variable (own : LimitOrder → Bool)

-- The resting order afterwards. Trades of an account with itself are counted apart, and the counter
-- of an order that is used up is left alone otherwise.
def after (f : Fill) : LimitOrder :=
  if own f.order then { f.order with selfFilled := f.order.selfFilled + f.lots }
  else if f.Whole then f.order
  else { f.order with filledBaseLots := f.order.filledBaseLots + f.lots }

def residual (f : Fill) : ResidualOrder where
  orderId := f.order.common.id
  accountPublicKey := f.order.common.account
  priceMultiple := f.price
  filledBaseLots := if own f.order then 0 else f.lots
  selfFill := if own f.order then f.lots else 0

variable {own : LimitOrder → Bool} {f : Fill}

theorem after_own (h : own f.order = true) :
    f.after own = { f.order with selfFilled := f.order.selfFilled + f.lots } := by
  simp [after, h]

theorem after_whole (h : own f.order = false) (hl : f.order.remaining ≤ f.lots) : f.after own = f.order := by
  simp [after, h, Whole, hl]

theorem after_part (h : own f.order = false) (hl : f.lots < f.order.remaining) :
    f.after own = { f.order with filledBaseLots := f.order.filledBaseLots + f.lots } := by
  simp [after, h, Whole, Nat.not_le.mpr hl]

theorem after_common : (f.after own).common = f.order.common := by
  unfold after
  split
  · rfl
  · split <;> rfl

theorem after_isLive : (f.after own).IsLive ↔ f.order.IsLive := by
  rw [LimitOrder.IsLive, after_common]
  rfl

theorem residual_own (h : own f.order = true) :
    f.residual own = { orderId := f.order.common.id, accountPublicKey := f.order.common.account
                       priceMultiple := f.price, filledBaseLots := 0, selfFill := f.lots } := by
  simp [residual, h]

theorem residual_other (h : own f.order = false) :
    f.residual own = { orderId := f.order.common.id, accountPublicKey := f.order.common.account
                       priceMultiple := f.price, filledBaseLots := f.lots, selfFill := 0 } := by
  simp [residual, h]

end Fill

-- What a match does to the orders of a level.
structure Walk where
  drained  : List LimitOrder
  left     : List LimitOrder
  residual : Option ResidualOrder
  fills    : List Fill

section Naive

variable (own : LimitOrder → Bool)

-- Takes `lots` from the live orders of a level, one by one.
def walk (price lots : Nat) : List LimitOrder → Walk
  | [] => { drained := [], left := [], residual := none, fills := [] }
  | order :: orders =>
    if ¬order.IsLive then
      let w := walk price lots orders
      { w with drained := order :: w.drained }
    else if lots < order.remaining then
      let f : Fill := { price, order, lots }
      { drained := [], left := f.after own :: orders, residual := some (f.residual own), fills := [f] }
    else
      let f : Fill := { price, order, lots := order.remaining }
      if lots = order.remaining then
        { drained := [f.after own], left := orders, residual := none, fills := [f] }
      else
        let w := walk price (lots - order.remaining) orders
        { w with drained := f.after own :: w.drained, fills := f :: w.fills }

-- How many lots may be taken from a level, and what is left of the budget after that.
structure Budget where
  lots  : Nat → Nat → Nat
  spend : Nat → List Fill → Nat

-- What a match does to the levels of a side, given best price first.
structure Sweep where
  levels   : List Level
  drained  : List LimitOrder
  residual : Option ResidualOrder
  fills    : List Fill

-- The orders of a list that were cancelled before.
def countCancelled (orders : List LimitOrder) : Nat :=
  orders.countP (¬·.IsLive)

def sumLots (fills : List Fill) : Nat :=
  (fills.map Fill.lots).sum

def sweep (b : Budget) (budget : Nat) : List Level → Sweep
  | [] => { levels := [], drained := [], residual := none, fills := [] }
  | level :: levels =>
    if b.lots budget level.price = 0 then
      { levels := level :: levels, drained := [], residual := none, fills := [] }
    else
      let w := walk own level.price (b.lots budget level.price) level.orders
      if w.left = [] then
        let s := sweep b (b.spend budget w.fills) levels
        { s with drained := w.drained ++ s.drained, fills := w.fills ++ s.fills }
      else
        { levels := { level with
            volume := level.volume - sumLots w.fills
            orders := w.left
            cancelled := level.cancelled - countCancelled w.drained } :: levels
          drained := w.drained, residual := w.residual, fills := w.fills }

end Naive

-- The quote lots for a number of base lots, where these can be computed.
def quoteLots (precision : MarketPrecision) (price lots : Nat) : Nat :=
  (baseToQuoteLots lots price precision).toOption.getD 0

def sumQuotes (precision : MarketPrecision) (fills : List Fill) : Nat :=
  (fills.map fun f => quoteLots precision f.price f.lots).sum

-- A budget in base lots, for prices up to a limit.
def Budget.base (crosses : Nat → Bool) : Budget where
  lots budget price := if crosses price then budget else 0
  spend budget fills := budget - sumLots fills

-- A budget in quote lots.
def Budget.quote (precision : MarketPrecision) : Budget where
  lots budget price :=
    if budget = 0 then 0 else (quoteLotsToBaseLots budget price precision).toOption.getD 0
  spend budget fills := budget - sumQuotes precision fills

theorem quoteLots_of_ok {precision : MarketPrecision} {lots price q : Nat}
    (h : baseToQuoteLots lots price precision = .ok q) : quoteLots precision price lots = q := by
  simp [quoteLots, h, Except.toOption]

def LimitOrder.Valid (o : LimitOrder) : Prop :=
  o.filledBaseLots + o.selfFilled ≤ o.baseLots

-- The part of the outcome of a loop over orders that all matchers have in common.
structure Walked (w : Walk) (orders : List LimitOrder) (start stop seen seen' : Nat)
    (residual : Option ResidualOrder) : Prop where
  orders    : orders = w.drained ++ w.left
  drained   : stop = start + w.drained.length
  cancelled : seen' = seen + countCancelled w.drained
  residual  : residual = w.residual
  valid     : ∀ f ∈ w.fills, f.order.Valid

-- What a loop does with a live order: it takes a part of it, or all of it as the last one, or all of it before it goes
-- on. The state is `took` with the lots counted, and `left` with the residual order too.
inductive Visited {α : Type} (own : LimitOrder → Bool) (f : Fill) (lots : Nat) (orders : List LimitOrder)
    (took left : α) (rest : List LimitOrder → α → Prop) : List LimitOrder → α → Prop
  | part : (lots < f.order.remaining) → Visited own f lots orders took left rest (f.after own :: orders) left
  | last : (lots = f.order.remaining) → Visited own f lots orders took left rest (f.after own :: orders) took
  | next : (f.order.remaining < lots) → rest orders' s' →
    Visited own f lots orders took left rest (f.after own :: orders') s'

section Walk

variable {own : LimitOrder → Bool} {price lots start stop seen seen' : Nat} {order : LimitOrder}
         {orders orders' : List LimitOrder} {residual : Option ResidualOrder}

theorem walk_skip (h : ¬order.IsLive) :
    walk own price lots (order :: orders) =
      { walk own price lots orders with drained := order :: (walk own price lots orders).drained } := by
  simp [walk, h]

theorem walk_part (h : order.IsLive) (hl : lots < order.remaining) :
    walk own price lots (order :: orders) =
      let f : Fill := { price, order, lots }
      { drained := [], left := f.after own :: orders, residual := some (f.residual own), fills := [f] } := by
  simp [walk, h, hl]

theorem walk_last (h : order.IsLive) (hl : lots = order.remaining) :
    walk own price lots (order :: orders) =
      let f : Fill := { price, order, lots }
      { drained := [f.after own], left := orders, residual := none, fills := [f] } := by
  simp [walk, h, hl]

theorem walk_next (h : order.IsLive) (hl : order.remaining < lots) :
    walk own price lots (order :: orders) =
      let f : Fill := { price, order, lots := order.remaining }
      let w := walk own price (lots - order.remaining) orders
      { w with drained := f.after own :: w.drained, fills := f :: w.fills } := by
  simp [walk, h, Nat.not_lt.mpr hl.le, Nat.ne_of_gt hl]

theorem countCancelled_live (h : order.IsLive) :
    countCancelled (order :: orders) = countCancelled orders := by
  simp [countCancelled, h]

theorem countCancelled_cancelled (h : ¬order.IsLive) :
    countCancelled (order :: orders) = countCancelled orders + 1 := by
  simp [countCancelled, h]

theorem Walked.skip (h : ¬order.IsLive)
    (hw : Walked (walk own price lots orders) orders' (start + 1) stop (seen + 1) seen' residual) :
    Walked (walk own price lots (order :: orders)) (order :: orders') start stop seen seen' residual where
  orders    := by simp [walk_skip h, hw.orders]
  drained   := by simp [walk_skip h, hw.drained]; omega
  cancelled := by rw [walk_skip h, countCancelled_cancelled h, hw.cancelled]; omega
  residual  := by simp [walk_skip h, hw.residual]
  valid     := by simpa [walk_skip h] using hw.valid

theorem Walked.part (own : LimitOrder → Bool) (price start seen : Nat) (orders : List LimitOrder)
    (h : order.IsLive) (hv : order.Valid) (hl : lots < order.remaining) :
    Walked (walk own price lots (order :: orders)) (Fill.after own { price, order, lots } :: orders)
      start start seen seen (some (Fill.residual own { price, order, lots })) := by
  rw [walk_part h hl]
  exact ⟨rfl, rfl, rfl, rfl, by simpa using hv⟩

theorem Walked.last (own : LimitOrder → Bool) (price start seen : Nat) (orders : List LimitOrder)
    (h : order.IsLive) (hv : order.Valid) (hl : lots = order.remaining) :
    Walked (walk own price lots (order :: orders)) (Fill.after own { price, order, lots } :: orders)
      start (start + 1) seen seen none := by
  rw [walk_last h hl]
  refine ⟨rfl, rfl, ?_, rfl, by simpa using hv⟩
  rw [countCancelled_live (Fill.after_isLive.mpr h)]
  rfl

theorem Walked.next (h : order.IsLive) (hv : order.Valid) (hl : order.remaining < lots)
    (hw : Walked (walk own price (lots - order.remaining) orders) orders' (start + 1) stop seen seen'
      residual) :
    Walked (walk own price lots (order :: orders))
      (Fill.after own { price, order, lots := order.remaining } :: orders') start stop seen seen' residual := by
  rw [walk_next h hl]
  refine ⟨by simp [hw.orders], by simp [hw.drained]; omega, ?_, hw.residual, ?_⟩
  · rw [countCancelled_live (Fill.after_isLive.mpr h), hw.cancelled]
  · simpa using ⟨hv, hw.valid⟩

theorem walk_lots_le (own : LimitOrder → Bool) (price lots : Nat) (orders : List LimitOrder) :
    sumLots (walk own price lots orders).fills ≤ lots := by
  induction orders generalizing lots
  case nil => simp [walk, sumLots]
  case cons order orders hi =>
    by_cases h : order.IsLive
    case neg => simpa [walk_skip h] using hi lots
    case pos =>
      rcases Nat.lt_trichotomy lots order.remaining with hl | hl | hl
      · simp [walk_part h hl, sumLots]
      · simp [walk_last h hl, sumLots]
      · have := hi (lots - order.remaining)
        simp only [walk_next h hl, sumLots, List.map_cons, List.sum_cons] at this ⊢
        omega

theorem walk_residual (h : (walk own price lots orders).left = []) :
    (walk own price lots orders).residual = none := by
  induction orders generalizing lots
  case nil => rfl
  case cons order orders hi =>
    by_cases live : order.IsLive
    case neg => simp only [walk_skip live] at h ⊢; exact hi h
    case pos =>
      rcases Nat.lt_trichotomy lots order.remaining with hl | hl | hl
      · simp [walk_part live hl] at h
      · simp [walk_last live hl]
      · simp only [walk_next live hl] at h ⊢; exact hi h

-- Unless it runs out of orders, a walk takes all the lots.
theorem walk_lots_eq (h : (walk own price lots orders).left ≠ []) :
    sumLots (walk own price lots orders).fills = lots := by
  induction orders generalizing lots
  case nil => simp [walk] at h
  case cons order orders hi =>
    by_cases live : order.IsLive
    case neg => simp only [walk_skip live] at h ⊢; exact hi h
    case pos =>
      rcases Nat.lt_trichotomy lots order.remaining with hl | hl | hl
      · simp [walk_part live hl, sumLots]
      · simp [walk_last live hl, sumLots]
      · simp only [walk_next live hl] at h ⊢
        have := hi h
        simp only [sumLots, List.map_cons, List.sum_cons] at this ⊢
        omega

theorem Walked.stop_lt_iff (h : Walked (walk own price lots orders) orders' 0 stop 0 seen residual) :
    stop < orders'.length ↔ (walk own price lots orders).left ≠ [] := by
  rw [h.drained, h.orders, List.length_append, Nat.zero_add, Nat.lt_add_right_iff_pos, List.length_pos_iff]

-- The end of the body of the loops.
theorem Visited.of_tail {α : Type} {f : Fill} {took left s' : α} {part rest : Checked (List LimitOrder × α)}
    (h : (if lots - min lots f.order.remaining = 0 then
        if min lots f.order.remaining < f.order.remaining then part else pure (order :: orders, took)
      else do
        let (orders, s) ← rest
        return (order :: orders, s)) = .ok (orders', s'))
    (hf : f.lots = min lots f.order.remaining)
    (hpart : f.lots < f.order.remaining → part = .ok (orders', s') → orders' = f.after own :: orders ∧ s' = left)
    (hwhole : f.order.remaining ≤ f.lots → f.after own = order) :
    Visited own f lots orders took left (fun orders s => rest = .ok (orders, s)) orders' s' := by
  rcases Nat.lt_trichotomy lots f.order.remaining with hl | hl | hl
  · rw [Nat.min_eq_left hl.le] at h hf
    rw [if_pos (Nat.sub_self _), if_pos hl] at h
    obtain ⟨ho, hs⟩ := hpart (hf ▸ hl) h
    subst ho hs
    exact .part hl
  · rw [← hl, Nat.min_self] at h hf
    rw [if_pos (Nat.sub_self _), if_neg (Nat.lt_irrefl _)] at h
    cases h
    rw [← hwhole (hf ▸ hl.ge)]
    exact .last hl
  · rw [Nat.min_eq_right hl.le] at h hf
    rw [if_neg (Nat.sub_ne_zero_of_lt hl)] at h
    simp only [Checked.bind_ok, Checked.pure_ok, Prod.exists, Prod.mk.injEq] at h
    obtain ⟨_, _, hrest, ho, hs⟩ := h
    subst ho hs
    rw [← hwhole hf.ge]
    exact .next hl hrest

end Walk

-- The same for the loops over levels.
structure Swept (sw : Sweep) (levels : List Level) (filled filled' : List LimitOrder)
    (residual : Option ResidualOrder) : Prop where
  levels   : levels = sw.levels
  filled   : filled' = filled ++ sw.drained
  residual : residual = sw.residual
  valid    : ∀ f ∈ sw.fills, f.order.Valid

section Sweep

variable {own : LimitOrder → Bool} {b : Budget} {budget stop seen : Nat} {level : Level}
         {levels levels' : List Level} {orders filled filled' : List LimitOrder}
         {residual residual' : Option ResidualOrder}

theorem sweep_stop (h : b.lots budget level.price = 0) :
    sweep own b budget (level :: levels) =
      { levels := level :: levels, drained := [], residual := none, fills := [] } := by
  simp [sweep, h]

theorem sweep_part (h : b.lots budget level.price ≠ 0)
    (hl : (walk own level.price (b.lots budget level.price) level.orders).left ≠ []) :
    sweep own b budget (level :: levels) =
      let w := walk own level.price (b.lots budget level.price) level.orders
      { levels := { level with
          volume := level.volume - sumLots w.fills
          orders := w.left
          cancelled := level.cancelled - countCancelled w.drained } :: levels
        drained := w.drained, residual := w.residual, fills := w.fills } := by
  simp [sweep, h, hl]

theorem sweep_whole (h : b.lots budget level.price ≠ 0)
    (hl : (walk own level.price (b.lots budget level.price) level.orders).left = []) :
    sweep own b budget (level :: levels) =
      let w := walk own level.price (b.lots budget level.price) level.orders
      let s := sweep own b (b.spend budget w.fills) levels
      { s with drained := w.drained ++ s.drained, fills := w.fills ++ s.fills } := by
  simp [sweep, h, hl]

theorem Swept.nil : Swept (sweep own b budget []) [] filled filled none :=
  ⟨rfl, by simp [sweep], rfl, by simp [sweep]⟩

theorem Swept.done (h : b.lots budget level.price = 0) :
    Swept (sweep own b budget (level :: levels)) (level :: levels) filled filled none := by
  rw [sweep_stop h]
  exact ⟨rfl, by simp, rfl, by simp⟩

theorem Swept.part {filledLots : Nat} (h : b.lots budget level.price ≠ 0)
    (hw : Walked (walk own level.price (b.lots budget level.price) level.orders) orders 0 stop 0 seen residual)
    (hl : stop < orders.length)
    (hf : filledLots = sumLots (walk own level.price (b.lots budget level.price) level.orders).fills) :
    Swept (sweep own b budget (level :: levels))
      ({ level with
          volume := level.volume - filledLots
          cancelled := level.cancelled - seen
          orders := orders.drop stop } :: levels)
      filled (filled ++ orders.take stop) residual := by
  have hd := hw.drained
  have hc := hw.cancelled
  rw [Nat.zero_add] at hd hc
  rw [sweep_part h (hw.stop_lt_iff.mp hl), hw.orders, hd, hf, hc]
  exact ⟨by simp, by simp, hw.residual, hw.valid⟩

theorem Swept.whole (h : b.lots budget level.price ≠ 0)
    (hw : Walked (walk own level.price (b.lots budget level.price) level.orders) orders 0 stop 0 seen residual)
    (hl : ¬stop < orders.length)
    (hs : Swept (sweep own b
        (b.spend budget (walk own level.price (b.lots budget level.price) level.orders).fills) levels)
      levels' (filled ++ orders) filled' residual') :
    Swept (sweep own b budget (level :: levels)) levels' filled filled' residual' := by
  have hl := not_not.mp (mt hw.stop_lt_iff.mpr hl)
  rw [sweep_whole h hl]
  refine ⟨hs.levels, ?_, hs.residual, ?_⟩
  · rw [hs.filled, hw.orders, hl, List.append_nil, List.append_assoc]
  · intro f hf
    exact (List.mem_append.mp hf).elim (hw.valid f) (hs.valid f)

end Sweep

theorem sumLots_append (fs gs : List Fill) : sumLots (fs ++ gs) = sumLots fs + sumLots gs := by
  simp [sumLots]

theorem sumQuotes_append (precision : MarketPrecision) (fs gs : List Fill) :
    sumQuotes precision (fs ++ gs) = sumQuotes precision fs + sumQuotes precision gs := by
  simp [sumQuotes]

theorem sweep_lots_le
    (own : LimitOrder → Bool) (crosses : Nat → Bool) (budget : Nat) (levels : List Level) :
    sumLots (sweep own (.base crosses) budget levels).fills ≤ budget := by
  induction levels generalizing budget
  case nil => simp [sweep, sumLots]
  case cons level levels hi =>
    by_cases hz : (Budget.base crosses).lots budget level.price = 0
    case pos => simp [sweep_stop hz, sumLots]
    have hle : (Budget.base crosses).lots budget level.price ≤ budget := by
      simp only [Budget.base]
      split <;> simp
    have hw := (walk_lots_le own level.price _ level.orders).trans hle
    by_cases hl : (walk own level.price ((Budget.base crosses).lots budget level.price) level.orders).left = []
    case neg => rw [sweep_part hz hl]; exact hw
    case pos =>
      rw [sweep_whole hz hl]
      simp only [sumLots_append]
      have := hi ((Budget.base crosses).spend budget
        (walk own level.price ((Budget.base crosses).lots budget level.price) level.orders).fills)
      simp only [Budget.base] at this hw ⊢
      omega

-- The fills with others, and those with the taker itself.
def traded (own : LimitOrder → Bool) (fills : List Fill) : List Fill :=
  fills.filter (!own ·.order)

def selfTraded (own : LimitOrder → Bool) (fills : List Fill) : List Fill :=
  fills.filter (own ·.order)

section

variable (own : LimitOrder → Bool) (precision : MarketPrecision) (fs gs : List Fill)

theorem traded_append : traded own (fs ++ gs) = traded own fs ++ traded own gs :=
  List.filter_append fs gs

theorem selfTraded_append : selfTraded own (fs ++ gs) = selfTraded own fs ++ selfTraded own gs :=
  List.filter_append fs gs

theorem sumLots_traded : sumLots fs = sumLots (traded own fs) + sumLots (selfTraded own fs) := by
  induction fs
  case nil => rfl
  case cons f fs hi =>
    cases h : own f.order <;> simp_all [sumLots, traded, selfTraded] <;> omega

theorem sumQuotes_traded :
    sumQuotes precision fs =
      sumQuotes precision (traded own fs) + sumQuotes precision (selfTraded own fs) := by
  induction fs
  case nil => rfl
  case cons f fs hi =>
    cases h : own f.order <;> simp_all [sumQuotes, traded, selfTraded] <;> omega

end

open SpotMarket

section Limit

variable {price : Nat} {isBuy : Bool} {precision : MarketPrecision} {order : LimitOrder}
         {orders orders' : List LimitOrder} {s s' : LimitMatch}

-- Limit orders do not look at the accounts of the orders that they meet.
def notOwn (_ : LimitOrder) : Bool :=
  false

structure LimitWalked (w : Walk) (isBuy : Bool) (precision : MarketPrecision) (s : LimitMatch)
    (orders : List LimitOrder) (s' : LimitMatch) : Prop where
  walked    : Walked w orders s.toDrainEndIndex s'.toDrainEndIndex s.cancelledSeen s'.cancelledSeen s'.residualOrder
  remaining : s'.remainingBaseAmount = s.remainingBaseAmount - sumLots w.fills
  lotsIn    : s'.lotsIn = s.lotsIn + if isBuy then sumLots w.fills else sumQuotes precision w.fills
  lotsOut   : s'.lotsOut = s.lotsOut + if isBuy then sumQuotes precision w.fills else sumLots w.fills

-- The counters after a fill.
def SpotMarket.LimitMatch.counted (isBuy : Bool) (precision : MarketPrecision) (s : LimitMatch)
    (f : Fill) : LimitMatch :=
  let quotes := quoteLots precision f.price f.lots
  { s with
    remainingBaseAmount := s.remainingBaseAmount - f.lots
    lotsIn := s.lotsIn + if isBuy then f.lots else quotes
    lotsOut := s.lotsOut + if isBuy then quotes else f.lots
    toDrainEndIndex := if f.lots = f.order.remaining then s.toDrainEndIndex + 1 else s.toDrainEndIndex
    lastExecutedPrice := some f.price }

theorem executeLimitOrders_skip (live : ¬order.IsLive)
    (h : executeLimitOrders price isBuy precision (order :: orders) s = .ok (orders', s')) :
    ∃ rest, orders' = order :: rest ∧ executeLimitOrders price isBuy precision orders
      { s with cancelledSeen := s.cancelledSeen + 1, toDrainEndIndex := s.toDrainEndIndex + 1 } = .ok (rest, s') := by
  unfold executeLimitOrders at h
  rw [if_pos (not_not.mp live)] at h
  simp only [Checked.bind_ok, U32.add_ok, Checked.pure_ok, Prod.exists, Prod.mk.injEq] at h
  obtain ⟨_, ⟨_, hseen⟩, rest, _, hrest, ho, hs⟩ := h
  subst hseen hs
  exact ⟨rest, ho.symm, hrest⟩

theorem executeLimitOrders_visited (live : order.IsLive)
    (h : executeLimitOrders price isBuy precision (order :: orders) s = .ok (orders', s')) :
    let f : Fill := { price, order, lots := min s.remainingBaseAmount order.remaining }
    let took := s.counted isBuy precision f
    order.Valid ∧
    Visited notOwn f s.remainingBaseAmount orders took { took with residualOrder := some (f.residual notOwn) }
      (fun orders' s' => executeLimitOrders price isBuy precision orders took = .ok (orders', s')) orders' s' := by
  unfold executeLimitOrders at h
  rw [if_neg live] at h
  simp only [Checked.bind_ok, LimitOrder.getOrderRemaining_ok, Checked.sub_ok, U64.add_ok] at h
  obtain ⟨_, ⟨hv, hrem⟩, _, ⟨_, hn⟩, _, hq, _, ⟨_, hin⟩, _, ⟨_, hout⟩, h⟩ := h
  have hq := quoteLots_of_ok hq
  subst hrem hn hq hin hout
  refine ⟨hv, .of_tail h rfl (fun hl hs => ?_) fun hl => Fill.after_whole rfl hl⟩
  simp only [Checked.bind_ok, U64.add_ok, Checked.pure_ok, Prod.mk.injEq] at hs
  obtain ⟨_, ⟨_, hf⟩, ho, hs⟩ := hs
  subst hf ho hs
  exact ⟨by rw [Fill.after_part rfl hl], rfl⟩

theorem executeLimitOrders_walked (hr : s.residualOrder = none)
    (h : executeLimitOrders price isBuy precision orders s = .ok (orders', s')) :
    LimitWalked (walk notOwn price s.remainingBaseAmount orders) isBuy precision s orders' s' := by
  induction orders generalizing s orders' s'
  case nil =>
    cases h
    exact ⟨⟨rfl, rfl, rfl, hr, by simp [walk]⟩, by simp [walk, sumLots],
      by cases isBuy <;> simp [walk, sumLots, sumQuotes], by cases isBuy <;> simp [walk, sumLots, sumQuotes]⟩
  case cons order orders hi =>
    by_cases live : order.IsLive
    case neg =>
      obtain ⟨_, ho, hrest⟩ := executeLimitOrders_skip live h
      subst ho
      have hi := hi (by exact hr) hrest
      exact ⟨hi.walked.skip live, by simpa [walk_skip live] using hi.remaining,
        by simpa [walk_skip live] using hi.lotsIn, by simpa [walk_skip live] using hi.lotsOut⟩
    case pos =>
      obtain ⟨hv, visited⟩ := executeLimitOrders_visited live h
      cases visited
      case part hl =>
        dsimp only at hl
        rw [Nat.min_eq_left hl.le]
        have walked := Walked.part notOwn price s.toDrainEndIndex s.cancelledSeen orders live hv hl
        refine ⟨by simpa [LimitMatch.counted, Nat.ne_of_lt hl] using walked, ?_, ?_, ?_⟩
        all_goals simp [LimitMatch.counted, walk_part live hl, sumLots, sumQuotes]
      case last hl =>
        dsimp only at hl
        rw [← hl, Nat.min_self]
        have walked := Walked.last notOwn price s.toDrainEndIndex s.cancelledSeen orders live hv hl
        refine ⟨by simpa [LimitMatch.counted, ← hl, hr] using walked, ?_, ?_, ?_⟩
        all_goals simp [LimitMatch.counted, walk_last live hl, sumLots, sumQuotes]
      case next hl hrest =>
        dsimp only at hl hrest
        rw [Nat.min_eq_right hl.le] at hrest ⊢
        have hi := hi (by exact hr) hrest
        simp only [LimitMatch.counted, if_true] at hi
        refine ⟨hi.walked.next live hv hl, ?_, ?_, ?_⟩
        · have := hi.remaining
          simp only [walk_next live hl, sumLots, List.map_cons, List.sum_cons] at this ⊢
          omega
        · rw [hi.lotsIn, walk_next live hl]
          cases isBuy <;> simp [sumLots, sumQuotes, Nat.add_assoc]
        · rw [hi.lotsOut, walk_next live hl]
          cases isBuy <;> simp [sumLots, sumQuotes, Nat.add_assoc]

-- Whether a limit order reaches a price.
def crosses (cmp : Nat → Nat → Ordering) (orderPrice price : Nat) : Bool :=
  cmp orderPrice price ≠ .gt

structure LimitSwept (sw : Sweep) (isBuy : Bool) (precision : MarketPrecision) (s : LimitMatch)
    (levels : List Level) (filled filled' : List LimitOrder) (s' : LimitMatch) : Prop where
  swept     : Swept sw levels filled filled' s'.residualOrder
  remaining : s'.remainingBaseAmount = s.remainingBaseAmount - sumLots sw.fills
  lotsIn    : s'.lotsIn = s.lotsIn + if isBuy then sumLots sw.fills else sumQuotes precision sw.fills
  lotsOut   : s'.lotsOut = s.lotsOut + if isBuy then sumQuotes precision sw.fills else sumLots sw.fills

theorem executeLimitLevels_swept {orderPrice : Nat} {cmp : Nat → Nat → Ordering}
    {levels levels' : List Level} {filled filled' : List LimitOrder} (hr : s.residualOrder = none)
    (h : executeLimitLevels orderPrice isBuy precision cmp levels filled s = .ok (levels', filled', s')) :
    LimitSwept (sweep notOwn (.base (crosses cmp orderPrice)) s.remainingBaseAmount levels)
      isBuy precision s levels' filled filled' s' := by
  induction levels generalizing filled s
  case nil =>
    cases h
    refine ⟨hr ▸ .nil, ?_, ?_, ?_⟩ <;> simp [sweep, sumLots, sumQuotes]
  case cons level levels hi =>
    have stop (hl : (Budget.base (crosses cmp orderPrice)).lots s.remainingBaseAmount level.price = 0) :
        LimitSwept (sweep notOwn (.base (crosses cmp orderPrice)) s.remainingBaseAmount (level :: levels))
          isBuy precision s (level :: levels) filled filled s := by
      refine ⟨hr ▸ .done hl, ?_, ?_, ?_⟩ <;> simp [sweep_stop hl, sumLots, sumQuotes]
    unfold executeLimitLevels at h
    split at h
    case isTrue hz => cases h; exact stop (by simp [Budget.base, hz])
    split at h
    case isTrue hg => cases h; exact stop (by simp [Budget.base, crosses, hg])
    case isFalse hz hg =>
    have lots : (Budget.base (crosses cmp orderPrice)).lots s.remainingBaseAmount level.price =
        s.remainingBaseAmount := by simp [Budget.base, crosses, hg]
    simp only [Checked.bind_ok, Prod.exists] at h
    have ⟨orders, s₁, hwalk, hrest⟩ := h
    have walk : LimitWalked (walk notOwn level.price
          ((Budget.base (crosses cmp orderPrice)).lots s.remainingBaseAmount level.price) level.orders)
        isBuy precision { s with toDrainEndIndex := 0, cancelledSeen := 0 } orders s₁ := by
      rw [lots]
      exact executeLimitOrders_walked (by exact hr) hwalk
    have nonzero := mt lots.symm.trans hz
    split at hrest
    case isTrue hl =>
      simp only [Checked.bind_ok, Checked.pure_ok, Prod.mk.injEq] at hrest
      have ⟨_, hvolume, _, hcancelled, hlevels, hfilled, hs⟩ := hrest
      have ⟨_, hvolume⟩ := Checked.sub_ok.mp hvolume
      have ⟨_, hcancelled⟩ := Checked.sub_ok.mp hcancelled
      subst hvolume hcancelled hlevels hfilled hs
      have left := walk.walked.stop_lt_iff.mp hl
      refine ⟨.part nonzero walk.walked hl (lots.symm.trans (walk_lots_eq left).symm), ?_, ?_, ?_⟩
      all_goals rw [sweep_part nonzero left]
      · exact walk.remaining
      · exact walk.lotsIn
      · exact walk.lotsOut
    case isFalse hl =>
      have left := not_not.mp (mt walk.walked.stop_lt_iff.mpr hl)
      have next := hi (walk.walked.residual.trans (walk_residual left)) hrest
      rw [walk.remaining] at next
      refine ⟨.whole nonzero walk.walked hl next.swept, ?_, ?_, ?_⟩
      all_goals simp only [sweep_whole nonzero left, sumLots_append, sumQuotes_append]
      · rw [next.remaining, walk.remaining, Nat.sub_sub]
        rfl
      · rw [next.lotsIn, walk.lotsIn, Nat.add_assoc]
        cases isBuy <;> rfl
      · rw [next.lotsOut, walk.lotsOut, Nat.add_assoc]
        cases isBuy <;> rfl

structure LimitResult (sw : Sweep) (isBuy : Bool) (precision : MarketPrecision) (order : LimitOrder)
    (assetIn assetOut : AssetId) (levels : List Level) (order' : LimitOrder) (result : LimitFillResult) :
    Prop where
  swept     : Swept sw levels.reverse [] result.filledOrders result.residualOrder
  filled    : order' = { order with filledBaseLots := sumLots sw.fills }
  userOrder : result.userOrder = {
    orderId := order.common.id, assetIn, assetOut, filledSize := sumLots sw.fills
    lotsIn := if isBuy then sumLots sw.fills else sumQuotes precision sw.fills
    lotsOut := if isBuy then sumQuotes precision sw.fills else sumLots sw.fills }

-- The naive matcher for limit orders.
def limitSweep (levels : List Level) (order : LimitOrder) (cmp : Nat → Nat → Ordering) : Sweep :=
  sweep notOwn (.base (crosses cmp order.priceMultiple)) order.baseLots levels.reverse

theorem executeLimit_result {levels levels' : List Level} {order order' : LimitOrder}
    {assetIn assetOut : AssetId} {cmp : Nat → Nat → Ordering} {result : LimitFillResult}
    (h : executeLimit levels order assetIn assetOut isBuy precision cmp = .ok (levels', order', result)) :
    LimitResult (limitSweep levels order cmp) isBuy precision order assetIn assetOut levels' order' result := by
  simp only [executeLimit, Checked.bind_ok, Checked.pure_ok, Prod.exists, Checked.sub_ok,
    Prod.mk.injEq] at h
  have ⟨levels₁, filled, s, hlevels, _, ⟨hle, hfilled⟩, hl, ho, hr⟩ := h
  subst hfilled hl ho hr
  have sw := executeLimitLevels_swept rfl hlevels
  have hsum : order.baseLots - s.remainingBaseAmount = sumLots (limitSweep levels order cmp).fills := by
    have := sweep_lots_le notOwn (crosses cmp order.priceMultiple) order.baseLots levels.reverse
    rw [sw.remaining]
    exact Nat.sub_sub_self this
  refine ⟨?_, ?_, ?_⟩
  · rw [List.reverse_reverse]
    exact sw.swept
  · rw [hsum]
  · rw [hsum, sw.lotsIn, sw.lotsOut, Nat.zero_add, Nat.zero_add]
    rfl

end Limit

section MarketSell

variable {account : PublicKeyHash} {price : Nat} {precision : MarketPrecision} {order : LimitOrder}
         {orders orders' : List LimitOrder} {s s' : MarketSellMatch}

def ofAccount (account : PublicKeyHash) (order : LimitOrder) : Bool :=
  order.common.account = account

structure MarketSellWalked (w : Walk) (account : PublicKeyHash) (precision : MarketPrecision)
    (s : MarketSellMatch) (orders : List LimitOrder) (s' : MarketSellMatch) : Prop where
  walked      : Walked w orders s.toDrainEndIndex s'.toDrainEndIndex s.cancelledSeen s'.cancelledSeen s'.residualOrder
  remaining   : s'.remainingBaseLots = s.remainingBaseLots - sumLots w.fills
  quoteLotsIn : s'.quoteLotsIn = s.quoteLotsIn + sumQuotes precision (traded (ofAccount account) w.fills)
  selfFill    : s'.selfFill = s.selfFill + sumLots (selfTraded (ofAccount account) w.fills)

def SpotMarket.MarketSellMatch.counted (account : PublicKeyHash) (precision : MarketPrecision) (s : MarketSellMatch)
    (f : Fill) : MarketSellMatch :=
  { s with
    remainingBaseLots := s.remainingBaseLots - f.lots
    quoteLotsIn :=
      if ofAccount account f.order then s.quoteLotsIn else s.quoteLotsIn + quoteLots precision f.price f.lots
    selfFill := if ofAccount account f.order then s.selfFill + f.lots else s.selfFill
    toDrainEndIndex := if f.lots = f.order.remaining then s.toDrainEndIndex + 1 else s.toDrainEndIndex
    lastExecutedPrice := if ofAccount account f.order then s.lastExecutedPrice else some f.price }

theorem executeMarketSellOrders_skip (live : ¬order.IsLive)
    (h : executeMarketSellOrders account price precision (order :: orders) s = .ok (orders', s')) :
    ∃ rest, orders' = order :: rest ∧ executeMarketSellOrders account price precision orders
      { s with cancelledSeen := s.cancelledSeen + 1, toDrainEndIndex := s.toDrainEndIndex + 1 } = .ok (rest, s') := by
  unfold executeMarketSellOrders at h
  rw [if_pos (not_not.mp live)] at h
  simp only [Checked.bind_ok, U32.add_ok, Checked.pure_ok, Prod.exists, Prod.mk.injEq] at h
  obtain ⟨_, ⟨_, hseen⟩, rest, _, hrest, ho, hs⟩ := h
  subst hseen hs
  exact ⟨rest, ho.symm, hrest⟩

theorem executeMarketSellOrders_visited (live : order.IsLive)
    (h : executeMarketSellOrders account price precision (order :: orders) s = .ok (orders', s')) :
    let f : Fill := { price, order, lots := min s.remainingBaseLots order.remaining }
    let took := s.counted account precision f
    order.Valid ∧
    Visited (ofAccount account) f s.remainingBaseLots orders took
      { took with residualOrder := some (f.residual (ofAccount account)) }
      (fun orders' s' => executeMarketSellOrders account price precision orders took = .ok (orders', s'))
        orders' s' := by
  unfold executeMarketSellOrders at h
  rw [if_neg live] at h
  simp only [Checked.bind_ok, LimitOrder.getOrderRemaining_ok, Checked.sub_ok] at h
  obtain ⟨_, ⟨hv, hrem⟩, _, ⟨_, hn⟩, h⟩ := h
  subst hrem hn
  refine ⟨hv, ?_⟩
  split at h
  case isTrue hown =>
    have own : ofAccount account order = true := by simp [ofAccount, hown]
    simp only [Checked.bind_ok, U64.add_ok] at h
    obtain ⟨_, ⟨_, hself⟩, _, ⟨_, hfilled⟩, h⟩ := h
    subst hself hfilled
    simp only [MarketSellMatch.counted, Fill.residual, own, if_true]
    refine .of_tail h rfl (fun _ hs => ?_) fun _ => Fill.after_own own
    cases hs
    exact ⟨by rw [Fill.after_own own], rfl⟩
  case isFalse hown =>
    have own : ofAccount account order = false := by simp [ofAccount, hown]
    simp only [Checked.bind_ok, U64.add_ok] at h
    obtain ⟨_, hq, _, ⟨_, hin⟩, h⟩ := h
    have hq := quoteLots_of_ok hq
    subst hq hin
    simp only [MarketSellMatch.counted, Fill.residual, own, Bool.false_eq_true, if_false]
    refine .of_tail h rfl (fun hl hs => ?_) fun hl => Fill.after_whole own hl
    simp only [Checked.bind_ok, U64.add_ok, Checked.pure_ok, Prod.mk.injEq] at hs
    obtain ⟨_, ⟨_, hf⟩, ho, hs⟩ := hs
    subst hf ho hs
    exact ⟨by rw [Fill.after_part own hl], rfl⟩

theorem executeMarketSellOrders_walked (hr : s.residualOrder = none)
    (h : executeMarketSellOrders account price precision orders s = .ok (orders', s')) :
    MarketSellWalked (walk (ofAccount account) price s.remainingBaseLots orders) account precision s
      orders' s' := by
  induction orders generalizing s orders' s'
  case nil =>
    cases h
    exact ⟨⟨rfl, rfl, rfl, hr, by simp [walk]⟩, by simp [walk, sumLots], by simp [walk, sumQuotes, traded],
      by simp [walk, sumLots, selfTraded]⟩
  case cons order orders hi =>
    by_cases live : order.IsLive
    case neg =>
      obtain ⟨_, ho, hrest⟩ := executeMarketSellOrders_skip live h
      subst ho
      have hi := hi (by exact hr) hrest
      exact ⟨hi.walked.skip live, by simpa [walk_skip live] using hi.remaining,
        by simpa [walk_skip live] using hi.quoteLotsIn, by simpa [walk_skip live] using hi.selfFill⟩
    case pos =>
      obtain ⟨hv, visited⟩ := executeMarketSellOrders_visited live h
      cases visited
      case part hl =>
        dsimp only at hl
        rw [Nat.min_eq_left hl.le]
        have walked := Walked.part (ofAccount account) price s.toDrainEndIndex s.cancelledSeen orders live hv hl
        refine ⟨by simpa [MarketSellMatch.counted, Nat.ne_of_lt hl] using walked, ?_, ?_, ?_⟩
        all_goals
          cases own : ofAccount account order <;>
          simp [MarketSellMatch.counted, walk_part live hl, sumLots, sumQuotes, traded, selfTraded, own]
      case last hl =>
        dsimp only at hl
        rw [← hl, Nat.min_self]
        have walked := Walked.last (ofAccount account) price s.toDrainEndIndex s.cancelledSeen orders live hv hl
        refine ⟨by simpa [MarketSellMatch.counted, ← hl, hr] using walked, ?_, ?_, ?_⟩
        all_goals
          cases own : ofAccount account order <;>
          simp [MarketSellMatch.counted, walk_last live hl, sumLots, sumQuotes, traded, selfTraded, own]
      case next hl hrest =>
        dsimp only at hl hrest
        rw [Nat.min_eq_right hl.le] at hrest ⊢
        have hi := hi (by exact hr) hrest
        simp only [MarketSellMatch.counted, if_true] at hi
        refine ⟨hi.walked.next live hv hl, ?_, ?_, ?_⟩
        · rw [hi.remaining, walk_next live hl]
          simp [sumLots, Nat.sub_sub]
        · rw [hi.quoteLotsIn, walk_next live hl]
          cases own : ofAccount account order <;> simp [sumQuotes, traded, own, Nat.add_assoc]
        · rw [hi.selfFill, walk_next live hl]
          cases own : ofAccount account order <;> simp [sumLots, selfTraded, own, Nat.add_assoc]

structure MarketSellSwept (sw : Sweep) (account : PublicKeyHash) (precision : MarketPrecision)
    (s : MarketSellMatch) (levels : List Level) (filled filled' : List LimitOrder) (s' : MarketSellMatch) :
    Prop where
  swept       : Swept sw levels filled filled' s'.residualOrder
  remaining   : s'.remainingBaseLots = s.remainingBaseLots - sumLots sw.fills
  quoteLotsIn : s'.quoteLotsIn = s.quoteLotsIn + sumQuotes precision (traded (ofAccount account) sw.fills)
  selfFill    : s'.selfFill = s.selfFill + sumLots (selfTraded (ofAccount account) sw.fills)

-- The price does not matter to a market order.
def anyPrice (_ : Nat) : Bool :=
  true

theorem executeMarketSellLevels_swept {levels levels' : List Level} {filled filled' : List LimitOrder}
    (hr : s.residualOrder = none)
    (h : executeMarketSellLevels account precision levels filled s = .ok (levels', filled', s')) :
    MarketSellSwept (sweep (ofAccount account) (.base anyPrice) s.remainingBaseLots levels)
      account precision s levels' filled filled' s' := by
  induction levels generalizing filled s
  case nil =>
    cases h
    refine ⟨hr ▸ .nil, ?_, ?_, ?_⟩ <;> simp [sweep, sumLots, sumQuotes, traded, selfTraded]
  case cons level levels hi =>
    unfold executeMarketSellLevels at h
    split at h
    case isTrue hz =>
      have hl : (Budget.base anyPrice).lots s.remainingBaseLots level.price = 0 := hz
      cases h
      refine ⟨hr ▸ .done hl, ?_, ?_, ?_⟩ <;> simp [sweep_stop hl, sumLots, sumQuotes, traded, selfTraded]
    case isFalse hz =>
    have nonzero : (Budget.base anyPrice).lots s.remainingBaseLots level.price ≠ 0 := hz
    simp only [Checked.bind_ok, Prod.exists] at h
    have ⟨orders, s₁, hwalk, hrest⟩ := h
    have walk : MarketSellWalked (walk (ofAccount account) level.price
          ((Budget.base anyPrice).lots s.remainingBaseLots level.price) level.orders)
        account precision { s with toDrainEndIndex := 0, cancelledSeen := 0 } orders s₁ :=
      executeMarketSellOrders_walked (by exact hr) hwalk
    split at hrest
    case isTrue hl =>
      simp only [Checked.bind_ok, Checked.pure_ok, Prod.mk.injEq] at hrest
      have ⟨_, hvolume, _, hcancelled, hlevels, hfilled, hs⟩ := hrest
      have ⟨_, hvolume⟩ := Checked.sub_ok.mp hvolume
      have ⟨_, hcancelled⟩ := Checked.sub_ok.mp hcancelled
      subst hvolume hcancelled hlevels hfilled hs
      have left := walk.walked.stop_lt_iff.mp hl
      refine ⟨.part nonzero walk.walked hl (walk_lots_eq left).symm, ?_, ?_, ?_⟩
      all_goals rw [sweep_part nonzero left]
      · exact walk.remaining
      · exact walk.quoteLotsIn
      · exact walk.selfFill
    case isFalse hl =>
      have left := not_not.mp (mt walk.walked.stop_lt_iff.mpr hl)
      have next := hi (walk.walked.residual.trans (walk_residual left)) hrest
      rw [walk.remaining] at next
      refine ⟨.whole nonzero walk.walked hl next.swept, ?_, ?_, ?_⟩
      all_goals simp only [sweep_whole nonzero left, sumLots_append, sumQuotes_append, traded_append,
        selfTraded_append]
      · rw [next.remaining, walk.remaining, Nat.sub_sub]
        rfl
      · rw [next.quoteLotsIn, walk.quoteLotsIn, Nat.add_assoc]
        rfl
      · rw [next.selfFill, walk.selfFill, Nat.add_assoc]
        rfl

-- The naive matcher for market sell orders.
def marketSellSweep (levels : List Level) (order : MarketSellOrder) : Sweep :=
  sweep (ofAccount order.common.account) (.base anyPrice) order.baseSize levels.reverse

structure MarketSellOutcome (sw : Sweep) (account : PublicKeyHash) (precision : MarketPrecision)
    (levels : List Level) (result : MarketSellResult) : Prop where
  swept          : Swept sw levels.reverse [] result.filledOrders result.residualOrder
  baseFilledLots : result.baseFilledLots = sumLots (traded (ofAccount account) sw.fills)
  quoteLotsIn    : result.quoteLotsIn = sumQuotes precision (traded (ofAccount account) sw.fills)

theorem executeMarketSellOrder_outcome {levels levels' : List Level} {order : MarketSellOrder}
    {result : MarketSellResult}
    (h : executeMarketSellOrder levels order precision = .ok (levels', result)) :
    MarketSellOutcome (marketSellSweep levels order) order.common.account precision levels' result := by
  simp only [executeMarketSellOrder, Checked.bind_ok, Checked.pure_ok, Prod.exists, Checked.sub_ok,
    Prod.mk.injEq] at h
  have ⟨levels₁, filled, s, hlevels, _, ⟨hle, hsold⟩, _, ⟨_, hbase⟩, hl, hr⟩ := h
  subst hsold hbase hl hr
  have sw := executeMarketSellLevels_swept rfl hlevels
  refine ⟨?_, ?_, by simpa [marketSellSweep] using sw.quoteLotsIn⟩
  · rw [List.reverse_reverse]
    exact sw.swept
  · have hle := sweep_lots_le (ofAccount order.common.account) anyPrice order.baseSize levels.reverse
    have htraded := sumLots_traded (ofAccount order.common.account)
      (marketSellSweep levels order).fills
    have hself := sw.selfFill
    have hremaining := sw.remaining
    simp only [marketSellSweep] at hle htraded hself hremaining ⊢
    omega

end MarketSell

section MarketBuy

variable {account : PublicKeyHash} {price : Nat} {precision : MarketPrecision} {order : LimitOrder}
         {orders orders' : List LimitOrder} {s s' : MarketBuyMatch}

structure MarketBuyWalked (w : Walk) (account : PublicKeyHash) (precision : MarketPrecision)
    (s : MarketBuyMatch) (orders : List LimitOrder) (s' : MarketBuyMatch) : Prop where
  walked         : Walked w orders s.toDrainEndIndex s'.toDrainEndIndex
    s.levelCancelled s'.levelCancelled s'.residualOrder
  levelFilled    : s'.levelFilled = s.levelFilled + sumLots w.fills
  remaining      : s'.remainingQuoteLots + sumQuotes precision w.fills = s.remainingQuoteLots
  baseLotsIn     : s'.baseLotsIn = s.baseLotsIn + sumLots (traded (ofAccount account) w.fills)
  selfFillQuotes : s'.selfFillQuotes =
    s.selfFillQuotes + sumQuotes precision (selfTraded (ofAccount account) w.fills)

def SpotMarket.MarketBuyMatch.counted (account : PublicKeyHash) (precision : MarketPrecision) (s : MarketBuyMatch)
    (f : Fill) : MarketBuyMatch :=
  let quotes := quoteLots precision f.price f.lots
  { s with
    remainingBaseLots := s.remainingBaseLots - f.lots
    remainingQuoteLots := s.remainingQuoteLots - quotes
    levelFilled := s.levelFilled + f.lots
    toDrainEndIndex := if f.lots = f.order.remaining then s.toDrainEndIndex + 1 else s.toDrainEndIndex
    baseLotsIn := if ofAccount account f.order then s.baseLotsIn else s.baseLotsIn + f.lots
    selfFillQuotes := if ofAccount account f.order then s.selfFillQuotes + quotes else s.selfFillQuotes
    lastExecutedPrice := if ofAccount account f.order then s.lastExecutedPrice else some f.price }

theorem executeMarketBuyOrders_skip (live : ¬order.IsLive)
    (h : executeMarketBuyOrders account price precision (order :: orders) s = .ok (orders', s')) :
    ∃ rest, orders' = order :: rest ∧ executeMarketBuyOrders account price precision orders
      { s with levelCancelled := s.levelCancelled + 1, toDrainEndIndex := s.toDrainEndIndex + 1 } = .ok (rest, s') := by
  unfold executeMarketBuyOrders at h
  rw [if_pos (not_not.mp live)] at h
  simp only [Checked.bind_ok, U32.add_ok, Checked.pure_ok, Prod.exists, Prod.mk.injEq] at h
  obtain ⟨_, ⟨_, hseen⟩, rest, _, hrest, ho, hs⟩ := h
  subst hseen hs
  exact ⟨rest, ho.symm, hrest⟩

theorem executeMarketBuyOrders_visited (live : order.IsLive)
    (h : executeMarketBuyOrders account price precision (order :: orders) s = .ok (orders', s')) :
    let f : Fill := { price, order, lots := min s.remainingBaseLots order.remaining }
    let took := s.counted account precision f
    order.Valid ∧ baseToQuoteLots f.lots price precision = .ok (quoteLots precision price f.lots) ∧
    quoteLots precision price f.lots ≤ s.remainingQuoteLots ∧
    Visited (ofAccount account) f s.remainingBaseLots orders took
      { took with residualOrder := some (f.residual (ofAccount account)) }
      (fun orders' s' => executeMarketBuyOrders account price precision orders took = .ok (orders', s'))
        orders' s' := by
  unfold executeMarketBuyOrders at h
  rw [if_neg live] at h
  simp only [Checked.bind_ok, LimitOrder.getOrderRemaining_ok, Checked.sub_ok, U64.add_ok] at h
  obtain ⟨_, ⟨hv, hrem⟩, q, hquote, _, ⟨_, hn⟩, _, ⟨hle, hleft⟩, _, ⟨_, hlevel⟩, h⟩ := h
  subst hrem hn hleft hlevel
  have hq := quoteLots_of_ok hquote
  subst hq
  refine ⟨hv, hquote, hle, ?_⟩
  split at h
  case isTrue hown =>
    have own : ofAccount account order = true := by simp [ofAccount, hown]
    simp only [Checked.bind_ok, U64.add_ok] at h
    obtain ⟨_, ⟨_, hself⟩, _, ⟨_, hquotes⟩, h⟩ := h
    subst hself hquotes
    simp only [MarketBuyMatch.counted, Fill.residual, own, if_true]
    refine .of_tail h rfl (fun _ hs => ?_) fun _ => Fill.after_own own
    cases hs
    exact ⟨by rw [Fill.after_own own], rfl⟩
  case isFalse hown =>
    have own : ofAccount account order = false := by simp [ofAccount, hown]
    simp only [Checked.bind_ok, U64.add_ok] at h
    obtain ⟨_, ⟨_, hin⟩, h⟩ := h
    subst hin
    simp only [MarketBuyMatch.counted, Fill.residual, own, Bool.false_eq_true, if_false]
    refine .of_tail h rfl (fun hl hs => ?_) fun hl => Fill.after_whole own hl
    simp only [Checked.bind_ok, U64.add_ok, Checked.pure_ok, Prod.mk.injEq] at hs
    obtain ⟨_, ⟨_, hf⟩, ho, hs⟩ := hs
    subst hf ho hs
    exact ⟨by rw [Fill.after_part own hl], rfl⟩

theorem executeMarketBuyOrders_walked (hr : s.residualOrder = none)
    (h : executeMarketBuyOrders account price precision orders s = .ok (orders', s')) :
    MarketBuyWalked (walk (ofAccount account) price s.remainingBaseLots orders) account precision s
      orders' s' := by
  induction orders generalizing s orders' s'
  case nil =>
    cases h
    exact ⟨⟨rfl, rfl, rfl, hr, by simp [walk]⟩, by simp [walk, sumLots], by simp [walk, sumQuotes],
      by simp [walk, sumLots, traded],
      by simp [walk, sumQuotes, selfTraded]⟩
  case cons order orders hi =>
    by_cases live : order.IsLive
    case neg =>
      obtain ⟨_, ho, hrest⟩ := executeMarketBuyOrders_skip live h
      subst ho
      have hi := hi (by exact hr) hrest
      exact ⟨hi.walked.skip live, by simpa [walk_skip live] using hi.levelFilled,
        by simpa [walk_skip live] using hi.remaining,
        by simpa [walk_skip live] using hi.baseLotsIn, by simpa [walk_skip live] using hi.selfFillQuotes⟩
    case pos =>
      obtain ⟨hv, _, hle, visited⟩ := executeMarketBuyOrders_visited live h
      cases visited
      case part hl =>
        dsimp only at hle hl
        rw [Nat.min_eq_left hl.le] at hle ⊢
        have walked := Walked.part (ofAccount account) price s.toDrainEndIndex s.levelCancelled orders live hv hl
        have hne := Nat.ne_of_lt hl
        refine ⟨by simpa [MarketBuyMatch.counted, hne] using walked, ?_, ?_, ?_, ?_⟩
        all_goals
          cases own : ofAccount account order <;>
          simp [MarketBuyMatch.counted, walk_part live hl, sumLots, sumQuotes, traded, selfTraded, own, hle]
      case last hl =>
        dsimp only at hle hl
        rw [← hl, Nat.min_self] at hle ⊢
        have walked := Walked.last (ofAccount account) price s.toDrainEndIndex s.levelCancelled orders live hv hl
        refine ⟨by simpa [MarketBuyMatch.counted, ← hl, hr] using walked, ?_, ?_, ?_, ?_⟩
        all_goals
          cases own : ofAccount account order <;>
          simp [MarketBuyMatch.counted, walk_last live hl, sumLots, sumQuotes, traded, selfTraded, own, hle]
      case next hl hrest =>
        dsimp only at hle hl hrest
        rw [Nat.min_eq_right hl.le] at hle hrest ⊢
        have hi := hi (by exact hr) hrest
        simp only [MarketBuyMatch.counted, if_true] at hi
        refine ⟨hi.walked.next live hv hl, ?_, ?_, ?_, ?_⟩
        · rw [hi.levelFilled, walk_next live hl]
          simp [sumLots, Nat.add_assoc]
        · have := hi.remaining
          rw [walk_next live hl]
          simp only [sumQuotes, List.map_cons, List.sum_cons] at this ⊢
          omega
        · rw [hi.baseLotsIn, walk_next live hl]
          cases own : ofAccount account order <;> simp [sumLots, traded, own, Nat.add_assoc]
        · rw [hi.selfFillQuotes, walk_next live hl]
          cases own : ofAccount account order <;> simp [sumQuotes, selfTraded, own, Nat.add_assoc]

structure MarketBuySwept (sw : Sweep) (account : PublicKeyHash) (precision : MarketPrecision)
    (s : MarketBuyMatch) (levels : List Level) (filled filled' : List LimitOrder) (s' : MarketBuyMatch) :
    Prop where
  swept          : Swept sw levels filled filled' s'.residualOrder
  remaining      : s'.remainingQuoteLots + sumQuotes precision sw.fills = s.remainingQuoteLots
  baseLotsIn     : s'.baseLotsIn = s.baseLotsIn + sumLots (traded (ofAccount account) sw.fills)
  selfFillQuotes : s'.selfFillQuotes =
    s.selfFillQuotes + sumQuotes precision (selfTraded (ofAccount account) sw.fills)

theorem executeMarketBuyLevels_swept {levels levels' : List Level} {filled filled' : List LimitOrder}
    (hr : s.residualOrder = none)
    (h : executeMarketBuyLevels account precision levels filled s = .ok (levels', filled', s')) :
    MarketBuySwept (sweep (ofAccount account) (.quote precision) s.remainingQuoteLots levels)
      account precision s levels' filled filled' s' := by
  induction levels generalizing filled s
  case nil =>
    cases h
    refine ⟨hr ▸ .nil, ?_, ?_, ?_⟩ <;> simp [sweep, sumLots, sumQuotes, traded, selfTraded]
  case cons level levels hi =>
    have stop (hl : (Budget.quote precision).lots s.remainingQuoteLots level.price = 0) :
        MarketBuySwept (sweep (ofAccount account) (.quote precision) s.remainingQuoteLots (level :: levels))
          account precision s (level :: levels) filled filled s := by
      refine ⟨hr ▸ .done hl, ?_, ?_, ?_⟩ <;> simp [sweep_stop hl, sumLots, sumQuotes, traded, selfTraded]
    unfold executeMarketBuyLevels at h
    split at h
    case isTrue hz => cases h; exact stop (by simp [Budget.quote, hz])
    case isFalse hz =>
    simp only [Checked.bind_ok] at h
    have ⟨n, hn, hrest⟩ := h
    have lots : (Budget.quote precision).lots s.remainingQuoteLots level.price = n := by
      simp [Budget.quote, hz, hn, Except.toOption]
    split at hrest
    case isTrue hzero => cases hrest; exact stop (lots.trans hzero)
    case isFalse hzero =>
    have nonzero := mt lots.symm.trans hzero
    simp only [Checked.bind_ok, Prod.exists] at hrest
    have ⟨orders, s₁, hwalk, hrest⟩ := hrest
    have walk : MarketBuyWalked (walk (ofAccount account) level.price
          ((Budget.quote precision).lots s.remainingQuoteLots level.price) level.orders) account precision
        { s with remainingBaseLots := n, levelFilled := 0, levelCancelled := 0, toDrainEndIndex := 0 }
        orders s₁ := by
      rw [lots]
      exact executeMarketBuyOrders_walked (by exact hr) hwalk
    split at hrest
    case isTrue hl =>
      simp only [Checked.bind_ok, Checked.pure_ok, Prod.mk.injEq] at hrest
      have ⟨_, hvolume, _, hcancelled, hlevels, hfilled, hs⟩ := hrest
      have ⟨_, hvolume⟩ := Checked.sub_ok.mp hvolume
      have ⟨_, hcancelled⟩ := Checked.sub_ok.mp hcancelled
      subst hvolume hcancelled hlevels hfilled hs
      have left := walk.walked.stop_lt_iff.mp hl
      refine ⟨.part nonzero walk.walked hl (walk.levelFilled.trans (Nat.zero_add _)), ?_, ?_, ?_⟩
      all_goals rw [sweep_part nonzero left]
      · exact walk.remaining
      · exact walk.baseLotsIn
      · exact walk.selfFillQuotes
    case isFalse hl =>
      have left := not_not.mp (mt walk.walked.stop_lt_iff.mpr hl)
      have next := hi (walk.walked.residual.trans (walk_residual left)) hrest
      rw [Nat.eq_sub_of_add_eq walk.remaining] at next
      refine ⟨.whole nonzero walk.walked hl next.swept, ?_, ?_, ?_⟩
      all_goals simp only [sweep_whole nonzero left, sumLots_append, sumQuotes_append, traded_append,
        selfTraded_append]
      · have hnext := next.remaining
        have hwalk := walk.remaining
        simp only [Budget.quote] at hnext hwalk ⊢
        omega
      · rw [next.baseLotsIn, walk.baseLotsIn, Nat.add_assoc]
        rfl
      · rw [next.selfFillQuotes, walk.selfFillQuotes, Nat.add_assoc]
        rfl

-- The naive matcher for market buy orders.
def marketBuySweep (levels : List Level) (order : MarketBuyOrder) (precision : MarketPrecision) : Sweep :=
  sweep (ofAccount order.common.account) (.quote precision) order.quoteSize levels.reverse

structure MarketBuyOutcome (sw : Sweep) (account : PublicKeyHash) (precision : MarketPrecision)
    (levels : List Level) (result : MarketBuyResult) : Prop where
  swept           : Swept sw levels.reverse [] result.filledOrders result.residualOrder
  quoteFilledLots : result.quoteFilledLots = sumQuotes precision (traded (ofAccount account) sw.fills)
  baseLotsIn      : result.baseLotsIn = sumLots (traded (ofAccount account) sw.fills)

theorem executeMarketBuyOrder_outcome {levels levels' : List Level} {order : MarketBuyOrder}
    {result : MarketBuyResult}
    (h : executeMarketBuyOrder levels order precision = .ok (levels', result)) :
    MarketBuyOutcome (marketBuySweep levels order precision) order.common.account precision levels'
      result := by
  simp only [executeMarketBuyOrder, Checked.bind_ok, Checked.pure_ok, Prod.exists, Checked.sub_ok,
    Prod.mk.injEq] at h
  have ⟨levels₁, filled, s, hlevels, _, ⟨hle, hspent⟩, _, ⟨_, hquote⟩, hl, hr⟩ := h
  subst hspent hquote hl hr
  have sw := executeMarketBuyLevels_swept rfl hlevels
  refine ⟨?_, ?_, by simpa [marketBuySweep] using sw.baseLotsIn⟩
  · rw [List.reverse_reverse]
    exact sw.swept
  · have htraded := sumQuotes_traded (ofAccount order.common.account) precision
      (marketBuySweep levels order precision).fills
    have hself := sw.selfFillQuotes
    have hremaining := sw.remaining
    simp only [marketBuySweep] at htraded hself hremaining ⊢
    omega

end MarketBuy
end Superliquid

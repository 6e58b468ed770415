import Mathlib.Data.List.Basic
import Superliquid.State.Theorems.Matching

namespace Superliquid

-- The fills that use up a resting order, and those that leave something of it.
def wholes (fills : List Fill) : List Fill :=
  fills.filter (·.Whole)

def parts (fills : List Fill) : List Fill :=
  fills.filter (¬·.Whole)

def liveOrders (orders : List LimitOrder) : List LimitOrder :=
  orders.filter (·.IsLive)

def orderIds (orders : List LimitOrder) : List Nat :=
  orders.map (·.common.id)

-- What an order was placed with, which nothing changes later.
def LimitOrder.terms (o : LimitOrder) : LimitOrder :=
  { o with common.status := .open, filledBaseLots := 0, selfFilled := 0 }

def orderTerms (orders : List LimitOrder) : List LimitOrder :=
  orders.map LimitOrder.terms

-- The lots that are left in the live orders of a list.
def liveLots (orders : List LimitOrder) : Nat :=
  ((liveOrders orders).map LimitOrder.remaining).sum

section Lists

variable {order : LimitOrder} {orders : List LimitOrder} {f : Fill} {fills : List Fill}

theorem wholes_cons (h : f.Whole) : wholes (f :: fills) = f :: wholes fills := by
  simp [wholes, h]

theorem parts_cons (h : f.Whole) : parts (f :: fills) = parts fills := by
  simp [parts, h]

theorem wholes_part (h : ¬f.Whole) : wholes [f] = [] := by
  simp [wholes, h]

theorem parts_part (h : ¬f.Whole) : parts [f] = [f] := by
  simp [parts, h]

theorem wholes_append (fs gs : List Fill) : wholes (fs ++ gs) = wholes fs ++ wholes gs :=
  List.filter_append fs gs

theorem parts_append (fs gs : List Fill) : parts (fs ++ gs) = parts fs ++ parts gs :=
  List.filter_append fs gs

theorem liveOrders_cons (h : order.IsLive) : liveOrders (order :: orders) = order :: liveOrders orders := by
  simp [liveOrders, h]

theorem liveOrders_skip (h : ¬order.IsLive) : liveOrders (order :: orders) = liveOrders orders := by
  simp [liveOrders, h]

theorem liveOrders_append (xs ys : List LimitOrder) :
    liveOrders (xs ++ ys) = liveOrders xs ++ liveOrders ys :=
  List.filter_append xs ys

theorem orderTerms_append (xs ys : List LimitOrder) :
    orderTerms (xs ++ ys) = orderTerms xs ++ orderTerms ys :=
  List.map_append

theorem Fill.after_terms {own : LimitOrder → Bool} : (f.after own).terms = f.order.terms := by
  unfold Fill.after
  split
  · rfl
  · split <;> rfl

-- An order that is not used up has more than was taken from it.
theorem Fill.after_valid {own : LimitOrder → Bool} (h : f.lots < f.order.remaining) : (f.after own).Valid := by
  simp only [LimitOrder.remaining] at h
  unfold Fill.after LimitOrder.Valid
  split
  · dsimp only; omega
  · split
    · omega
    · dsimp only; omega

theorem countCancelled_append (xs ys : List LimitOrder) :
    countCancelled (xs ++ ys) = countCancelled xs + countCancelled ys :=
  List.countP_append

theorem mem_liveOrders : order ∈ liveOrders orders ↔ order ∈ orders ∧ order.IsLive := by
  simp [liveOrders]

theorem liveLots_append (xs ys : List LimitOrder) : liveLots (xs ++ ys) = liveLots xs + liveLots ys := by
  simp [liveLots, liveOrders_append]

end Lists

-- What a match takes from the orders of a level or of a side: the live orders are taken in their order,
-- and all of them but the last are used up.
structure Taken (own : LimitOrder → Bool) (orders : List LimitOrder) (fills : List Fill)
    (drained left : List LimitOrder) (residual : Option ResidualOrder) : Prop where
  live      : ∃ rest, liveOrders orders = fills.map Fill.order ++ rest ∧
                liveOrders left = (parts fills).map (Fill.after own) ++ rest
  terms     : orderTerms orders = orderTerms drained ++ orderTerms left
  used      : liveOrders drained = (wholes fills).map (Fill.after own)
  rested    : residual.toList = (parts fills).map (Fill.residual own)
  lots      : ∀ f ∈ fills, f.lots ≤ f.order.remaining
  cancelled : countCancelled orders = countCancelled drained + countCancelled left
  remaining : liveLots orders = sumLots fills + liveLots left

namespace Taken

variable {own : LimitOrder → Bool} {price lots : Nat} {order : LimitOrder} {orders orders' : List LimitOrder}
         {drained drained' left left' : List LimitOrder} {residual residual' : Option ResidualOrder}
         {fills fills' : List Fill} {f : Fill}

theorem untouched : Taken own orders [] [] orders none where
  live      := ⟨liveOrders orders, rfl, rfl⟩
  terms     := rfl
  used      := rfl
  rested    := rfl
  lots      := by simp
  cancelled := by simp [countCancelled]
  remaining := by simp [sumLots]

theorem skip (h : ¬order.IsLive) (ht : Taken own orders fills drained left residual) :
    Taken own (order :: orders) fills (order :: drained) left residual where
  live      := by simpa [liveOrders_skip h] using ht.live
  terms     := by simpa [orderTerms] using ht.terms
  used      := by simpa [liveOrders_skip h] using ht.used
  rested    := ht.rested
  lots      := ht.lots
  cancelled := by
    rw [countCancelled_cancelled h, countCancelled_cancelled h, ht.cancelled]
    omega
  remaining := by simpa [liveLots, liveOrders_skip h] using ht.remaining

theorem after_remaining (hp : ¬f.Whole) :
    (f.after own).remaining = f.order.remaining - f.lots := by
  unfold Fill.after
  rw [if_neg hp]
  split <;> simp [LimitOrder.remaining, Nat.sub_sub, Nat.add_comm, Nat.add_left_comm]

theorem part (h : f.order.IsLive) (hl : f.lots < f.order.remaining) :
    Taken own (f.order :: orders) [f] [] (f.after own :: orders) (some (f.residual own)) := by
  have hp : ¬f.Whole := Nat.not_le.mpr hl
  have ha : (f.after own).IsLive := Fill.after_isLive.mpr h
  constructor
  case live      => exact ⟨liveOrders orders, by simp [liveOrders_cons h], by simp [liveOrders_cons ha, parts_part hp]⟩
  case terms     => simp [orderTerms, Fill.after_terms]
  case used      => simp [wholes_part hp, liveOrders]
  case rested    => simp [parts_part hp]
  case lots      => simpa using hl.le
  case cancelled => simp [countCancelled, h, ha]
  case remaining =>
    simp only [liveLots, liveOrders_cons h, liveOrders_cons ha, List.map_cons, List.sum_cons, sumLots,
      List.map_nil, List.sum_nil, after_remaining hp]
    omega

theorem whole (h : f.order.IsLive) (hl : f.lots = f.order.remaining)
    (ht : Taken own orders fills drained left residual) :
    Taken own (f.order :: orders) (f :: fills) (f.after own :: drained) left residual := by
  have hw : f.Whole := hl.ge
  have ha : (f.after own).IsLive := Fill.after_isLive.mpr h
  have ⟨rest, hbefore, hafter⟩ := ht.live
  constructor
  case live      => exact ⟨rest, by simp [liveOrders_cons h, hbefore], by rw [parts_cons hw, hafter]⟩
  case terms     => simpa [orderTerms, Fill.after_terms] using ht.terms
  case used      => simp [liveOrders_cons ha, wholes_cons hw, ht.used]
  case rested    => rw [parts_cons hw, ht.rested]
  case lots      => exact List.forall_mem_cons.mpr ⟨hl.le, ht.lots⟩
  case cancelled => rw [countCancelled_live h, countCancelled_live ha, ht.cancelled]
  case remaining =>
    have := ht.remaining
    simp only [liveLots, liveOrders_cons h, List.map_cons, List.sum_cons, sumLots] at this ⊢
    omega

-- A level that is used up is followed by the next one.
theorem append (h : Taken own orders fills drained [] residual)
    (h' : Taken own orders' fills' drained' left' residual') :
    Taken own (orders ++ orders') (fills ++ fills') (drained ++ drained') left' residual' := by
  have ⟨rest, hbefore, hafter⟩ := h.live
  have ⟨rest', hbefore', hafter'⟩ := h'.live
  have ⟨hparts, hrest⟩ := List.append_eq_nil_iff.mp hafter.symm
  have hparts : parts fills = [] := List.map_eq_nil_iff.mp hparts
  subst hrest
  constructor
  case live      =>
    exact ⟨rest', by simp [liveOrders_append, hbefore, hbefore'], by simp [parts_append, hparts, hafter']⟩
  case terms     =>
    have hterms : orderTerms orders = orderTerms drained := h.terms.trans (List.append_nil _)
    rw [orderTerms_append, orderTerms_append, hterms, h'.terms, List.append_assoc]
  case used      => simp [liveOrders_append, wholes_append, h.used, h'.used]
  case rested    => simp [parts_append, hparts, h'.rested]
  case lots      => exact List.forall_mem_append.mpr ⟨h.lots, h'.lots⟩
  case cancelled =>
    have hc := h.cancelled
    rw [countCancelled_append, countCancelled_append, hc, h'.cancelled]
    simp [countCancelled]
    omega
  case remaining =>
    have hr := h.remaining
    rw [liveLots_append, hr, h'.remaining, sumLots_append]
    simp [liveLots, liveOrders]
    omega

-- The levels behind the one where a match ends stay as they are.
theorem append_right (h : Taken own orders fills drained left residual) :
    Taken own (orders ++ orders') fills drained (left ++ orders') residual := by
  have ⟨rest, hbefore, hafter⟩ := h.live
  constructor
  case live      =>
    exact ⟨rest ++ liveOrders orders', by simp [liveOrders_append, hbefore], by simp [liveOrders_append, hafter]⟩
  case terms     => rw [orderTerms_append, orderTerms_append, h.terms, List.append_assoc]
  case used      => exact h.used
  case rested    => exact h.rested
  case lots      => exact h.lots
  case cancelled => rw [countCancelled_append, countCancelled_append, h.cancelled, Nat.add_assoc]
  case remaining => rw [liveLots_append, liveLots_append, h.remaining, Nat.add_assoc]

-- At most one order is left with something, the one that is reported.
theorem residual_some {r : ResidualOrder} (h : Taken own orders fills drained left residual)
    (hr : residual = some r) : ∃ f, parts fills = [f] ∧ r = f.residual own := by
  have hparts := h.rested
  rw [hr, Option.toList_some, eq_comm, List.map_eq_singleton_iff] at hparts
  have ⟨f, hf, hr⟩ := hparts
  exact ⟨f, hf, hr.symm⟩

theorem residual_eq (h : Taken own orders fills drained left residual) (hf : f ∈ parts fills) :
    residual = some (f.residual own) := by
  cases residual
  case none =>
    have hparts := h.rested
    rw [Option.toList_none, eq_comm, List.map_eq_nil_iff] at hparts
    simp [hparts] at hf
  case some r =>
    have ⟨f', hparts, hr⟩ := h.residual_some rfl
    rw [hparts, List.mem_singleton] at hf
    rw [hr, hf]

end Taken

theorem walk_taken (own : LimitOrder → Bool) (price lots : Nat) (orders : List LimitOrder) :
    let w := walk own price lots orders
    Taken own orders w.fills w.drained w.left w.residual := by
  induction orders generalizing lots
  case nil => exact .untouched
  case cons order orders hi =>
    by_cases live : order.IsLive
    case neg => simpa only [walk_skip live] using (hi lots).skip live
    case pos =>
      rcases Nat.lt_trichotomy lots order.remaining with hl | hl | hl
      · rw [walk_part live hl]
        exact .part (f := { price, order, lots }) live hl
      · rw [walk_last live hl]
        exact .whole (f := { price, order, lots }) live hl .untouched
      · rw [walk_next live hl]
        exact .whole (f := { price, order, lots := order.remaining }) live rfl (hi _)

def sideOrders (levels : List Level) : List LimitOrder :=
  levels.flatMap Level.orders

theorem sweep_taken (own : LimitOrder → Bool) (b : Budget) (budget : Nat) (levels : List Level) :
    let s := sweep own b budget levels
    Taken own (sideOrders levels) s.fills s.drained (sideOrders s.levels) s.residual := by
  induction levels generalizing budget
  case nil => exact .untouched
  case cons level levels hi =>
    by_cases hz : b.lots budget level.price = 0
    case pos => rw [sweep_stop hz]; exact .untouched
    have hw := walk_taken own level.price (b.lots budget level.price) level.orders
    by_cases hl : (walk own level.price (b.lots budget level.price) level.orders).left = []
    case neg => rw [sweep_part hz hl]; exact hw.append_right
    case pos =>
      rw [sweep_whole hz hl]
      simp only [hl] at hw
      exact hw.append (hi _)

-- Every fill is for an order of some level, at the price of that level.
theorem walk_fills_mem {own : LimitOrder → Bool} {price lots : Nat} {orders : List LimitOrder} {f : Fill}
    (h : f ∈ (walk own price lots orders).fills) : f.price = price ∧ f.order ∈ orders ∧ f.order.IsLive := by
  induction orders generalizing lots
  case nil => simp [walk] at h
  case cons order orders hi =>
    have next {lots} (h : f ∈ (walk own price lots orders).fills) :
        f.price = price ∧ f.order ∈ order :: orders ∧ f.order.IsLive := by
      obtain ⟨hp, ho, hlive⟩ := hi h
      exact ⟨hp, List.mem_cons_of_mem _ ho, hlive⟩
    by_cases live : order.IsLive
    case neg => exact next (by simpa only [walk_skip live] using h)
    case pos =>
      rcases Nat.lt_trichotomy lots order.remaining with hl | hl | hl
      · simp only [walk_part live hl, List.mem_singleton] at h
        exact h ▸ ⟨rfl, List.mem_cons_self, live⟩
      · simp only [walk_last live hl, List.mem_singleton] at h
        exact h ▸ ⟨rfl, List.mem_cons_self, live⟩
      · simp only [walk_next live hl, List.mem_cons] at h
        cases h
        case inl h => exact h ▸ ⟨rfl, List.mem_cons_self, live⟩
        case inr h => exact next h

-- A level that a match leaves in the book, if it is not the one that it found.
def Level.matched (own : LimitOrder → Bool) (lots : Nat) (level : Level) : Level :=
  let w := walk own level.price lots level.orders
  { level with
    volume := level.volume - sumLots w.fills
    orders := w.left
    cancelled := level.cancelled - countCancelled w.drained }

section Sweep

variable {own : LimitOrder → Bool} {b : Budget} {budget : Nat} {levels : List Level} {level : Level} {f : Fill}

theorem sweep_fills_mem (h : f ∈ (sweep own b budget levels).fills) :
    ∃ level ∈ levels, f.price = level.price ∧ f.order ∈ level.orders ∧ f.order.IsLive := by
  induction levels generalizing budget
  case nil => simp [sweep] at h
  case cons level levels hi =>
    by_cases hz : b.lots budget level.price = 0
    case pos => simp [sweep_stop hz] at h
    by_cases hl : (walk own level.price (b.lots budget level.price) level.orders).left = []
    case neg =>
      rw [sweep_part hz hl] at h
      exact ⟨level, List.mem_cons_self, walk_fills_mem h⟩
    case pos =>
      simp only [sweep_whole hz hl, List.mem_append] at h
      cases h
      case inl h => exact ⟨level, List.mem_cons_self, walk_fills_mem h⟩
      case inr h =>
        obtain ⟨level', hm, hf⟩ := hi h
        exact ⟨level', List.mem_cons_of_mem _ hm, hf⟩

-- A fill has a price at which something may be taken.
theorem sweep_fills_lots (h : f ∈ (sweep own b budget levels).fills) : ∃ n, b.lots n f.price ≠ 0 := by
  induction levels generalizing budget
  case nil => simp [sweep] at h
  case cons level levels hi =>
    by_cases hz : b.lots budget level.price = 0
    case pos => simp [sweep_stop hz] at h
    by_cases hl : (walk own level.price (b.lots budget level.price) level.orders).left = []
    case neg =>
      rw [sweep_part hz hl] at h
      exact ⟨budget, (walk_fills_mem h).1 ▸ hz⟩
    case pos =>
      simp only [sweep_whole hz hl, List.mem_append] at h
      cases h
      case inl h => exact ⟨budget, (walk_fills_mem h).1 ▸ hz⟩
      case inr h => exact hi h

theorem sweep_levels_mem (h : level ∈ (sweep own b budget levels).levels) :
    level ∈ levels ∨ ∃ level₀ ∈ levels, ∃ lots, lots ≠ 0 ∧ level = level₀.matched own lots ∧ level.orders ≠ [] := by
  induction levels generalizing budget
  case nil => simp [sweep] at h
  case cons level₀ levels hi =>
    by_cases hz : b.lots budget level₀.price = 0
    case pos => rw [sweep_stop hz] at h; exact .inl h
    by_cases hl : (walk own level₀.price (b.lots budget level₀.price) level₀.orders).left = []
    case neg =>
      simp only [sweep_part hz hl, List.mem_cons] at h
      cases h
      case inl h => exact .inr ⟨level₀, List.mem_cons_self, _, hz, h, h ▸ hl⟩
      case inr h => exact .inl (List.mem_cons_of_mem _ h)
    case pos =>
      rw [sweep_whole hz hl] at h
      cases hi h
      case inl h => exact .inl (List.mem_cons_of_mem _ h)
      case inr h =>
        obtain ⟨level', hm, hlevel⟩ := h
        exact .inr ⟨level', List.mem_cons_of_mem _ hm, hlevel⟩

-- Levels disappear from the best price on.
theorem sweep_prices (own : LimitOrder → Bool) (b : Budget) (budget : Nat) (levels : List Level) :
    (sweep own b budget levels).levels.map Level.price <:+ levels.map Level.price := by
  induction levels generalizing budget
  case nil => exact List.suffix_rfl
  case cons level levels hi =>
    by_cases hz : b.lots budget level.price = 0
    case pos => simp only [sweep_stop hz, List.suffix_rfl]
    by_cases hl : (walk own level.price (b.lots budget level.price) level.orders).left = []
    case neg => rw [sweep_part hz hl]; exact List.suffix_rfl
    case pos => rw [sweep_whole hz hl]; exact (hi _).trans (List.suffix_cons _ _)

end Sweep
end Superliquid

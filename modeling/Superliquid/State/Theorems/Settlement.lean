import Superliquid.State.Theorems.Balances
import Superliquid.State.Theorems.Matching

namespace Superliquid

open SpotClearingHouse

-- What the clearinghouse settles with the owner of a resting order.
structure Maker where
  account : PublicKeyHash
  price   : Nat
  lots    : Nat

def LimitOrder.maker (o : LimitOrder) : Maker where
  account := o.common.account
  price := o.priceMultiple
  lots := o.baseLots - o.filledBaseLots

def ResidualOrder.maker (r : ResidualOrder) : Maker where
  account := r.accountPublicKey
  price := r.priceMultiple
  lots := r.filledBaseLots

def makers (filledOrders : List LimitOrder) (residualOrder : Option ResidualOrder) : List Maker :=
  (filledOrders.filter (·.IsLive)).map LimitOrder.maker ++ residualOrder.toList.map ResidualOrder.maker

-- An order that is used up is settled for all that it has not traded before, whether with others or
-- with its own account.
def Fill.settled (own : LimitOrder → Bool) (f : Fill) : Nat :=
  if f.Whole then f.order.baseLots - f.order.filledBaseLots
  else if own f.order then 0
  else f.lots

def Fill.maker (own : LimitOrder → Bool) (f : Fill) : Maker where
  account := f.order.common.account
  price := f.price
  lots := f.settled own

section Makers

variable {own : LimitOrder → Bool} {price lots : Nat} {order : LimitOrder} {orders filled : List LimitOrder}
         {residual : Option ResidualOrder}

theorem makers_skip (h : ¬order.IsLive) : makers (order :: filled) residual = makers filled residual := by
  simp [makers, h]

theorem makers_live (h : order.IsLive) :
    makers (order :: filled) residual = order.maker :: makers filled residual := by
  simp [makers, h]

theorem Fill.after_maker {f : Fill} (h : f.Whole) (hp : f.order.priceMultiple = f.price) :
    (f.after own).maker = f.maker own := by
  unfold Fill.after
  split <;> simp [LimitOrder.maker, Fill.maker, Fill.settled, h, hp]

theorem Fill.residual_maker {f : Fill} (h : ¬f.Whole) : (f.residual own).maker = f.maker own := by
  simp [ResidualOrder.maker, Fill.residual, Fill.maker, Fill.settled, h]

theorem walk_makers (own : LimitOrder → Bool) (lots : Nat) (hp : ∀ o ∈ orders, o.priceMultiple = price) :
    let w := walk own price lots orders
    makers w.drained w.residual = w.fills.map (Fill.maker own) := by
  induction orders generalizing lots
  case nil => rfl
  case cons order orders hi =>
    have ⟨hp, hps⟩ := List.forall_mem_cons.mp hp
    by_cases live : order.IsLive
    case neg =>
      simp only [walk_skip live, makers_skip live]
      exact hi lots hps
    case pos =>
      rcases Nat.lt_trichotomy lots order.remaining with hl | hl | hl
      · simp only [walk_part live hl, makers, List.filter_nil, List.map_nil, List.nil_append,
          Option.toList_some, List.map_cons]
        rw [Fill.residual_maker (by simpa [Fill.Whole] using hl)]
      · simp only [walk_last live hl]
        rw [makers_live (Fill.after_isLive.mpr live), Fill.after_maker (by simp [Fill.Whole, hl]) hp]
        rfl
      · simp only [walk_next live hl]
        rw [makers_live (Fill.after_isLive.mpr live), Fill.after_maker (by simp [Fill.Whole]) hp, hi _ hps]
        rfl

theorem makers_append {filled' : List LimitOrder} :
    makers (filled ++ filled') residual = makers filled none ++ makers filled' residual := by
  simp [makers]

theorem sweep_makers {b : Budget} {budget : Nat} {levels : List Level}
    (hp : ∀ level ∈ levels, ∀ o ∈ level.orders, o.priceMultiple = level.price) :
    let s := sweep own b budget levels
    makers s.drained s.residual = s.fills.map (Fill.maker own) := by
  induction levels generalizing budget
  case nil => rfl
  case cons level levels hi =>
    have ⟨hp, hps⟩ := List.forall_mem_cons.mp hp
    by_cases hz : b.lots budget level.price = 0
    case pos => rw [sweep_stop hz]; rfl
    have hw := walk_makers own (b.lots budget level.price) hp
    by_cases hl : (walk own level.price (b.lots budget level.price) level.orders).left = []
    case neg => rw [sweep_part hz hl]; exact hw
    case pos =>
      rw [sweep_whole hz hl]
      simp only [walk_residual hl] at hw
      simp only [makers_append, hw, List.map_append, hi hps]

end Makers

-- The makers of a match are settled one after the other.
theorem settleMakers_eq {settle : Accounts → PublicKeyHash → Nat → Nat → Checked Accounts}
    {accounts accounts' : Accounts} {filled : List LimitOrder} {residual : Option ResidualOrder}
    (h : settleMakers settle accounts filled residual = .ok accounts') :
    (makers filled residual).foldlM (fun a m => settle a m.account m.price m.lots) accounts =
      .ok accounts' := by
  simp only [settleMakers, Checked.bind_ok] at h
  obtain ⟨accounts₁, hf, hr⟩ := h
  simp only [makers, List.foldlM_append, Checked.bind_ok]
  refine ⟨accounts₁, ?_, ?_⟩
  · clear hr
    induction filled generalizing accounts
    case nil => exact hf
    case cons order filled hi =>
      simp only [List.foldlM_cons, Checked.bind_ok] at hf
      obtain ⟨accounts₂, ho, hf⟩ := hf
      split at ho
      case isTrue hc =>
        cases ho
        simpa [LimitOrder.IsLive, hc] using hi hf
      case isFalse hc =>
        simp only [Checked.bind_ok, Checked.sub_ok] at ho
        obtain ⟨_, ⟨_, hn⟩, ho⟩ := ho
        subst hn
        simp only [List.filter_cons, LimitOrder.IsLive, ne_eq, hc, not_false_eq_true, decide_true, if_true,
          List.map_cons, List.foldlM_cons, Checked.bind_ok]
        exact ⟨accounts₂, ho, hi hf⟩
  · cases residual
    case none   => exact hr
    case some r => simpa [ResidualOrder.maker] using hr

end Superliquid

import Mathlib.Data.List.Perm.Basic
import Superliquid.State.Theorems.Clearing
import Superliquid.State.Theorems.Levels

namespace Superliquid

open SpotMarket

section Terms

variable {o : LimitOrder} {orders orders' : List LimitOrder} {levels levels' : List Level}

@[simp]
theorem LimitOrder.cancel_terms : o.cancel.terms = o.terms := rfl

theorem LimitOrder.eq_of_terms {o₀ : LimitOrder} (h : o₀.terms = o.terms) :
    o₀.common.id = o.common.id ∧ o₀.priceMultiple = o.priceMultiple ∧
      o₀.common.direction = o.common.direction ∧ o₀.common.account = o.common.account := by
  simp only [LimitOrder.terms, LimitOrder.mk.injEq, CommonOrderFields.mk.injEq] at h
  have ⟨⟨hid, _, _, hacc, hdir⟩, hp, _⟩ := h
  exact ⟨hid, hp, hdir, hacc⟩

theorem orderIds_terms (orders : List LimitOrder) : orderIds (orderTerms orders) = orderIds orders := by
  simp [orderIds, orderTerms, LimitOrder.terms]

theorem sideOrders_reverse : (sideOrders levels.reverse).Perm (sideOrders levels) :=
  (List.reverse_perm levels).flatMap_right _

end Terms

-- The orders of a level have its price and rest in the order of their ids.
structure Level.Sound (d : OrderDirection) (level : Level) : Prop where
  price     : ∀ o ∈ level.orders, o.priceMultiple = level.price
  direction : ∀ o ∈ level.orders, o.common.direction = d
  ids       : (orderIds level.orders).Pairwise (· < ·)

-- A level that has lost some of its orders, whatever was filled of the others.
def Level.Shrinks (level level' : Level) : Prop :=
  level'.price = level.price ∧ (orderTerms level'.orders).Sublist (orderTerms level.orders)

theorem Level.Sound.shrinks {d : OrderDirection} {level level' : Level} (h : level.Sound d)
    (hs : level.Shrinks level') : level'.Sound d := by
  have ⟨hp, hterms⟩ := hs
  have old (o : LimitOrder) (ho : o ∈ level'.orders) : ∃ o₀ ∈ level.orders, o₀.terms = o.terms :=
    List.mem_map.mp (hterms.subset (List.mem_map_of_mem ho))
  constructor
  case price =>
    intro o ho
    have ⟨o₀, ho₀, he⟩ := old o ho
    rw [hp, ← h.price o₀ ho₀, (LimitOrder.eq_of_terms he).2.1]
  case direction =>
    intro o ho
    have ⟨o₀, ho₀, he⟩ := old o ho
    rw [← h.direction o₀ ho₀, (LimitOrder.eq_of_terms he).2.2.1]
  case ids =>
    have hids := hterms.map (·.common.id)
    have hsub : (orderIds level'.orders).Sublist (orderIds level.orders) := by
      rw [← orderIds_terms level.orders, ← orderIds_terms level'.orders]
      exact hids
    exact h.ids.sublist hsub

-- A side that has lost some of its orders.
structure Shrinks (levels levels' : List Level) : Prop where
  prices : (levels'.map Level.price).Sublist (levels.map Level.price)
  orders : ∃ lost, (orderTerms (sideOrders levels)).Perm (orderTerms (sideOrders levels') ++ lost)
  within : ∀ level' ∈ levels', ∃ level ∈ levels, level.Shrinks level'

namespace Shrinks

variable {levels levels' : List Level} {cmp : Nat → Nat → Ordering} {order : LimitOrder}

theorem reverse (h : Shrinks levels levels') : Shrinks levels.reverse levels'.reverse where
  prices := by simpa only [List.map_reverse] using h.prices.reverse
  orders := by
    have ⟨lost, hl⟩ := h.orders
    exact ⟨lost, (sideOrders_reverse.map _).trans (hl.trans ((sideOrders_reverse.symm.map _).append_right _))⟩
  within := by simpa using h.within

theorem sweep (own : LimitOrder → Bool) (b : Budget) (budget : Nat) (levels : List Level) :
    Shrinks levels (Superliquid.sweep own b budget levels).levels where
  prices := (sweep_prices own b budget levels).sublist
  orders := by
    have ht := (sweep_taken own b budget levels).terms
    rw [ht]
    exact ⟨_, List.perm_append_comm⟩
  within := by
    intro level' hm
    cases sweep_levels_mem hm
    case inl hm => exact ⟨level', hm, rfl, .refl _⟩
    case inr hm =>
      have ⟨level, hm, lots, _, he, _⟩ := hm
      have ht := (walk_taken own level.price lots level.orders).terms
      refine ⟨level, hm, he ▸ rfl, ?_⟩
      rw [ht, he]
      exact List.sublist_append_right _ _

theorem cancel_orders {level level' : Level} {os os' : List LimitOrder} {o : LimitOrder} {unfilled : Nat}
    (ho : level.orders = os ++ o :: os') (h : level' ∈ level.cancel (os ++ o.cancel :: os') unfilled) :
    level.Shrinks level' := by
  have hsame : orderTerms (os ++ o.cancel :: os') = orderTerms level.orders := by
    simp [ho, orderTerms]
  refine ⟨Level.cancel_price h, ?_⟩
  simp only [Level.cancel, Option.mem_def] at h
  split at h <;> try contradiction
  split at h <;> cases h
  · exact hsame ▸ List.filter_sublist.map _
  · exact hsame ▸ .refl _

theorem cancelled {unfilled : Nat} (h : Cancelled cmp order levels levels' unfilled) : Shrinks levels levels' := by
  have hprices := h.prices
  cases h
  case missing => exact ⟨.refl _, ⟨[], by simp⟩, fun level hm => ⟨level, hm, rfl, .refl _⟩⟩
  case marked os o os' pre level post _ ho _ _ _ _ =>
    refine ⟨hprices, ?_, ?_⟩
    · refine List.Sublist.exists_perm_append ?_
      simp only [sideOrders, List.flatMap_append, List.flatMap_cons, orderTerms_append]
      rw [List.append_assoc]
      refine .append (.refl _) (.append ?_ (.refl _))
      cases hc : level.cancel (os ++ o.cancel :: os') order.unfilled
      case none        => exact List.nil_sublist _
      case some level' => simpa using (cancel_orders ho hc).2
    · intro level' hm
      simp only [List.mem_append, Option.mem_toList] at hm
      rcases hm with (hm | hm) | hm
      · exact ⟨level', by simp [hm], rfl, .refl _⟩
      · exact ⟨level, by simp, cancel_orders ho hm⟩
      · exact ⟨level', by simp [hm], rfl, .refl _⟩

end Shrinks

theorem liveOrders_perm {xs ys : List LimitOrder} (h : xs.Perm ys) : (liveOrders xs).Perm (liveOrders ys) :=
  h.filter _

theorem liveLots_eq_zero {orders : List LimitOrder} (h : liveLots orders = 0) :
    ∀ o ∈ liveOrders orders, o.remaining = 0 := by
  intro o ho
  have hle : o.remaining ≤ liveLots orders :=
    List.single_le_sum (by simp) _ (List.mem_map_of_mem ho)
  omega

theorem Level.cancel_live {level : Level} {os os' : List LimitOrder} {o : LimitOrder}
    (ho : level.orders = os ++ o :: os') (live : o.IsLive) (unfilled : Nat) :
    ∃ lost, (liveOrders level.orders).Perm (o :: (lost ++
        liveOrders (sideOrders (level.cancel (os ++ o.cancel :: os') unfilled).toList))) ∧
      (level.Exact → o.remaining = unfilled → ∀ x ∈ lost, x.remaining = 0) := by
  have hlive : liveOrders (os ++ o.cancel :: os') = liveOrders os ++ liveOrders os' := by
    rw [liveOrders_append, liveOrders_skip LimitOrder.cancel_not_isLive]
  have hperm : (liveOrders level.orders).Perm (o :: liveOrders (os ++ o.cancel :: os')) := by
    rw [ho, hlive, liveOrders_append, liveOrders_cons live]
    exact List.perm_middle
  by_cases hz : level.volume - unfilled = 0
  case pos =>
    have hc : level.cancel (os ++ o.cancel :: os') unfilled = none := if_pos hz
    refine ⟨liveOrders (os ++ o.cancel :: os'), by simpa [hc, sideOrders, liveOrders] using hperm, ?_⟩
    intro hexact hr
    obtain ⟨hv, _⟩ := hexact.split ho live
    exact liveLots_eq_zero (by omega)
  case neg =>
    refine ⟨[], ?_, by simp⟩
    have hc : ∃ level', level.cancel (os ++ o.cancel :: os') unfilled = some level' ∧
        liveOrders level'.orders = liveOrders (os ++ o.cancel :: os') := by
      simp only [Level.cancel, if_neg hz]
      split
      · exact ⟨_, rfl, liveOrders_liveOrders⟩
      · exact ⟨_, rfl, rfl⟩
    obtain ⟨level', hc, hsame⟩ := hc
    simpa [hc, sideOrders, hsame] using hperm

namespace SpotMarket

def orders (m : SpotMarket) : List LimitOrder :=
  sideOrders m.bidsLevels ++ sideOrders m.asksLevels

variable {m m' : SpotMarket} {d : OrderDirection} {levels : List Level} {price : Option Nat}

@[simp]
theorem orders_setLastExecutedPrice : (m.setLastExecutedPrice price).orders = m.orders := by
  cases price <;> rfl

theorem orders_perm (d : OrderDirection) :
    m.orders.Perm (sideOrders (m.side d) ++ sideOrders (m.side d.flip)) := by
  cases d
  case buy  => exact .refl _
  case sell => exact List.perm_append_comm

theorem orders_setSide : (m.setSide d levels).orders.Perm (sideOrders levels ++ sideOrders (m.side d.flip)) := by
  simpa using (m.setSide d levels).orders_perm d

theorem mem_orders {o : LimitOrder} : o ∈ m.orders ↔ ∃ d, ∃ level ∈ m.side d, o ∈ level.orders := by
  rw [(m.orders_perm .buy).mem_iff]
  simp only [sideOrders, List.mem_append, List.mem_flatMap]
  constructor
  · rintro (h | h)
    · exact ⟨.buy, h⟩
    · exact ⟨.sell, h⟩
  · rintro ⟨d, h⟩
    cases d
    · exact .inl h
    · exact .inr h

-- All orders meet the other side in the same way.
theorem sweep_eq (m : SpotMarket) (precision : MarketPrecision) (order : Order) :
    ∃ b budget, m.sweep precision order =
      Superliquid.sweep order.own b budget (m.side order.direction.flip).reverse := by
  cases order
  case limit o => exact ⟨_, _, rfl⟩
  case market o => cases o <;> exact ⟨_, _, rfl⟩

theorem taken (m : SpotMarket) (precision : MarketPrecision) (order : Order) :
    let sw := m.sweep precision order
    Taken order.own (sideOrders (m.side order.direction.flip).reverse) sw.fills sw.drained (sideOrders sw.levels)
      sw.residual := by
  have ⟨b, budget, hs⟩ := m.sweep_eq precision order
  rw [hs]
  exact sweep_taken order.own b budget (m.side order.direction.flip).reverse

-- What the representation of a book relies on. Ids below `n` are taken.
structure Sound (n : Nat) (m : SpotMarket) : Prop where
  sorted : ∀ d, SortedBy d.cmp (m.side d)
  levels : ∀ d, ∀ level ∈ m.side d, level.Sound d
  nodup  : (orderIds m.orders).Nodup
  fresh  : ∀ o ∈ m.orders, o.common.id < n

namespace Sound

variable {n : Nat} {o : LimitOrder}

theorem priced (h : m.Sound n) (d : OrderDirection) : m.Priced d :=
  fun level hl => (h.levels d level hl).price

theorem mono (h : m.Sound n) {n' : Nat} (hn : n ≤ n') : m.Sound n' :=
  { h with fresh := fun o ho => (h.fresh o ho).trans_le hn }

theorem setLastExecutedPrice (h : m.Sound n) : (m.setLastExecutedPrice price).Sound n where
  sorted := by simpa using h.sorted
  levels := by simpa using h.levels
  nodup  := by simpa using h.nodup
  fresh  := by simpa using h.fresh

theorem shrink (h : m.Sound n) (hs : Shrinks (m.side d) levels) : (m.setSide d levels).Sound n := by
  have ⟨lost, hlost⟩ := hs.orders
  have hterms : (orderTerms m.orders).Perm (orderTerms (m.setSide d levels).orders ++ lost) := by
    have hold := (m.orders_perm d).map LimitOrder.terms
    have hnew := ((m.setSide d levels).orders_perm d).map LimitOrder.terms
    simp only [side_setSide, side_flip_setSide, List.map_append] at hold hnew
    refine hold.trans ((hlost.append_right _).trans ?_)
    refine List.Perm.trans ?_ (hnew.symm.append_right lost)
    rw [List.append_assoc, List.append_assoc]
    exact List.perm_append_comm.append_left _
  constructor
  case sorted =>
    intro d'
    cases d.eq_or_eq_flip d'
    case inl hd =>
      subst hd
      rw [side_setSide]
      exact (h.sorted d').sublist hs.prices
    case inr hd => subst hd; simpa using h.sorted d.flip
  case levels =>
    intro d'
    cases d.eq_or_eq_flip d'
    case inl hd =>
      subst hd
      simp only [side_setSide]
      intro level' hm
      have ⟨level, hl, hsub⟩ := hs.within level' hm
      exact (h.levels d' level hl).shrinks hsub
    case inr hd => subst hd; simpa using h.levels d.flip
  case nodup =>
    have hnodup := h.nodup
    rw [← orderIds_terms, orderIds, (hterms.map _).nodup_iff, List.map_append] at hnodup
    rw [← orderIds_terms]
    exact hnodup.of_append_left
  case fresh =>
    intro o ho
    have hmem := hterms.mem_iff.mpr (List.mem_append_left lost (List.mem_map_of_mem ho))
    have ⟨o₀, ho₀, he⟩ := List.mem_map.mp hmem
    exact (LimitOrder.eq_of_terms he).1 ▸ h.fresh o₀ ho₀

theorem addOrder (h : m.Sound n) (hid : o.common.id = n) (ha : m.addOrder o = .ok m') : m'.Sound (n + 1) := by
  obtain ⟨levels, hm, _, added⟩ := addOrder_added ha
  subst hm
  have hperm : (m.setSide o.common.direction levels).orders.Perm (o :: m.orders) :=
    orders_setSide.trans ((added.orders.append_right _).trans ((orders_perm _).symm.cons _))
  constructor
  case sorted =>
    intro d
    cases o.common.direction.eq_or_eq_flip d
    case inl hd => subst hd; simpa using added.sorted (h.sorted _)
    case inr hd => subst hd; simpa using h.sorted _
  case levels =>
    intro d
    cases o.common.direction.eq_or_eq_flip d
    case inr hd => subst hd; simpa using h.levels _
    case inl hd =>
      subst hd
      simp only [side_setSide]
      refine added.forall (h.levels _) (fun level hl hp hsound => ?_)
        ⟨by simp [Level.ofOrder], by simp [Level.ofOrder], by simp [Level.ofOrder, orderIds]⟩
      refine ⟨?_, ?_, ?_⟩
      · simpa [Level.add, or_imp, forall_and, hp] using hsound.price
      · simpa [Level.add, or_imp, forall_and] using hsound.direction
      · simp only [Level.add, orderIds, List.map_append, List.pairwise_append, List.map_cons, List.map_nil,
          List.pairwise_singleton, List.mem_singleton, true_and, forall_eq, List.mem_map]
        refine ⟨hsound.ids, ?_⟩
        rintro id ⟨o', ho', rfl⟩
        rw [hid]
        exact h.fresh o' (mem_orders.mpr ⟨_, level, hl, ho'⟩)
  case nodup =>
    have hids : (orderIds (m.setSide o.common.direction levels).orders).Perm (n :: orderIds m.orders) :=
      hid ▸ hperm.map _
    refine hids.nodup_iff.mpr (List.nodup_cons.mpr ⟨fun hmem => ?_, h.nodup⟩)
    obtain ⟨o', ho', he⟩ := List.mem_map.mp hmem
    exact absurd (h.fresh o' ho') (by omega)
  case fresh =>
    intro o' ho'
    cases List.mem_cons.mp (hperm.mem_iff.mp ho')
    case inl he => subst he; omega
    case inr hm => exact (h.fresh o' hm).trans n.lt_succ_self

theorem sweep (h : m.Sound n) (precision : MarketPrecision) (order : Order) :
    (m.setSide order.direction.flip (m.sweep precision order).levels.reverse).Sound n := by
  have ⟨b, budget, hs⟩ := m.sweep_eq precision order
  rw [hs]
  exact h.shrink (by simpa using (Shrinks.sweep order.own b budget (m.side order.direction.flip).reverse).reverse)

theorem afterMatch {precision : MarketPrecision} {order : Order} (h : m.Sound n)
    (hid : ∀ o, order = .limit o → o.common.id = n) (hafter : m.AfterMatch precision order m') : m'.Sound (n + 1) := by
  have ⟨price, hm⟩ := hafter
  have swept : ((m.setSide order.direction.flip (m.sweep precision order).levels.reverse).setLastExecutedPrice
      price).Sound n := (h.sweep precision order).setLastExecutedPrice
  cases order
  case market => exact hm ▸ swept.mono n.le_succ
  case limit o =>
    dsimp only at hm
    split at hm
    case isTrue  => exact @addOrder _ m' n (m.leaves precision o) swept (hid o rfl) hm
    case isFalse => exact hm ▸ swept.mono n.le_succ

theorem cancelOrder {unfilled : Nat} (h : m.Sound n) (hc : m.cancelOrder o = .ok (m', unfilled)) : m'.Sound n := by
  have ⟨levels, hm, cancelled⟩ := cancelOrder_cancelled hc
  exact hm ▸ h.shrink (.cancelled cancelled)

-- The two searches of a cancellation lead to every order in the book.
theorem search_level (h : m.Sound n) {level : Level} (hl : level ∈ m.side d) (ho : o ∈ level.orders) :
    ∃ i, Search.search (probeLevel o.priceMultiple d.cmp) (m.side d) = .found i ∧ (m.side d)[i]? = some level := by
  have hp := (h.levels d level hl).price o ho
  obtain ⟨i, hs⟩ := Search.search_complete ((h.sorted d).ordered o.priceMultiple) hl (by simp [probeLevel, hp])
  obtain ⟨pre, level', post, he, hlen, hp'⟩ := Search.search_found hs
  have heq : level' = level := (h.sorted d).eq_of_price (by simp [he]) hl ((probeLevel_hit hp').trans hp)
  exact ⟨i, hs, by simp [he, hlen, heq]⟩

theorem search_order (h : m.Sound n) {level : Level} (hl : level ∈ m.side d) (ho : o ∈ level.orders) :
    ∃ j, Search.search (probeOrder o.common.id) level.orders = .found j ∧ level.orders[j]? = some o := by
  have hids := (h.levels d level hl).ids
  have ⟨j, hs⟩ := Search.search_complete (probeOrder_ordered hids o.common.id) ho (probeOrder_hit.mpr rfl)
  have ⟨pre, o', post, he, hlen, hp⟩ := Search.search_found hs
  have heq : o' = o := eq_of_orderIds hids (by simp [he]) ho (probeOrder_hit.mp hp)
  exact ⟨j, hs, by simp [he, hlen, heq]⟩

end Sound

-- What is left of a limit order that is not filled whole.
def leftover (m : SpotMarket) (precision : MarketPrecision) : Order → List LimitOrder
  | .limit o  => if sumLots (m.sweep precision (.limit o)).fills < o.baseLots then [m.leaves precision o] else []
  | .market _ => []

theorem addOrder_orders {o : LimitOrder} (h : m.addOrder o = .ok m') : m'.orders.Perm (o :: m.orders) := by
  have ⟨levels, hm, _, added⟩ := addOrder_added h
  subst hm
  exact orders_setSide.trans ((added.orders.append_right _).trans ((orders_perm _).symm.cons _))

theorem sweep_terms (m : SpotMarket) (precision : MarketPrecision) (order : Order) :
    let sw := m.sweep precision order
    (orderTerms m.orders).Perm
      (orderTerms sw.drained ++ orderTerms (m.setSide order.direction.flip sw.levels.reverse).orders) := by
  have ht := (m.taken precision order).terms
  have hold :=
    ((m.orders_perm order.direction.flip).trans (sideOrders_reverse.symm.append_right _)).map LimitOrder.terms
  have hnew := ((@orders_setSide m order.direction.flip _).trans
    ((@sideOrders_reverse (m.sweep precision order).levels).append_right _)).map LimitOrder.terms
  simp only [List.map_append] at hold hnew
  rw [show List.map LimitOrder.terms (sideOrders (m.side order.direction.flip).reverse) = _ from ht,
    List.append_assoc] at hold
  exact hold.trans (hnew.symm.append_left _)

theorem sweep_live (m : SpotMarket) (precision : MarketPrecision) (order : Order) :
    ∃ rest, let sw := m.sweep precision order
      (liveOrders m.orders).Perm (sw.fills.map Fill.order ++ rest) ∧
      (liveOrders (m.setSide order.direction.flip sw.levels.reverse).orders).Perm
        ((parts sw.fills).map (Fill.after order.own) ++ rest) := by
  have ⟨rest, hbefore, hafter⟩ := (m.taken precision order).live
  refine ⟨rest ++ liveOrders (sideOrders (m.side order.direction)), ?_, ?_⟩
  · have hp := liveOrders_perm ((m.orders_perm order.direction.flip).trans (sideOrders_reverse.symm.append_right _))
    rw [liveOrders_append, hbefore, OrderDirection.flip_flip, List.append_assoc] at hp
    exact hp
  · have hp := liveOrders_perm ((@orders_setSide m order.direction.flip _).trans
      ((@sideOrders_reverse (m.sweep precision order).levels).append_right _))
    rw [liveOrders_append, hafter, OrderDirection.flip_flip, List.append_assoc] at hp
    exact hp

theorem AfterMatch.orders {precision : MarketPrecision} {order : Order} (h : m.AfterMatch precision order m') :
    m'.orders.Perm (m.leftover precision order ++
      (m.setSide order.direction.flip (m.sweep precision order).levels.reverse).orders) := by
  have ⟨price, hm⟩ := h
  rw [← @orders_setLastExecutedPrice (m.setSide _ _) price]
  cases order
  case market => exact hm ▸ .refl _
  case limit o =>
    dsimp only at hm
    split at hm
    case isTrue hlt =>
      rw [leftover, if_pos hlt]
      exact addOrder_orders hm
    case isFalse hlt =>
      rw [leftover, if_neg hlt]
      exact hm ▸ .refl _

-- A cancellation takes a live order from the book, and with it the whole level if its volume says so. If it
-- finds none, a sound book does not have it.
theorem cancelOrder_live {n unfilled : Nat} {order : LimitOrder} (h : m.Sound n)
    (hc : m.cancelOrder order = .ok (m', unfilled)) :
    (m' = m ∧ unfilled = 0 ∧ ∀ o ∈ m.orders, o.common.id = order.common.id →
      o.priceMultiple = order.priceMultiple → o.common.direction = order.common.direction → ¬o.IsLive) ∨
    (unfilled = order.unfilled ∧ ∃ o lost, o.common.id = order.common.id ∧
      (liveOrders m.orders).Perm (o :: (lost ++ liveOrders m'.orders)) ∧
      ((∀ d, ∀ level ∈ m.side d, level.Exact) → o.remaining = order.unfilled → ∀ x ∈ lost, x.remaining = 0)) := by
  have ⟨levels, hm, cancelled⟩ := cancelOrder_cancelled hc
  subst hm
  generalize hside : m.side order.common.direction = side at cancelled
  cases cancelled
  case missing hnone =>
    refine .inl ⟨?_, rfl, ?_⟩
    · rw [← hside]
      cases order.common.direction <;> rfl
    · intro o ho hid hp hd
      have ⟨d, level, hl, hmem⟩ := mem_orders.mp ho
      have hsound := h.levels d level hl
      have hdir : d = order.common.direction := (hsound.direction o hmem).symm.trans hd
      subst hdir hside
      exact hnone (h.sorted _) (fun level hl => (h.levels _ level hl).ids) level hl
        ((hsound.price o hmem).symm.trans hp) o hmem hid
  case marked os o os' pre level post hp ho hid live hv _ =>
    have hlevel : level ∈ m.side order.common.direction := by simp [hside]
    have ⟨lost, hlost, hzero⟩ := Level.cancel_live ho live order.unfilled
    refine .inr ⟨rfl, o, lost, hid, ?_, fun hexact => hzero (hexact _ level hlevel)⟩
    have hbefore := liveOrders_perm (m.orders_perm order.common.direction)
    have hafter := liveOrders_perm (@orders_setSide m order.common.direction
      (pre ++ (level.cancel (os ++ o.cancel :: os') order.unfilled).toList ++ post))
    rw [hside] at hbefore
    simp only [sideOrders, List.flatMap_append, List.flatMap_cons, liveOrders_append] at hbefore hafter hlost
    refine hbefore.trans ?_
    refine List.Perm.trans ?_ ((hafter.symm.append_left lost).cons o)
    refine List.perm_iff_count.mpr fun x => ?_
    have hcount := hlost.count_eq x
    simp only [List.count_append, List.count_cons] at hcount ⊢
    omega

end SpotMarket
end Superliquid

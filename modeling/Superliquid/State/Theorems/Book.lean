import Mathlib.Data.List.Nodup
import Superliquid.State.Theorems.Fills

namespace Superliquid

open SpotMarket

instance : Std.TransCmp ascending :=
  inferInstanceAs (Std.TransCmp fun a b : Nat => compare a b)

instance : Std.LawfulEqCmp ascending :=
  inferInstanceAs (Std.LawfulEqCmp fun a b : Nat => compare a b)

instance : Std.TransCmp descending :=
  inferInstanceAs (Std.TransCmp fun a b : Nat => compare b a)

instance : Std.LawfulEqCmp descending :=
  inferInstanceAs (Std.LawfulEqCmp fun a b : Nat => compare b a)

-- The prices of a side, from the worst to the best.
def SortedBy (cmp : Nat → Nat → Ordering) (levels : List Level) : Prop :=
  (levels.map Level.price).Pairwise fun p q => cmp p q = .lt

def LimitOrder.unfilled (o : LimitOrder) : Nat :=
  o.baseLots - o.filledBaseLots

def Level.ofOrder (order : LimitOrder) : Level where
  price := order.priceMultiple
  volume := order.unfilled
  orders := [order]
  cancelled := 0

def Level.add (level : Level) (order : LimitOrder) : Level :=
  { level with volume := level.volume + order.unfilled, orders := level.orders ++ [order] }

-- How an order enters a side: at the end of the level with its price, or in a level of its own.
inductive Added (cmp : Nat → Nat → Ordering) (order : LimitOrder) : List Level → List Level → Prop
  | level : (level.price = order.priceMultiple) → (level.volume + order.unfilled < 2 ^ 64) →
      Added cmp order (pre ++ level :: post) (pre ++ level.add order :: post)
  | new :
      (SortedBy cmp (pre ++ post) →
        (∀ l ∈ pre, cmp l.price order.priceMultiple = .lt) ∧ (∀ l ∈ post, cmp order.priceMultiple l.price = .lt)) →
      Added cmp order (pre ++ post) (pre ++ .ofOrder order :: post)

def LimitOrder.cancel (o : LimitOrder) : LimitOrder :=
  { o with common.status := .cancelled }

-- What is left of a level after a cancellation of `unfilled` lots that leaves it with `orders`.
def Level.cancel (level : Level) (orders : List LimitOrder) (unfilled : Nat) : Option Level :=
  let volume := level.volume - unfilled
  if volume = 0 then none
  else if orders.length / 2 < level.cancelled + 1 then
    some { level with volume, orders := liveOrders orders, cancelled := 0 }
  else
    some { level with volume, orders, cancelled := level.cancelled + 1 }

-- How an order leaves a side. Where the searches find nothing, a sorted side does not have it.
inductive Cancelled (cmp : Nat → Nat → Ordering) (order : LimitOrder) : List Level → List Level → Nat → Prop
  | missing :
      (SortedBy cmp levels → (∀ level ∈ levels, (orderIds level.orders).Pairwise (· < ·)) →
        ∀ level ∈ levels, level.price = order.priceMultiple →
          ∀ o ∈ level.orders, o.common.id = order.common.id → ¬o.IsLive) →
      Cancelled cmp order levels levels 0
  | marked :
      (level.price = order.priceMultiple) → (level.orders = os ++ o :: os') →
      (o.common.id = order.common.id) → (o.IsLive) → (order.unfilled ≤ level.volume) →
      (level.cancelled + 1 < 2 ^ 32) →
      Cancelled cmp order (pre ++ level :: post)
        (pre ++ (level.cancel (os ++ o.cancel :: os') order.unfilled).toList ++ post) order.unfilled

section Side

variable {cmp : Nat → Nat → Ordering} {order : LimitOrder} {levels levels' : List Level} {price : Nat}
         {level : Level}

theorem probeLevel_hit (h : probeLevel price cmp level = .hit) : level.price = price := by
  unfold probeLevel at h
  split at h
  case isTrue he => exact he.symm
  case isFalse   => split at h <;> contradiction

theorem probeLevel_left (h : probeLevel price cmp level = .left) : cmp price level.price = .lt := by
  unfold probeLevel at h
  split at h <;> try contradiction
  split at h
  case isTrue hc => exact hc
  case isFalse   => contradiction

theorem probeOrder_hit {id : Nat} {o : LimitOrder} : probeOrder id o = .hit ↔ o.common.id = id := by
  unfold probeOrder
  split
  case isTrue he => simp [he]
  case isFalse hn => split <;> simp [Ne.symm hn]

-- Order ids grow with time.
theorem probeOrder_ordered {orders : List LimitOrder} (h : (orderIds orders).Pairwise (· < ·)) (id : Nat) :
    Search.Ordered (probeOrder id) orders := by
  refine (List.pairwise_map.mp h).imp ?_
  intro o o' hlt hp
  have hid : id ≤ o.common.id := by
    by_contra hn
    simp [probeOrder, Nat.ne_of_gt (Nat.lt_of_not_le hn), Nat.le_of_not_le hn] at hp
  simp [probeOrder, Nat.ne_of_lt (Nat.lt_of_le_of_lt hid hlt), Nat.lt_of_le_of_lt hid hlt]

-- A level has one order for an id.
theorem eq_of_orderIds {orders : List LimitOrder} {o o' : LimitOrder} (h : (orderIds orders).Pairwise (· < ·))
    (ho : o ∈ orders) (ho' : o' ∈ orders) (hid : o.common.id = o'.common.id) : o = o' :=
  List.inj_on_of_nodup_map (h.imp Nat.ne_of_lt) ho ho' hid

variable [Std.LawfulEqCmp cmp]

theorem ne_of_cmp_lt {p q : Nat} (h : cmp p q = .lt) : p ≠ q := by
  intro he
  rw [he, @Std.ReflCmp.compare_self _ cmp] at h
  contradiction

-- A side has one level for a price.
theorem SortedBy.eq_of_price {level level' : Level} (h : SortedBy cmp levels) (hl : level ∈ levels)
    (hl' : level' ∈ levels) (hp : level.price = level'.price) : level = level' :=
  List.inj_on_of_nodup_map (h.imp ne_of_cmp_lt) hl hl' hp

variable [Std.TransCmp cmp]

theorem cmp_lt_of_ne {p q : Nat} (hn : p ≠ q) (h : cmp p q ≠ .lt) : cmp q p = .lt := by
  cases hc : cmp p q
  case lt => contradiction
  case eq => exact absurd (Std.LawfulEqCmp.eq_of_compare hc) hn
  case gt => exact Std.OrientedCmp.gt_iff_lt.mp hc

theorem probeLevel_right (h : probeLevel price cmp level = .right) : cmp level.price price = .lt := by
  unfold probeLevel at h
  split at h <;> try contradiction
  case isFalse hn =>
  split at h
  case isTrue     => contradiction
  case isFalse hc => exact cmp_lt_of_ne hn hc

theorem SortedBy.ordered (h : SortedBy cmp levels) (price : Nat) :
    Search.Ordered (probeLevel price cmp) levels := by
  refine (List.pairwise_map.mp h).imp ?_
  intro l l' hlt hp
  have left : cmp price l'.price = .lt := by
    by_cases he : price = l.price
    case pos => exact he ▸ hlt
    case neg =>
      by_cases hc : cmp price l.price = .lt
      case pos => exact Std.TransCmp.lt_trans hc hlt
      case neg => simp [probeLevel, he, hc] at hp
  simp [probeLevel, ne_of_cmp_lt left, left]

theorem addOrderWithCmp_added (h : addOrderWithCmp levels order cmp = .ok levels') :
    order.filledBaseLots ≤ order.baseLots ∧ Added cmp order levels levels' := by
  unfold addOrderWithCmp at h
  cases hs : Search.search (probeLevel order.priceMultiple cmp) levels
  case found mid =>
    simp only [hs, Checked.bind_ok, Checked.index_ok, Checked.sub_ok, U64.add_ok, Checked.pure_ok] at h
    have ⟨level, hl, _, ⟨hle, hn⟩, _, ⟨hfit, hv⟩, hset⟩ := h
    have ⟨pre, level', post, he, hlen, hp⟩ := Search.search_found hs
    subst he hlen hn hv hset
    have he : level' = level := by simpa using hl
    subst he
    refine ⟨hle, ?_⟩
    simp only [List.set_append_right _ _ (Nat.le_refl _), Nat.sub_self, List.set_cons_zero]
    exact .level (probeLevel_hit hp) hfit
  case missing left =>
    simp only [hs, Checked.bind_ok, Checked.sub_ok, Checked.pure_ok] at h
    have ⟨_, ⟨hle, hn⟩, hset⟩ := h
    have ⟨pre, post, he, hlen, hsplit⟩ := Search.search_missing hs
    subst he hlen hn hset
    refine ⟨hle, ?_⟩
    rw [List.insertIdx_append_length]
    refine .new ?_
    intro hsorted
    have ⟨hl, hr⟩ := hsplit (hsorted.ordered _)
    exact ⟨fun l hm => probeLevel_right (hl l hm), fun l hm => probeLevel_left (hr l hm)⟩

omit [Std.LawfulEqCmp cmp] [Std.TransCmp cmp] in
theorem markOrderAsCancelled_some {orders orders' : List LimitOrder}
    (h : markOrderAsCancelled orders order = some orders') :
    ∃ os o os', orders = os ++ o :: os' ∧ o.common.id = order.common.id ∧ o.IsLive ∧
      orders' = os ++ o.cancel :: os' := by
  unfold markOrderAsCancelled at h
  cases hs : Search.search (probeOrder order.common.id) orders <;> simp only [hs, reduceCtorEq] at h
  case found mid =>
    have ⟨os, o, os', he, hlen, hp⟩ := Search.search_found hs
    subst he hlen
    simp only [List.getElem?_append_right (Nat.le_refl _), Nat.sub_self, List.getElem?_cons_zero] at h
    split at h
    case isTrue => contradiction
    case isFalse live =>
      cases h
      refine ⟨os, o, os', rfl, probeOrder_hit.mp hp, live, ?_⟩
      simp [LimitOrder.cancel]

omit [Std.LawfulEqCmp cmp] [Std.TransCmp cmp] in
theorem markOrderAsCancelled_none {orders : List LimitOrder} (hi : (orderIds orders).Pairwise (· < ·))
    (h : markOrderAsCancelled orders order = none) :
    ∀ o ∈ orders, o.common.id = order.common.id → ¬o.IsLive := by
  intro o ho hid live
  unfold markOrderAsCancelled at h
  have ⟨mid, hs⟩ := Search.search_complete (probeOrder_ordered hi order.common.id) ho (probeOrder_hit.mpr hid)
  have ⟨os, o', os', he, hlen, hp⟩ := Search.search_found hs
  have heq : o' = o := eq_of_orderIds hi (by simp [he]) ho ((probeOrder_hit.mp hp).trans hid.symm)
  subst he hlen heq
  simp only [hs, List.getElem?_append_right (Nat.le_refl _), Nat.sub_self, List.getElem?_cons_zero] at h
  split at h
  case isTrue hc => exact live hc
  case isFalse   => contradiction

theorem cancelOrderWithCmp_cancelled {unfilled : Nat}
    (h : cancelOrderWithCmp levels order cmp = .ok (levels', unfilled)) :
    Cancelled cmp order levels levels' unfilled := by
  unfold cancelOrderWithCmp at h
  cases hs : Search.search (probeLevel order.priceMultiple cmp) levels
  case missing left =>
    simp only [hs, Checked.pure_ok, Prod.mk.injEq] at h
    have ⟨hl, hn⟩ := h
    subst hl hn
    refine .missing fun hsorted _ level hm hp => ?_
    have ⟨_, hs'⟩ := Search.search_complete (hsorted.ordered order.priceMultiple) hm
      (by simp [probeLevel, hp])
    rw [hs] at hs'
    contradiction
  case found mid =>
    simp only [hs, Checked.bind_ok, Checked.index_ok] at h
    have ⟨level, hl, h⟩ := h
    have ⟨pre, level', post, he, hlen, hp⟩ := Search.search_found hs
    subst he hlen
    have he : level' = level := by simpa using hl
    subst he
    have hp := probeLevel_hit hp
    cases hmark : markOrderAsCancelled level'.orders order
    case none =>
      simp only [hmark, Checked.pure_ok, Prod.mk.injEq] at h
      have ⟨hl, hn⟩ := h
      subst hl hn
      refine .missing fun hsorted hids l hm hlp => ?_
      have heq : l = level' := hsorted.eq_of_price hm (by simp) (hlp.trans hp.symm)
      subst heq
      exact markOrderAsCancelled_none (hids l hm) hmark
    case some orders =>
      simp only [hmark, Checked.bind_ok, U32.add_ok, Checked.sub_ok] at h
      have ⟨_, ⟨hfit, hc⟩, _, ⟨hle, hu⟩, _, ⟨hv, hvol⟩, h⟩ := h
      have ⟨os, o, os', ho, hid, live, hset⟩ := markOrderAsCancelled_some hmark
      subst hc hu hvol
      suffices hlevels : levels' = pre ++ (level'.cancel orders order.unfilled).toList ++ post ∧
          unfilled = order.unfilled by
        rw [hlevels.1, hlevels.2, hset]
        exact .marked hp ho hid live hv hfit
      split at h
      case isTrue hz =>
        cases h
        have : level'.cancel orders order.unfilled = none := if_pos hz
        rw [this]
        simp [List.eraseIdx_append_of_length_le, LimitOrder.unfilled]
      case isFalse hz =>
        split at h
        case isTrue hsparse =>
          cases h
          have : level'.cancel orders order.unfilled =
              some { level' with volume := _, orders := liveOrders orders, cancelled := 0 } :=
            (if_neg hz).trans (if_pos hsparse)
          rw [this]
          rw [List.set_append_right _ _ (Nat.le_refl _), Nat.sub_self, Option.toList_some, List.append_assoc]
          exact ⟨rfl, rfl⟩
        case isFalse hsparse =>
          cases h
          have : level'.cancel orders order.unfilled =
              some { level' with volume := _, orders, cancelled := level'.cancelled + 1 } :=
            (if_neg hz).trans (if_neg hsparse)
          rw [this]
          rw [List.set_append_right _ _ (Nat.le_refl _), Nat.sub_self, Option.toList_some, List.append_assoc]
          exact ⟨rfl, rfl⟩

end Side

section Added

variable {cmp : Nat → Nat → Ordering} {order : LimitOrder} {levels levels' : List Level}

theorem Added.prices (h : Added cmp order levels levels') :
    levels'.map Level.price ⊆ order.priceMultiple :: levels.map Level.price := by
  cases h
  case level pre level post hp _ =>
    intro p
    simp only [List.map_append, List.map_cons, List.mem_append, List.mem_cons, Level.add]
    tauto
  case new pre post _ =>
    intro p
    simp only [List.map_append, List.map_cons, List.mem_append, List.mem_cons, Level.ofOrder]
    tauto

theorem Added.sorted [Std.TransCmp cmp] (h : Added cmp order levels levels') (hs : SortedBy cmp levels) :
    SortedBy cmp levels' := by
  cases h
  case level pre level post _ _ => simpa [SortedBy, Level.add] using hs
  case new pre post hsplit =>
    have ⟨hl, hr⟩ := hsplit hs
    simp only [SortedBy, List.map_append, List.pairwise_append, List.mem_map, List.map_cons,
      List.pairwise_cons, List.mem_cons] at hs ⊢
    refine ⟨hs.1, ⟨?_, hs.2.1⟩, ?_⟩
    · rintro p ⟨l, hm, rfl⟩
      exact hr l hm
    · rintro p ⟨l, hm, rfl⟩ q (rfl | hq)
      · exact hl l hm
      · exact hs.2.2 _ ⟨l, hm, rfl⟩ q hq

theorem Added.orders (h : Added cmp order levels levels') :
    (sideOrders levels').Perm (order :: sideOrders levels) := by
  cases h
  case level pre level post _ _ =>
    simp only [sideOrders, List.flatMap_append, List.flatMap_cons, Level.add]
    rw [← List.append_assoc, ← List.append_assoc, ← List.append_assoc]
    refine List.Perm.trans (.append_right _ List.perm_append_comm) ?_
    simp
  case new pre post _ =>
    simp only [sideOrders, List.flatMap_append, List.flatMap_cons, Level.ofOrder, List.singleton_append]
    exact List.perm_middle

-- What holds of every level still does if it holds of the one that the order enters.
theorem Added.forall {P : Level → Prop} (h : Added cmp order levels levels') (hp : ∀ level ∈ levels, P level)
    (add : ∀ level ∈ levels, level.price = order.priceMultiple → P level → P (level.add order))
    (new : P (.ofOrder order)) : ∀ level ∈ levels', P level := by
  cases h
  all_goals simp only [List.forall_mem_append, List.forall_mem_cons] at hp ⊢
  case level pre level post hprice _ => exact ⟨hp.1, add level (by simp) hprice hp.2.1, hp.2.2⟩
  case new => exact ⟨hp.1, new, hp.2⟩

end Added

section Cancelled

variable {cmp : Nat → Nat → Ordering} {order : LimitOrder} {levels levels' : List Level} {unfilled : Nat}
         {level level' : Level} {orders : List LimitOrder}

theorem Level.cancel_price (h : level.cancel orders unfilled = some level') : level'.price = level.price := by
  simp only [Level.cancel] at h
  split at h <;> try contradiction
  split at h <;> cases h <;> rfl

theorem Cancelled.prices (h : Cancelled cmp order levels levels' unfilled) :
    (levels'.map Level.price).Sublist (levels.map Level.price) := by
  cases h
  case missing => exact .refl _
  case marked os o os' pre level post _ _ _ _ _ _ =>
    simp only [List.map_append, List.append_assoc, List.map_cons]
    refine .append (.refl _) ?_
    cases hc : level.cancel (os ++ o.cancel :: os') order.unfilled
    case none   => simp
    case some l => simp [Level.cancel_price hc]

-- A cancelled order goes, and with it all that is left of its level if the volume says so.
theorem Cancelled.forall {P : Level → Prop} (h : Cancelled cmp order levels levels' unfilled)
    (hp : ∀ level ∈ levels, P level)
    (cancel : ∀ level ∈ levels, ∀ os o os', level.price = order.priceMultiple →
      level.orders = os ++ o :: os' → o.common.id = order.common.id → o.IsLive →
      order.unfilled ≤ level.volume → P level →
      ∀ level' ∈ level.cancel (os ++ o.cancel :: os') order.unfilled, P level') :
    ∀ level ∈ levels', P level := by
  cases h
  case missing => exact hp
  case marked os o os' pre level post hprice ho hid live hv _ =>
    simp only [List.forall_mem_append, List.forall_mem_cons] at hp ⊢
    refine ⟨⟨hp.1, ?_⟩, hp.2.2⟩
    intro level' hm
    exact cancel level (by simp) os o os' hprice ho hid live hv hp.2.1 level' (by simpa using hm)

end Cancelled

-- The side that an order meets, after the match.
theorem sweep_sorted {cmp : Nat → Nat → Ordering} {own : LimitOrder → Bool} {b : Budget} {budget : Nat}
    {levels : List Level} (hs : SortedBy cmp levels) :
    SortedBy cmp (sweep own b budget levels.reverse).levels.reverse := by
  have hsub := (sweep_prices own b budget levels.reverse).sublist.reverse
  simp only [← List.map_reverse, List.reverse_reverse] at hsub
  exact List.Pairwise.sublist hsub hs

end Superliquid

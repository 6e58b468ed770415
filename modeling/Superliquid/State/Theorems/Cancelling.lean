import Superliquid.State.Theorems.Counters

namespace Superliquid

open SpotMarket LedgerState

section Missing

variable {levels : List Level} {order : LimitOrder} {cmp : Nat → Nat → Ordering} {m m' : SpotMarket}

-- Whatever the searches find, only a live order is marked.
theorem cancelOrderWithCmp_missing
    (h : ∀ level ∈ levels, ∀ o ∈ level.orders, o.common.id = order.common.id → ¬o.IsLive) :
    cancelOrderWithCmp levels order cmp = .ok (levels, 0) := by
  unfold cancelOrderWithCmp
  cases hs : Search.search (probeLevel order.priceMultiple cmp) levels
  case missing => simp only [hs]; rfl
  case found mid =>
    have ⟨pre, level, post, he, hlen, _⟩ := Search.search_found hs
    have hindex : Checked.index levels mid = .ok level := Checked.index_ok.mpr (by simp [he, hlen])
    simp only [hs, hindex, Checked.ok_bind]
    cases hmark : markOrderAsCancelled level.orders order
    case none => rfl
    case some orders =>
      have ⟨os, o, os', ho, hid, live, _⟩ := markOrderAsCancelled_some hmark
      exact absurd live (h level (by simp [he]) o (by simp [ho]) hid)

theorem cancelOrder_missing (h : ∀ o ∈ m.orders, o.common.id = order.common.id → ¬o.IsLive) :
    m.cancelOrder order = .ok (m, 0) := by
  have hside : cancelOrderWithCmp (m.side order.common.direction) order order.common.direction.cmp =
      .ok (m.side order.common.direction, 0) :=
    cancelOrderWithCmp_missing fun level hl o ho => h o (mem_orders.mpr ⟨_, level, hl, ho⟩)
  unfold SpotMarket.cancelOrder
  cases hd : order.common.direction
  all_goals
    rw [hd] at hside
    simp only [cancelBid, cancelAsk]
    exact Checked.bind_ok.mpr ⟨_, hside, rfl⟩

theorem SpotMarket.Represented.sound (h : m.Represented) : ∃ n, m.Sound n := by
  refine ⟨(orderIds m.orders).sum + 1, ?_, h.levels, h.nodup, fun o ho => ?_⟩
  · intro d
    cases d
    case buy  => exact h.bids.imp Nat.compare_eq_lt.mpr
    case sell => exact h.asks.imp Nat.compare_eq_lt.mpr
  · have hid : o.common.id ∈ orderIds m.orders := List.mem_map_of_mem ho
    exact Nat.lt_succ_of_le (List.single_le_sum (by simp) _ hid)

-- No live order has the id of one that was cancelled.
theorem cancelOrder_gone {n unfilled : Nat} (h : m.Sound n) (hc : m.cancelOrder order = .ok (m', unfilled)) :
    (m' = m ∧ unfilled = 0) ∨ ∀ o ∈ m'.orders, o.common.id = order.common.id → ¬o.IsLive := by
  cases cancelOrder_live h hc
  case inl hm => exact .inl ⟨hm.1, hm.2.1⟩
  case inr hm =>
    have ⟨_, x, lost, hx, hperm, _⟩ := hm
    refine .inr fun o ho hid live => ?_
    have hnodup : (orderIds (liveOrders m.orders)).Nodup := h.nodup.sublist (List.filter_sublist.map _)
    have hids := (hperm.map fun o : LimitOrder => o.common.id).nodup_iff.mp hnodup
    rw [List.map_cons, List.nodup_cons] at hids
    refine hids.1 (hx ▸ hid ▸ List.mem_map_of_mem (List.mem_append_right _ (mem_liveOrders.mpr ⟨ho, live⟩)))

-- Whether the first cancellation finds the order or not, there is nothing left for a second one.
theorem cancelOrder_idempotent (h : m.Represented) (order : LimitOrder) :
    (∀ m' unfilled, m.cancelOrder order = .ok (m', unfilled) → m'.cancelOrder order = .ok (m', 0)) ∧
    ((∀ o ∈ m.orders, o.common.id = order.common.id → ¬o.IsLive) → m.cancelOrder order = .ok (m, 0)) := by
  have ⟨n, sound⟩ := h.sound
  refine ⟨fun m' unfilled hc => ?_, cancelOrder_missing⟩
  cases cancelOrder_gone sound hc
  case inr gone => exact cancelOrder_missing gone
  case inl hm =>
    have ⟨hm, hz⟩ := hm
    subst hm hz
    exact hc

-- The ask at 30 goes with its level; the one with id 0 was pruned before.
theorem threePrices_idempotent : ∃ l ts ns m m', (LedgerState.new 1).apply threePrices = .ok (l, ts, ns) ∧
    l.spotClearinghouse.markets = [m] ∧ m.cancelOrder (.place 1 7 .sell 30 5) = .ok (m', 5) ∧
    m'.cancelOrder (.place 1 7 .sell 30 5) = .ok (m', 0) ∧ m.cancelOrder (.place 0 7 .sell 20 5) = .ok (m, 0) := by
  have ⟨l, ts, ns, m, m', hrun, hm, hc, hgone⟩ : ∃ l ts ns m m',
      (LedgerState.new 1).apply threePrices = .ok (l, ts, ns) ∧ l.spotClearinghouse.markets = [m] ∧
      m.cancelOrder (.place 1 7 .sell 30 5) = .ok (m', 5) ∧ (∀ o ∈ m.orders, o.common.id = 0 → ¬o.IsLive) :=
    ⟨_, _, _, _, _, rfl, rfl, rfl, by decide⟩
  have represented := (sound_of_reachable (.of_apply hrun) (hm ▸ List.mem_singleton_self m)).represented
  exact ⟨l, ts, ns, m, m', hrun, hm, hc, (cancelOrder_idempotent represented _).1 _ _ hc,
    (cancelOrder_idempotent represented _).2 hgone⟩

end Missing

-- The live orders of a side with the price at which they rest.
def liveEntries (levels : List Level) : List (Nat × LimitOrder) :=
  levels.flatMap fun level => (liveOrders level.orders).map fun o => (level.price, o)

section Entries

variable {levels pre post : List Level} {level : Level} {os os' : List LimitOrder} {o : LimitOrder} {unfilled : Nat}

theorem liveEntries_append (xs ys : List Level) : liveEntries (xs ++ ys) = liveEntries xs ++ liveEntries ys :=
  List.flatMap_append

theorem liveEntries_cons : liveEntries (level :: levels) =
    ((liveOrders level.orders).map fun o => (level.price, o)) ++ liveEntries levels :=
  List.flatMap_cons

theorem mem_liveEntries {price : Nat} : (price, o) ∈ liveEntries levels ↔
    ∃ level ∈ levels, level.price = price ∧ o ∈ level.orders ∧ o.IsLive := by
  simp only [liveEntries, List.mem_flatMap, List.mem_map, mem_liveOrders, Prod.mk.injEq]
  constructor
  · rintro ⟨level, hl, o, ⟨ho, live⟩, hp, rfl⟩
    exact ⟨level, hl, hp, ho, live⟩
  · rintro ⟨level, hl, hp, ho, live⟩
    exact ⟨level, hl, o, ⟨ho, live⟩, hp, rfl⟩

-- The others of a level stay in their places, unless the level goes.
theorem liveEntries_cancel :
    liveEntries (pre ++ (level.cancel (os ++ o.cancel :: os') unfilled).toList ++ post) = liveEntries pre ++
      (if level.volume ≤ unfilled then [] else (liveOrders os ++ liveOrders os').map fun o => (level.price, o)) ++
      liveEntries post := by
  have hlive : liveOrders (os ++ o.cancel :: os') = liveOrders os ++ liveOrders os' := by
    rw [liveOrders_append, liveOrders_skip LimitOrder.cancel_not_isLive]
  rw [liveEntries_append, liveEntries_append]
  congr 2
  by_cases hz : level.volume - unfilled = 0
  case pos =>
    have hc : level.cancel (os ++ o.cancel :: os') unfilled = none := if_pos hz
    rw [hc, if_pos (Nat.sub_eq_zero_iff_le.mp hz)]
    rfl
  case neg =>
    rw [if_neg (mt Nat.sub_eq_zero_iff_le.mpr hz), ← hlive]
    simp only [Level.cancel, if_neg hz]
    split
    · simp [liveEntries, liveOrders_liveOrders]
    · simp [liveEntries]

end Entries

-- The live orders but for those with an id, each at its price and in its place.
structure CancelsOnly (id : Nat) (m m' : SpotMarket) : Prop where
  gone   : ∀ o ∈ liveOrders m'.orders, o.common.id ≠ id
  others : ∀ d, liveEntries (m'.side d) = (liveEntries (m.side d)).filter (·.2.common.id ≠ id)

section Only

variable {m m' : SpotMarket} {d : OrderDirection} {level : Level} {pre post : List Level} {os os' : List LimitOrder}
         {x order : LimitOrder} {n unfilled : Nat}

theorem CancelsOnly.of_others {id : Nat}
    (h : ∀ d, liveEntries (m'.side d) = (liveEntries (m.side d)).filter (·.2.common.id ≠ id)) :
    CancelsOnly id m m' where
  gone := by
    intro o ho
    have ⟨ho, live⟩ := mem_liveOrders.mp ho
    have ⟨d, level, hl, hmem⟩ := mem_orders.mp ho
    have hentry := mem_liveEntries.mpr ⟨level, hl, rfl, hmem, live⟩
    rw [h d, List.mem_filter] at hentry
    simpa using hentry.2
  others := h

-- Ids tell the orders of a book apart.
theorem SpotMarket.Sound.others (h : m.Sound n) (hside : m.side d = pre ++ level :: post)
    (horders : level.orders = os ++ x :: os') :
    ∀ o ∈ sideOrders pre ++ os ++ (os' ++ sideOrders post ++ sideOrders (m.side d.flip)),
      o.common.id ≠ x.common.id := by
  have hperm : m.orders.Perm (sideOrders pre ++ os ++ x :: (os' ++ sideOrders post ++ sideOrders (m.side d.flip))) := by
    refine (m.orders_perm d).trans (.of_eq ?_)
    rw [hside]
    simp [sideOrders, horders]
  have hnodup := (hperm.map fun o : LimitOrder => o.common.id).nodup_iff.mp h.nodup
  rw [List.map_append, List.map_cons, List.nodup_middle, List.nodup_cons, ← List.map_append] at hnodup
  intro o ho hid
  exact hnodup.1 (hid ▸ List.mem_map_of_mem ho)

theorem filter_liveEntries {levels : List Level} {id : Nat} (h : ∀ o ∈ sideOrders levels, o.common.id ≠ id) :
    (liveEntries levels).filter (·.2.common.id ≠ id) = liveEntries levels := by
  refine List.filter_eq_self.mpr fun ⟨price, o⟩ hentry => decide_eq_true ?_
  have ⟨level, hl, _, ho, _⟩ := mem_liveEntries.mp hentry
  exact h o (List.mem_flatMap.mpr ⟨level, hl, ho⟩)

theorem filter_liveOrders {orders : List LimitOrder} {id price : Nat} (h : ∀ o ∈ orders, o.common.id ≠ id) :
    ((liveOrders orders).map fun o => (price, o)).filter (·.2.common.id ≠ id) =
      (liveOrders orders).map fun o => (price, o) := by
  refine List.filter_eq_self.mpr fun entry hentry => decide_eq_true ?_
  have ⟨o, ho, he⟩ := List.mem_map.mp hentry
  subst he
  exact h o (mem_liveOrders.mp ho).1

-- A cancellation that ends well has marked the order in its level.
theorem cancelOrder_marks (h : m.Sound n) (hl : level ∈ m.side d) (hx : x ∈ level.orders) (live : x.IsLive)
    (hid : order.common.id = x.common.id) (hp : order.priceMultiple = x.priceMultiple)
    (hd : order.common.direction = x.common.direction) (hc : m.cancelOrder order = .ok (m', unfilled)) :
    unfilled = order.unfilled ∧ order.unfilled ≤ level.volume ∧ level.cancelled + 1 < 2 ^ 32 ∧
      ∃ pre post os os', m.side d = pre ++ level :: post ∧ level.orders = os ++ x :: os' ∧
        m' = m.setSide d (pre ++ (level.cancel (os ++ x.cancel :: os') order.unfilled).toList ++ post) := by
  have hsound := h.levels d level hl
  have ⟨levels, hm, cancelled⟩ := cancelOrder_cancelled hc
  rw [hd, hsound.direction x hx] at hm cancelled
  generalize hside : m.side d = side at cancelled
  cases cancelled
  case missing hnone =>
    subst hside
    exact absurd live (hnone (h.sorted d) (fun level hl => (h.levels d level hl).ids) level hl
      (by rw [hp, hsound.price x hx]) x hx hid.symm)
  case marked os o os' pre level' post hprice horders hoid olive hv hcount =>
    have hlevel : level' = level :=
      (h.sorted d).eq_of_price (by simp [hside]) hl (by rw [hprice, hp, hsound.price x hx])
    subst hlevel
    have ho : o = x := eq_of_orderIds hsound.ids (by simp [horders]) hx (hoid.trans hid)
    subst ho
    exact ⟨rfl, hv, hcount, pre, post, os, os', rfl, horders, hm⟩

-- A cancellation leaves the others alone unless it drops a level in which there are any.
theorem cancelOrder_only_iff (h : m.Sound n) (hl : level ∈ m.side d) (hx : x ∈ level.orders) (live : x.IsLive)
    (hid : order.common.id = x.common.id) (hp : order.priceMultiple = x.priceMultiple)
    (hd : order.common.direction = x.common.direction) (hu : order.unfilled = x.unfilled)
    (hc : m.cancelOrder order = .ok (m', unfilled)) :
    CancelsOnly x.common.id m m' ↔ level.volume ≠ x.unfilled ∨ liveOrders level.orders = [x] := by
  have ⟨_, hv, _, pre, post, os, os', hside, horders, hm⟩ := cancelOrder_marks h hl hx live hid hp hd hc
  have others := h.others hside horders
  simp only [List.forall_mem_append] at others
  have ⟨⟨hpre, hos⟩, ⟨hos', hpost⟩, hflip⟩ := others
  have hfilter : (liveEntries (m.side d)).filter (·.2.common.id ≠ x.common.id) = liveEntries pre ++
      ((liveOrders os ++ liveOrders os').map fun o => (level.price, o)) ++ liveEntries post := by
    rw [hside, liveEntries_append, liveEntries_cons, horders, liveOrders_append, liveOrders_cons live]
    simp only [List.map_append, List.map_cons, List.filter_append, filter_liveEntries hpre, filter_liveEntries hpost,
      filter_liveOrders hos]
    rw [List.filter_cons_of_neg (by simp), filter_liveOrders hos']
    simp
  have hsingle : liveOrders level.orders = [x] ↔ liveOrders os ++ liveOrders os' = [] := by
    rw [horders, liveOrders_append, liveOrders_cons live]
    constructor
    · intro hone
      have hlen := congrArg List.length hone
      simp only [List.length_append, List.length_cons, List.length_nil] at hlen
      exact List.eq_nil_of_length_eq_zero (by rw [List.length_append]; omega)
    · intro hnil
      have ⟨h₁, h₂⟩ := List.append_eq_nil_iff.mp hnil
      rw [h₁, h₂]
      rfl
  rw [hu] at hv hm
  rw [hsingle]
  have hafter : m'.side d = pre ++ (level.cancel (os ++ x.cancel :: os') x.unfilled).toList ++ post := by
    rw [hm, side_setSide]
  constructor
  · intro only
    have heq := only.others d
    rw [hafter, liveEntries_cancel, hfilter, List.append_cancel_right_eq, List.append_cancel_left_eq] at heq
    by_cases hvol : level.volume = x.unfilled
    case neg => exact .inl hvol
    case pos =>
      rw [if_pos hvol.le] at heq
      exact .inr (List.map_eq_nil_iff.mp heq.symm)
  · intro hcond
    refine .of_others fun d' => ?_
    cases d.eq_or_eq_flip d'
    case inr hd' =>
      subst hd'
      rw [hm, side_flip_setSide, filter_liveEntries hflip]
    case inl hd' =>
      subst hd'
      rw [hafter, liveEntries_cancel, hfilter]
      congr 2
      split
      case isFalse => rfl
      case isTrue hle =>
        have hnil := hcond.resolve_left (not_not.mpr (le_antisymm hle hv))
        rw [hnil]
        rfl

end Only

-- The records agree with the book, and all orders in it are for its market.
structure Exchange.Homed (e : Exchange) : Prop where
  consistent : e.Consistent
  market     : ∀ o ∈ liveOrders e.market.orders, o.common.marketId = 0

theorem Exchange.Homed.new {faucet : PublicKeyHash} : (Exchange.new faucet).Homed where
  consistent := .new
  market     := by simp [Exchange.new, SpotMarket.supeUsd, SpotMarket.new, SpotMarket.orders, sideOrders, liveOrders]

theorem Exchange.Homed.step {e e' : Exchange} {tx : UnsignedTransaction} (hs : e.Step tx e') (h : e.Homed) :
    e'.Homed where
  consistent := .step hs h.consistent
  market     := by
    refine hs.forall_live h.consistent.sound h.market (fun {t o filled} _ hzero ho _ => ?_) fun {own f} _ hf => ?_
    · have ⟨_, _, _, heq⟩ := OrderTransaction.toOrder_limit ho
      rw [heq]
      exact hzero
    · rw [Fill.after_common]
      exact hf

section Ledger

variable {l l' : LedgerState} {e : Exchange} {x : LimitOrder} {t t' : CancelOrderTransaction}
         {n : Option (PublicKeyHash × Nat)}

-- A cancellation works with the account's record of the order.
theorem LedgerState.Shows.cancel_live (h : l.Shows e) (homed : e.Homed) (hx : x ∈ liveOrders e.market.orders)
    (hid : x.common.id = t.orderId) (ht : l.handleCancelOrderTransaction t = .ok (l', t', n))
    (hexec : t'.status = .executed) :
    ∃ order m' unfilled, order.core = x.core ∧ e.market.cancelOrder order = .ok (m', unfilled) ∧
      l'.spotClearinghouse.markets = [m'] := by
  cases handleCancelOrderTransaction_cases ht
  case inl hr =>
    have ⟨_, ⟨status, hrefused, ht'⟩, _⟩ := hr
    subst ht'
    cases hrefused
    case rejected hs => rw [hs] at hexec; contradiction
    case error hs    => rw [hs] at hexec; contradiction
  case inr hc =>
    have ⟨_, order, precision, c, cancelled, l₁, nonce, hopen, _, hcancel, hl₁, hbump, _⟩ := hc
    have hmem : order ∈ e.openOrders t.source := h.openOrders ▸ List.mem_of_find?_eq_some hopen
    have hoid : order.common.id = t.orderId := by simpa using List.find?_some hopen
    have ⟨_, hcore⟩ := homed.consistent.entry_eq hx hmem (hoid.trans hid.symm)
    have hmarket : order.common.marketId = 0 := (congrArg (·.common.marketId) hcore).trans (homed.market x hx)
    cases cancelOrder_cases hcancel
    case inl hd =>
      have ⟨_, hnone, _⟩ := hd
      rw [hmarket, h.markets] at hnone
      contradiction
    case inr hs =>
      have ⟨htrue, m, m', unfilled, hm, hm', hcancelled, _⟩ := hs
      have ⟨hzero, hmarket⟩ := h.market_eq hm
      subst htrue hmarket
      refine ⟨order, m', unfilled, hcore, hcancelled, ?_⟩
      have ⟨pre, post, _, _, hl₁⟩ := hl₁
      have ⟨_, _, hl'⟩ := bumpNonce_cases hbump
      rw [hl', hl₁]
      show c.markets = [m']
      rw [hm', hzero, h.markets]
      rfl

-- In every reachable state, a cancellation of a live order leaves all others alone just if it does not drop a
-- level in which there are any: when the volume says that the order was the last one.
theorem cancelsOnly_iff {faucet : PublicKeyHash} {m : SpotMarket} {d : OrderDirection} {level : Level}
    (hl : l.Reachable faucet) (hm : m ∈ l.spotClearinghouse.markets) (hlevel : level ∈ m.side d)
    (hx : x ∈ level.orders) (live : x.IsLive) (hid : x.common.id = t.orderId)
    (ht : l.handleCancelOrderTransaction t = .ok (l', t', n)) (hexec : t'.status = .executed) :
    (∀ m' ∈ l'.spotClearinghouse.markets, CancelsOnly x.common.id m m') ↔
      level.volume ≠ x.unfilled ∨ liveOrders level.orders = [x] := by
  have ⟨e, shows, homed⟩ := hl.invariant Exchange.Homed.new Exchange.Homed.step
  rw [shows.markets, List.mem_singleton] at hm
  subst hm
  have hlive : x ∈ liveOrders e.market.orders := mem_liveOrders.mpr ⟨mem_orders.mpr ⟨d, level, hlevel, hx⟩, live⟩
  have ⟨order, m', unfilled, hcore, hc, hmarkets⟩ := shows.cancel_live homed hlive hid ht hexec
  have ⟨hoid, _, hdir, hprice, hbase, hfilled, _⟩ := LimitOrder.eq_of_core hcore
  have hunfilled : order.unfilled = x.unfilled := by rw [LimitOrder.unfilled, hbase, hfilled, LimitOrder.unfilled]
  rw [hmarkets]
  simp only [List.mem_singleton, forall_eq]
  exact cancelOrder_only_iff homed.consistent.sound hlevel hx live hoid hprice hdir hunfilled hc

-- Account 7 cancels the only ask at 30.
def cancelsLast : CancelOrderTransaction where
  source := 7
  marketId := 0
  orderId := 1
  status := .pending
  nonce := 4

theorem threePrices_cancelsOnly : ∃ (l : LedgerState) (m : SpotMarket) (l' : LedgerState)
    (t' : CancelOrderTransaction) (n : Option (PublicKeyHash × Nat)),
    l.Reachable 1 ∧ l.spotClearinghouse.markets = [m] ∧
    l.handleCancelOrderTransaction cancelsLast = .ok (l', t', n) ∧ t'.status = .executed ∧
    ∀ m' ∈ l'.spotClearinghouse.markets, CancelsOnly 1 m m' := by
  have reachable := Reachable.of_apply (rfl : (LedgerState.new 1).apply threePrices = .ok _)
  refine ⟨_, _, _, _, _, reachable, rfl, rfl, rfl, ?_⟩
  exact (cancelsOnly_iff (d := .sell) (x := .place 1 7 .sell 30 5) (t := cancelsLast) reachable
    (List.mem_singleton_self _)
    List.mem_cons_self List.mem_cons_self (by decide) rfl rfl rfl).mpr (.inr (by decide))

-- Account 7 has taken two of its own lots. What the level has left then, 8 lots of account 7 and 2 of account 8,
-- is what the order of account 7 says of itself alone.
def sharedLevel : List SignedTransaction := [
  .transfer 1 7 0 5000 0,
  .transfer 1 7 1 5000 1,
  .transfer 1 8 0 5000 2,
  .limit 7 .sell 10 10 0,
  .limit 8 .sell 10 2 0,
  .market 7 .buy 2 1
]

def cancelsFirst : CancelOrderTransaction where
  source := 7
  marketId := 0
  orderId := 0
  status := .pending
  nonce := 2

theorem sharedLevel_not_cancelsOnly : ∃ (l : LedgerState) (m : SpotMarket) (level : Level) (x : LimitOrder)
    (l' : LedgerState) (t' : CancelOrderTransaction) (n : Option (PublicKeyHash × Nat)) (m' : SpotMarket),
    l.Reachable 1 ∧ l.spotClearinghouse.markets = [m] ∧
    m.asksLevels = [level] ∧ x ∈ level.orders ∧ x.IsLive ∧ x.common.id = 0 ∧
    l.handleCancelOrderTransaction cancelsFirst = .ok (l', t', n) ∧ t'.status = .executed ∧
    l'.spotClearinghouse.markets = [m'] ∧ (liveEntries m.asksLevels).length = 2 ∧ liveEntries m'.asksLevels = [] ∧
    ¬CancelsOnly 0 m m' := by
  have reachable := Reachable.of_apply (rfl : (LedgerState.new 1).apply sharedLevel = .ok _)
  refine ⟨_, _, _, _, _, _, _, _, reachable, rfl, rfl, List.mem_cons_self, by decide, rfl, rfl, rfl, rfl, rfl, rfl, ?_⟩
  intro h
  exact absurd (h.others .sell) (by decide)

end Ledger
end Superliquid

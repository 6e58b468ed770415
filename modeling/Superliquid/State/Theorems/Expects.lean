import Superliquid.State.Theorems.Coverage
import Superliquid.State.Theorems.Panics

namespace Superliquid

open Checked SpotMarket SpotClearingHouse

namespace LedgerState

variable {l l' : LedgerState} {k : PublicKeyHash} {t : OrderTransaction} {order : Order}

theorem createOrder_notExpect : PanicsOnly NotExpect (l.createOrder t) := by
  unfold createOrder
  split <;> simp [OrderStateManager.newLimitOrder, OrderStateManager.newMarketOrder]

theorem bumpNonce_notExpect : PanicsOnly NotExpect (l.bumpNonce k) := by
  simp [bumpNonce]

theorem updateAccount_notExpect {f : AccountInfo → Checked AccountInfo} :
    PanicsOnly NotExpect (l.updateAccount k f) ↔ PanicsOnly NotExpect (f (l.getAccountInfoOrDefault k)) := by
  simp [updateAccount]

theorem recordFilledOrders_notExpect {filled : List LimitOrder} :
    PanicsOnly NotExpect (l.recordFilledOrders filled) := by
  refine panicsOnly_foldlM (fun l o => updateAccount_notExpect.mpr ?_) _ _
  unfold recordFilledOrder
  split <;> simp

theorem recordUserOrder_notExpect {change : Option OrderChange}
    (h : ∀ {id lots price}, change = some (.limit id lots price) → ∃ x ∈ l.openOrders k, x.common.id = id) :
    PanicsOnly NotExpect (l.recordUserOrder k order change) := by
  unfold recordUserOrder
  cases change
  case none => simp
  case some change =>
    rw [updateAccount_notExpect]
    cases change
    case market =>
      cases order
      case limit    => simp [recordOrderChange]
      case market o => cases o <;> simp [recordOrderChange]
    case limit => simpa [recordOrderChange, openOrders] using h rfl

theorem recordResidual_notExpect {r : Option ResidualOrder}
    (h : ∀ {res}, r = some res → ∃ x ∈ l.openOrders res.accountPublicKey, x.common.id = res.orderId) :
    PanicsOnly NotExpect (l.recordResidual r) := by
  unfold recordResidual
  cases r
  case none => simp
  case some r =>
    rw [updateAccount_notExpect]
    simpa [recordResidualOrder, openOrders] using h rfl

-- The results of a match name open orders only.
theorem recordResults_notExpect {m : SpotMarket} {n : Nat} {precision : MarketPrecision} {r : ExecutionResults}
    (hs : m.Sound n) (hentered : Entered n order k l) (hc : ∀ o ∈ liveOrders m.orders, Covered l.openOrders o)
    (hfilled : r.filledOrders = (m.sweep precision order).drained)
    (hresidual : r.residualOrder = (m.sweep precision order).residual)
    (hchange : ∃ change, r.userOrderChange = some change ∧ change.Reports order (m.sweep precision order).fills) :
    PanicsOnly NotExpect (l.recordResults k order (some r)) := by
  obtain ⟨change, hch, hreports⟩ := hchange
  have hid {id lots price} (he : r.userOrderChange = some (.limit id lots price)) :
      id = n ∧ ∃ o, order = .limit o ∧ o.common.id = id ∧ lots = sumLots (m.sweep precision order).fills := by
    cases hch.symm.trans he
    exact hentered.reported hreports
  simp only [recordResults, panicsOnly_bind]
  refine ⟨recordUserOrder_notExpect fun he => ?_, fun l₁ h₁ => ⟨recordFilledOrders_notExpect, fun l₂ h₂ => ?_⟩⟩
  · obtain ⟨_, o, ho, hoid, _⟩ := hid he
    exact ⟨o, hentered.entered o ho, hoid⟩
  · refine recordResidual_notExpect fun hr => ?_
    rw [hfilled] at h₂
    obtain ⟨f, hparts, hres⟩ := (m.taken precision order).residual_some (hresidual ▸ hr)
    have hf : f ∈ parts (m.sweep precision order).fills := hparts ▸ List.mem_singleton_self f
    obtain ⟨x, hx, hcore⟩ := Covered.before_residual hs hc h₁ (fun he => (hid he).1) h₂ hf
    rw [hres]
    exact ⟨x, hx, (LimitOrder.eq_of_core hcore).1⟩

theorem handleOrderTransaction_notExpect {e : Exchange} (hshows : l.Shows e) (h : e.Consistent) :
    PanicsOnly NotExpect (l.handleOrderTransaction t) := by
  simp only [handleOrderTransaction, panicsOnly_ite, panicsOnly_pure, implies_true, true_and]
  intro _ _ _
  refine panicsOnly_bind.mpr ⟨createOrder_notExpect, ?_⟩
  rintro ⟨l₁, order⟩ hcreate
  obtain ⟨h₁, ho⟩ := (hshows.touch t.source).createOrder hcreate
  subst ho
  dsimp only
  split
  case h_1 => simp
  case h_2 precision hprecision =>
    obtain ⟨_, hp⟩ := h₁.marketPrecision hprecision
    subst hp
    refine panicsOnly_bind.mpr ⟨handleOrder_panics (fun _ => notExpect_divisionByZero)
      fun _ _ => .of_divisionByZero notExpect_divisionByZero _, ?_⟩
    rintro ⟨c, r⟩ hhandle
    refine panicsOnly_bind.mpr ⟨?_, fun _ _ => by simp [bumpNonce_notExpect]⟩
    cases handleOrder_cases hhandle
    case inl hd => simp [hd.1, recordResults]
    case inr hs =>
      obtain ⟨m, m', results, hm, _, hr, hcase⟩ := hs
      obtain ⟨_, hmarket⟩ := h₁.market_eq hm
      subst hr hmarket
      cases hcase
      case inl hrest =>
        obtain ⟨_, _, rested⟩ := hrest
        simp [rested.results, recordResults, recordUserOrder, recordFilledOrders, recordResidual]
      case inr matched =>
        refine recordResults_notExpect h.sound (.enter h₁.openOrders) (fun o ho => ?_)
          matched.filled matched.residual matched.change
        exact (h₁.openOrders : _ = (e.enter t).openOrders) ▸ Exchange.Consistent.covered_enter (h.covered o ho)

end LedgerState

open LedgerState

-- Every live order has one entry in the open orders of its owner, and the entry says the same.
def LedgerState.Covers (l : LedgerState) : Prop :=
  ∀ m ∈ l.spotClearinghouse.markets, ∀ o ∈ m.orders, o.IsLive →
    ∃ x, (l.openOrders o.common.account).filter (·.common.id = o.common.id) = [x] ∧
      x.priceMultiple = o.priceMultiple ∧ x.common.direction = o.common.direction ∧ x.baseLots = o.baseLots ∧
      x.filledBaseLots = o.filledBaseLots ∧ x.selfFilled = o.selfFilled

theorem filter_id_eq {xs : List LimitOrder} {x : LimitOrder} (h : (orderIds xs).Nodup) (hx : x ∈ xs) :
    xs.filter (·.common.id = x.common.id) = [x] := by
  obtain ⟨pre, post, he⟩ := List.append_of_mem hx
  subst he
  rw [orderIds, List.map_append, List.map_cons, List.nodup_middle, List.nodup_cons] at h
  have hne : ∀ y ∈ pre ++ post, y.common.id ≠ x.common.id := by
    intro y hy he
    exact h.1 (he ▸ List.map_append ▸ List.mem_map_of_mem hy)
  obtain ⟨hpre, hpost⟩ := List.forall_mem_append.mp hne
  rw [List.filter_append, List.filter_cons_of_pos (by simp), List.filter_eq_nil_iff.mpr (by simpa using hpre),
    List.filter_eq_nil_iff.mpr (by simpa using hpost), List.nil_append]

theorem covers_of_reachable {faucet : PublicKeyHash} {l : LedgerState} (h : l.Reachable faucet) :
    l.Covers ∧ ∀ t, NoExpect (l.handleOrderTransaction t) := by
  have ⟨e, hshows, hcons⟩ := h.invariant Exchange.Consistent.new Exchange.Consistent.step
  refine ⟨fun m hm o ho live => ?_, fun t => noExpect_iff.mpr (handleOrderTransaction_notExpect hshows hcons)⟩
  rw [hshows.markets, List.mem_singleton] at hm
  subst hm
  have ⟨x, hx, hcore⟩ := hcons.covered o (mem_liveOrders.mpr ⟨ho, live⟩)
  have ⟨hid, _, hdir, hprice, hbase, hfilled, hself⟩ := LimitOrder.eq_of_core hcore
  refine ⟨x, ?_, hprice, hdir, hbase, hfilled, hself⟩
  rw [hshows.openOrders, ← hid]
  exact filter_id_eq (hcons.entries.nodup _) hx

-- Account 7 sells ten lots, of which account 8 takes three and account 7 itself takes two.
def selfFilled : List SignedTransaction := [
  .transfer 1 7 0 1000 0,
  .transfer 1 7 1 1000 1,
  .transfer 1 8 1 1000 2,
  .limit 7 .sell 10 10 0,
  .market 8 .buy 3 0,
  .market 7 .buy 2 1
]

theorem selfFilled_covers : ∃ l ts ns, (LedgerState.new 1).apply selfFilled = .ok (l, ts, ns) ∧
    (l.openOrders 7).map (fun x => (x.filledBaseLots, x.selfFilled)) = [(3, 2)] ∧ l.Covers := by
  refine ⟨_, _, _, rfl, rfl, ?_⟩
  exact (covers_of_reachable (.of_apply (rfl : (LedgerState.new 1).apply selfFilled = .ok _))).1

end Superliquid

import Superliquid.State.Theorems.Backing
import Superliquid.State.Theorems.Limits

namespace Superliquid

open SpotMarket LedgerState SpotClearingHouse

-- A part of a resting ask that was taken by one order: whose it is, the lots that were filled, and the quote lots that
-- are credited for it.
structure Piece where
  order    : Nat
  account  : PublicKeyHash
  filled   : Nat
  credited : Nat
  deriving DecidableEq

def LimitOrder.piece (p : MarketPrecision) (o : LimitOrder) : Piece where
  order := o.common.id
  account := o.maker.account
  filled := o.remaining
  credited := quoteLots p o.maker.price o.maker.lots

def ResidualOrder.piece (p : MarketPrecision) (r : ResidualOrder) : Piece where
  order := r.orderId
  account := r.maker.account
  filled := r.filledBaseLots
  credited := quoteLots p r.maker.price r.maker.lots

def ExecutionResults.pieces (p : MarketPrecision) (r : ExecutionResults) : List Piece :=
  (liveOrders r.filledOrders).map (LimitOrder.piece p) ++ r.residualOrder.toList.map (ResidualOrder.piece p)

-- The quote lots that an account is credited with for its pieces.
def creditedTo (k : PublicKeyHash) (ps : List Piece) : Nat :=
  ((ps.filter (·.account = k)).map Piece.credited).sum

theorem creditedTo_append (k : PublicKeyHash) (ps ps' : List Piece) :
    creditedTo k (ps ++ ps') = creditedTo k ps + creditedTo k ps' := by
  simp [creditedTo]

-- How a resting order fares in one match: it is left alone, or filled in part, or used up.
inductive Trades (p : MarketPrecision) : Option LimitOrder → Option LimitOrder → List Piece → Prop
  | rests : Trades p o o []
  | part {x : LimitOrder} {lots : Nat} : (lots < x.remaining) →
      Trades p (some x) (some { x with filledBaseLots := x.filledBaseLots + lots })
        [⟨x.common.id, x.common.account, lots, quoteLots p x.priceMultiple lots⟩]
  | whole {x : LimitOrder} :
      Trades p (some x) none
        [⟨x.common.id, x.common.account, x.remaining, quoteLots p x.priceMultiple x.unfilled⟩]

-- The same for any number of matches.
inductive Pays (p : MarketPrecision) : Option LimitOrder → Option LimitOrder → List Piece → Prop
  | done : Pays p o o []
  | trade {o o₁ o' : Option LimitOrder} {ps ps' : List Piece} :
      (Trades p o o₁ ps) → (Pays p o₁ o' ps') → Pays p o o' (ps ++ ps')

section Sums

variable {p : MarketPrecision} {o o' : Option LimitOrder} {x : LimitOrder} {ps : List Piece}

theorem Trades.common {c : CommonOrderFields} (h : Trades p o o' ps) (hc : ∀ x ∈ o, x.common = c) :
    (∀ x ∈ o', x.common = c) ∧ ∀ piece ∈ ps, piece.account = c.account := by
  cases h
  case rests => exact ⟨hc, by simp⟩
  case part  => exact ⟨by simpa using hc, by simp [← hc _ rfl]⟩
  case whole => exact ⟨by simp, by simp [← hc _ rfl]⟩

theorem Pays.account {c : CommonOrderFields} (h : Pays p o o' ps) (hc : ∀ x ∈ o, x.common = c) :
    ∀ piece ∈ ps, piece.account = c.account := by
  induction h
  case done => simp
  case trade ht _ hi =>
    have ⟨hc', hps⟩ := ht.common hc
    intro piece hpiece
    exact (List.mem_append.mp hpiece).elim (hps piece) (hi hc' piece)

theorem Pays.none_nil (h : Pays p o o' ps) (ho : o = none) : o' = none ∧ ps = [] := by
  induction h
  case done => exact ⟨ho, rfl⟩
  case trade ht _ hi =>
    subst ho
    cases ht
    exact hi rfl

-- The pieces make up what the order has lost.
theorem Pays.filled (h : Pays p o o' ps) :
    (ps.map Piece.filled).sum + (o'.toList.map LimitOrder.remaining).sum =
      (o.toList.map LimitOrder.remaining).sum := by
  induction h
  case done => simp
  case trade ht hps hi =>
    cases ht
    case rests => simpa using hi
    case whole =>
      have ⟨ho, hnil⟩ := hps.none_nil rfl
      subst ho hnil
      simp
    case part hlt =>
      simp only [LimitOrder.remaining, Option.toList_some, List.map_cons, List.map_nil, List.sum_cons, List.sum_nil,
        List.map_append, List.sum_append] at hi hlt ⊢
      omega

-- What the pieces are settled for. That is more than what was filled if the last piece includes lots that the
-- account has taken itself.
theorem Pays.settled (h : Pays p o o' ps) (hx : o = some x) : ∃ lots : List Nat,
    ps.map Piece.credited = lots.map (quoteLots p x.priceMultiple) ∧ (ps.map Piece.filled).sum ≤ lots.sum ∧
    lots.sum ≤ x.unfilled ∧ (x.selfFilled = 0 → ps.map Piece.filled = lots) := by
  induction h generalizing x
  case done => exact ⟨[], rfl, le_rfl, Nat.zero_le _, fun _ => rfl⟩
  case trade ht hps hi =>
    subst hx
    cases ht
    case rests => exact hi rfl
    case whole =>
      have ⟨ho, hnil⟩ := hps.none_nil rfl
      subst ho hnil
      refine ⟨[x.unfilled], rfl, ?_, by simp, fun hs => ?_⟩
      all_goals simp only [List.append_nil, List.map_cons, List.map_nil, LimitOrder.remaining, LimitOrder.unfilled]
      · simp
      · rw [hs, Nat.sub_zero]
    case part lots hlt =>
      obtain ⟨rest, hcredited, hfilled, hle, hself⟩ := hi rfl
      refine ⟨lots :: rest, by simp [hcredited], by simpa using hfilled, ?_, fun hs => by simp [hself hs]⟩
      simp only [LimitOrder.remaining, LimitOrder.unfilled, List.sum_cons] at hlt hle ⊢
      omega

-- Every piece but one can cost the maker a quote lot.
theorem Pays.quote_le (h : Pays .supeUsd (some x) o' ps) (hp : 0 < x.priceMultiple)
    (hx : x.selfFilled = 0 ∨ x.baseLots * x.priceMultiple < 10 * 2 ^ 64) {q : Nat}
    (hq : baseToQuoteLots (ps.map Piece.filled).sum x.priceMultiple .supeUsd = .ok q) :
    q ≤ (ps.map Piece.credited).sum + (ps.length - 1) := by
  have ⟨lots, hcredited, hfilled, hle, hsame⟩ := h.settled rfl
  have ⟨fits, hq⟩ := baseToQuoteLots_ok.mp hq
  have hlen : ps.length = lots.length := by simpa using congrArg List.length hcredited
  have hunfilled : x.unfilled ≤ x.baseLots := Nat.sub_le _ _
  have hsum : MarketPrecision.supeUsd.Fits x.priceMultiple lots.sum := by
    cases hx
    case inl hself  => exact hsame hself ▸ fits
    case inr hbound => exact (fits_supeUsd hp hbound).mono le_rfl (hle.trans hunfilled)
  have hquote (n : Nat) (hn : n ∈ lots) : quoteLots .supeUsd x.priceMultiple n = n * x.priceMultiple / 10 % 2 ^ 64 := by
    have hfits := hsum.mono le_rfl (List.single_le_sum (by simp) _ hn)
    rw [quoteLots_of_ok (baseToQuoteLots_ok.mpr ⟨hfits, rfl⟩), exactQuoteLots_supeUsd]
  have hpieces : (lots.map fun n => n * x.priceMultiple).sum = lots.sum * x.priceMultiple := by
    rw [List.sum_map_mul_right, List.map_id']
  rw [hq, exactQuoteLots_supeUsd, hcredited, List.map_congr_left hquote, hlen]
  refine le_trans ?_ (Floor.mod_sum_le 10 (2 ^ 64) (fun n => n * x.priceMultiple) lots)
  rw [hpieces]
  cases hx
  case inl hself => rw [hsame hself]
  case inr hbound =>
    have hlots := Nat.mul_le_mul_right x.priceMultiple (hle.trans hunfilled)
    rw [Nat.mod_eq_of_lt (by omega : lots.sum * x.priceMultiple / 10 < 2 ^ 64)]
    exact (Nat.mod_le _ _).trans (Nat.div_le_div_right (Nat.mul_le_mul_right _ hfilled))

end Sums

-- The live orders with an id.
def liveWith (id : Nat) (orders : List LimitOrder) : List LimitOrder :=
  (liveOrders orders).filter (·.common.id = id)

section Match

variable {m m' : SpotMarket} {order : Order} {accounts accounts' : Accounts} {r : ExecutionResults} {id n : Nat}
         {o : Option LimitOrder}

theorem addOrder_liveWith {x : LimitOrder} (hx : x.common.id ≠ id) (h : m.addOrder x = .ok m')
    (ho : liveWith id m.orders = o.toList) : liveWith id m'.orders = o.toList := by
  have hskip : liveWith id (x :: m.orders) = liveWith id m.orders := by
    by_cases live : x.IsLive
    case neg => rw [liveWith, liveOrders_skip live, liveWith]
    case pos => rw [liveWith, liveOrders_cons live, List.filter_cons_of_neg (by simpa using hx), liveWith]
  have hperm : (liveWith id m'.orders).Perm o.toList := by
    rw [← ho, ← hskip]
    exact (liveOrders_perm (addOrder_orders h)).filter _
  cases o
  case none   => exact hperm.eq_nil
  case some x => exact List.perm_singleton.mp hperm

theorem filter_after (own : LimitOrder → Bool) (id : Nat) (fills : List Fill) :
    (fills.map (Fill.after own)).filter (·.common.id = id) =
      (fills.filter (·.order.common.id = id)).map (Fill.after own) := by
  rw [List.filter_map]
  congr 2
  funext f
  simp [Fill.after_common]

-- What a match pays for an order depends on the fills that it has part in.
theorem Matched.pieces_eq (h : Matched m .supeUsd order accounts m' accounts' r) (id : Nat) :
    let fills := (m.sweep .supeUsd order).fills.filter (·.order.common.id = id)
    (r.pieces .supeUsd).filter (·.order = id) = (wholes fills).map (fun f => (f.after order.own).piece .supeUsd) ++
      (parts fills).map (fun f => (f.residual order.own).piece .supeUsd) := by
  have taken := m.taken .supeUsd order
  rw [ExecutionResults.pieces, h.filled, h.residual, taken.used, taken.rested, List.filter_append, List.map_map,
    List.map_map, List.filter_map, List.filter_map]
  simp only [wholes, parts]
  rw [List.filter_comm, List.filter_comm (fun f : Fill => decide ¬f.Whole)]
  congr 4
  funext f
  simp [LimitOrder.piece, Fill.after_common]

-- The live orders with an id, before and after a match.
theorem Matched.liveWith_eq (h : Matched m .supeUsd order accounts m' accounts' r)
    (hid : ∀ o, order = .limit o → o.common.id ≠ id) : ∃ rest,
    let fills := (m.sweep .supeUsd order).fills.filter (·.order.common.id = id)
    (liveWith id m.orders).Perm (fills.map Fill.order ++ rest) ∧
    (liveWith id m'.orders).Perm ((parts fills).map (Fill.after order.own) ++ rest) := by
  have ⟨rest, hbefore, hafter⟩ := m.sweep_live .supeUsd order
  have hleft : (liveOrders (m.leftover .supeUsd order)).filter (·.common.id = id) = [] := by
    cases order
    case market  => rfl
    case limit o =>
      refine List.filter_eq_nil_iff.mpr fun x hx => ?_
      have hmem := (mem_liveOrders.mp hx).1
      simp only [leftover, List.mem_ite_nil_right, List.mem_singleton] at hmem
      simpa [hmem.2, leaves] using hid o rfl
  refine ⟨rest.filter (·.common.id = id), ?_, ?_⟩
  · refine (hbefore.filter _).trans (.of_eq ?_)
    rw [List.filter_append, List.filter_map]
    rfl
  · refine ((liveOrders_perm h.market.orders).filter _).trans ?_
    rw [liveOrders_append, List.filter_append, hleft, List.nil_append]
    refine (hafter.filter _).trans (.of_eq ?_)
    rw [List.filter_append, filter_after, parts, List.filter_comm]
    rfl

theorem Matched.trades (h : Matched m .supeUsd order accounts m' accounts' r) (sound : m.Sound n)
    (hid : ∀ o, order = .limit o → o.common.id ≠ id) (ho : liveWith id m.orders = o.toList)
    (hown : ∀ x ∈ o, order.own x = false) :
    ∃ o', liveWith id m'.orders = o'.toList ∧ Trades .supeUsd o o' ((r.pieces .supeUsd).filter (·.order = id)) := by
  have ⟨rest, hbefore, hafter⟩ := h.liveWith_eq hid
  have hpieces := h.pieces_eq id
  have hprice (f : Fill) (hf : f ∈ (m.sweep .supeUsd order).fills.filter (·.order.common.id = id)) :
      f.order.priceMultiple = f.price := (fill_terms sound (List.mem_filter.mp hf).1).2.1
  rw [ho] at hbefore
  generalize (m.sweep .supeUsd order).fills.filter (·.order.common.id = id) = fills at hbefore hafter hpieces hprice
  cases o
  case none =>
    have ⟨hfills, hrest⟩ := List.append_eq_nil_iff.mp hbefore.nil_eq.symm
    have hnil := List.map_eq_nil_iff.mp hfills
    subst hnil hrest
    exact ⟨none, hafter.eq_nil, hpieces ▸ .rests⟩
  case some x =>
    rcases List.append_eq_singleton_iff.mp (List.singleton_perm.mp hbefore).symm with ⟨hfills, hrest⟩ | ⟨hfills, hrest⟩
    · have hnil := List.map_eq_nil_iff.mp hfills
      subst hnil hrest
      exact ⟨some x, List.perm_singleton.mp hafter, hpieces ▸ .rests⟩
    · have ⟨f, hf, hx⟩ := List.map_eq_singleton_iff.mp hfills
      subst hf hrest hx
      have hown := hown f.order rfl
      by_cases hw : f.Whole
      case pos =>
        refine ⟨none, ?_, ?_⟩
        · simpa [parts, hw] using hafter
        · have hpiece : (r.pieces .supeUsd).filter (·.order = id) =
              [f.order.piece .supeUsd] := by
            simpa [wholes, parts, hw, Fill.after_whole hown hw] using hpieces
          rw [hpiece]
          exact .whole
      case neg =>
        have hlt : f.lots < f.order.remaining := Nat.lt_of_not_le hw
        refine ⟨some (f.after order.own), ?_, ?_⟩
        · simpa [parts, hw] using hafter
        · have hpiece : (r.pieces .supeUsd).filter (·.order = id) =
              [(f.residual order.own).piece .supeUsd] := by
            simpa [wholes, parts, hw] using hpieces
          have hresidual : (f.residual order.own).piece .supeUsd =
              ⟨f.order.common.id, f.order.common.account, f.lots,
                quoteLots .supeUsd f.order.priceMultiple f.lots⟩ := by
            simp [ResidualOrder.piece, ResidualOrder.maker, Fill.residual, hown, hprice f (List.mem_singleton_self f)]
          rw [hpiece, hresidual, Fill.after_part hown hlt]
          exact .part hlt

-- An order that sells meets no asks.
theorem Matched.pieces_nil (h : Matched m .supeUsd order accounts m' accounts' r) (sound : m.Sound n)
    (hsell : order.direction = .sell) (hask : ∀ x ∈ liveWith id m.orders, x.common.direction = .sell) :
    (r.pieces .supeUsd).filter (·.order = id) = [] := by
  have hnone : (m.sweep .supeUsd order).fills.filter (·.order.common.id = id) = [] := by
    refine List.filter_eq_nil_iff.mpr fun f hf hid => ?_
    have ⟨hd, _, hmem⟩ := fill_terms sound hf
    have hd' := hask f.order (List.mem_filter.mpr ⟨hmem, hid⟩)
    rw [hd, hsell] at hd'
    contradiction
  rw [h.pieces_eq id, hnone]
  rfl

theorem creditedTo_pieces {p : MarketPrecision} {own : LimitOrder → Bool} {fills : List Fill}
    (hm : makers r.filledOrders r.residualOrder = fills.map (Fill.maker own)) (k : PublicKeyHash) :
    creditedTo k (r.pieces p) * p.quoteLotSize = (fills.map (Fill.paid own p .buy k)).sum := by
  have hpieces : (r.pieces p).map (fun x => (x.account, x.credited)) =
      fills.map fun f => (f.order.common.account, quoteLots p f.price (f.settled own)) := by
    calc (r.pieces p).map (fun x => (x.account, x.credited))
      _ = (makers r.filledOrders r.residualOrder).map fun x => (x.account, quoteLots p x.price x.lots) := by
        simp only [ExecutionResults.pieces, makers, List.map_append, List.map_map]
        rfl
      _ = _ := by
        rw [hm, List.map_map]
        rfl
  have hcredited (ps : List Piece) : creditedTo k ps * p.quoteLotSize =
      ((ps.map fun x => (x.account, x.credited)).map fun x => if x.1 = k then x.2 * p.quoteLotSize else 0).sum := by
    induction ps
    case nil => simp [creditedTo]
    case cons x ps hi =>
      simp only [List.map_cons, List.sum_cons, ← hi, creditedTo, List.filter_cons]
      by_cases hk : x.account = k
      · simp [hk, Nat.add_mul]
      · simp [hk]
  rw [hcredited, hpieces, List.map_map]
  rfl

-- An account other than that of the order is credited for its pieces, and with nothing else.
theorem Matched.credited {k : PublicKeyHash} (h : Matched m .supeUsd order accounts m' accounts' r)
    (listed : m.Listed) (sound : m.Sound n) (hk : k ≠ order.getAccount) :
    (accounts'.balance k 1).availableBalance = (accounts.balance k 1).availableBalance +
      if order.direction = .buy then creditedTo k (r.pieces .supeUsd) * MarketPrecision.supeUsd.quoteLotSize
      else 0 := by
  have havailable := (h.settled (sound.priced _)).available k hk 1
  rw [listed.baseAsset, listed.quoteAsset] at havailable
  cases hd : order.direction
  case sell => simpa [hd, payAsset] using havailable
  case buy =>
    have hm : makers r.filledOrders r.residualOrder = (m.sweep .supeUsd order).fills.map (Fill.maker order.own) := by
      rw [h.filled, h.residual]
      exact SpotMarket.sweep_makers (sound.priced _)
    rw [hd, payAsset, if_pos rfl] at havailable
    rw [if_pos rfl, creditedTo_pieces hm]
    exact_mod_cast havailable

end Match

namespace LedgerState

-- The pieces of resting asks that an order transaction takes, if it gets as far as the clearinghouse.
def orderPieces (l : LedgerState) (t : OrderTransaction) : List Piece :=
  match t.direction, l.marketPrecision t.marketId, l.orderResults t with
  | .buy, .ok precision, some r => r.pieces precision
  | _, _, _                     => []

-- Those of all orders of a run.
def pieces (l : LedgerState) : List SignedTransaction → List Piece
  | []      => []
  | t :: ts =>
    let first :=
      match t.tx with
      | .order t => l.orderPieces t
      | _        => []
    match l.next t with
    | .ok l    => first ++ l.pieces ts
    | .error _ => first

variable {l l' : LedgerState} {e e' : Exchange} {t t' : OrderTransaction} {n : Option (PublicKeyHash × Nat)}
         {o : Option LimitOrder} {c : CommonOrderFields} {k : PublicKeyHash} {ts ts' : List SignedTransaction}
         {ns : List (Option (PublicKeyHash × Nat))}

theorem toOrder_own {x : LimitOrder} {i : Nat} (h : x.common.account ≠ t.source) : (t.toOrder i).own x = false := by
  unfold OrderTransaction.toOrder
  cases t.orderType
  case limit  => rfl
  case market => cases t.direction <;> simpa [Order.own, ofAccount] using h

theorem toOrder_direction {i : Nat} : (t.toOrder i).direction = t.direction := by
  unfold OrderTransaction.toOrder
  cases t.orderType
  case limit  => rfl
  case market => cases t.direction <;> rfl

theorem Shows.orderPieces_eq (h : l.Shows e) (t : OrderTransaction) : l.orderPieces t =
    if t.direction = .buy then (l.orderResults t).elim [] (ExecutionResults.pieces .supeUsd) else [] := by
  unfold LedgerState.orderPieces
  cases t.direction
  case sell => rfl
  case buy =>
    cases hp : l.marketPrecision t.marketId
    case error =>
      have hnone : l.orderResults t = none := by
        simp only [orderResults, hp, ite_self]
      rw [hnone]
      rfl
    case ok precision =>
      have hsupe := (h.marketPrecision hp).2
      subst hsupe
      cases l.orderResults t <;> rfl

-- What one order takes of a resting ask.
theorem Shows.trades (h : l.Shows e) (sound : e.Sound) (hid : c.id < e.nextId) (hask : c.direction = .sell)
    (ho : liveWith c.id e.market.orders = o.toList) (hc : ∀ x ∈ o, x.common = c) (hacc : c.account ≠ t.source)
    (ht : l.handleOrderTransaction t = .ok (l', t', n)) (h' : l'.Shows e') : ∃ o',
      liveWith c.id e'.market.orders = o'.toList ∧
      Trades .supeUsd o o' ((l.orderPieces t).filter (·.order = c.id)) := by
  have hmarket {e₁ : Exchange} (h₁ : l'.Shows e₁) : e'.market = e₁.market := by
    rw [h'.unique h₁]
  have hne (x : LimitOrder) (hx : t.toOrder e.nextId = .limit x) : x.common.id ≠ c.id := by
    rw [OrderTransaction.toOrder_id hx]
    omega
  rw [h.orderPieces_eq t]
  cases h.ordered ht
  case rejected hresults hl =>
    rw [hresults, hmarket (hl ▸ h.touch t.source)]
    exact ⟨o, ho, by simpa using .rests⟩
  case declined _ hresults _ _ _ h₁ =>
    rw [hresults, hmarket h₁]
    exact ⟨o, ho, by simpa using .rests⟩
  case rested x _ _ _ hresults _ _ _ _ hx rested h₁ =>
    rw [hresults, rested.results, hmarket h₁]
    exact ⟨o, addOrder_liveWith (hne x hx) rested.market ho,
      by simpa [ExecutionResults.pieces, liveOrders] using .rests⟩
  case matched r hresults _ _ _ _ _ matched h₁ =>
    obtain ⟨o', ho', trades⟩ := matched.trades sound hne ho fun x hx => toOrder_own (hc x hx ▸ hacc)
    rw [hresults, hmarket h₁]
    refine ⟨o', ho', ?_⟩
    cases hd : t.direction
    case buy  => exact trades
    case sell =>
      have hasks (x : LimitOrder) (hx : x ∈ liveWith c.id e.market.orders) : x.common.direction = .sell := by
        rw [ho] at hx
        rw [hc x (Option.mem_toList.mp hx), hask]
      rw [matched.pieces_nil sound (toOrder_direction.trans hd) hasks] at trades
      exact trades

-- What one order pays to an account other than its own.
theorem Shows.credited (h : l.Shows e) (sound : e.Sound) (hk : k ≠ t.source)
    (ht : l.handleOrderTransaction t = .ok (l', t', n)) (h' : l'.Shows e') :
    (e'.accounts.balance k 1).availableBalance = (e.accounts.balance k 1).availableBalance +
      creditedTo k (l.orderPieces t) * MarketPrecision.supeUsd.quoteLotSize := by
  have haccounts {e₁ : Exchange} (h₁ : l'.Shows e₁) : e'.accounts = e₁.accounts := by
    rw [h'.unique h₁]
  have hsource : k ≠ (t.toOrder e.nextId).getAccount := t.toOrder_account ▸ hk
  rw [h.orderPieces_eq t]
  cases h.ordered ht
  case rejected hresults hl =>
    rw [hresults, haccounts (hl ▸ h.touch t.source)]
    simp [creditedTo]
  case declined _ hresults _ _ same h₁ =>
    rw [hresults, haccounts h₁]
    simp [creditedTo, same k 1]
  case rested x _ _ _ hresults _ _ _ _ hx rested h₁ =>
    rw [hx] at hsource
    rw [hresults, rested.results, haccounts h₁]
    simp [creditedTo, ExecutionResults.pieces, liveOrders, rested.others k hsource 1]
  case matched r hresults _ _ _ _ _ matched h₁ =>
    rw [hresults, haccounts h₁]
    refine (matched.credited h.listed sound hsource).trans ?_
    rw [toOrder_direction]
    split <;> simp [creditedTo]

theorem Step.nextId_le {tx : UnsignedTransaction} (h : e.Step tx e') : e.nextId ≤ e'.nextId := by
  cases h
  all_goals simp [Exchange.enter]

-- An order of another account is one step of the exchange.
theorem Shows.next {t : SignedTransaction} (h : l.Shows e) (sound : e.Sound)
    (ht : ∃ t', t.tx = .order t' ∧ t'.source ≠ k) (hrun : l.apply (t :: ts) = .ok (l', ts', ns)) :
    ∃ l₁ e₁ t₁ t₂ n₁ ts₁ ns₁, t.tx = .order t₁ ∧ t₁.source ≠ k ∧ l₁.Shows e₁ ∧ e₁.Sound ∧ e.nextId ≤ e₁.nextId ∧
      l.handleOrderTransaction t₁ = .ok (l₁, t₂, n₁) ∧ l₁.apply ts = .ok (l', ts₁, ns₁) ∧
      l.pieces (t :: ts) = l.orderPieces t₁ ++ l₁.pieces ts := by
  obtain ⟨t₁, htx, hk⟩ := ht
  obtain ⟨l₁, t', n, ts₁, ns₁, ht, hrun, _⟩ := apply_cons hrun
  have hnext := next_ok.mpr ⟨t', n, ht⟩
  obtain ⟨e₁, hstep, h₁⟩ := h.step ht
  simp only [applyTransaction, htx, Checked.bind_ok, Checked.pure_ok, Prod.exists, Prod.mk.injEq] at ht
  obtain ⟨_, t₂, n₁, horder, hl₁, _⟩ := ht
  subst hl₁
  exact ⟨_, e₁, t₁, t₂, n₁, ts₁, ns₁, htx, hk, h₁, .step hstep sound, Step.nextId_le hstep, horder, hrun, by
    simp only [pieces, htx, hnext]⟩

-- However many orders it takes, a resting ask is paid piece by piece.
theorem Shows.pays (h : l.Shows e) (sound : e.Sound) (hid : c.id < e.nextId) (hask : c.direction = .sell)
    (ho : liveWith c.id e.market.orders = o.toList) (hc : ∀ x ∈ o, x.common = c)
    (hts : ∀ t ∈ ts, ∃ t', t.tx = .order t' ∧ t'.source ≠ c.account) (hrun : l.apply ts = .ok (l', ts', ns))
    (h' : l'.Shows e') : ∃ o',
      liveWith c.id e'.market.orders = o'.toList ∧ Pays .supeUsd o o' ((l.pieces ts).filter (·.order = c.id)) := by
  induction ts generalizing l e o ts' ns
  case nil =>
    cases hrun
    exact ⟨o, h'.unique h ▸ ho, .done⟩
  case cons t ts hi =>
    obtain ⟨ht, hts⟩ := List.forall_mem_cons.mp hts
    obtain ⟨l₁, e₁, t₁, t₂, n₁, ts₁, ns₁, htx, hk, h₁, sound₁, hle, horder, hrun, hpieces⟩ := h.next sound ht hrun
    obtain ⟨o₁, ho₁, trades⟩ := h.trades sound hid hask ho hc hk.symm horder h₁
    obtain ⟨o', ho', pays⟩ := hi h₁ sound₁ (hid.trans_le hle) ho₁ (trades.common hc).1 hts hrun
    rw [hpieces, List.filter_append]
    exact ⟨o', ho', .trade trades pays⟩

-- The balance of an account changes by what it is credited with for the pieces of its asks.
theorem Shows.balance (h : l.Shows e) (sound : e.Sound) (hts : ∀ t ∈ ts, ∃ t', t.tx = .order t' ∧ t'.source ≠ k)
    (hrun : l.apply ts = .ok (l', ts', ns)) (h' : l'.Shows e') :
    (e'.accounts.balance k 1).availableBalance = (e.accounts.balance k 1).availableBalance +
      creditedTo k (l.pieces ts) * MarketPrecision.supeUsd.quoteLotSize := by
  induction ts generalizing l e ts' ns
  case nil =>
    cases hrun
    simp [h'.unique h, creditedTo, pieces]
  case cons t ts hi =>
    obtain ⟨ht, hts⟩ := List.forall_mem_cons.mp hts
    obtain ⟨l₁, e₁, t₁, t₂, n₁, ts₁, ns₁, htx, hk, h₁, sound₁, _, horder, hrun, hpieces⟩ := h.next sound ht hrun
    rw [hi h₁ sound₁ hts hrun, h.credited sound hk.symm horder h₁, hpieces,
      creditedTo_append, Nat.add_mul, Nat.add_assoc]

end LedgerState

-- Splitting a trade costs the maker less than a quote lot for every piece but one. The counters of an ask that its own
-- account has taken from say more than what is left; where they do not lose bits, that is to the good of the maker.
theorem maker_short_by {faucet : PublicKeyHash} {l l' : LedgerState} {m m' : SpotMarket} {level : Level}
    {x : LimitOrder} {i : MarketId} {p : MarketPrecision} {ts ts' : List SignedTransaction}
    {ns : List (Option (PublicKeyHash × Nat))} {q : Nat} (hl : l.Reachable faucet)
    (hm : m ∈ l.spotClearinghouse.markets) (hprec : l.marketPrecision i = .ok p) (hlevel : level ∈ m.asksLevels)
    (hx : x ∈ level.orders) (live : x.IsLive) (hp : 0 < x.priceMultiple)
    (hself : x.selfFilled = 0 ∨ x.baseLots * x.priceMultiple < 10 * 2 ^ 64) (hrun : l.apply ts = .ok (l', ts', ns))
    (hm' : m' ∈ l'.spotClearinghouse.markets)
    (hts : ∀ t ∈ ts, ∃ t', t.tx = .order t' ∧ t'.source ≠ x.common.account)
    (hq : let pieces := (l.pieces ts).filter (·.order = x.common.id)
      baseToQuoteLots (pieces.map Piece.filled).sum x.priceMultiple p = .ok q) :
    let pieces := (l.pieces ts).filter (·.order = x.common.id)
    (pieces.map Piece.filled).sum + ((liveWith x.common.id m'.orders).map LimitOrder.remaining).sum = x.remaining ∧
    (∀ piece ∈ pieces, piece.account = x.common.account) ∧
    (l'.spotClearinghouse.accounts.balance x.common.account m.quoteAsset).availableBalance =
      (l.spotClearinghouse.accounts.balance x.common.account m.quoteAsset).availableBalance +
        creditedTo x.common.account (l.pieces ts) * p.quoteLotSize ∧
    q ≤ (pieces.map Piece.credited).sum + (pieces.length - 1) := by
  have ⟨e, shows, sound⟩ := hl.invariant Exchange.Sound.new Exchange.Sound.step
  have ⟨e', shows', _⟩ := shows.invariant sound hrun .trivial fun _ _ hs => Exchange.Sound.step hs
  rw [shows.markets, List.mem_singleton] at hm
  rw [shows'.markets, List.mem_singleton] at hm'
  have ⟨_, hp'⟩ := shows.marketPrecision hprec
  subst hm hm' hp'
  have hmem : x ∈ liveOrders e.market.orders :=
    mem_liveOrders.mpr ⟨mem_orders.mpr ⟨.sell, level, hlevel, hx⟩, live⟩
  have hlive : liveWith x.common.id e.market.orders = (some x).toList :=
    filter_id_eq (sound.nodup.sublist (List.filter_sublist.map _)) hmem
  have hask : x.common.direction = .sell := (sound.levels .sell level hlevel).direction x hx
  have hid := sound.fresh x (mem_liveOrders.mp hmem).1
  have ⟨o', ho', pays⟩ := shows.pays sound hid hask hlive (by simp) hts hrun shows'
  refine ⟨?_, pays.account (c := x.common) (by simp), ?_, pays.quote_le hp hself hq⟩
  · simpa [ho'] using pays.filled
  · rw [shows.accounts, shows'.accounts, shows.listed.quoteAsset]
    exact shows.balance sound hts hrun shows'

-- An ask for two lots at a quote lot and a half each, and two buyers of a lot.
def twoLotsAsk : List SignedTransaction := [
  .transfer 1 7 0 5000 0,
  .transfer 1 8 1 5000 1,
  .limit 7 .sell 15 2 0
]

def twoBuys : List SignedTransaction := [
  .limit 8 .buy 15 1 0,
  .market 8 .buy 2 1
]

theorem twoBuys_short_by : ∃ (l l' : LedgerState) (ts' : _) (ns : _) (m : SpotMarket) (level : Level) (x : LimitOrder),
    l.Reachable 1 ∧ l.spotClearinghouse.markets = [m] ∧ m.asksLevels = [level] ∧ level.orders = [x] ∧
    l.apply twoBuys = .ok (l', ts', ns) ∧
    l.pieces twoBuys = [⟨x.common.id, 7, 1, 1⟩, ⟨x.common.id, 7, 1, 1⟩] ∧
    (l'.spotClearinghouse.accounts.balance 7 m.quoteAsset).availableBalance =
      (l.spotClearinghouse.accounts.balance 7 m.quoteAsset).availableBalance + (1 + 1) * 100 ∧
    3 ≤ (1 + 1) + (2 - 1) := by
  have ⟨l, ts₀, ns₀, l', ts', ns, m, m', level, x, hstart, hm, hlevel, hx, hrun, hm', hpieces, live, hp, hself, hprec,
      hacc, hprice⟩ :
      ∃ (l : LedgerState) (ts₀ : _) (ns₀ : _) (l' : LedgerState) (ts' : _) (ns : _) (m m' : SpotMarket) (level : Level)
        (x : LimitOrder),
        (LedgerState.new 1).apply twoLotsAsk = .ok (l, ts₀, ns₀) ∧ l.spotClearinghouse.markets = [m] ∧
        m.asksLevels = [level] ∧ level.orders = [x] ∧ l.apply twoBuys = .ok (l', ts', ns) ∧
        l'.spotClearinghouse.markets = [m'] ∧
        l.pieces twoBuys = [⟨x.common.id, 7, 1, 1⟩, ⟨x.common.id, 7, 1, 1⟩] ∧ x.IsLive ∧ 0 < x.priceMultiple ∧
        x.selfFilled = 0 ∧ l.marketPrecision 0 = .ok .supeUsd ∧ x.common.account = 7 ∧ x.priceMultiple = 15 :=
    ⟨_, _, _, _, _, _, _, _, _, _, rfl, rfl, rfl, rfl, rfl, rfl, rfl, by decide, by decide, rfl, rfl, rfl, rfl⟩
  have hfilter : (l.pieces twoBuys).filter (·.order = x.common.id) = l.pieces twoBuys := by
    simp [hpieces]
  have hq : baseToQuoteLots (((l.pieces twoBuys).filter (·.order = x.common.id)).map Piece.filled).sum x.priceMultiple
      .supeUsd = .ok 3 := by
    rw [hfilter, hpieces, hprice]
    exact (rfl : baseToQuoteLots 2 15 .supeUsd = .ok 3)
  have ⟨_, _, hbalance, hle⟩ := maker_short_by (.of_apply hstart) (hm ▸ List.mem_singleton_self m) hprec
    (hlevel ▸ List.mem_singleton_self level) (hx ▸ List.mem_singleton_self x) live hp (.inl hself) hrun
    (hm' ▸ List.mem_singleton_self m') (by
      rw [hacc]
      simp only [twoBuys, List.forall_mem_cons, List.not_mem_nil, false_implies, implies_true, and_true]
      exact ⟨⟨_, rfl, by decide⟩, _, rfl, by decide⟩) hq
  rw [hacc, hpieces] at hbalance
  rw [hfilter, hpieces] at hle
  exact ⟨l, l', ts', ns, m, level, x, .of_apply hstart, hm, hlevel, hx, hrun, hpieces, hbalance, hle⟩

-- The buyers pay a quote lot each, which is less than what both lots cost.
theorem twoBuys_short : ∃ (l l' : LedgerState) (ts' : _) (ns : _) (m m' : SpotMarket) (level : Level) (x : LimitOrder),
    l.Reachable 1 ∧ l.spotClearinghouse.markets = [m] ∧ m.asksLevels = [level] ∧ level.orders = [x] ∧ x.IsLive ∧
    x.priceMultiple = 15 ∧ x.common.account = 7 ∧ x.remaining = 2 ∧ l.apply twoBuys = .ok (l', ts', ns) ∧
    l'.spotClearinghouse.markets = [m'] ∧ liveOrders m'.orders = [] ∧ baseToQuoteLots 2 15 .supeUsd = .ok 3 ∧
    (l'.spotClearinghouse.accounts.balance 7 m.quoteAsset).availableBalance <
      (l.spotClearinghouse.accounts.balance 7 m.quoteAsset).availableBalance +
        3 * MarketPrecision.supeUsd.quoteLotSize := by
  have ⟨l, ts₀, ns₀, l', ts', ns, m, m', level, x, hstart, hrest⟩ :
      ∃ (l : LedgerState) (ts₀ : _) (ns₀ : _) (l' : LedgerState) (ts' : _) (ns : _) (m m' : SpotMarket) (level : Level)
        (x : LimitOrder),
        (LedgerState.new 1).apply twoLotsAsk = .ok (l, ts₀, ns₀) ∧ l.spotClearinghouse.markets = [m] ∧
        m.asksLevels = [level] ∧ level.orders = [x] ∧ x.IsLive ∧ x.priceMultiple = 15 ∧ x.common.account = 7 ∧
        x.remaining = 2 ∧ l.apply twoBuys = .ok (l', ts', ns) ∧ l'.spotClearinghouse.markets = [m'] ∧
        liveOrders m'.orders = [] ∧ baseToQuoteLots 2 15 .supeUsd = .ok 3 ∧
        (l'.spotClearinghouse.accounts.balance 7 m.quoteAsset).availableBalance <
          (l.spotClearinghouse.accounts.balance 7 m.quoteAsset).availableBalance +
            3 * MarketPrecision.supeUsd.quoteLotSize :=
    ⟨_, _, _, _, _, _, _, _, _, _, rfl, rfl, rfl, rfl, by decide, rfl, rfl, rfl, rfl, rfl, rfl, rfl,
      by decide +kernel⟩
  exact ⟨l, l', ts', ns, m, m', level, x, .of_apply hstart, hrest⟩

end Superliquid

import Superliquid.State.Theorems.Exchange

namespace Superliquid

open SpotMarket LedgerState

-- An order but for its status, which the book and the records keep apart.
def LimitOrder.core (o : LimitOrder) : LimitOrder :=
  { o with common.status := .open }

-- The records of all accounts: ids are used once and lie below `n`, and every entry is in its own account.
structure Entries (n : Nat) (openOrders : PublicKeyHash → List LimitOrder) : Prop where
  nodup   : ∀ k, (orderIds (openOrders k)).Nodup
  account : ∀ k, ∀ x ∈ openOrders k, x.common.account = k
  fresh   : ∀ k, ∀ x ∈ openOrders k, x.common.id < n
  owner   : ∀ {k k' x x'}, x ∈ openOrders k → x' ∈ openOrders k' → x.common.id = x'.common.id → k = k'

-- There is an entry for an order of the book, and it says the same of it.
def Covered (openOrders : PublicKeyHash → List LimitOrder) (o : LimitOrder) : Prop :=
  ∃ x ∈ openOrders o.common.account, x.core = o.core

theorem LimitOrder.eq_of_core {o x : LimitOrder} (h : x.core = o.core) :
    x.common.id = o.common.id ∧ x.common.account = o.common.account ∧ x.common.direction = o.common.direction ∧
    x.priceMultiple = o.priceMultiple ∧ x.baseLots = o.baseLots ∧ x.filledBaseLots = o.filledBaseLots ∧
    x.selfFilled = o.selfFilled := by
  simp only [LimitOrder.core, LimitOrder.mk.injEq, CommonOrderFields.mk.injEq] at h
  have ⟨⟨hid, _, _, hacc, hdir⟩, hp, hb, hf, hs⟩ := h
  exact ⟨hid, hacc, hdir, hp, hb, hf, hs⟩

theorem OrderTransaction.entries_cases (t : OrderTransaction) (n : Nat) :
    (t.toOrder n).entries = [] ∨ ∃ o, t.toOrder n = .limit o ∧ (t.toOrder n).entries = [o] := by
  cases t.toOrder n
  case limit o => exact .inr ⟨o, rfl, rfl⟩
  case market  => exact .inl rfl

theorem OrderTransaction.mem_entries (t : OrderTransaction) {n : Nat} {x : LimitOrder}
    (h : x ∈ (t.toOrder n).entries) : x.common.account = t.source ∧ x.common.id = n := by
  cases t.entries_cases n
  case inl he => simp [he] at h
  case inr he =>
    have ⟨o, ho, he⟩ := he
    rw [he, List.mem_singleton] at h
    subst h
    have hacc : (t.toOrder n).getAccount = t.source := t.toOrder_account
    rw [ho] at hacc
    exact ⟨hacc, t.toOrder_id ho⟩

namespace Entries

variable {n : Nat} {openOrders openOrders' : PublicKeyHash → List LimitOrder}

theorem shrink (h : Entries n openOrders)
    (hs : ∀ k, (orderTerms (openOrders' k)).Sublist (orderTerms (openOrders k))) : Entries n openOrders' := by
  have old {k x} (hx : x ∈ openOrders' k) : ∃ x₀ ∈ openOrders k, x₀.terms = x.terms :=
    List.mem_map.mp ((hs k).subset (List.mem_map_of_mem hx))
  constructor
  case nodup =>
    intro k
    have hn := h.nodup k
    rw [← orderIds_terms] at hn ⊢
    exact ((hs k).map _).nodup hn
  case account =>
    intro k x hx
    have ⟨x₀, hx₀, he⟩ := old hx
    exact (LimitOrder.eq_of_terms he).2.2.2 ▸ h.account k x₀ hx₀
  case fresh =>
    intro k x hx
    have ⟨x₀, hx₀, he⟩ := old hx
    exact (LimitOrder.eq_of_terms he).1 ▸ h.fresh k x₀ hx₀
  case owner =>
    intro k k' x x' hx hx' hid
    have ⟨x₀, hx₀, he⟩ := old hx
    have ⟨x₀', hx₀', he'⟩ := old hx'
    refine h.owner hx₀ hx₀' ?_
    rw [(LimitOrder.eq_of_terms he).1, (LimitOrder.eq_of_terms he').1, hid]

-- An account has one entry for an id.
theorem eq_of_id (h : Entries n openOrders) {k : PublicKeyHash} {x x' : LimitOrder} (hx : x ∈ openOrders k)
    (hx' : x' ∈ openOrders k) (hid : x.common.id = x'.common.id) : x = x' :=
  List.inj_on_of_nodup_map (h.nodup k) hx hx' hid

theorem mono (h : Entries n openOrders) {n' : Nat} (hn : n ≤ n') : Entries n' openOrders :=
  { h with fresh := fun k x hx => (h.fresh k x hx).trans_le hn }

theorem enter {e : Exchange} (h : Entries e.nextId e.openOrders) (t : OrderTransaction) :
    Entries (e.enter t).nextId (e.enter t).openOrders := by
  have mem {k x} (hx : x ∈ (e.enter t).openOrders k) :
      x ∈ e.openOrders k ∨ (k = t.source ∧ x.common.account = t.source ∧ x.common.id = e.nextId) := by
    simp only [Exchange.enter] at hx
    split at hx
    case isFalse   => exact .inl hx
    case isTrue he =>
      cases List.mem_append.mp hx
      case inl hx => exact .inl hx
      case inr hx => exact .inr ⟨he, t.mem_entries hx⟩
  constructor
  case nodup =>
    intro k
    simp only [Exchange.enter]
    split
    case isFalse   => exact h.nodup k
    case isTrue =>
      rw [orderIds, List.map_append]
      refine List.Nodup.append (h.nodup k) ?_ ?_
      · cases t.entries_cases e.nextId
        case inl he => simp [he]
        case inr he =>
          obtain ⟨o, _, he⟩ := he
          simp [he]
      · intro id hid hid'
        obtain ⟨x, hx, he⟩ := List.mem_map.mp hid
        obtain ⟨x', hx', he'⟩ := List.mem_map.mp hid'
        have := h.fresh k x hx
        have := (t.mem_entries hx').2
        omega
  case account =>
    intro k x hx
    cases mem hx
    case inl hx => exact h.account k x hx
    case inr hx => exact hx.2.1.trans hx.1.symm
  case fresh =>
    intro k x hx
    cases mem hx
    case inl hx => exact (h.fresh k x hx).trans (Nat.lt_succ_self _)
    case inr hx => exact hx.2.2 ▸ Nat.lt_succ_self _
  case owner =>
    intro k k' x x' hx hx' hid
    cases mem hx
    case inl hx₀ =>
      have := h.fresh k x hx₀
      cases mem hx'
      case inl hx₀' => exact h.owner hx₀ hx₀' hid
      case inr hx₀' => omega
    case inr hx₀ =>
      cases mem hx'
      case inl hx₀' =>
        have := h.fresh k' x' hx₀'
        omega
      case inr hx₀' => exact hx₀.1.trans hx₀'.1.symm

end Entries

-- Records lose entries, and what is filled of the others may change.
def Trims (l l' : LedgerState) : Prop :=
  ∀ k, (orderTerms (l'.openOrders k)).Sublist (orderTerms (l.openOrders k))

namespace Trims

variable {l l' : LedgerState} {k : PublicKeyHash}

theorem refl : Trims l l :=
  fun _ => .refl _

theorem trans {l₁ l₂ l₃ : LedgerState} (h : Trims l₁ l₂) (h' : Trims l₂ l₃) : Trims l₁ l₃ :=
  fun k => (h' k).trans (h k)

theorem updateAccount {f : AccountInfo → Checked AccountInfo}
    (hf : ∀ {i i'}, f i = .ok i' → (orderTerms i'.openOrders).Sublist (orderTerms i.openOrders))
    (h : l.updateAccount k f = .ok l') : Trims l l' := by
  have ⟨info, hi, _, hinfo⟩ := updateAccount_cases h
  intro k'
  simp only [LedgerState.openOrders, hinfo]
  split
  case isTrue he => exact he ▸ hf hi
  case isFalse   => exact .refl _

theorem recordOrderChange {i i' : AccountInfo} {order : Order} {change : OrderChange}
    (h : recordOrderChange i order change = .ok i') : (orderTerms i'.openOrders).Sublist (orderTerms i.openOrders) := by
  cases change
  case market => rw [(recordOrderChange_market h).2]
  case limit =>
    have ⟨_, pre, x, post, ho, _, _, ho'⟩ := recordOrderChange_limit h
    rw [ho, ho']
    split
    · simp [orderTerms, LimitOrder.terms]
    · simp [orderTerms]

theorem relation : RecordRelation Trims where
  refl   := refl
  trans  := trans
  change := updateAccount recordOrderChange
  filled := updateAccount fun hr => by
    rw [(recordFilledOrder_cases hr).2]
    exact List.eraseP_sublist.map _
  residual := updateAccount fun hr => by
    have ⟨_, pre, x, post, ho, _, _, ho'⟩ := recordResidualOrder_cases hr
    rw [ho, ho']
    simp [orderTerms, LimitOrder.terms]

end Trims

namespace Covered

variable {l l' : LedgerState} {k : PublicKeyHash} {o : LimitOrder}

theorem updateAccount {f : AccountInfo → Checked AccountInfo} (hc : Covered l.openOrders o)
    (h : l.updateAccount k f = .ok l')
    (hf : ∀ {i i'}, f i = .ok i' → ∀ x ∈ i.openOrders, x.common.id = o.common.id → x ∈ i'.openOrders) :
    Covered l'.openOrders o := by
  have ⟨info, hi, _, hinfo⟩ := updateAccount_cases h
  have ⟨x, hx, hcore⟩ := hc
  refine ⟨x, ?_, hcore⟩
  simp only [LedgerState.openOrders, hinfo]
  split
  case isFalse   => exact hx
  case isTrue he => exact hf hi x (he ▸ hx) (LimitOrder.eq_of_core hcore).1

-- The record of another order.
theorem mem_of_ne {pre post : List LimitOrder} {x y : LimitOrder} (h : x ∈ pre ++ y :: post)
    (hne : x.common.id ≠ y.common.id) : x ∈ pre ++ post ∧ ∀ y', x ∈ pre ++ y' :: post := by
  have hxy : x ≠ y := fun he => hne (congrArg (·.common.id) he)
  simp only [List.mem_append, List.mem_cons, hxy, false_or] at h ⊢
  tauto

theorem recordUserOrder {order : Order} {change : Option OrderChange} (hc : Covered l.openOrders o)
    (h : l.recordUserOrder k order change = .ok l')
    (hid : ∀ {id lots price}, change = some (.limit id lots price) → o.common.id ≠ id) :
    Covered l'.openOrders o := by
  unfold LedgerState.recordUserOrder at h
  cases change
  case none => cases h; exact hc
  case some change =>
    refine hc.updateAccount h fun {i i'} hr x hx hxo => ?_
    cases change
    case market => rw [(recordOrderChange_market hr).2]; exact hx
    case limit id lots price =>
      have ⟨_, pre, y, post, ho, hy, _, ho'⟩ := recordOrderChange_limit hr
      have hne : x.common.id ≠ y.common.id := by
        rw [hxo, hy]
        exact hid rfl
      rw [ho] at hx
      rw [ho']
      split
      · exact (mem_of_ne hx hne).2 _
      · exact (mem_of_ne hx hne).1

theorem recordFilledOrders {filled : List LimitOrder} (hc : Covered l.openOrders o)
    (h : l.recordFilledOrders filled = .ok l') (hid : ∀ f ∈ filled, o.common.id ≠ f.common.id) :
    Covered l'.openOrders o := by
  unfold LedgerState.recordFilledOrders at h
  induction filled generalizing l
  case nil => cases h; exact hc
  case cons f fs hi =>
    simp only [List.foldlM_cons, Checked.bind_ok] at h
    have ⟨l₁, hf, h⟩ := h
    have ⟨hne, hid⟩ := List.forall_mem_cons.mp hid
    refine hi ?_ h hid
    refine hc.updateAccount hf fun hr x hx hxo => ?_
    rw [(recordFilledOrder_cases hr).2]
    exact (List.mem_eraseP_of_neg (by simpa [hxo] using hne)).mpr hx

theorem recordResidual {r : Option ResidualOrder} (hc : Covered l.openOrders o)
    (h : l.recordResidual r = .ok l') (hid : ∀ {res}, r = some res → o.common.id ≠ res.orderId) :
    Covered l'.openOrders o := by
  unfold LedgerState.recordResidual at h
  cases r
  case none => cases h; exact hc
  case some r =>
    refine hc.updateAccount h fun hr x hx hxo => ?_
    have ⟨_, pre, y, post, ho, hy, _, ho'⟩ := recordResidualOrder_cases hr
    rw [ho] at hx
    rw [ho']
    refine (mem_of_ne hx ?_).2 _
    rw [hxo, hy]
    exact hid rfl

-- The entry of an order that was filled in part follows it.
theorem recordPart {own : LimitOrder → Bool} {f : Fill} {n : Nat} (hn : Entries n l.openOrders) (hp : ¬f.Whole)
    (hc : Covered l.openOrders f.order) (h : l.recordResidual (some (f.residual own)) = .ok l') :
    Covered l'.openOrders (f.after own) := by
  unfold LedgerState.recordResidual at h
  have ⟨info, hi, _, hinfo⟩ := updateAccount_cases h
  have ⟨x, hx, hcore⟩ := hc
  have ⟨_, pre, y, post, ho, hy, _, ho'⟩ := recordResidualOrder_cases hi
  have hxy : x = y := by
    refine hn.eq_of_id hx ?_ ((LimitOrder.eq_of_core hcore).1.trans hy.symm)
    rw [LedgerState.openOrders, show f.order.common.account = (f.residual own).accountPublicKey from rfl, ho]
    simp
  subst hxy
  have hacc : (f.after own).common.account = (f.residual own).accountPublicKey := by
    rw [Fill.after_common]
    rfl
  have hmem := List.mem_append_right pre (List.mem_cons_self (a := { x with
    filledBaseLots := x.filledBaseLots + (f.residual own).filledBaseLots
    selfFilled := x.selfFilled + (f.residual own).selfFill }) (l := post))
  have hopen : l'.openOrders (f.after own).common.account = info.openOrders := by
    rw [LedgerState.openOrders, hinfo, if_pos hacc]
  rw [← ho', ← hopen] at hmem
  refine ⟨_, hmem, ?_⟩
  simp only [LimitOrder.core, LimitOrder.mk.injEq] at hcore ⊢
  cases hown : own f.order
  case true =>
    rw [Fill.after_own hown, Fill.residual_own hown]
    simp [hcore]
  case false =>
    rw [Fill.after_part hown (Nat.lt_of_not_le hp), Fill.residual_other hown]
    simp [hcore]

-- So does the entry of the incoming order.
theorem recordIncoming {order : Order} {n lots price : Nat} (hn : Entries n l.openOrders)
    (ho : o ∈ l.openOrders k) (hlt : lots < o.remaining)
    (h : l.recordUserOrder k order (some (.limit o.common.id lots price)) = .ok l') :
    Covered l'.openOrders { o with filledBaseLots := o.filledBaseLots + lots } := by
  unfold LedgerState.recordUserOrder at h
  have ⟨info, hi, _, hinfo⟩ := updateAccount_cases h
  have ⟨_, pre, y, post, hsplit, hy, _, ho'⟩ := recordOrderChange_limit hi
  have hoy : o = y := by
    refine hn.eq_of_id ho ?_ hy.symm
    rw [LedgerState.openOrders, hsplit]
    simp
  subst hoy
  have hmem := List.mem_append_right pre (List.mem_cons_self (a := { o with
    filledBaseLots := o.filledBaseLots + lots, common.status := .partiallyFilled }) (l := post))
  have hopen : l'.openOrders o.common.account = info.openOrders := by
    rw [LedgerState.openOrders, hinfo, if_pos (hn.account k o ho)]
  rw [if_pos hlt] at ho'
  rw [← ho', ← hopen] at hmem
  exact ⟨_, hmem, rfl⟩

end Covered

namespace SpotMarket

variable {m : SpotMarket} {n : Nat}

-- The orders that a match takes out of the book have other ids than those that stay.
theorem Sound.drained_ne (h : m.Sound n) (precision : MarketPrecision) (order : Order) :
    let sw := m.sweep precision order
    (∀ f ∈ sw.drained, f.common.id < n) ∧
    ∀ o ∈ (m.setSide order.direction.flip sw.levels.reverse).orders, ∀ f ∈ sw.drained, o.common.id ≠ f.common.id := by
  have hids := (m.sweep_terms precision order).map (·.common.id)
  have hnodup := h.nodup
  rw [← orderIds_terms, orderIds, hids.nodup_iff, List.map_append, List.nodup_append] at hnodup
  have id_mem {orders : List LimitOrder} {o : LimitOrder} (ho : o ∈ orders) :
      o.common.id ∈ (orderTerms orders).map (·.common.id) :=
    List.mem_map.mpr ⟨o.terms, List.mem_map_of_mem ho, rfl⟩
  constructor
  · intro f hf
    have hmem := (m.sweep_terms precision order).mem_iff.mpr (List.mem_append_left _ (List.mem_map_of_mem hf))
    obtain ⟨o, ho, he⟩ := List.mem_map.mp hmem
    exact (LimitOrder.eq_of_terms he).1 ▸ h.fresh o ho
  · intro o ho f hf he
    exact hnodup.2.2 _ (id_mem hf) _ (id_mem ho) he.symm

end SpotMarket

namespace Exchange

-- The book and the accounts' records agree.
structure Consistent (e : Exchange) : Prop where
  sound   : e.Sound
  entries : Entries e.nextId e.openOrders
  covered : ∀ o ∈ liveOrders e.market.orders, Covered e.openOrders o

namespace Consistent

variable {e e' : Exchange} {t : OrderTransaction} {tx : UnsignedTransaction}

theorem new {faucet : PublicKeyHash} : (Exchange.new faucet).Consistent where
  sound   := .new
  entries := ⟨fun _ => .nil, by simp [Exchange.new], by simp [Exchange.new], by simp [Exchange.new]⟩
  covered := by simp [Exchange.new, SpotMarket.supeUsd, SpotMarket.new, SpotMarket.orders, sideOrders, liveOrders]

theorem covered_enter {o : LimitOrder} (h : Covered e.openOrders o) : Covered (e.enter t).openOrders o := by
  have ⟨x, hx, hcore⟩ := h
  refine ⟨x, ?_, hcore⟩
  simp only [Exchange.enter]
  split
  · exact List.mem_append_left _ hx
  · exact hx

theorem rested {o : LimitOrder} {market : SpotMarket} (h : e.Consistent) (ho : t.toOrder e.nextId = .limit o)
    (ha : e.market.addOrder o = .ok market) : ∀ x ∈ liveOrders market.orders, Covered (e.enter t).openOrders x := by
  intro x hx
  have ⟨hx, live⟩ := mem_liveOrders.mp hx
  cases List.mem_cons.mp ((addOrder_orders ha).mem_iff.mp hx)
  case inr hx => exact covered_enter (h.covered x (mem_liveOrders.mpr ⟨hx, live⟩))
  case inl he =>
    subst he
    have hacc := (t.mem_entries (show x ∈ (t.toOrder e.nextId).entries by simp [ho, Order.entries])).1
    refine ⟨x, ?_, rfl⟩
    simp only [Exchange.enter, hacc, if_true, ho, Order.entries]
    exact List.mem_append_right _ List.mem_cons_self

end Consistent
end Exchange

section Match

variable {m m' : SpotMarket} {n : Nat} {precision : MarketPrecision} {order : Order} {l l₁ l₂ l' : LedgerState}
         {k : PublicKeyHash} {r : ExecutionResults} {change : Option OrderChange}

-- Only the entries of orders that leave the book are touched before the last one.
theorem Covered.stays {o : LimitOrder} (hs : m.Sound n) (hc : Covered l.openOrders o)
    (hid : ∃ x ∈ (m.setSide order.direction.flip (m.sweep precision order).levels.reverse).orders,
      x.common.id = o.common.id)
    (huser : l.recordUserOrder k order change = .ok l₁)
    (hchange : ∀ {id lots price}, change = some (.limit id lots price) → id = n)
    (hfilled : l₁.recordFilledOrders (m.sweep precision order).drained = .ok l₂) : Covered l₂.openOrders o := by
  have ⟨x, hx, he⟩ := hid
  have ⟨_, hother⟩ := hs.drained_ne precision order
  refine (hc.recordUserOrder huser fun hch => ?_).recordFilledOrders hfilled (he ▸ hother x hx)
  rw [hchange hch, ← he]
  exact ((hs.sweep precision order).fresh x hx).ne

-- A limit order that is matched has the next id, and its entry is there already.
structure Entered (n : Nat) (order : Order) (k : PublicKeyHash) (l : LedgerState) : Prop where
  live    : ∀ o, order = .limit o → o.IsLive
  id      : ∀ o, order = .limit o → o.common.id = n
  fresh   : ∀ o, order = .limit o → o.filledBaseLots = 0 ∧ o.selfFilled = 0
  entered : ∀ o, order = .limit o → o ∈ l.openOrders k

theorem Entered.enter {e : Exchange} {t : OrderTransaction} (hopen : l.openOrders = (e.enter t).openOrders) :
    Entered e.nextId (t.toOrder e.nextId) t.source l := by
  constructor
  all_goals
    intro o ho
    have ⟨_, _, _, heq⟩ := OrderTransaction.toOrder_limit ho
  case live    => simp [heq, LimitOrder.IsLive]
  case id      => rw [heq]
  case fresh   => simp [heq]
  case entered => simp [hopen, Exchange.enter, ho, Order.entries]

theorem Entered.reported (h : Entered n order k l) {fills : List Fill} {id lots price : Nat}
    (hr : (OrderChange.limit id lots price).Reports order fills) :
    id = n ∧ ∃ o, order = .limit o ∧ o.common.id = id ∧ lots = sumLots fills := by
  cases order
  case market  => have ⟨_, _, _, _, he⟩ := hr; contradiction
  case limit o =>
    have ⟨_, he⟩ := hr
    cases he
    exact ⟨h.id o rfl, o, rfl, rfl, rfl⟩

-- The records after a match, up to the order that was filled in part.
theorem Covered.before_residual (hs : m.Sound n) (hc : ∀ o ∈ liveOrders m.orders, Covered l.openOrders o)
    (huser : l.recordUserOrder k order change = .ok l₁)
    (hchange : ∀ {id lots price}, change = some (.limit id lots price) → id = n)
    (hfilled : l₁.recordFilledOrders (m.sweep precision order).drained = .ok l₂) {f : Fill}
    (hf : f ∈ parts (m.sweep precision order).fills) : Covered l₂.openOrders f.order := by
  have ⟨rest, hbefore, hafter⟩ := m.sweep_live precision order
  have hmem := List.mem_of_mem_filter hf
  have hstay := (mem_liveOrders.mp (hafter.mem_iff.mpr (List.mem_append_left _ (List.mem_map_of_mem hf)))).1
  refine Covered.stays hs ?_ ⟨_, hstay, by rw [Fill.after_common]⟩ huser hchange hfilled
  exact hc _ (hbefore.mem_iff.mpr (List.mem_append_left _ (List.mem_map_of_mem hmem)))

-- What a match leaves in the book is still covered.
theorem recordResults_covered (hs : m.Sound n) (hn : Entries (n + 1) l.openOrders) (hentered : Entered n order k l)
    (hc : ∀ o ∈ liveOrders m.orders, Covered l.openOrders o) (hm : m.AfterMatch precision order m')
    (hfilled : r.filledOrders = (m.sweep precision order).drained)
    (hresidual : r.residualOrder = (m.sweep precision order).residual)
    (hchange : ∃ change, r.userOrderChange = some change ∧ change.Reports order (m.sweep precision order).fills)
    (h : l.recordResults k order (some r) = .ok l') : ∀ o ∈ liveOrders m'.orders, Covered l'.openOrders o := by
  simp only [LedgerState.recordResults, Checked.bind_ok] at h
  obtain ⟨l₁, h₁, l₂, h₂, h₃⟩ := h
  obtain ⟨change, hch, hreports⟩ := hchange
  rw [hfilled] at h₂
  rw [hresidual] at h₃
  have hid {id lots price} (he : r.userOrderChange = some (.limit id lots price)) : id = n := by
    cases hch.symm.trans he
    exact (hentered.reported hreports).1
  have htaken := m.taken precision order
  obtain ⟨rest, hbefore, hafter⟩ := m.sweep_live precision order
  have hn₂ := (hn.shrink (Trims.relation.recordUserOrder h₁)).shrink (Trims.relation.recordFilledOrders h₂)
  intro o ho
  obtain ⟨ho, live⟩ := mem_liveOrders.mp ho
  cases List.mem_append.mp (hm.orders.mem_iff.mp ho)
  case inl hleft =>
    -- The rest of the incoming order itself.
    cases order
    case market => contradiction
    case limit o₀ =>
      obtain ⟨hlt, he⟩ : sumLots (m.sweep precision (.limit o₀)).fills < o₀.baseLots ∧ o = m.leaves precision o₀ := by
        simpa [leftover] using hleft
      obtain ⟨hf, hsf⟩ := hentered.fresh o₀ rfl
      obtain ⟨price, hch'⟩ := hreports
      rw [hch, hch'] at h₁
      have hcov := Covered.recordIncoming hn (hentered.entered o₀ rfl) (by simp only [LimitOrder.remaining]; omega) h₁
      have heq : { o₀ with filledBaseLots := o₀.filledBaseLots + sumLots (m.sweep precision (.limit o₀)).fills }
          = o := by
        rw [he, leaves, hf, Nat.zero_add]
      rw [heq] at hcov
      have hoid : o.common.id = n := he ▸ hentered.id o₀ rfl
      refine (hcov.recordFilledOrders h₂ fun f hf => ?_).recordResidual h₃ fun hr => ?_
      · have := (hs.drained_ne precision (.limit o₀)).1 f hf
        omega
      · obtain ⟨f, hparts, hres⟩ := htaken.residual_some hr
        have hmem := List.mem_of_mem_filter (hparts ▸ List.mem_singleton_self f)
        have hfresh := hs.fresh _
          (mem_liveOrders.mp (hbefore.mem_iff.mpr (List.mem_append_left _ (List.mem_map_of_mem hmem)))).1
        rw [hoid, hres]
        exact hfresh.ne'
  case inr hstay =>
    have hstay' := hafter.mem_iff.mp (mem_liveOrders.mpr ⟨hstay, live⟩)
    cases List.mem_append.mp hstay'
    case inl hpart =>
      obtain ⟨f, hf, he⟩ := List.mem_map.mp hpart
      subst he
      rw [htaken.residual_eq hf] at h₃
      exact .recordPart hn₂ (by simpa using (List.mem_filter.mp hf).2) (.before_residual hs hc h₁ hid h₂ hf) h₃
    case inr hrest =>
      have hcov : Covered l.openOrders o := hc _ (hbefore.mem_iff.mpr (List.mem_append_right _ hrest))
      refine (hcov.stays hs ⟨o, hstay, rfl⟩ h₁ hid h₂).recordResidual h₃ fun hr he => ?_
      obtain ⟨f, hparts, hres⟩ := htaken.residual_some hr
      have hnodup : (orderIds (liveOrders (m.setSide order.direction.flip
          (m.sweep precision order).levels.reverse).orders)).Nodup :=
        (hs.sweep precision order).nodup.sublist (List.filter_sublist.map _)
      rw [orderIds, (hafter.map _).nodup_iff, hparts, List.map_append, List.nodup_append] at hnodup
      refine hnodup.2.2 f.order.common.id (by simp [Fill.after_common]) _ (List.mem_map_of_mem hrest) ?_
      rw [he, hres]
      rfl

end Match

namespace Exchange.Consistent

variable {e e' : Exchange} {tx : UnsignedTransaction}

-- An entry with the id of a live order is that order's.
theorem entry_eq (h : e.Consistent) {k : PublicKeyHash} {x o : LimitOrder} (ho : o ∈ liveOrders e.market.orders)
    (hx : x ∈ e.openOrders k) (hid : x.common.id = o.common.id) : o.common.account = k ∧ x.core = o.core := by
  have ⟨x', hx', hcore⟩ := h.covered o ho
  have hid' : x'.common.id = x.common.id := (LimitOrder.eq_of_core hcore).1.trans hid.symm
  have hk := h.entries.owner hx' hx hid'
  refine ⟨hk, ?_⟩
  rw [h.entries.eq_of_id hx (hk ▸ hx') hid'.symm]
  exact hcore

theorem cancelled {order : LimitOrder} {pre post : List LimitOrder} {k : PublicKeyHash} {market : SpotMarket}
    {unfilled : Nat} (h : e.Consistent) (hopen : e.openOrders k = pre ++ order :: post)
    (hc : e.market.cancelOrder order = .ok (market, unfilled)) :
    ∀ o ∈ liveOrders market.orders, Covered (fun k' => if k' = k then pre ++ post else e.openOrders k') o := by
  intro o ho
  have hold : o ∈ liveOrders e.market.orders := by
    cases cancelOrder_live h.sound hc
    case inl hm => exact hm.1 ▸ ho
    case inr hm =>
      have ⟨_, _, lost, _, hperm, _⟩ := hm
      exact hperm.mem_iff.mpr (List.mem_cons_of_mem _ (List.mem_append_right _ ho))
  have ⟨x, hx, hcore⟩ := h.covered o hold
  have hne (hk : o.common.account = k) : x.common.id ≠ order.common.id := by
    intro hid
    -- The entry that goes would be that of `o`, which the searches then find and take out.
    have hxo : x = order := h.entries.eq_of_id hx (by simp [hk, hopen]) hid
    subst hxo
    have ⟨hxid, _, hdir, hprice, _⟩ := LimitOrder.eq_of_core hcore
    cases cancelOrder_live h.sound hc
    case inl hm =>
      have ⟨_, _, hdead⟩ := hm
      have ⟨hmem, live⟩ := mem_liveOrders.mp hold
      exact hdead o hmem hxid.symm hprice.symm hdir.symm live
    case inr hm =>
      have ⟨_, o', lost, hid', hperm, _⟩ := hm
      have hnodup : (orderIds (liveOrders e.market.orders)).Nodup :=
        h.sound.nodup.sublist (List.filter_sublist.map _)
      rw [orderIds, (hperm.map _).nodup_iff, List.map_cons, List.nodup_cons] at hnodup
      refine hnodup.1 (List.mem_map.mpr ⟨o, List.mem_append_right _ ho, ?_⟩)
      rw [hid', hxid]
  refine ⟨x, ?_, hcore⟩
  dsimp only
  split
  case isFalse   => exact hx
  case isTrue he =>
    rw [he, hopen] at hx
    exact (Covered.mem_of_ne hx (hne he)).1

theorem step (hs : e.Step tx e') (h : e.Consistent) : e'.Consistent := by
  refine ⟨.step hs h.sound, ?_, ?_⟩
  · cases hs
    case idle                       => exact h.entries
    case transfer                   => exact h.entries
    case declined                   => exact h.entries.enter _
    case rested                     => exact h.entries.enter _
    case matched hb                 =>
      have ⟨l, l', hopen, hrecord, hopen'⟩ := hb
      subst hopen'
      exact (hopen ▸ h.entries.enter _ : Entries _ l.openOrders).shrink (Trims.relation.recordResults hrecord)
    case cancelled hopen _ _ _ _ =>
      refine h.entries.shrink fun k => ?_
      dsimp only
      split
      case isFalse   => exact .refl _
      case isTrue he =>
        rw [he, hopen]
        exact List.Sublist.map _ (by simp)
  · cases hs
    case idle                       => exact h.covered
    case transfer                   => exact h.covered
    case declined                   => exact fun o ho => covered_enter (h.covered o ho)
    case rested ho rested           => exact h.rested ho rested.market
    case matched t _ _ _ _ _ _ hm hb =>
      have ⟨l, l', hopen, hrecord, hopen'⟩ := hb
      subst hopen'
      exact recordResults_covered h.sound (hopen ▸ h.entries.enter t) (.enter hopen)
        (fun o ho => hopen ▸ covered_enter (h.covered o ho)) hm.market hm.filled hm.residual hm.change hrecord
    case cancelled hopen _ _ hc _   => exact h.cancelled hopen hc

end Exchange.Consistent

-- A limit order is checked against the account's open orders, which cover what it would meet.
theorem isSelfCross_of_crosses {openOrders : List LimitOrder} {d : OrderDirection} {price : Nat} {x : LimitOrder}
    (hx : x ∈ openOrders) (hd : x.common.direction = d.flip) (hc : crosses d.flip.cmp price x.priceMultiple = true) :
    isSelfCross openOrders d price = true := by
  have hle : d.flip.cmp price x.priceMultiple ≠ .gt := by simpa [crosses] using hc
  cases d
  case buy  => exact List.any_eq_true.mpr ⟨x, hx, by simpa [hd, OrderDirection.flip] using Nat.compare_ne_gt.mp hle⟩
  case sell => exact List.any_eq_true.mpr ⟨x, hx, by simpa [hd, OrderDirection.flip] using Nat.compare_ne_gt.mp hle⟩

theorem Exchange.Consistent.account_ne {e : Exchange} (h : e.Consistent) {precision : MarketPrecision} {o : LimitOrder}
    (hc : isSelfCross (e.openOrders o.common.account) o.common.direction o.priceMultiple = false) {f : Fill}
    (hf : f ∈ (e.market.sweep precision (.limit o)).fills) : f.order.common.account ≠ o.common.account := by
  intro hacc
  have ⟨level, hl, hprice, hmem, live⟩ := sweep_fills_mem hf
  have ⟨n, hlots⟩ := sweep_fills_lots hf
  have hl := List.mem_reverse.mp hl
  have hsound := h.sound.levels _ level hl
  have ⟨x, hx, hcore⟩ := h.covered f.order (mem_liveOrders.mpr ⟨mem_orders.mpr ⟨_, level, hl, hmem⟩, live⟩)
  have ⟨_, _, hdir, hxp, _⟩ := LimitOrder.eq_of_core hcore
  refine Bool.false_ne_true (hc.symm.trans (isSelfCross_of_crosses (hacc ▸ hx)
    (hdir.trans (hsound.direction _ hmem)) ?_))
  rw [hxp, hsound.price _ hmem, ← hprice]
  by_contra hn
  simp [Budget.base, hn] at hlots

-- A limit order that is not rejected takes nothing from orders of its own account.
theorem noSelfTrade_of_reachable {faucet : PublicKeyHash} {l : LedgerState} {t : OrderTransaction} {m : SpotMarket}
    {o o' : LimitOrder} {assetIn assetOut : AssetId} {isBuy : Bool} {precision : MarketPrecision}
    {levels : List Level} {result : LimitFillResult} (h : l.Reachable faucet)
    (ho : t.toOrder l.orderManager.nextId = .limit o)
    (hr : ¬∃ l' t' n reason, l.handleOrderTransaction t = .ok (l', t', n) ∧ t'.status = .rejected reason)
    (hm : l.spotClearinghouse.markets[t.marketId]? = some m)
    (hx : executeLimit (m.side t.direction.flip) o assetIn assetOut isBuy precision t.direction.flip.cmp =
      .ok (levels, o', result)) :
    (∀ f ∈ result.filledOrders, f.IsLive → f.common.account ≠ t.source) ∧
    ∀ r, result.residualOrder = some r → r.accountPublicKey ≠ t.source := by
  have ⟨e, hshows, hcons⟩ := h.invariant Exchange.Consistent.new Exchange.Consistent.step
  have ⟨_, hmarket⟩ := hshows.market_eq hm
  subst hmarket
  have placed : l.Placed t := by
    by_contra hn
    exact hr (handleOrderTransaction_rejected hn)
  have ⟨price, size, ht, heq⟩ := OrderTransaction.toOrder_limit ho
  have hcross : isSelfCross (e.openOrders o.common.account) o.common.direction o.priceMultiple = false := by
    have hc := placed.2
    rw [hshows.openOrders] at hc
    simpa only [crossesOwnOrder, ht, heq] using hc
  have hacc : o.common.account = t.source := by rw [heq]
  have hne {f} (hf : f ∈ (e.market.sweep precision (.limit o)).fills) : f.order.common.account ≠ t.source :=
    hacc ▸ hcons.account_ne hcross hf
  have hdir : o.common.direction = t.direction := by rw [heq]
  rw [← hdir] at hx
  have swept : Swept (e.market.sweep precision (.limit o)) _ [] _ _ := (executeLimit_result hx).swept
  have taken := e.market.taken precision (.limit o)
  constructor
  · intro f hf live
    have hdrained : f ∈ [] ++ (e.market.sweep precision (.limit o)).drained := swept.filled ▸ hf
    have hmem : f ∈ liveOrders (e.market.sweep precision (.limit o)).drained :=
      mem_liveOrders.mpr ⟨hdrained, live⟩
    rw [taken.used] at hmem
    have ⟨g, hg, he⟩ := List.mem_map.mp hmem
    rw [← he, Fill.after_common]
    exact hne (List.mem_of_mem_filter hg)
  · intro r hres
    have hmem : r ∈ (e.market.sweep precision (.limit o)).residual.toList := by
      rw [← swept.residual, hres]
      exact List.mem_singleton_self r
    rw [taken.rested] at hmem
    have ⟨g, hg, he⟩ := List.mem_map.mp hmem
    rw [← he]
    exact hne (List.mem_of_mem_filter hg)

-- Account 7 has an order at 20 and buys at up to 15, where account 8 sells.
def sellsAbove : List SignedTransaction := [
  .transfer 1 7 0 1000 0,
  .transfer 1 7 1 1000 1,
  .transfer 1 8 0 1000 2,
  .limit 8 .sell 10 2 0,
  .limit 8 .sell 10 4 1,
  .limit 7 .sell 20 5 0
]

def buysBelow : OrderTransaction where
  source := 7
  marketId := 0
  direction := .buy
  orderType := .limit 15 3
  status := .pending
  nonce := 1

theorem buysBelow_noSelfTrade : ∃ (l : LedgerState) (o : LimitOrder) (levels : List Level) (o' : LimitOrder)
    (result : LimitFillResult), l.Reachable 1 ∧ buysBelow.toOrder l.orderManager.nextId = .limit o ∧
    executeLimit ((l.spotClearinghouse.markets.map SpotMarket.asksLevels).flatten) o 0 1 true .supeUsd descending =
      .ok (levels, o', result) ∧
    result.filledOrders.map (·.common.account) = [8] ∧ result.residualOrder.map (·.accountPublicKey) = some 8 ∧
    ∀ f ∈ result.filledOrders, f.IsLive → f.common.account ≠ 7 := by
  have h := Reachable.of_apply (rfl : (LedgerState.new 1).apply sellsAbove = .ok _)
  refine ⟨_, _, _, _, _, h, rfl, rfl, rfl, rfl, ?_⟩
  refine (@noSelfTrade_of_reachable 1 _ buysBelow _ _ _ 0 1 true .supeUsd _ _ h rfl ?_ rfl rfl).1
  rintro ⟨_, _, _, _, hx, hs⟩
  cases hx
  cases hs

end Superliquid

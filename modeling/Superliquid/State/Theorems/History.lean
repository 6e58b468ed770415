import Superliquid.State.Theorems.Coverage

namespace Superliquid

open SpotMarket LedgerState

-- The record of a limit order while it is open, and once it is filled. The lots are those that it has traded with
-- others.
structure LimitOrder.Pending (o : LimitOrder) (lots : Nat) : Prop where
  status : o.common.status = .open ∨ o.common.status = .partiallyFilled
  filled : o.filledBaseLots = lots

structure LimitOrder.Settled (o : LimitOrder) (lots : Nat) : Prop where
  status : o.common.status = .filled
  whole  : o.filledBaseLots + o.selfFilled = o.baseLots
  filled : o.filledBaseLots = lots

-- The records of all accounts are true, if the orders have traded `traded` lots so far. Ids lie below `n`.
structure Told (n : Nat) (traded : Nat → Nat) (l : LedgerState) : Prop where
  entries   : Entries n l.openOrders
  pending   : ∀ k, ∀ x ∈ l.openOrders k, x.Pending (traded x.common.id)
  completed : ∀ k o, .limit o ∈ l.completedOrders k → o.Settled (traded o.common.id)
  nodup     : ∀ k, ((l.completedOrders k).map Order.getId).Nodup
  apart     : ∀ {k k' o x}, o ∈ l.completedOrders k → x ∈ l.openOrders k' → o.getId ≠ x.common.id
  fresh     : ∀ k, ∀ o ∈ l.completedOrders k, o.getId < n
  untraded  : ∀ id, n ≤ id → traded id = 0

-- What an incoming order takes from a resting one.
structure Trade where
  orderId : Nat
  account : PublicKeyHash
  lots    : Nat

-- An order that is used up is reported with what was left of it.
def LimitOrder.trade (o : LimitOrder) : Trade where
  orderId := o.common.id
  account := o.common.account
  lots := o.remaining

def ResidualOrder.trade (r : ResidualOrder) : Trade where
  orderId := r.orderId
  account := r.accountPublicKey
  lots := r.filledBaseLots

-- The lots of a resting order.
def lotsOf (id : Nat) (trades : List Trade) : Nat :=
  ((trades.filter (·.orderId = id)).map Trade.lots).sum

theorem lotsOf_cons {id : Nat} {x : Trade} {trades : List Trade} :
    lotsOf id (x :: trades) = (if id = x.orderId then x.lots else 0) + lotsOf id trades := by
  by_cases h : x.orderId = id
  case pos => simp [lotsOf, h]
  case neg => simp [lotsOf, h, Ne.symm h]

theorem lotsOf_append {id : Nat} {xs ys : List Trade} : lotsOf id (xs ++ ys) = lotsOf id xs + lotsOf id ys := by
  simp [lotsOf]

-- An order trades some lots.
def bump (traded : Nat → Nat) (id lots : Nat) : Nat → Nat :=
  fun i => traded i + if i = id then lots else 0

theorem bump_self {traded : Nat → Nat} {id lots : Nat} : bump traded id lots id = traded id + lots := by
  simp [bump]

theorem bump_ne {traded : Nat → Nat} {id lots i : Nat} (h : i ≠ id) : bump traded id lots i = traded i := by
  simp [bump, h]

-- All orders but `id` have the records that they had, and those of `id` are true, if it has traded `lots` lots by now.
structure Retold (id lots : Nat) (l l' : LedgerState) : Prop where
  entry     : ∀ k, ∀ x ∈ l'.openOrders k,
    (x ∈ l.openOrders k ∧ x.common.id ≠ id) ∨ (x.common.id = id ∧ x.Pending lots)
  completed : ∀ k, l'.completedOrders k = l.completedOrders k ∨
    ∃ o, l'.completedOrders k = l.completedOrders k ++ [o] ∧ o.getId = id ∧ (∀ x, o = .limit x → x.Settled lots) ∧
      ∀ k', ∀ x ∈ l'.openOrders k', x.common.id ≠ id
  absent    : ∀ k, ∀ o ∈ l.completedOrders k, o.getId ≠ id

-- A completed order was so before, or it is the order `id`, which has no entry then.
theorem Retold.mem {id lots : Nat} {l l' : LedgerState} {k : PublicKeyHash} {o : Order} (h : Retold id lots l l')
    (ho : o ∈ l'.completedOrders k) :
    (o ∈ l.completedOrders k ∧ o.getId ≠ id) ∨
    (o.getId = id ∧ (∀ x, o = .limit x → x.Settled lots) ∧ ∀ k', ∀ x ∈ l'.openOrders k', x.common.id ≠ id) := by
  rcases h.completed k with he | ⟨o', he, ho'⟩
  · rw [he] at ho
    exact .inl ⟨ho, h.absent k o ho⟩
  · rw [he] at ho
    cases List.mem_append.mp ho
    case inl ho => exact .inl ⟨ho, h.absent k o ho⟩
    case inr ho => exact .inr (List.mem_singleton.mp ho ▸ ho')

namespace Told

variable {n : Nat} {traded traded' : Nat → Nat} {l l' : LedgerState} {k : PublicKeyHash}

theorem new {faucet : PublicKeyHash} : Told 0 (fun _ => 0) (LedgerState.new faucet) := by
  have hopen : (LedgerState.new faucet).openOrders = fun _ => [] := Shows.new.openOrders
  have hdone : (LedgerState.new faucet).completedOrders = fun _ => [] := by
    funext k
    rw [LedgerState.completedOrders, new_info]
    rfl
  constructor
  case entries => rw [hopen]; exact (@Exchange.Consistent.new faucet).entries
  all_goals simp [hopen, hdone]

theorem same (h : Told n traded l) (hs : l.SameHistory l') : Told n traded l' where
  entries   := hs.openOrders ▸ h.entries
  pending   := hs.openOrders ▸ h.pending
  completed := hs.completedOrders ▸ h.completed
  nodup     := hs.completedOrders ▸ h.nodup
  apart     := by
    intro k k' o x ho hx
    rw [hs.completedOrders] at ho
    rw [hs.openOrders] at hx
    exact h.apart ho hx
  fresh     := hs.completedOrders ▸ h.fresh
  untraded  := h.untraded

theorem retold {id n' : Nat} (h : Told n traded l) (hr : Retold id (traded' id) l l')
    (entries : Entries n' l'.openOrders) (hn : n ≤ n') (hid : id < n') (htraded : ∀ i, i ≠ id → traded' i = traded i) :
    Told n' traded' l' where
  entries := entries
  pending := by
    intro k x hx
    rcases hr.entry k x hx with ⟨hx, hne⟩ | ⟨he, hx⟩
    · exact htraded _ hne ▸ h.pending k x hx
    · exact he ▸ hx
  completed := by
    intro k o ho
    rcases hr.mem ho with ⟨ho, hne⟩ | ⟨he, hsettled, _⟩
    · have hne : o.common.id ≠ id := hne
      exact htraded _ hne ▸ h.completed k o ho
    · have he : o.common.id = id := he
      exact he ▸ hsettled o rfl
  nodup := by
    intro k
    rcases hr.completed k with he | ⟨o, he, ho, _⟩
    · exact he ▸ h.nodup k
    · rw [he, List.map_append]
      refine (h.nodup k).append (List.nodup_singleton _) fun i hi hi' => ?_
      obtain ⟨o', ho', he'⟩ := List.mem_map.mp hi
      exact hr.absent k o' ho' (he'.trans ((List.mem_singleton.mp hi').trans ho))
  apart := by
    intro k k' o x ho hx
    rcases hr.mem ho with ⟨ho, hne⟩ | ⟨he, _, hnone⟩
    · rcases hr.entry k' x hx with ⟨hx, _⟩ | ⟨he, _⟩
      · exact h.apart ho hx
      · exact he ▸ hne
    · exact he ▸ (hnone k' x hx).symm
  fresh := by
    intro k o ho
    rcases hr.mem ho with ⟨ho, _⟩ | ⟨he, _⟩
    · exact (h.fresh k o ho).trans_le hn
    · exact he ▸ hid
  untraded := by
    intro i hi
    rw [htraded i (by omega)]
    exact h.untraded i (hn.trans hi)

-- The entry of an open order is replaced or removed. It is told from all others by its id.
theorem reenter {pre post : List LimitOrder} {x : LimitOrder} (h : Told n traded l) (xs : List LimitOrder)
    (hopen : l.openOrders k = pre ++ x :: post)
    (hopen' : ∀ k', l'.openOrders k' = if k' = k then pre ++ xs ++ post else l.openOrders k')
    (hterms : (orderTerms xs).Sublist [x.terms]) :
    Entries n l'.openOrders ∧
    ∀ k', ∀ y ∈ l'.openOrders k', (y ∈ l.openOrders k' ∧ y.common.id ≠ x.common.id) ∨ y ∈ xs := by
  constructor
  case left =>
    refine h.entries.shrink fun k' => ?_
    rw [hopen']
    split
    case isFalse   => exact .refl _
    case isTrue hk =>
      rw [hk, hopen, List.append_assoc, orderTerms_append, orderTerms_append, orderTerms_append]
      exact (List.Sublist.refl _).append (hterms.append (.refl _))
  case right =>
    intro k' y hy
    have hx : x ∈ l.openOrders k := by simp [hopen]
    rw [hopen'] at hy
    split at hy
    case isFalse hk => exact .inl ⟨hy, fun he => hk (h.entries.owner hy hx he)⟩
    case isTrue hk  =>
      by_cases hxs : y ∈ xs
      case pos => exact .inr hxs
      case neg =>
        have hy : y ∈ pre ++ post := by simpa [hxs] using hy
        have hnodup := h.entries.nodup k
        rw [hopen, orderIds, (List.perm_middle.map _).nodup_iff, List.map_cons, List.nodup_cons] at hnodup
        rw [hk, hopen]
        refine .inl ⟨List.perm_middle.mem_iff.mpr (List.mem_cons_of_mem _ hy), fun he => ?_⟩
        exact hnodup.1 (he ▸ List.mem_map_of_mem hy)

-- The record of an open order is brought up to date.
theorem update {pre post : List LimitOrder} {x x' : LimitOrder} {lots : Nat} (h : Told n traded l)
    (hopen : l.openOrders k = pre ++ x :: post)
    (hinfo : ∀ k', l'.getAccountInfoOrDefault k' =
      if k' = k then { l.getAccountInfoOrDefault k with openOrders := pre ++ x' :: post }
      else l.getAccountInfoOrDefault k')
    (hterms : x'.terms = x.terms) (hpending : x'.Pending (x.filledBaseLots + lots)) :
    Told n (bump traded x.common.id lots) l' := by
  have hx : x ∈ l.openOrders k := by simp [hopen]
  have hopen' (k' : PublicKeyHash) : l'.openOrders k' = if k' = k then pre ++ [x'] ++ post else l.openOrders k' := by
    simp only [LedgerState.openOrders, hinfo, List.append_assoc]
    split <;> rfl
  have hdone (k' : PublicKeyHash) : l'.completedOrders k' = l.completedOrders k' := by
    simp only [LedgerState.completedOrders, hinfo]
    split <;> simp [*]
  obtain ⟨entries, mem⟩ := h.reenter [x'] hopen hopen' (by simp [orderTerms, hterms])
  refine h.retold ⟨fun k' y hy => ?_, fun k' => .inl (hdone k'), fun _ o ho => h.apart ho hx⟩ entries le_rfl
    (h.entries.fresh k x hx) fun i hi => bump_ne hi
  refine (mem k' y hy).imp id fun hy => ?_
  rw [List.mem_singleton.mp hy, bump_self, ← (h.pending k x hx).filled]
  exact ⟨(LimitOrder.eq_of_terms hterms).1, hpending⟩

-- The order goes over to the completed ones.
theorem complete {pre post : List LimitOrder} {x x' : LimitOrder} {lots : Nat} (h : Told n traded l)
    (hopen : l.openOrders k = pre ++ x :: post)
    (hinfo : ∀ k', l'.getAccountInfoOrDefault k' =
      if k' = k then { l.getAccountInfoOrDefault k with
        openOrders := pre ++ post
        completedOrders := (l.getAccountInfoOrDefault k).completedOrders ++ [.limit x'] }
      else l.getAccountInfoOrDefault k')
    (hid : x'.common.id = x.common.id) (hsettled : x'.Settled (x.filledBaseLots + lots)) :
    Told n (bump traded x.common.id lots) l' := by
  have hx : x ∈ l.openOrders k := by simp [hopen]
  have hopen' (k' : PublicKeyHash) : l'.openOrders k' = if k' = k then pre ++ [] ++ post else l.openOrders k' := by
    simp only [LedgerState.openOrders, hinfo, List.append_nil]
    split <;> rfl
  obtain ⟨entries, mem⟩ := h.reenter [] hopen hopen' (List.nil_sublist _)
  have hold (k') (y) (hy : y ∈ l'.openOrders k') : y ∈ l.openOrders k' ∧ y.common.id ≠ x.common.id :=
    (mem k' y hy).resolve_right List.not_mem_nil
  refine h.retold ⟨fun k' y hy => .inl (hold k' y hy), fun k' => ?_, fun _ o ho => h.apart ho hx⟩ entries le_rfl
    (h.entries.fresh k x hx) fun i hi => bump_ne hi
  simp only [LedgerState.completedOrders, hinfo]
  split
  case isFalse   => exact .inl rfl
  case isTrue hk =>
    refine .inr ⟨.limit x', by rw [hk], hid, ?_, fun k' y hy => (hold k' y hy).2⟩
    rintro _ ⟨⟩
    rw [bump_self, ← (h.pending k x hx).filled]
    exact hsettled

theorem recordResidual {r : Option ResidualOrder} (h : Told n traded l) (hr : l.recordResidual r = .ok l') :
    Told n (fun i => traded i + lotsOf i (r.toList.map ResidualOrder.trade)) l' := by
  unfold LedgerState.recordResidual at hr
  cases r
  case none => cases hr; exact h
  case some r =>
    have ⟨info, hi, _, hinfo⟩ := updateAccount_cases hr
    have ⟨pre, x, post, hopen, hid, _, he⟩ := recordResidualOrder_eq hi
    subst he
    have hx : x ∈ l.openOrders r.accountPublicKey := by simp [LedgerState.openOrders, hopen]
    have hbump : (fun i => traded i + lotsOf i ((some r).toList.map ResidualOrder.trade)) =
        bump traded x.common.id r.filledBaseLots := by
      funext i
      simp only [Option.toList_some, List.map_cons, List.map_nil, lotsOf_cons, bump, hid]
      rfl
    rw [hbump]
    exact h.update hopen hinfo rfl ⟨(h.pending _ x hx).status, rfl⟩

-- An incoming limit order of which something is left.
theorem recordIncoming {order : Order} {x : LimitOrder} {lots price : Nat} (h : Told n traded l)
    (hx : x ∈ l.openOrders k) (hlt : lots < x.remaining)
    (hr : l.recordUserOrder k order (some (.limit x.common.id lots price)) = .ok l') :
    Told n (bump traded x.common.id lots) l' := by
  unfold LedgerState.recordUserOrder at hr
  have ⟨info, hi, _, hinfo⟩ := updateAccount_cases hr
  have ⟨pre, y, post, hopen, hid, _, he⟩ := recordOrderChange_limit_eq hi
  have hxy : x = y := h.entries.eq_of_id hx (by simp [LedgerState.openOrders, hopen]) hid.symm
  subst hxy
  rw [if_pos hlt] at he
  subst he
  exact h.update hopen hinfo rfl ⟨.inr rfl, rfl⟩

-- One that is filled whole is completed with its counter as it was.
theorem recordWhole {order : Order} {x : LimitOrder} {lots price : Nat} (h : Told n traded l)
    (hx : x ∈ l.openOrders k) (hle : x.remaining ≤ lots)
    (hr : l.recordUserOrder k order (some (.limit x.common.id lots price)) = .ok l') :
    .limit { x with common.status := .filled } ∈ l'.completedOrders k := by
  unfold LedgerState.recordUserOrder at hr
  have ⟨info, hi, _, hinfo⟩ := updateAccount_cases hr
  have ⟨pre, y, post, hopen, hid, _, he⟩ := recordOrderChange_limit_eq hi
  have hxy : x = y := h.entries.eq_of_id hx (by simp [LedgerState.openOrders, hopen]) hid.symm
  subst hxy
  rw [if_neg (Nat.not_lt.mpr hle)] at he
  subst he
  simp [LedgerState.completedOrders, hinfo]

-- A market order, which was given the last id.
theorem recordMarket {o : MarketOrder} {id filled self price : Nat} (h : Told n traded l) (lots : Nat)
    (hid : (Order.market o).getId = n)
    (hr : l.recordUserOrder k (.market o) (some (.market id filled self price)) = .ok l') :
    Told (n + 1) (bump traded n lots) l' := by
  unfold LedgerState.recordUserOrder at hr
  obtain ⟨info, hi, _, hinfo⟩ := updateAccount_cases hr
  obtain ⟨_, ho, _⟩ | ⟨_, o', ho, he, hid'⟩ := recordOrderChange_market_eq hi
  · contradiction
  cases ho
  subst he
  have hid' := hid'.trans hid
  have opened : l'.openOrders = l.openOrders := by
    funext k'
    simp only [LedgerState.openOrders, hinfo]
    split <;> simp [*]
  have entries : Entries (n + 1) l'.openOrders := opened ▸ h.entries.mono (Nat.le_succ n)
  have hne (k') (x) (hx : x ∈ l'.openOrders k') : x ∈ l.openOrders k' ∧ x.common.id ≠ n := by
    rw [opened] at hx
    exact ⟨hx, (h.entries.fresh k' x hx).ne⟩
  refine h.retold ⟨fun k' x hx => .inl (hne k' x hx), fun k' => ?_, fun k' o ho => (h.fresh k' o ho).ne⟩ entries
    (Nat.le_succ n) (Nat.lt_succ_self n) fun i hi => bump_ne hi
  simp only [LedgerState.completedOrders, hinfo]
  split
  case isFalse   => exact .inl rfl
  case isTrue hk => exact .inr ⟨.market o', by rw [hk], hid', by simp, fun k' x hx => (hne k' x hx).2⟩

theorem recordFilledOrder {f x : LimitOrder} (h : Told n traded l) (hx : x ∈ l.openOrders f.common.account)
    (hid : x.common.id = f.common.id) (hbase : x.baseLots = f.baseLots) (hfilled : x.filledBaseLots = f.filledBaseLots)
    (valid : f.Valid)
    (hr : l.updateAccount f.common.account (LedgerState.recordFilledOrder · f) = .ok l') :
    Told n (bump traded f.common.id f.remaining) l' := by
  have ⟨info, hi, _, hinfo⟩ := updateAccount_cases hr
  cases recordFilledOrder_eq hi
  case inl hn => exact absurd hid (hn.2 x hx)
  case inr hf =>
    have ⟨pre, y, post, hopen, hid', _, _, he⟩ := hf
    have hxy : x = y := h.entries.eq_of_id hx (by simp [LedgerState.openOrders, hopen]) (hid.trans hid'.symm)
    subst hxy he
    rw [← hid]
    simp only [LimitOrder.Valid] at valid
    refine h.complete hopen hinfo rfl ⟨rfl, ?_, ?_⟩
    · dsimp only
      omega
    · simp only [LimitOrder.remaining]
      omega

theorem recordFilledOrders {os : List LimitOrder} (h : Told n traded l) (hnodup : (orderIds os).Nodup)
    (hos : ∀ f ∈ os, f.Valid ∧ ∃ x ∈ l.openOrders f.common.account, x.common.id = f.common.id ∧
      x.baseLots = f.baseLots ∧ x.filledBaseLots = f.filledBaseLots)
    (hr : l.recordFilledOrders os = .ok l') :
    Told n (fun i => traded i + lotsOf i (os.map LimitOrder.trade)) l' := by
  unfold LedgerState.recordFilledOrders at hr
  induction os generalizing l traded
  case nil => cases hr; exact h
  case cons f fs hi =>
    simp only [List.foldlM_cons, Checked.bind_ok] at hr
    obtain ⟨l₁, hf, hr⟩ := hr
    obtain ⟨⟨valid, x, hx, hid, hbase, hfilled⟩, hos⟩ := List.forall_mem_cons.mp hos
    obtain ⟨hnot, hnodup⟩ := List.nodup_cons.mp hnodup
    have h₁ := h.recordFilledOrder hx hid hbase hfilled valid hf
    have hfs := hi h₁ hnodup (fun g hg => ?_) hr
    · have heq : (fun i => bump traded f.common.id f.remaining i + lotsOf i (fs.map LimitOrder.trade)) =
          fun i => traded i + lotsOf i ((f :: fs).map LimitOrder.trade) := by
        funext i
        simp only [bump, List.map_cons, lotsOf_cons, Nat.add_assoc]
        rfl
      exact heq ▸ hfs
    · obtain ⟨valid, y, hy, hyid, hrest⟩ := hos g hg
      refine ⟨valid, y, ?_, hyid, hrest⟩
      obtain ⟨info, hi, _, hinfo⟩ := updateAccount_cases hf
      have hne : y.common.id ≠ f.common.id := fun he => hnot (List.mem_map.mpr ⟨g, hg, hyid.symm.trans he⟩)
      simp only [LedgerState.openOrders, hinfo]
      split
      case isFalse   => exact hy
      case isTrue hk =>
        rw [(recordFilledOrder_cases hi).2]
        exact (List.mem_eraseP_of_neg (by simpa using hne)).mpr (hk ▸ hy)

-- An order is given the next id, and entered if it is a limit order.
theorem enter {e : Exchange} {t : OrderTransaction} (h : Told e.nextId traded l) (shows : l.Shows e)
    (created : Created t l (t.toOrder e.nextId) l') : Told (e.nextId + 1) traded l' := by
  have opened := shows.created created
  have completed : l'.completedOrders = l.completedOrders := by
    funext k
    simp only [LedgerState.completedOrders, created.info]
    split <;> rfl
  have entries : Entries (e.nextId + 1) l'.openOrders := by
    rw [opened]
    exact (shows.openOrders ▸ h.entries : Entries e.nextId e.openOrders).enter t
  have mem {k x} (hx : x ∈ l'.openOrders k) : x ∈ l.openOrders k ∨ t.toOrder e.nextId = .limit x := by
    rw [opened, Exchange.enter] at hx
    dsimp only at hx
    rw [← shows.openOrders] at hx
    split at hx
    case isFalse => exact .inl hx
    case isTrue  =>
      refine (List.mem_append.mp hx).imp id fun hx => ?_
      obtain he | ⟨o, ho, he⟩ := t.entries_cases e.nextId
      · simp [he] at hx
      · rw [he, List.mem_singleton] at hx
        exact hx ▸ ho
  have hretold : Retold e.nextId (traded e.nextId) l l' := by
    refine ⟨fun k x hx => ?_, fun k => .inl (by rw [completed]), fun k o ho => (h.fresh k o ho).ne⟩
    cases mem hx
    case inl hx => exact .inl ⟨hx, (h.entries.fresh k x hx).ne⟩
    case inr hx =>
      obtain ⟨_, _, _, he⟩ := OrderTransaction.toOrder_limit hx
      subst he
      exact .inr ⟨rfl, .inl rfl, (h.untraded _ le_rfl).symm⟩
  exact h.retold hretold entries (Nat.le_succ _) (Nat.lt_succ_self _) fun _ _ => rfl

end Told

-- The trades of a match, from what is reported of it. Nothing is filled of an order that its own account takes.
def ExecutionResults.trades (r : ExecutionResults) : List Trade :=
  (liveOrders r.filledOrders).map LimitOrder.trade ++ r.residualOrder.toList.map ResidualOrder.trade

-- The lots that an order has traded with other accounts in a match, be it the incoming order `taker` of the account
-- `source` or one of the resting orders.
def lotsWithOthers (taker : Nat) (source : PublicKeyHash) (trades : List Trade) (id : Nat) : Nat :=
  ((trades.filter fun x => x.account ≠ source ∧ (x.orderId = id ∨ taker = id)).map Trade.lots).sum

-- The incoming order has part in all trades, a resting one in its own.
theorem lotsWithOthers_eq {taker id : Nat} {source : PublicKeyHash} {trades : List Trade}
    (hown : ∀ x ∈ trades, x.account = source → x.lots = 0) (hid : ∀ x ∈ trades, x.orderId ≠ taker) :
    lotsWithOthers taker source trades id =
      (if id = taker then (trades.map Trade.lots).sum else 0) + lotsOf id trades := by
  induction trades
  case nil => simp [lotsWithOthers, lotsOf]
  case cons x xs hi =>
    have ⟨hx, hown⟩ := List.forall_mem_cons.mp hown
    have ⟨hne, hid⟩ := List.forall_mem_cons.mp hid
    have hi := hi hown hid
    simp only [lotsWithOthers, lotsOf_cons, List.filter_cons, List.map_cons, List.sum_cons] at hi ⊢
    grind

namespace Fill

variable {own : LimitOrder → Bool} {f : Fill}

def trade (own : LimitOrder → Bool) (f : Fill) : Trade where
  orderId := f.order.common.id
  account := f.order.common.account
  lots := if own f.order then 0 else f.lots

theorem after_trade (hw : f.Whole) (hl : f.lots ≤ f.order.remaining) : (f.after own).trade = f.trade own := by
  have heq : f.lots = f.order.remaining := Nat.le_antisymm hl hw
  simp only [LimitOrder.trade, trade, after_common, Trade.mk.injEq, true_and]
  cases h : own f.order
  case false => rw [after_whole h hw, heq, if_neg (by simp)]
  case true  =>
    rw [after_own h, heq, if_pos rfl]
    simp only [LimitOrder.remaining]
    omega

-- An order that is used up keeps the counter of what was filled before.
theorem after_whole_valid (hw : f.Whole) (hl : f.lots ≤ f.order.remaining) (hv : f.order.Valid) :
    (f.after own).Valid ∧ (f.after own).baseLots = f.order.baseLots ∧
      (f.after own).filledBaseLots = f.order.filledBaseLots := by
  cases h : own f.order
  case false => rw [after_whole h hw]; exact ⟨hv, rfl, rfl⟩
  case true  =>
    rw [after_own h]
    refine ⟨?_, rfl, rfl⟩
    simp only [LimitOrder.Valid, LimitOrder.remaining] at hv hl ⊢
    omega

end Fill

-- No entry of the book was cancelled.
def SpotMarket.AllLive (m : SpotMarket) : Prop :=
  ∀ o ∈ m.orders, o.IsLive

section Match

variable {m m' : SpotMarket} {precision : MarketPrecision} {order : Order} {accounts accounts' : Accounts}
         {r : ExecutionResults}

theorem countCancelled_eq_zero {orders : List LimitOrder} : countCancelled orders = 0 ↔ ∀ o ∈ orders, o.IsLive := by
  simp [countCancelled]

theorem SpotMarket.AllLive.sweep (h : m.AllLive) (precision : MarketPrecision) (order : Order) :
    let sw := m.sweep precision order
    (∀ o ∈ sw.drained, o.IsLive) ∧ (m.setSide order.direction.flip sw.levels.reverse).AllLive := by
  have hbefore := countCancelled_eq_zero.mpr h
  have hcount := (m.taken precision order).cancelled
  have hold := ((m.orders_perm order.direction.flip).trans (sideOrders_reverse.symm.append_right _)).countP_eq
    (¬·.IsLive)
  have hnew := ((@orders_setSide m order.direction.flip _).trans
    ((@sideOrders_reverse (m.sweep precision order).levels).append_right _)).countP_eq (¬·.IsLive)
  simp only [AllLive, ← countCancelled_eq_zero, countCancelled, List.countP_append] at hbefore hcount hold hnew ⊢
  omega

theorem SpotMarket.AllLive.addOrder {o : LimitOrder} (h : m.AllLive) (live : o.IsLive) (ha : m.addOrder o = .ok m') :
    m'.AllLive := by
  intro x hx
  cases List.mem_cons.mp ((addOrder_orders ha).mem_iff.mp hx)
  case inl he => exact he ▸ live
  case inr hx => exact h x hx

theorem SpotMarket.AllLive.afterMatch (h : m.AllLive) (hlive : ∀ o, order = .limit o → o.IsLive)
    (hm : m.AfterMatch precision order m') : m'.AllLive := by
  intro o ho
  cases List.mem_append.mp (hm.orders.mem_iff.mp ho)
  case inr ho => exact (h.sweep precision order).2 o ho
  case inl ho =>
    cases order
    case market  => contradiction
    case limit x =>
      obtain ⟨_, he⟩ : _ ∧ o = m.leaves precision x := by simpa [leftover] using ho
      subst he
      exact hlive x rfl

theorem Matched.trades_eq (h : Matched m precision order accounts m' accounts' r) :
    let fills := (m.sweep precision order).fills
    r.trades = (wholes fills ++ parts fills).map (Fill.trade order.own) := by
  have taken := m.taken precision order
  dsimp only
  rw [ExecutionResults.trades, h.filled, h.residual, taken.used, taken.rested, List.map_map, List.map_map,
    List.map_append]
  congr 1
  refine List.map_congr_left fun f hf => ?_
  obtain ⟨hmem, hw⟩ := List.mem_filter.mp hf
  exact Fill.after_trade (by simpa using hw) (taken.lots f hmem)

-- Where all that is taken belongs to others, the trades are for all the lots.
theorem Matched.trades_lots (h : Matched m precision order accounts m' accounts' r)
    (hown : ∀ f ∈ (m.sweep precision order).fills, order.own f.order = false) :
    (r.trades.map Trade.lots).sum = sumLots (m.sweep precision order).fills := by
  have hperm := List.filter_append_perm (fun f : Fill => decide f.Whole) (m.sweep precision order).fills
  have hlots : ((m.sweep precision order).fills.map (fun f => (f.trade order.own).lots)).sum =
      sumLots (m.sweep precision order).fills := by
    refine congrArg List.sum (List.map_congr_left fun f hf => ?_)
    simp [Fill.trade, hown f hf]
  rw [h.trades_eq, List.map_map, ← hlots]
  refine List.Perm.sum_eq (List.Perm.map _ ?_)
  simpa [wholes, parts] using hperm

theorem SpotMarket.Sound.drained_nodup {n : Nat} (h : m.Sound n) (precision : MarketPrecision) (order : Order) :
    (orderIds (m.sweep precision order).drained).Nodup := by
  have hids := (m.sweep_terms precision order).map (·.common.id)
  have hnodup := h.nodup
  rw [← orderIds_terms, orderIds, hids.nodup_iff, List.map_append, List.nodup_append] at hnodup
  rw [← orderIds_terms]
  exact hnodup.1

variable {e : Exchange} {traded : Nat → Nat} {l l₁ l₂ : LedgerState} {c : SpotClearingHouse} {t : OrderTransaction}

theorem sweep_fills_live {f : Fill} (hf : f ∈ (m.sweep precision order).fills) : f.order ∈ liveOrders m.orders := by
  have ⟨rest, hbefore, _⟩ := m.sweep_live precision order
  exact hbefore.mem_iff.mpr (List.mem_append_left _ (List.mem_map_of_mem hf))

-- What an order takes from its own account counts as nothing, and a limit order takes nothing from it.
theorem Exchange.Consistent.own_of_account (h : e.Consistent)
    (hcross : crossesOwnOrder (e.openOrders t.source) t = false)
    {f : Fill} (hf : f ∈ (e.market.sweep precision (t.toOrder e.nextId)).fills)
    (hacc : f.order.common.account = t.source) : (t.toOrder e.nextId).own f.order = true := by
  cases ho : t.toOrder e.nextId
  case market o =>
    have hsource : (t.toOrder e.nextId).getAccount = t.source := t.toOrder_account
    rw [ho] at hsource
    cases o <;> simpa [Order.own, ofAccount, Order.getAccount] using hacc.trans hsource.symm
  case limit o =>
    obtain ⟨price, size, ht, heq⟩ := OrderTransaction.toOrder_limit ho
    rw [ho] at hf
    have hsource : o.common.account = t.source := by rw [heq]
    refine absurd (hacc.trans hsource.symm) (h.account_ne ?_ hf)
    simpa only [crossesOwnOrder, ht, heq] using hcross

theorem Exchange.Consistent.fills_fresh (h : e.Consistent) {f : Fill}
    (hf : f ∈ (e.market.sweep precision order).fills) :
    f.order.common.id < e.nextId :=
  h.sound.fresh _ (mem_liveOrders.mp (sweep_fills_live hf)).1

-- The lots of an order in a match: all of them for the incoming one, and its own for a resting one.
theorem Exchange.Consistent.lotsWithOthers (h : e.Consistent)
    (hcross : crossesOwnOrder (e.openOrders t.source) t = false)
    (hmatch : Matched e.market precision (t.toOrder e.nextId) accounts m' accounts' r) (id : Nat) :
    lotsWithOthers e.nextId t.source r.trades id =
      (if id = e.nextId then (r.trades.map Trade.lots).sum else 0) + lotsOf id r.trades := by
  have mem {x} (hx : x ∈ r.trades) : ∃ f ∈ (e.market.sweep precision (t.toOrder e.nextId)).fills,
      x = f.trade (t.toOrder e.nextId).own := by
    rw [hmatch.trades_eq] at hx
    obtain ⟨f, hf, he⟩ := List.mem_map.mp hx
    refine ⟨f, ?_, he.symm⟩
    exact (List.mem_append.mp hf).elim List.mem_of_mem_filter List.mem_of_mem_filter
  refine lotsWithOthers_eq (fun x hx hacc => ?_) fun x hx => ?_
  · obtain ⟨f, hf, he⟩ := mem hx
    subst he
    simp [Fill.trade, h.own_of_account hcross hf hacc]
  · obtain ⟨f, hf, he⟩ := mem hx
    subst he
    exact (h.fills_fresh hf).ne

-- The incoming order has part in all trades.
theorem Told.recordTaker (h : Told e.nextId traded l) (shows : l.Shows e)
    (hmatch : Matched e.market .supeUsd (t.toOrder e.nextId) e.accounts m' accounts' r)
    (hpart : ∀ o, t.toOrder e.nextId = .limit o →
      sumLots (e.market.sweep .supeUsd (t.toOrder e.nextId)).fills < o.baseLots)
    (created : Created t l (t.toOrder e.nextId) l₁)
    (hrecord : { l₁ with spotClearinghouse := c }.recordUserOrder t.source (t.toOrder e.nextId) r.userOrderChange =
      .ok l₂) :
    Told (e.nextId + 1) (bump traded e.nextId (r.trades.map Trade.lots).sum) l₂ := by
  obtain ⟨change, hchange, hreports⟩ := hmatch.change
  rw [hchange] at hrecord
  cases ho : t.toOrder e.nextId
  case market o =>
    rw [ho] at hrecord hreports
    obtain ⟨_, _, _, _, he⟩ := hreports
    subst he
    have hsame : l.SameHistory l₁ := by
      refine .of_info fun k => ?_
      rw [created.info, ho]
      dsimp only
      split <;> simp [Order.entries]
    refine Told.recordMarket ((h.same hsame).same (.setClearinghouse l₁ c)) _ ?_ hrecord
    rw [← ho]
    unfold OrderTransaction.toOrder
    cases t.orderType
    case limit  => rfl
    case market => cases t.direction <;> rfl
  case limit o =>
    have hown (f : Fill) (_ : f ∈ (e.market.sweep .supeUsd (t.toOrder e.nextId)).fills) :
        (t.toOrder e.nextId).own f.order = false := by rw [ho]; rfl
    have hentered : Entered e.nextId (t.toOrder e.nextId) t.source l₁ := .enter (shows.created created)
    have hlt := hpart o ho
    obtain ⟨hfilled, hself⟩ := hentered.fresh o ho
    rw [hmatch.trades_lots hown]
    rw [ho] at hrecord hreports hlt ⊢
    obtain ⟨_, he⟩ := hreports
    subst he
    have htold := (h.enter shows created).same (.setClearinghouse l₁ c)
    have hremaining : o.remaining = o.baseLots := by
      rw [LimitOrder.remaining, hfilled, hself]
      rfl
    have htold := htold.recordIncoming (hentered.entered o ho) (hremaining ▸ hlt) hrecord
    rwa [hentered.id o ho] at htold

-- The resting orders have their entries still when the incoming one has been recorded.
theorem Exchange.Consistent.covered_recordTaker (h : e.Consistent) (shows : l.Shows e)
    (hmatch : Matched e.market precision (t.toOrder e.nextId) accounts m' accounts' r)
    (created : Created t l (t.toOrder e.nextId) l₁)
    (hrecord : { l₁ with spotClearinghouse := c }.recordUserOrder t.source (t.toOrder e.nextId) r.userOrderChange =
      .ok l₂)
    {f : Fill} (hf : f ∈ (e.market.sweep precision (t.toOrder e.nextId)).fills) : Covered l₂.openOrders f.order := by
  have hentered : Entered e.nextId (t.toOrder e.nextId) t.source l₁ := .enter (shows.created created)
  have hcov : Covered l₁.openOrders f.order := by
    rw [shows.created created]
    exact Exchange.Consistent.covered_enter (h.covered _ (sweep_fills_live hf))
  rw [← (SameHistory.setClearinghouse l₁ c).openOrders] at hcov
  refine Covered.recordUserOrder hcov hrecord fun hch => ?_
  obtain ⟨change, hchange, hreports⟩ := hmatch.change
  cases hchange.symm.trans hch
  rw [(hentered.reported hreports).1]
  exact (h.fills_fresh hf).ne

-- The records after a match tell of its trades, if the book has no cancelled entries and something is left of an
-- incoming limit order.
theorem Told.matched (h : Told e.nextId traded l) (shows : l.Shows e) (cons : e.Consistent) (live : e.market.AllLive)
    (hcross : crossesOwnOrder (e.openOrders t.source) t = false)
    (hmatch : Matched e.market .supeUsd (t.toOrder e.nextId) e.accounts m' accounts' r)
    (hpart : ∀ o, t.toOrder e.nextId = .limit o →
      sumLots (e.market.sweep .supeUsd (t.toOrder e.nextId)).fills < o.baseLots)
    (created : Created t l (t.toOrder e.nextId) l₁)
    (hrecord : { l₁ with spotClearinghouse := c }.recordResults t.source (t.toOrder e.nextId) (some r) = .ok l₂) :
    Told (e.nextId + 1) (fun i => traded i + lotsWithOthers e.nextId t.source r.trades i) l₂ := by
  simp only [LedgerState.recordResults, Checked.bind_ok] at hrecord
  obtain ⟨l₃, huser, l₄, hfilled, hresidual⟩ := hrecord
  have taken := e.market.taken .supeUsd (t.toOrder e.nextId)
  have hlive : liveOrders r.filledOrders = r.filledOrders := by
    rw [hmatch.filled]
    exact List.filter_eq_self.mpr (by simpa using (live.sweep .supeUsd (t.toOrder e.nextId)).1)
  have hwholes : r.filledOrders = (wholes (e.market.sweep .supeUsd (t.toOrder e.nextId)).fills).map
      (Fill.after (t.toOrder e.nextId).own) := by
    rw [← hlive, hmatch.filled, taken.used]
  have htaker := h.recordTaker shows hmatch hpart created huser
  have hmakers := htaker.recordFilledOrders ?nodup ?covered hfilled
  case nodup =>
    rw [hmatch.filled]
    exact cons.sound.drained_nodup .supeUsd _
  case covered =>
    -- The entry of an order that was used up has the counters of the book.
    intro x hx
    rw [hwholes] at hx
    obtain ⟨f, hf, he⟩ := List.mem_map.mp hx
    subst he
    obtain ⟨hf, hw⟩ := List.mem_filter.mp hf
    obtain ⟨valid, hbase, hbefore⟩ := Fill.after_whole_valid (by simpa using hw) (taken.lots f hf) (hmatch.valid f hf)
    obtain ⟨y, hy, hcore⟩ := cons.covered_recordTaker shows hmatch created huser hf
    obtain ⟨hid, _, _, _, hyb, hyf, _⟩ := LimitOrder.eq_of_core hcore
    refine ⟨valid, y, ?_, ?_, hyb.trans hbase.symm, hyf.trans hbefore.symm⟩
    · rw [Fill.after_common]; exact hy
    · rw [Fill.after_common]; exact hid
  have hlots (i : Nat) : traded i + lotsWithOthers e.nextId t.source r.trades i =
      bump traded e.nextId (r.trades.map Trade.lots).sum i + lotsOf i (r.filledOrders.map LimitOrder.trade) +
        lotsOf i (r.residualOrder.toList.map ResidualOrder.trade) := by
    have happend : lotsOf i r.trades = lotsOf i (r.filledOrders.map LimitOrder.trade) +
        lotsOf i (r.residualOrder.toList.map ResidualOrder.trade) := by
      rw [ExecutionResults.trades, lotsOf_append, hlive]
    rw [cons.lotsWithOthers hcross hmatch, happend, bump]
    omega
  rw [funext hlots]
  exact hmakers.recordResidual hresidual

end Match
end Superliquid

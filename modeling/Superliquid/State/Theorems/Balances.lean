import Mathlib.Tactic.Linarith
import Superliquid.State.Clearinghouse

namespace Superliquid

open AccountTokenBalance

-- The sum of an account's balances of an asset, and of those of all accounts.
def AccountBalance.total (asset : AssetId) (b : AccountBalance) : Nat :=
  ((b.assetBalances.filter (·.assetId = asset)).map totalBalance).sum

def Accounts.total (accounts : Accounts) (asset : AssetId) : Nat :=
  Map.total accounts (AccountBalance.total asset)

-- An update that adds to the two numbers of a balance.
structure Shifts (f : AccountTokenBalance → Checked AccountTokenBalance) (available total : Int) : Prop where
  assetId   : ∀ {b b'}, f b = .ok b' → b'.assetId = b.assetId
  available : ∀ {b b'}, f b = .ok b' → (b'.availableBalance : Int) = b.availableBalance + available
  total     : ∀ {b b'}, f b = .ok b' → (b'.totalBalance : Int) = b.totalBalance + total

namespace Shifts

theorem credit (n : Nat) : Shifts (credit n) n n := by
  constructor
  all_goals
    intro b b' h
    simp only [AccountTokenBalance.credit, Checked.bind_ok, Checked.pure_ok, U128.add_ok] at h
    have ⟨_, ⟨_, ht⟩, _, ⟨_, ha⟩, h⟩ := h
    subst ht ha h
    simp

theorem debitTotal (n : Nat) : Shifts (debitTotal n) 0 (-n) := by
  constructor
  all_goals
    intro b b' h
    simp only [AccountTokenBalance.debitTotal, Checked.bind_ok, Checked.pure_ok, Checked.sub_ok] at h
    have ⟨_, ⟨_, ht⟩, h⟩ := h
    subst ht h
    simp <;> omega

theorem unlock (n : Nat) : Shifts (unlock n) n 0 := by
  constructor
  all_goals
    intro b b' h
    simp only [AccountTokenBalance.unlock, Checked.bind_ok, Checked.pure_ok, U128.add_ok] at h
    have ⟨_, ⟨_, ha⟩, h⟩ := h
    subst ha h
    simp

theorem lock (n : Nat) : Shifts (lock n) (-n) 0 := by
  constructor
  all_goals
    intro b b' h
    simp only [AccountTokenBalance.lock, Checked.bind_ok, Checked.pure_ok, Checked.sub_ok] at h
    have ⟨_, ⟨_, ha⟩, h⟩ := h
    subst ha h
    simp <;> omega

theorem unlockAndSpend (n spent : Nat) : Shifts (unlockAndSpend n spent) (n - spent) (-spent) := by
  constructor
  all_goals
    intro b b' h
    simp only [AccountTokenBalance.unlockAndSpend, Checked.bind_ok, Checked.pure_ok, Checked.sub_ok,
      U128.add_ok] at h
    have ⟨_, ⟨_, ha⟩, _, ⟨_, ht⟩, _, ⟨_, ha'⟩, h⟩ := h
    subst ha ht ha' h
    simp <;> omega

theorem none : Shifts pure 0 0 := by
  constructor
  all_goals
    intro b b' h
    cases h
    simp

end Shifts

variable {f : AccountTokenBalance → Checked AccountTokenBalance} {available total : Int}
         {bs bs' : List AccountTokenBalance} {asset a : AssetId}

theorem modifyAsset_total (hf : Shifts f available total)
    (h : AccountBalance.modifyAsset asset f bs = .ok bs') :
    (AccountBalance.total a { assetBalances := bs' } : Int) =
      AccountBalance.total a { assetBalances := bs } + if a = asset then total else 0 := by
  induction bs generalizing bs'
  case nil =>
    simp only [AccountBalance.modifyAsset, Checked.bind_ok, Checked.pure_ok] at h
    have ⟨b, hb, h⟩ := h
    subst h
    have hid := hf.assetId hb
    have ht := hf.total hb
    by_cases ha : a = asset <;> simp_all [AccountBalance.total, AccountTokenBalance.empty, eq_comm]
  case cons b bs hi =>
    unfold AccountBalance.modifyAsset at h
    split at h
    case isTrue hb =>
      simp only [Checked.bind_ok, Checked.pure_ok] at h
      have ⟨b', hb', h⟩ := h
      subst h
      have hid := hf.assetId hb'
      have ht := hf.total hb'
      by_cases ha : a = asset
      case pos =>
        simp only [AccountBalance.total, List.filter_cons, hid, hb, ha, decide_true, if_true, List.map_cons,
          List.sum_cons, Nat.cast_add, ht]
        omega
      case neg =>
        have : ¬asset = a := fun h => ha h.symm
        simp [AccountBalance.total, hid, hb, ha, this]
    case isFalse hb =>
      simp only [Checked.bind_ok, Checked.pure_ok] at h
      have ⟨bs'', hbs, h⟩ := h
      subst h
      have hi := hi hbs
      simp only [AccountBalance.total, List.filter_cons] at hi ⊢
      split
      · simp only [List.map_cons, List.sum_cons, Nat.cast_add]
        omega
      · exact hi

section Accounts

variable {accounts accounts' : Accounts} {k : PublicKeyHash}

theorem lookup_total :
    (accounts.lookup k).elim 0 (AccountBalance.total a) =
      AccountBalance.total a ((accounts.lookup k).getD .new) := by
  cases accounts.lookup k <;> simp [AccountBalance.new, AccountBalance.total]

theorem getAccountTokenBalanceMut_total (hf : Shifts f available total)
    (h : accounts.getAccountTokenBalanceMut k asset f = .ok accounts') :
    (accounts'.total a : Int) = accounts.total a + if a = asset then total else 0 := by
  simp only [Accounts.getAccountTokenBalanceMut, Checked.bind_ok, Checked.pure_ok] at h
  have ⟨bs, hbs, h⟩ := h
  subst h
  have hm := modifyAsset_total (a := a) hf hbs
  have ht := Map.total_insert accounts k { assetBalances := bs } (AccountBalance.total a)
  rw [lookup_total] at ht
  simp only [Accounts.total]
  linarith

theorem getAccountBalanceMut_total : (accounts.getAccountBalanceMut k).total a = accounts.total a := by
  have ht := Map.total_insert accounts k ((accounts.lookup k).getD .new) (AccountBalance.total a)
  rw [lookup_total] at ht
  exact Nat.add_right_cancel ht

theorem reserve_total {amount : Nat} {enough : Bool}
    (h : accounts.reserve k asset amount = .ok (accounts', enough)) : accounts'.total a = accounts.total a := by
  unfold Accounts.reserve at h
  split at h
  all_goals
    simp only [Checked.bind_ok, Checked.pure_ok, Prod.mk.injEq] at h
    have ⟨_, hu, hr, _⟩ := h
    subst hr
  case isTrue  => simpa using getAccountTokenBalanceMut_total (a := a) .none hu
  case isFalse => simpa using getAccountTokenBalanceMut_total (a := a) (.lock amount) hu

end Accounts

section Balance

variable {accounts accounts' : Accounts} {k : PublicKeyHash}

theorem modifyAsset_balance (hf : ∀ {b b'}, f b = .ok b' → b'.assetId = b.assetId)
    (h : AccountBalance.modifyAsset asset f bs = .ok bs') :
    ∃ b, f ((bs.find? (·.assetId = asset)).getD (.empty asset)) = .ok b ∧ ∀ a,
      (bs'.find? (·.assetId = a)).getD (.empty a) =
        if a = asset then b else (bs.find? (·.assetId = a)).getD (.empty a) := by
  induction bs generalizing bs'
  case nil =>
    simp only [AccountBalance.modifyAsset, Checked.bind_ok, Checked.pure_ok] at h
    have ⟨b, hb, h⟩ := h
    subst h
    have hid : b.assetId = asset := hf hb
    refine ⟨b, hb, fun a => ?_⟩
    split
    case isTrue he  => simp [he, hid]
    case isFalse he => simp [hid, Ne.symm he]
  case cons b bs hi =>
    unfold AccountBalance.modifyAsset at h
    split at h
    case isTrue he =>
      simp only [Checked.bind_ok, Checked.pure_ok] at h
      have ⟨b', hb, h⟩ := h
      subst h
      have hid : b'.assetId = asset := (hf hb).trans he
      refine ⟨b', by simpa [he] using hb, fun a => ?_⟩
      split
      case isTrue ha  => simp [ha, hid]
      case isFalse ha => simp [hid, he, Ne.symm ha]
    case isFalse he =>
      simp only [Checked.bind_ok, Checked.pure_ok] at h
      have ⟨bs'', hbs, h⟩ := h
      subst h
      have ⟨b', hb, hbal⟩ := hi hbs
      refine ⟨b', by simpa [he] using hb, fun a => ?_⟩
      by_cases ha : b.assetId = a
      case pos =>
        have hne : a ≠ asset := fun h => he (ha.trans h)
        simp [ha, hne]
      case neg => simpa [ha] using hbal a

theorem modifyAsset_ok {b : AccountTokenBalance}
    (h : f ((bs.find? (·.assetId = asset)).getD (.empty asset)) = .ok b) :
    ∃ bs', AccountBalance.modifyAsset asset f bs = .ok bs' := by
  induction bs
  case nil => exact ⟨[b], Checked.bind_ok.mpr ⟨b, h, rfl⟩⟩
  case cons b' bs hi =>
    unfold AccountBalance.modifyAsset
    split
    case isTrue he =>
      have hb : f b' = .ok b := by simpa [he] using h
      exact ⟨b :: bs, Checked.bind_ok.mpr ⟨b, hb, rfl⟩⟩
    case isFalse he =>
      have ⟨bs', hbs⟩ := hi (by simpa [he] using h)
      exact ⟨b' :: bs', Checked.bind_ok.mpr ⟨bs', hbs, rfl⟩⟩

theorem getAccountTokenBalanceMut_ok {b : AccountTokenBalance} (h : f (accounts.balance k asset) = .ok b) :
    ∃ accounts', accounts.getAccountTokenBalanceMut k asset f = .ok accounts' :=
  have ⟨_, hbs⟩ := modifyAsset_ok h
  ⟨_, Checked.bind_ok.mpr ⟨_, hbs, rfl⟩⟩

-- One balance is changed, all others stay.
theorem getAccountTokenBalanceMut_balance (hf : ∀ {b b'}, f b = .ok b' → b'.assetId = b.assetId)
    (h : accounts.getAccountTokenBalanceMut k asset f = .ok accounts') :
    ∃ b, f (accounts.balance k asset) = .ok b ∧ ∀ k' a,
      accounts'.balance k' a = if k' = k ∧ a = asset then b else accounts.balance k' a := by
  simp only [Accounts.getAccountTokenBalanceMut, Checked.bind_ok, Checked.pure_ok] at h
  have ⟨bs, hbs, h⟩ := h
  have ⟨b, hb, hbal⟩ := modifyAsset_balance hf hbs
  subst h
  refine ⟨b, hb, fun k' a => ?_⟩
  by_cases hk : k' = k
  case pos =>
    subst hk
    simpa [Accounts.balance, AccountBalance.findAssetId] using hbal a
  case neg => simp [Accounts.balance, AList.lookup_insert_ne hk, hk]

@[simp]
theorem getAccountBalanceMut_balance {k' : PublicKeyHash} :
    (accounts.getAccountBalanceMut k).balance k' a = accounts.balance k' a := by
  by_cases hk : k' = k
  case pos => subst hk; simp [Accounts.balance, Accounts.getAccountBalanceMut]
  case neg => simp [Accounts.balance, Accounts.getAccountBalanceMut, AList.lookup_insert_ne hk]

-- What an account cannot spend of an asset.
def Accounts.locked (accounts : Accounts) (k : PublicKeyHash) (a : AssetId) : Int :=
  (accounts.balance k a).totalBalance - (accounts.balance k a).availableBalance

theorem getAccountTokenBalanceMut_locked (hf : Shifts f available total)
    (h : accounts.getAccountTokenBalanceMut k asset f = .ok accounts') (k' : PublicKeyHash) (a : AssetId) :
    accounts'.locked k' a = accounts.locked k' a + if k' = k ∧ a = asset then total - available else 0 := by
  have ⟨b, hb, hbal⟩ := getAccountTokenBalanceMut_balance hf.assetId h
  have ha := hf.available hb
  have ht := hf.total hb
  simp only [Accounts.locked, hbal]
  split
  case isTrue he =>
    rw [he.1, he.2]
    omega
  case isFalse => simp

theorem getAccountTokenBalanceMut_available (hf : Shifts f available total)
    (h : accounts.getAccountTokenBalanceMut k asset f = .ok accounts') (k' : PublicKeyHash) (a : AssetId) :
    ((accounts'.balance k' a).availableBalance : Int) =
      (accounts.balance k' a).availableBalance + if k' = k ∧ a = asset then available else 0 := by
  have ⟨b, hb, hbal⟩ := getAccountTokenBalanceMut_balance hf.assetId h
  rw [hbal]
  split
  case isTrue he => rw [he.1, he.2, hf.available hb]
  case isFalse   => simp

theorem getAccountTokenBalanceMut_other {k' : PublicKeyHash} (hf : Shifts f available total)
    (h : accounts.getAccountTokenBalanceMut k asset f = .ok accounts') (hk : k' ≠ k) (a : AssetId) :
    accounts'.balance k' a = accounts.balance k' a := by
  have ⟨b, _, hbal⟩ := getAccountTokenBalanceMut_balance hf.assetId h
  rw [hbal, if_neg fun he => hk he.1]

theorem getAccountBalanceMut_locked {k' : PublicKeyHash} :
    (accounts.getAccountBalanceMut k).locked k' a = accounts.locked k' a := by
  simp [Accounts.locked]

theorem reserve_locked {amount : Nat} (h : accounts.reserve k asset amount = .ok (accounts', true))
    (k' : PublicKeyHash) (a : AssetId) :
    accounts'.locked k' a = accounts.locked k' a + if k' = k ∧ a = asset then (amount : Int) else 0 := by
  unfold Accounts.reserve at h
  split at h
  all_goals simp only [Checked.bind_ok, Checked.pure_ok, Prod.mk.injEq, Bool.false_eq_true, and_false,
    exists_false, and_true, exists_eq_right] at h
  case isFalse => simpa using getAccountTokenBalanceMut_locked (.lock amount) h k' a

-- Whether funds suffice is all that decides about a reservation.
theorem reserve_ok (accounts : Accounts) (k : PublicKeyHash) (asset : AssetId) (amount : Nat) :
    ∃ accounts', accounts.reserve k asset amount =
      .ok (accounts', decide (amount ≤ (accounts.balance k asset).availableBalance)) := by
  unfold Accounts.reserve
  split
  case isTrue hlt =>
    have ⟨accounts', h⟩ : ∃ accounts', accounts.getAccountTokenBalanceMut k asset pure = .ok accounts' :=
      getAccountTokenBalanceMut_ok rfl
    exact ⟨accounts', Checked.bind_ok.mpr ⟨accounts', h, by simp [hlt, pure, Except.pure]⟩⟩
  case isFalse hle =>
    have hle := Nat.le_of_not_lt hle
    have ⟨accounts', h⟩ : ∃ accounts', accounts.getAccountTokenBalanceMut k asset (lock amount) = .ok accounts' :=
      getAccountTokenBalanceMut_ok (Checked.bind_ok.mpr ⟨_, Checked.sub_eq_ok hle, rfl⟩)
    exact ⟨accounts', Checked.bind_ok.mpr ⟨accounts', h, by simp [hle, pure, Except.pure]⟩⟩

theorem reserve_other {amount : Nat} {enough : Bool} {k' : PublicKeyHash}
    (h : accounts.reserve k asset amount = .ok (accounts', enough)) (hk : k' ≠ k) (a : AssetId) :
    accounts'.balance k' a = accounts.balance k' a := by
  unfold Accounts.reserve at h
  split at h
  all_goals
    simp only [Checked.bind_ok, Checked.pure_ok, Prod.mk.injEq] at h
    obtain ⟨_, h, ha, _⟩ := h
    subst ha
  case isTrue  => exact getAccountTokenBalanceMut_other .none h hk a
  case isFalse => exact getAccountTokenBalanceMut_other (.lock amount) h hk a

-- Without enough funds nothing changes.
theorem reserve_balance {amount : Nat} (h : accounts.reserve k asset amount = .ok (accounts', false))
    (k' : PublicKeyHash) (a : AssetId) : accounts'.balance k' a = accounts.balance k' a := by
  unfold Accounts.reserve at h
  split at h
  all_goals simp only [Checked.bind_ok, Checked.pure_ok, Prod.mk.injEq, Bool.true_eq_false, and_false,
    exists_false, and_true, exists_eq_right] at h
  case isTrue =>
    have ⟨b, hb, hbal⟩ := getAccountTokenBalanceMut_balance Shifts.none.assetId h
    cases hb
    rw [hbal]
    split
    case isTrue he => rw [he.1, he.2]
    case isFalse   => rfl

end Balance

end Superliquid

import Superliquid.Hotstuff.Theorems.Mempool
import Superliquid.Lib.Steps

namespace Superliquid

namespace PriorityMempool

variable {m m' : PriorityMempool} {popped : List PriorityIndex} {ts : List SignedTransaction} {n : Nat}

-- Every transaction waits under its own key.
def Owned (m : PriorityMempool) : Prop :=
  ∀ key t, m.queued key = some t → keyOf t = key

-- How often a transaction waits.
def holds (m : PriorityMempool) (t : SignedTransaction) : Nat :=
  if m.queued (keyOf t) = some t then 1 else 0

-- The counters are only ever too high: keys of replaced transactions stay in the buckets.
structure Counted (m : PriorityMempool) : Prop where
  owned  : m.Owned
  ready  : m.keys.length ≤ m.readyTransactionsLength
  stored : m.stored ≤ m.length

namespace Popping

-- All counters go down by the number of transactions that were found.
theorem counts (h : Popping m popped m' ts) :
    ts.length ≤ popped.length ∧ m'.length + ts.length = m.length ∧
    m'.readyTransactionsLength + ts.length = m.readyTransactionsLength ∧ m'.stored + ts.length = m.stored := by
  induction h
  case nil => simp
  case skipped hi =>
    simp only [List.length_cons]
    omega
  case taken takes _ hi =>
    have := takes.length
    have := takes.ready
    have := takes.stored
    simp only [List.length_cons]
    omega

theorem owned (h : Popping m popped m' ts) (ho : m.Owned) : m'.Owned := by
  intro key t hq
  rw [h.queued.1] at hq
  split at hq
  case isTrue  => contradiction
  case isFalse => exact ho key t hq

-- A key that was popped is empty afterwards.
theorem nodup (h : Popping m popped m' ts) (ho : m.Owned) : (ts.map keyOf).Nodup := by
  induction h
  case nil => simp
  case skipped hi => exact hi ho
  case taken m₁ key t m₂ _ _ _ takes h hi =>
    have ho₂ : m₂.Owned := by
      intro key' t' hq
      rw [takes.rest] at hq
      split at hq
      case isTrue  => contradiction
      case isFalse => exact ho key' t' hq
    refine List.nodup_cons.mpr ⟨fun hmem => ?_, hi ho₂⟩
    have ⟨t', ht', he⟩ := List.mem_map.mp hmem
    have ⟨key', _, hq⟩ := h.queued.2 t' ht'
    have : key' = key := by rw [← ho₂ key' t' hq, he, ho key t takes.queued]
    rw [this, takes.rest, if_pos rfl] at hq
    contradiction

-- What was popped no longer waits.
theorem count_le (h : Popping m popped m' ts) (ho : m.Owned) (t : SignedTransaction) :
    ts.count t + m'.holds t ≤ m.holds t := by
  have hnodup := h.nodup ho
  have ⟨hq, ht⟩ := h.queued
  by_cases hmem : t ∈ ts
  case pos =>
    have ⟨key, hkey, hkt⟩ := ht t hmem
    obtain rfl := ho key t hkt
    have hcount : ts.count t = 1 := List.count_eq_one_of_mem (.of_map _ hnodup) hmem
    simp [holds, hkt, hq, hkey, hcount]
  case neg =>
    rw [List.count_eq_zero_of_not_mem hmem, Nat.zero_add]
    simp only [holds, hq]
    by_cases hp : keyOf t ∈ popped
    case pos => simp [hp]
    case neg => simp [hp]

end Popping

-- No counter underflows.
theorem popKeys_total (hr : popped.length ≤ m.readyTransactionsLength) (hs : m.stored ≤ m.length) :
    ∃ m' ts, m.popKeys popped = .ok (m', ts) := by
  induction popped generalizing m
  case nil => exact ⟨_, _, rfl⟩
  case cons key popped hi =>
    obtain ⟨pk, n⟩ := key
    simp only [List.length_cons] at hr
    unfold popKeys
    split
    case h_1 => exact hi (by omega) hs
    case h_2 queue hqueue =>
      split
      case h_1 => exact hi (by omega) hs
      case h_2 t ht =>
        have hstored := @erase_stored m pk n (m.length - 1) (m.readyTransactionsLength - 1) queue t hqueue ht
        rw [Checked.sub_eq_ok (by omega), Checked.ok_bind, Checked.sub_eq_ok (by omega), Checked.ok_bind]
        obtain ⟨m', ts, hp⟩ := @hi { m with
          length := m.length - 1, readyTransactionsLength := m.readyTransactionsLength - 1,
          accountQueues := m.accountQueues.insert pk (queue.erase n) } (by dsimp only; omega) (by dsimp only; omega)
        exact ⟨m', t :: ts, by dsimp only; rw [hp]; rfl⟩

namespace Selects

variable {left : PriorityMempool}

theorem length_keys (h : Selects m n popped left) : m.keys.length = popped.length + left.keys.length := by
  obtain ⟨l, c, o, rfl, hl, hc, ho, -⟩ := h.buckets
  simp only [keys, hl, hc, ho, List.length_append]
  omega

theorem counted (h : Selects m n popped left) (hm : m.Counted) (hp : Popping left popped m' ts) : m'.Counted := by
  have hlen := h.length_keys
  have hready := hm.ready
  have hstored := hm.stored
  have ⟨_, hl, hr, hs⟩ := hp.counts
  have hleft : left.stored = m.stored := by simp only [PriorityMempool.stored, h.queues]
  have hk : m'.keys.length = left.keys.length := congrArg _ hp.keys
  rw [h.length] at hl
  rw [h.ready] at hr
  refine ⟨hp.owned fun key t hq => ?_, by omega, by omega⟩
  exact hm.owned key t (h.queued key ▸ hq)

end Selects

-- What a batch of at most `n` transactions looks like.
structure Batch (m : PriorityMempool) (n : Nat) (m' : PriorityMempool) (ts : List SignedTransaction) : Prop where
  counted : m'.Counted
  length  : ts.length ≤ n
  nodup   : (ts.map keyOf).Nodup
  count   : ∀ t, ts.count t + m'.holds t ≤ m.holds t

theorem Counted.popNextN (hm : m.Counted) (n : Nat) :
    ∃ m' ts, m.popNextN n = .ok (m', ts) ∧ Batch m n m' ts := by
  obtain ⟨popped, left, h, he⟩ := popNextN_selects m n
  have hlen := h.length_keys
  have hready := hm.ready
  have hstored : left.stored = m.stored := by simp only [PriorityMempool.stored, h.queues]
  obtain ⟨m', ts, hp⟩ := @popKeys_total left popped (by rw [h.ready]; omega)
    (by rw [hstored, h.length]; exact hm.stored)
  have popping := popKeys_popping hp
  have owned : left.Owned := fun key t hq => hm.owned key t (h.queued key ▸ hq)
  refine ⟨m', ts, he.trans hp, h.counted hm popping, ?_, popping.nodup owned, fun t => ?_⟩
  · exact popping.counts.1.trans (h.bounded hm.ready)
  · have := popping.count_le owned t
    simpa only [holds, h.queued] using this

theorem Counted.insert (hm : m.Counted) (txn : SignedTransaction) (expectedNonce : Nat) :
    (m.insert txn expectedNonce).Counted := by
  by_cases hlt : txn.getNonce < expectedNonce
  case pos => rwa [insert_of_lt hlt]
  case neg =>
    have hready := hm.ready
    have hstored := hm.stored
    have hkeys : (m.insert txn expectedNonce).keys.length + m.readyTransactionsLength =
        m.keys.length + (m.insert txn expectedNonce).readyTransactionsLength ∧
        (m.insert txn expectedNonce).length = m.length + 1 := by
      unfold PriorityMempool.insert
      rw [if_neg hlt]
      by_cases he : txn.getNonce = expectedNonce
      case pos => cases ht : txn.tx <;> simp [he, keys] <;> omega
      case neg => simp [he, keys]
    have outer := Map.total_insert m.accountQueues txn.getFromAccount
      (((m.accountQueues.lookup txn.getFromAccount).getD ∅).insert txn.getNonce txn) fun queue =>
        Map.total queue fun _ => 1
    have inner := Map.total_insert ((m.accountQueues.lookup txn.getFromAccount).getD ∅) txn.getNonce txn fun _ => 1
    rw [← insert_accountQueues (Nat.le_of_not_lt hlt)] at outer
    have same : Map.total ((m.accountQueues.lookup txn.getFromAccount).getD ∅) (fun _ => 1) =
        (m.accountQueues.lookup txn.getFromAccount).elim 0 fun queue => Map.total queue fun _ => 1 := by
      cases m.accountQueues.lookup txn.getFromAccount <;> simp [Map.total]
    refine ⟨fun key t hq => ?_, by omega, ?_⟩
    · rw [insert_queued] at hq
      split at hq
      case isTrue h  => cases hq; exact h.2.symm
      case isFalse h => exact hm.owned key t hq
    · simp only [PriorityMempool.stored] at hstored ⊢
      omega

theorem Counted.promote (hm : m.Counted) (next : PriorityIndex) : (updateAfterExecution.promote m next).Counted := by
  have ⟨hq, _⟩ := @promote_spec m next
  have hready := hm.ready
  refine ⟨fun key t h => hm.owned key t ?_, ?_, ?_⟩
  · rwa [queued, hq] at h
  · unfold updateAfterExecution.promote
    split
    case h_1 => exact hready
    case h_2 =>
      split
      case isTrue  => simp only [keys, List.length_append, List.length_singleton] at hready ⊢; omega
      case isFalse => exact hready
  · have hlength : (updateAfterExecution.promote m next).length = m.length := by
      unfold updateAfterExecution.promote
      split
      · rfl
      · split <;> rfl
    rw [hlength, PriorityMempool.stored, hq]
    exact hm.stored

theorem Counted.updateAfterExecution (hm : m.Counted) (nonces : List (Option (PublicKeyHash × Nat))) :
    (m.updateAfterExecution nonces).Counted :=
  List.foldlRecOn (motive := Counted) _ _ hm fun _ h next _ => h.promote next

end PriorityMempool

inductive MempoolOp
  | insert (txn : SignedTransaction) (expectedNonce : Nat)
  | popNextN (n : Nat)
  | updateAfterExecution (accountNonces : List (Option (PublicKeyHash × Nat)))

-- A mempool with all transactions that it took in, and all batches that it gave out, each with the size
-- that was asked for.
structure MempoolRun where
  mempool  : PriorityMempool
  accepted : List SignedTransaction
  batches  : List (Nat × List SignedTransaction)

namespace MempoolRun

open PriorityMempool

def new : MempoolRun where
  mempool := .new
  accepted := []
  batches := []

def step (s : MempoolRun) : MempoolOp → Checked MempoolRun
  | .insert txn expectedNonce =>
    return { s with
      mempool := s.mempool.insert txn expectedNonce
      accepted := if expectedNonce ≤ txn.getNonce then s.accepted ++ [txn] else s.accepted }
  | .popNextN n => do
    let (mempool, ts) ← s.mempool.popNextN n
    return { s with mempool, batches := s.batches ++ [(n, ts)] }
  | .updateAfterExecution accountNonces =>
    return { s with mempool := s.mempool.updateAfterExecution accountNonces }

def returned (s : MempoolRun) : List SignedTransaction :=
  s.batches.flatMap (·.2)

structure Invariant (s : MempoolRun) : Prop where
  counted : s.mempool.Counted
  batches : ∀ b ∈ s.batches, b.2.length ≤ b.1 ∧ (b.2.map keyOf).Nodup
  once    : ∀ t, s.returned.count t + s.mempool.holds t ≤ s.accepted.count t

variable {s : MempoolRun}

theorem Invariant.new : MempoolRun.new.Invariant where
  counted := ⟨by simp [Owned, queued, MempoolRun.new, PriorityMempool.new], Nat.le_refl 0, Nat.le_refl 0⟩
  batches := by simp [MempoolRun.new]
  once    := by simp [MempoolRun.new, returned, holds, queued, PriorityMempool.new]

theorem holds_insert {m : PriorityMempool} {txn : SignedTransaction} {expectedNonce : Nat} (t : SignedTransaction) :
    (m.insert txn expectedNonce).holds t ≤
      m.holds t ∨ t = txn ∧ expectedNonce ≤ txn.getNonce ∧ (m.insert txn expectedNonce).holds t ≤ 1 := by
  have hle : (m.insert txn expectedNonce).holds t ≤ 1 := by unfold holds; split <;> omega
  by_cases h : expectedNonce ≤ txn.getNonce ∧ keyOf t = keyOf txn
  case neg => left; simp only [holds, insert_queued, h, if_false]; exact Nat.le_refl _
  case pos =>
    by_cases ht : t = txn
    case pos => exact .inr ⟨ht, h.1, hle⟩
    case neg => left; simp [holds, insert_queued, h, Ne.symm ht]

theorem Invariant.step (h : s.Invariant) (op : MempoolOp) : ∃ s', s.step op = .ok s' ∧ s'.Invariant := by
  cases op
  case insert txn expectedNonce =>
    refine ⟨_, rfl, h.counted.insert txn expectedNonce, h.batches, fun t => ?_⟩
    have hcount := h.once t
    have hle : s.accepted.count t ≤
        (if expectedNonce ≤ txn.getNonce then s.accepted ++ [txn] else s.accepted).count t := by
      split
      case isTrue  => simp [List.count_append]
      case isFalse => exact Nat.le_refl _
    rcases @holds_insert s.mempool txn expectedNonce t with hh | ⟨rfl, hn, hh⟩
    · exact (Nat.add_le_add_left hh _).trans (hcount.trans hle)
    · simp only [hn, if_true, List.count_append, List.count_singleton_self]
      have : s.returned.count t ≤ s.accepted.count t := (Nat.le_add_right _ _).trans hcount
      exact Nat.add_le_add this hh
  case popNextN n =>
    have ⟨m', ts, hp, batch⟩ := h.counted.popNextN n
    refine ⟨_, by rw [MempoolRun.step, hp]; rfl, batch.counted, fun b hb => ?_, fun t => ?_⟩
    · rcases List.mem_append.mp hb with hb | hb
      · exact h.batches b hb
      · rw [List.mem_singleton.mp hb]
        exact ⟨batch.length, batch.nodup⟩
    · have := h.once t
      have := batch.count t
      simp only [returned, List.flatMap_append, List.count_append, List.flatMap_singleton] at *
      omega
  case updateAfterExecution nonces =>
    refine ⟨_, rfl, h.counted.updateAfterExecution nonces, h.batches, fun t => ?_⟩
    have := h.once t
    simpa only [returned, holds, updateAfterExecution_queued] using this

theorem batches_bounded_once (ops : List MempoolOp) :
    ∃ s, ops.foldlM step .new = .ok s ∧
      (∀ b ∈ s.batches, b.2.length ≤ b.1 ∧ (b.2.map keyOf).Nodup) ∧
      ∀ t, s.returned.count t ≤ s.accepted.count t := by
  suffices ∀ s : MempoolRun, s.Invariant → ∃ s', ops.foldlM step s = .ok s' ∧ s'.Invariant by
    have ⟨s, hs, h⟩ := this .new .new
    exact ⟨s, hs, h.batches, fun t => (Nat.le_add_right _ _).trans (h.once t)⟩
  intro s h
  induction ops generalizing s
  case nil => exact ⟨s, rfl, h⟩
  case cons op ops hi =>
    have ⟨s₁, hs, h₁⟩ := h.step op
    have ⟨s', hs', h'⟩ := hi s₁ h₁
    exact ⟨s', by rw [List.foldlM_cons, hs, Checked.ok_bind, hs'], h'⟩

end MempoolRun

def SignedTransaction.isCancel (t : SignedTransaction) : Bool :=
  match t.tx with
  | .cancelOrder _         => true
  | .transfer _ | .order _ => false

namespace PriorityMempool

-- The batch starts with its cancellations. Where anything else is in it, no cancellation is left that could
-- have been.
structure CancelsFirst (m' : PriorityMempool) (ts : List SignedTransaction) : Prop where
  order : ∃ cancels others, ts = cancels ++ others ∧ (∀ t ∈ cancels, t.isCancel) ∧ ∀ t ∈ others, ¬t.isCancel
  left  : (∃ t ∈ ts, ¬t.isCancel) → ∀ key ∈ m'.keys, ∀ t, m'.queued key = some t → ¬t.isCancel

-- The keys of cancellations are in the bucket for them, and there are no other keys in that bucket.
structure Classed (m : PriorityMempool) : Prop where
  liquidation : m.liquidation = []
  cancels     : ∀ key t, m.queued key = some t → t.isCancel → key ∈ m.keys → key ∈ m.cancel
  others      : ∀ key t, m.queued key = some t → ¬t.isCancel → key ∉ m.cancel

-- What does not mix the classes: no transaction other than a cancellation replaces one whose key is among the
-- cancellations, and no cancellation gets ready, or replaces one that is, under a key that is among the others
-- only.
def KeepsClasses (m : PriorityMempool) : MempoolOp → Prop
  | .insert txn expectedNonce =>
    (expectedNonce ≤ txn.getNonce → ¬txn.isCancel → keyOf txn ∉ m.cancel) ∧
    (expectedNonce < txn.getNonce → txn.isCancel → keyOf txn ∈ m.keys → keyOf txn ∈ m.cancel)
  | .popNextN _ => True
  | .updateAfterExecution accountNonces =>
    ∀ key ∈ accountNonces.reduceOption, ∀ t ∈ m.queued key, t.isCancel → key ∈ m.cancel

variable {m m' : PriorityMempool} {n : Nat} {ts : List SignedTransaction}

theorem Popping.append {keys₁ keys₂ : List PriorityIndex} (h : Popping m (keys₁ ++ keys₂) m' ts) :
    ∃ m₁ ts₁ ts₂, ts = ts₁ ++ ts₂ ∧ Popping m keys₁ m₁ ts₁ ∧ Popping m₁ keys₂ m' ts₂ := by
  induction keys₁ generalizing m ts
  case nil => exact ⟨m, [], ts, rfl, .nil, h⟩
  case cons key keys₁ hi =>
    cases h
    case skipped hn h =>
      have ⟨m₁, ts₁, ts₂, he, h₁, h₂⟩ := hi h
      exact ⟨m₁, ts₁, ts₂, he, .skipped hn h₁, h₂⟩
    case taken t _ _ takes h =>
      have ⟨m₁, ts₁, ts₂, he, h₁, h₂⟩ := hi h
      exact ⟨m₁, t :: ts₁, ts₂, by rw [he]; rfl, .taken takes h₁, h₂⟩

theorem Classed.cancelsFirst (hm : m.Classed) (h : m.popNextN n = .ok (m', ts)) : CancelsFirst m' ts := by
  obtain ⟨popped, left, sel, he⟩ := popNextN_selects m n
  obtain ⟨l, c, o, rfl, hl, hc, ho, hfirst⟩ := sel.buckets
  obtain ⟨rfl, hnil⟩ : l = [] ∧ left.liquidation = [] := List.append_eq_nil_iff.mp (hl ▸ hm.liquidation)
  rw [he, List.nil_append] at h
  have popping := popKeys_popping h
  obtain ⟨hq, _⟩ := popping.queued
  obtain ⟨m₁, cancels, others, rfl, h₁, h₂⟩ := popping.append
  obtain ⟨hq₁, hc₁⟩ := h₁.queued
  obtain ⟨_, hc₂⟩ := h₂.queued
  -- A cancellation with a key in a bucket has one among the cancellations.
  have ready : ∀ key t, key ∈ o ∨ key ∈ left.keys → m.queued key = some t → t.isCancel →
      key ∈ c ∨ key ∈ left.cancel := by
    intro key t hk hq ht
    rw [← List.mem_append, ← hc]
    refine hm.cancels key t hq ht ?_
    simp only [keys, hm.liquidation, hnil, hc, ho, List.nil_append, List.mem_append] at hk ⊢
    tauto
  have first : ∀ t ∈ cancels, t.isCancel := by
    intro t ht
    obtain ⟨key, hk, hkt⟩ := hc₁ t ht
    by_contra hn
    refine hm.others key t (sel.queued key ▸ hkt) hn ?_
    rw [hc]
    exact List.mem_append_left _ hk
  refine ⟨⟨cancels, others, rfl, first, fun t ht hcancel => ?_⟩, ?_⟩
  · obtain ⟨key, hk, hkt⟩ := hc₂ t ht
    rw [hq₁, sel.queued] at hkt
    split at hkt
    case isTrue => contradiction
    case isFalse hnot =>
      have hleft := (ready key t (.inl hk) hkt hcancel).resolve_left hnot
      simp [hfirst (List.ne_nil_of_mem hk)] at hleft
  · rintro ⟨t, ht, hn⟩ key hk t' hq' hcancel
    have ht := (List.mem_append.mp ht).resolve_left fun ht => hn (first t ht)
    obtain ⟨key₂, hk₂, _⟩ := hc₂ t ht
    rw [hq, sel.queued] at hq'
    split at hq'
    case isTrue => contradiction
    case isFalse hnot =>
      rcases ready key t' (.inr (popping.keys ▸ hk)) hq' hcancel with hk | hk
      · exact hnot (List.mem_append_left _ hk)
      · simp [hfirst (List.ne_nil_of_mem hk₂)] at hk

theorem Classed.popNextN (hm : m.Classed) (h : m.popNextN n = .ok (m', ts)) : m'.Classed := by
  have ⟨popped, left, sel, he⟩ := popNextN_selects m n
  obtain ⟨l, c, o, rfl, hl, hc, ho, hfirst⟩ := sel.buckets
  obtain ⟨rfl, hnil⟩ : l = [] ∧ left.liquidation = [] := List.append_eq_nil_iff.mp (hl ▸ hm.liquidation)
  rw [he, List.nil_append] at h
  have popping := popKeys_popping h
  have ⟨hliq, hcancel, hother⟩ := popping.buckets
  have ⟨hq, _⟩ := popping.queued
  -- Whatever still waits was not popped.
  have waits : ∀ {key t}, m'.queued key = some t → m.queued key = some t ∧ key ∉ c ++ o := by
    intro key t hkt
    rw [hq, sel.queued] at hkt
    split at hkt
    case isTrue          => contradiction
    case isFalse hnot    => exact ⟨hkt, hnot⟩
  refine ⟨by rw [hliq, hnil], fun key t hkt ht hk => ?_, fun key t hkt ht hk => ?_⟩
  · have ⟨hkt, hnot⟩ := waits hkt
    have hk : key ∈ m.keys := by
      rw [popping.keys] at hk
      simp only [keys, hnil, hm.liquidation, hc, ho, List.nil_append, List.mem_append] at hk ⊢
      tauto
    have := hm.cancels key t hkt ht hk
    rw [hc] at this
    rw [hcancel]
    exact (List.mem_append.mp this).resolve_left fun hk => hnot (List.mem_append_left _ hk)
  · refine hm.others key t (waits hkt).1 ht ?_
    rw [hc, ← hcancel]
    exact List.mem_append_right _ hk

theorem insert_cancel {txn : SignedTransaction} {expectedNonce : Nat} :
    (m.insert txn expectedNonce).liquidation = m.liquidation ∧
    ∀ key, key ∈ (m.insert txn expectedNonce).cancel ↔
      key ∈ m.cancel ∨ (txn.getNonce = expectedNonce ∧ txn.isCancel ∧ key = keyOf txn) := by
  unfold PriorityMempool.insert SignedTransaction.isCancel
  by_cases h : txn.getNonce < expectedNonce
  case pos => simp [h, h.ne]
  case neg =>
    by_cases he : txn.getNonce = expectedNonce
    case pos => cases ht : txn.tx <;> simp [he, keyOf]
    case neg => simp [h, he]

theorem Classed.insert {txn : SignedTransaction} {expectedNonce : Nat} (hm : m.Classed)
    (hk : m.KeepsClasses (.insert txn expectedNonce)) : (m.insert txn expectedNonce).Classed := by
  have ⟨hother, hcancel⟩ := hk
  refine ⟨insert_cancel.1.trans hm.liquidation, fun key t hq ht hkey => ?_, fun key t hq ht hkey => ?_⟩
  all_goals rw [insert_queued] at hq
  · rw [insert_cancel.2]
    rw [insert_keys] at hkey
    split at hq
    case isTrue h =>
      obtain ⟨hle, rfl⟩ := h
      cases hq
      rcases hle.eq_or_lt with he | hlt
      · exact .inr ⟨he.symm, ht, rfl⟩
      · exact .inl (hcancel hlt ht (hkey.resolve_right fun h => hlt.ne' h.1))
    case isFalse h => exact .inl (hm.cancels key t hq ht (hkey.resolve_right fun hn => h ⟨hn.1.ge, hn.2⟩))
  · rw [insert_cancel.2] at hkey
    split at hq
    case isTrue h =>
      obtain ⟨hle, rfl⟩ := h
      cases hq
      exact hother hle ht (hkey.resolve_right fun h => ht h.2.1)
    case isFalse h => exact hm.others key t hq ht (hkey.resolve_right fun hn => h ⟨hn.1.ge, hn.2.2⟩)

theorem updateAfterExecution_cancel (nonces : List (Option (PublicKeyHash × Nat))) :
    (m.updateAfterExecution nonces).liquidation = m.liquidation ∧
    (m.updateAfterExecution nonces).cancel = m.cancel := by
  refine List.foldlRecOn (motive := fun m' : PriorityMempool => m'.liquidation = m.liquidation ∧ m'.cancel = m.cancel)
    _ _ ⟨rfl, rfl⟩ fun m' h next _ => ?_
  unfold updateAfterExecution.promote
  split
  · exact h
  · split <;> exact h

theorem Classed.updateAfterExecution {nonces : List (Option (PublicKeyHash × Nat))} (hm : m.Classed)
    (hk : m.KeepsClasses (.updateAfterExecution nonces)) : (m.updateAfterExecution nonces).Classed := by
  have ⟨hliq, hcancel⟩ := updateAfterExecution_cancel (m := m) nonces
  refine ⟨hliq.trans hm.liquidation, fun key t hq ht hkey => ?_, fun key t hq ht => ?_⟩
  all_goals rw [updateAfterExecution_queued] at hq
  · rw [hcancel]
    rcases ((updateAfterExecution_spec nonces).2 key).mp hkey with hkey | ⟨hn, _⟩
    · exact hm.cancels key t hq ht hkey
    · exact hk key hn t hq ht
  · rw [hcancel]
    exact hm.others key t hq ht

instance {op : MempoolOp} : Decidable (m.KeepsClasses op) :=
  match op with
  | .insert txn expectedNonce =>
    @instDecidableAnd _ _
      (inferInstanceAs (Decidable (expectedNonce ≤ txn.getNonce → ¬txn.isCancel → keyOf txn ∉ m.cancel)))
      (inferInstanceAs (Decidable (expectedNonce < txn.getNonce → txn.isCancel → keyOf txn ∈ m.keys → _)))
  | .popNextN _ => inferInstanceAs (Decidable True)
  | .updateAfterExecution accountNonces =>
    inferInstanceAs (Decidable (∀ key ∈ accountNonces.reduceOption, ∀ t ∈ m.queued key, _))

end PriorityMempool

namespace MempoolRun

open PriorityMempool

theorem classed_step {s s' : MempoolRun} {op : MempoolOp} (h : s.mempool.Classed) (hk : s.mempool.KeepsClasses op)
    (hs : s.step op = .ok s') : s'.mempool.Classed := by
  cases op
  case insert               => cases hs; exact h.insert hk
  case updateAfterExecution => cases hs; exact h.updateAfterExecution hk
  case popNextN n =>
    simp only [step, Checked.bind_ok, Checked.pure_ok, Prod.exists] at hs
    obtain ⟨m', ts, hp, rfl⟩ := hs
    exact h.popNextN hp

theorem cancelsFirst_of_keepsClasses {ops : List MempoolOp} {s : MempoolRun}
    (h : Steps (Runs step fun s op => s.mempool.KeepsClasses op) .new ops s) (n : Nat) :
    ∃ m' ts, s.mempool.popNextN n = .ok (m', ts) ∧ CancelsFirst m' ts := by
  have start : MempoolRun.new.Invariant ∧ MempoolRun.new.mempool.Classed :=
    ⟨.new, rfl, by simp [keys, MempoolRun.new, PriorityMempool.new], by simp [MempoolRun.new, PriorityMempool.new]⟩
  obtain ⟨inv, classed⟩ := h.invariant (I := fun s => s.Invariant ∧ s.mempool.Classed) start
    (by
      rintro s op s' ⟨hk, hs⟩ ⟨inv, classed⟩
      obtain ⟨s', hs', inv'⟩ := inv.step op
      cases hs.symm.trans hs'
      exact ⟨inv', classed_step classed hk hs⟩)
  obtain ⟨m', ts, hp, _⟩ := inv.counted.popNextN n
  exact ⟨m', ts, hp, classed.cancelsFirst hp⟩

def transferBy (source nonce : Nat) : SignedTransaction where
  tx := .transfer { source, target := 0, amount := 1, assetId := 0, status := .pending, nonce }
  signature := ⟨[]⟩
  hash := 0

def cancelBy (source nonce : Nat) : SignedTransaction where
  tx := .cancelOrder { source, marketId := 0, orderId := 0, status := .pending, nonce }
  signature := ⟨[]⟩
  hash := 0

theorem cancelsFirst_two :
    ∃ s, [.insert (transferBy 1 0) 0, .insert (cancelBy 2 0) 0].foldlM step .new = .ok s ∧
      ∃ m' ts, s.mempool.popNextN 2 = .ok (m', ts) ∧ CancelsFirst m' ts := by
  obtain ⟨s, hs⟩ : ∃ s, [.insert (transferBy 1 0) 0, .insert (cancelBy 2 0) 0].foldlM step .new = .ok s := ⟨_, rfl⟩
  exact ⟨s, hs, cancelsFirst_of_keepsClasses (.of_foldlM hs (by decide)) 2⟩

-- A cancellation that gets ready when a block is executed stands behind a transfer.
theorem cancelsFirst_not_promoted :
    ∃ s, [.insert (transferBy 1 0) 0, .insert (cancelBy 2 1) 0, .updateAfterExecution [some (2, 1)]].foldlM step .new =
        .ok s ∧
      ∃ m', s.mempool.popNextN 2 = .ok (m', [transferBy 1 0, cancelBy 2 1]) ∧
        ¬CancelsFirst m' [transferBy 1 0, cancelBy 2 1] := by
  refine ⟨_, rfl, _, rfl, fun ⟨⟨cancels, others, he, hc, ho⟩, _⟩ => ?_⟩
  rcases cancels with _ | ⟨t, cancels⟩
  · subst he
    exact ho (cancelBy 2 1) (by simp) rfl
  · obtain ⟨rfl, -⟩ := List.cons.inj he
    exact absurd (hc (transferBy 1 0) (by simp)) (by decide)

end MempoolRun
end Superliquid

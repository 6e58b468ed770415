import Superliquid.Hotstuff.Mempool

namespace Superliquid

namespace PriorityMempool

-- The keys in all buckets.
def keys (m : PriorityMempool) : List PriorityIndex :=
  m.liquidation ++ m.cancel ++ m.other

-- The transaction that waits under a key.
def queued (m : PriorityMempool) (key : PriorityIndex) : Option SignedTransaction :=
  (m.accountQueues.lookup key.1).bind (·.lookup key.2)

def keyOf (t : SignedTransaction) : PriorityIndex :=
  (t.getFromAccount, t.getNonce)

variable {m m' : PriorityMempool} {key : PriorityIndex}

-- What is written to the queue of one account.
theorem queued_insert {pk : PublicKeyHash} {queue : AccountQueue} {accountQueues : Map PublicKeyHash AccountQueue}
    (h : m'.accountQueues = accountQueues.insert pk queue) (hm : m.accountQueues = accountQueues) :
    m'.queued key = if key.1 = pk then queue.lookup key.2 else m.queued key := by
  unfold queued
  rw [h, hm]
  split
  case isTrue he => rw [he, AList.lookup_insert]; rfl
  case isFalse hn => rw [AList.lookup_insert_ne hn]

theorem queued_some {pk : PublicKeyHash} {n : Nat} {queue : AccountQueue}
    (h : m.accountQueues.lookup pk = some queue) : m.queued (pk, n) = queue.lookup n := by
  simp [queued, h]

section Insert

variable {txn : SignedTransaction} {expectedNonce : Nat}

theorem insert_of_lt (h : txn.getNonce < expectedNonce) : m.insert txn expectedNonce = m := by
  simp [insert, h]

theorem insert_accountQueues (h : expectedNonce ≤ txn.getNonce) :
    (m.insert txn expectedNonce).accountQueues = m.accountQueues.insert txn.getFromAccount
      (((m.accountQueues.lookup txn.getFromAccount).getD ∅).insert txn.getNonce txn) := by
  unfold insert
  rw [if_neg (Nat.not_lt.mpr h)]
  by_cases he : txn.getNonce = expectedNonce
  case pos => cases ht : txn.tx <;> simp [he]
  case neg => simp [he]

theorem insert_queued : (m.insert txn expectedNonce).queued key =
    if expectedNonce ≤ txn.getNonce ∧ key = keyOf txn then some txn else m.queued key := by
  by_cases h : expectedNonce ≤ txn.getNonce
  case neg => rw [insert_of_lt (Nat.lt_of_not_le h), if_neg fun ⟨h', _⟩ => h h']
  case pos =>
    rw [queued_insert (insert_accountQueues h) rfl]
    cases key
    case mk pk n =>
    by_cases hpk : pk = txn.getFromAccount
    case neg => simp [keyOf, hpk]
    case pos =>
      subst hpk
      by_cases hn : n = txn.getNonce
      case pos => subst hn; simp [keyOf, h]
      case neg =>
        simp only [if_true, keyOf, Prod.mk.injEq, hn, and_false, if_false, AList.lookup_insert_ne hn]
        cases hq : m.accountQueues.lookup txn.getFromAccount <;> simp [queued, hq]

theorem insert_keys : key ∈ (m.insert txn expectedNonce).keys ↔
    key ∈ m.keys ∨ (txn.getNonce = expectedNonce ∧ key = keyOf txn) := by
  unfold insert
  by_cases h : txn.getNonce < expectedNonce
  case pos => simp [h, h.ne]
  case neg =>
    by_cases he : txn.getNonce = expectedNonce
    case pos => cases ht : txn.tx <;> simp [he, keys, keyOf, or_assoc, or_comm]
    case neg => simp [h, he, keys]

end Insert

theorem erase_queued {pk : PublicKeyHash} {n length ready : Nat} {queue : AccountQueue}
    (h : m.accountQueues.lookup pk = some queue) :
    ({ m with length, readyTransactionsLength := ready,
              accountQueues := m.accountQueues.insert pk (queue.erase n) } : PriorityMempool).queued key =
      if key = (pk, n) then none else m.queued key := by
  rw [queued_insert rfl rfl]
  cases key
  case mk pk' n' =>
  by_cases hpk : pk' = pk
  case neg => simp [hpk]
  case pos =>
    subst hpk
    by_cases hn : n' = n
    case pos => subst hn; simp
    case neg => simp [hn, queued_some h, AList.lookup_erase_ne hn]

-- The number of transactions in all queues.
def stored (m : PriorityMempool) : Nat :=
  Map.total m.accountQueues fun queue => Map.total queue fun _ => 1

theorem erase_stored {pk : PublicKeyHash} {n length ready : Nat} {queue : AccountQueue} {t : SignedTransaction}
    (h : m.accountQueues.lookup pk = some queue) (ht : queue.lookup n = some t) :
    ({ m with length, readyTransactionsLength := ready,
              accountQueues := m.accountQueues.insert pk (queue.erase n) } : PriorityMempool).stored + 1 =
                m.stored := by
  have outer := Map.total_insert m.accountQueues pk (queue.erase n) fun queue => Map.total queue fun _ => 1
  have inner := Map.total_erase queue n fun _ => 1
  simp only [h, ht, Option.elim] at outer inner
  simp only [stored]
  omega

def buckets (m : PriorityMempool) : List PriorityIndex × List PriorityIndex × List PriorityIndex :=
  (m.liquidation, m.cancel, m.other)

-- One transaction leaves the mempool. The buckets are left alone.
structure Takes (m : PriorityMempool) (key : PriorityIndex) (t : SignedTransaction) (m' : PriorityMempool) : Prop where
  queued  : m.queued key = some t
  rest    : ∀ key', m'.queued key' = if key' = key then none else m.queued key'
  length  : m'.length + 1 = m.length
  ready   : m'.readyTransactionsLength + 1 = m.readyTransactionsLength
  stored  : m'.stored + 1 = m.stored
  buckets : m'.buckets = m.buckets

-- Popping goes through a list of keys. A key without a transaction is skipped.
inductive Popping : PriorityMempool → List PriorityIndex → PriorityMempool → List SignedTransaction → Prop
  | nil     : Popping p [] p []
  | skipped : (queued p k = none) → (Popping p popped p' ts) → Popping p (k :: popped) p' ts
  | taken   : (Takes p k t p₁) → (Popping p₁ popped p' ts) → Popping p (k :: popped) p' (t :: ts)

theorem popKeys_popping {popped : List PriorityIndex} {ts : List SignedTransaction}
    (h : m.popKeys popped = .ok (m', ts)) : Popping m popped m' ts := by
  induction popped generalizing m ts
  case nil => cases h; exact .nil
  case cons key popped hi =>
    obtain ⟨pk, n⟩ := key
    unfold popKeys at h
    split at h
    case h_1 hn => exact .skipped (by simp [queued, hn]) (hi h)
    case h_2 queue hqueue =>
      split at h
      case h_1 hn => exact .skipped (by simp [queued, hqueue, hn]) (hi h)
      case h_2 transaction htx =>
        simp only [Checked.bind_ok, Checked.sub_ok, Checked.pure_ok, Prod.exists, Prod.mk.injEq] at h
        obtain ⟨length, ⟨hl, rfl⟩, ready, ⟨hr, rfl⟩, _, ts', hpop, rfl, rfl⟩ := h
        refine .taken ?_ (hi hpop)
        exact {
          queued  := by rw [queued_some hqueue, htx]
          rest    := fun _ => erase_queued hqueue
          length  := Nat.sub_add_cancel hl
          ready   := Nat.sub_add_cancel hr
          stored  := erase_stored hqueue htx
          buckets := rfl }

-- What popping `popped` does: the transactions under these keys leave their queues.
structure Pops (popped : List PriorityIndex) (m m' : PriorityMempool) (ts : List SignedTransaction) : Prop where
  keys    : ∀ key, key ∈ m.keys ↔ key ∈ popped ∨ key ∈ m'.keys
  queued  : ∀ key, m'.queued key = if key ∈ popped then none else m.queued key
  results : ∀ t ∈ ts, ∃ key ∈ popped, m.queued key = some t

theorem Popping.buckets {popped : List PriorityIndex} {ts : List SignedTransaction} (h : Popping m popped m' ts) :
    m'.liquidation = m.liquidation ∧ m'.cancel = m.cancel ∧ m'.other = m.other := by
  have same : m'.buckets = m.buckets := by
    induction h
    case nil             => rfl
    case skipped hi      => exact hi
    case taken takes _ hi => exact hi.trans takes.buckets
  simpa [PriorityMempool.buckets] using same

theorem Popping.keys {popped : List PriorityIndex} {ts : List SignedTransaction} (h : Popping m popped m' ts) :
    m'.keys = m.keys := by
  have ⟨hl, hc, ho⟩ := h.buckets
  simp only [PriorityMempool.keys, hl, hc, ho]

theorem Popping.queued {popped : List PriorityIndex} {ts : List SignedTransaction} (h : Popping m popped m' ts) :
    (∀ key, m'.queued key = if key ∈ popped then none else m.queued key) ∧
      ∀ t ∈ ts, ∃ key ∈ popped, m.queued key = some t := by
  induction h
  case nil => simp
  case skipped key' _ _ _ hn _ hi =>
    have ⟨hq, ht⟩ := hi
    refine ⟨fun key => ?_, fun t hts => ?_⟩
    · rw [hq]
      by_cases he : key = key'
      case pos => simp [he, hn]
      case neg => simp [he]
    · have ⟨key, hkey, hkt⟩ := ht t hts
      exact ⟨key, List.mem_cons_of_mem _ hkey, hkt⟩
  case taken key' t' _ _ _ _ takes _ hi =>
    have ⟨hq, ht⟩ := hi
    refine ⟨fun key => ?_, fun t hts => ?_⟩
    · rw [hq, takes.rest]
      by_cases he : key = key' <;> simp [he]
    · rcases List.mem_cons.mp hts with rfl | hts
      · exact ⟨key', by simp, takes.queued⟩
      · have ⟨key, hkey, hkt⟩ := ht t hts
        refine ⟨key, List.mem_cons_of_mem _ hkey, ?_⟩
        rw [takes.rest] at hkt
        split at hkt
        case isTrue  => contradiction
        case isFalse => exact hkt

-- A batch takes keys from the front of the buckets, and looks at a bucket only after the ones before it
-- are empty.
structure Selects (m : PriorityMempool) (n : Nat) (popped : List PriorityIndex) (left : PriorityMempool) : Prop where
  queues   : left.accountQueues = m.accountQueues
  length   : left.length = m.length
  ready    : left.readyTransactionsLength = m.readyTransactionsLength
  buckets  : ∃ l c o, popped = l ++ c ++ o ∧ m.liquidation = l ++ left.liquidation ∧
    m.cancel = c ++ left.cancel ∧ m.other = o ++ left.other ∧ (o ≠ [] → left.cancel = [])
  bounded  : m.keys.length ≤ m.readyTransactionsLength → popped.length ≤ n

theorem popNextN_selects (m : PriorityMempool) (n : Nat) :
    ∃ popped left, Selects m n popped left ∧ m.popNextN n = left.popKeys popped := by
  unfold popNextN
  split
  case isTrue hn =>
    refine ⟨_, _, ?_, rfl⟩
    refine ⟨rfl, rfl, rfl, ⟨_, _, _, rfl, by simp, by simp, by simp, by simp⟩, fun h => ?_⟩
    exact h.trans hn.le
  case isFalse hn =>
    refine ⟨_, _, ?_, rfl⟩
    refine ⟨rfl, rfl, rfl, ⟨_, _, _, rfl, ?_, ?_, ?_, fun h => ?_⟩, fun _ => ?_⟩
    · exact (List.take_append_drop _ _).symm
    · exact (List.take_append_drop _ _).symm
    · exact (List.take_append_drop _ _).symm
    · refine List.drop_eq_nil_of_le ?_
      by_contra hc
      refine h (List.take_eq_nil_iff.mpr (.inl ?_))
      omega
    · simp only [List.length_append, List.length_take]
      omega

theorem Selects.queued {n : Nat} {popped : List PriorityIndex} {left : PriorityMempool}
    (h : Selects m n popped left) (key : PriorityIndex) : left.queued key = m.queued key := by
  simp only [PriorityMempool.queued, h.queues]

theorem popNextN_pops {n : Nat} {ts : List SignedTransaction} (h : m.popNextN n = .ok (m', ts)) :
    ∃ popped, Pops popped m m' ts := by
  have ⟨popped, left, selects, he⟩ := popNextN_selects m n
  have popping := popKeys_popping (he ▸ h)
  have ⟨hq, ht⟩ := popping.queued
  refine ⟨popped, fun key => ?_, fun key => ?_, fun t hts => ?_⟩
  · obtain ⟨l, c, o, rfl, hl, hc, ho, -⟩ := selects.buckets
    rw [popping.keys]
    simp only [keys, hl, hc, ho, List.mem_append]
    tauto
  · rw [hq, selects.queued]
  · have ⟨key, hk, hkt⟩ := ht t hts
    exact ⟨key, hk, selects.queued key ▸ hkt⟩

theorem promote_spec {next : PriorityIndex} :
    (updateAfterExecution.promote m next).accountQueues = m.accountQueues ∧
    ∀ key, key ∈ (updateAfterExecution.promote m next).keys ↔
      key ∈ m.keys ∨ (key = next ∧ (m.queued key).isSome) := by
  obtain ⟨pk, n⟩ := next
  unfold updateAfterExecution.promote
  split
  case h_1 hn =>
    refine ⟨rfl, fun key => ?_⟩
    have missing : key = (pk, n) → (m.queued key).isSome = false := by rintro rfl; simp [queued, hn]
    simp_all
  case h_2 account ha =>
    have found : ∀ {key}, key = (pk, n) → ((m.queued key).isSome ↔ n ∈ account) := by
      rintro _ rfl
      rw [queued_some ha, AList.lookup_isSome]
    split
    case isTrue hmem =>
      refine ⟨rfl, fun key => ?_⟩
      simp only [keys, List.mem_append, List.mem_singleton, or_assoc]
      have := @found key
      tauto
    case isFalse hmem =>
      refine ⟨rfl, fun key => ?_⟩
      have := @found key
      tauto

theorem updateAfterExecution_spec (nonces : List (Option (PublicKeyHash × Nat))) :
    (m.updateAfterExecution nonces).accountQueues = m.accountQueues ∧
    ∀ key, key ∈ (m.updateAfterExecution nonces).keys ↔
      key ∈ m.keys ∨ (key ∈ nonces.reduceOption ∧ (m.queued key).isSome) := by
  unfold updateAfterExecution
  generalize nonces.reduceOption = next
  induction next generalizing m
  case nil => simp
  case cons key next hi =>
    have ⟨hq, hk⟩ := @promote_spec m key
    have ⟨hq', hk'⟩ := @hi (updateAfterExecution.promote m key)
    refine ⟨hq'.trans hq, fun key' => ?_⟩
    have same : (updateAfterExecution.promote m key).queued key' = m.queued key' := by simp [queued, hq]
    rw [List.foldl_cons, hk', hk, same, List.mem_cons]
    tauto

theorem updateAfterExecution_queued {nonces : List (Option (PublicKeyHash × Nat))} :
    (m.updateAfterExecution nonces).queued key = m.queued key := by
  simp [queued, (updateAfterExecution_spec nonces).1]

end PriorityMempool

end Superliquid

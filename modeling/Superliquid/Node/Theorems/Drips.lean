import Superliquid.Hotstuff.Theorems.Digests
import Superliquid.Node.Theorems.Sessions
import Superliquid.State.Theorems.Nonces
import Superliquid.State.Theorems.Queries

namespace Superliquid.Service

open LedgerState

section Definitions

variable [Sha256] [Ed25519]

-- The drip has the nonce that the faucet had after the first `n` blocks.
def Drip (c : Config) (s : Service) (t : SignedTransaction) (n : Nat) : Prop :=
  n ≤ s.executed ∧ ∃ publicKey assetId l, LedgerAfter c s n l ∧
    t = s.dripTxn publicKey assetId (l.expectedNonce s.faucet)

end Definitions

variable [Sha256] [Ed25519] {c : Config} {nodeId : PeerId} {s s' : Service} {k : Conn}

theorem Drip.grows {t : SignedTransaction} {n : Nat} (hg : Grows s s') (h : Drip c s t n) : Drip c s' t n := by
  obtain ⟨hn, publicKey, assetId, l, hl, rfl⟩ := h
  refine ⟨hn.trans hg.executed, publicKey, assetId, l, hg.ledgerAfter hn hl, ?_⟩
  simp only [dripTxn, faucet, hg.faucetKey]

-- The nonce of a drip is the one that the faucet had when the query was answered.
theorem Drip.of_answered {publicKey : PublicKeyHash} {assetId : AssetId} {query : ClientQuery}
    {info : AccountInfoWithBalances} {n : Nat}
    (h : Stage.Sound c s (.answered query (.drip publicKey assetId) (.accountQueryReponse info) n)) :
    Drip c s (s.dripTxn publicKey assetId info.accountInfo.expectedNonce) n := by
  obtain ⟨hquery, _, hn, l, hl, hinfo⟩ := h
  obtain rfl : query = .accountQuery s.faucet := hquery
  obtain rfl : info = l.getAccountInfoWithBalancesOrDefault s.faucet := by simpa [handleQuery] using hinfo
  obtain ⟨ts, ns, happly⟩ := hl
  have registered := Registered.of_reachable (.of_apply happly)
  exact ⟨hn, publicKey, assetId, l, ⟨ts, ns, happly⟩, by rw [registered.query_expectedNonce]⟩

theorem run_drips (c : Config) (nodeId : PeerId) (faucetKey : SigningKey) (es : List Event) :
    let s := es.foldl step (.new c nodeId faucetKey)
    ∀ t n, (t, n) ∈ s.drips → Drip c s t n := by
  induction es using List.reverseRecOn
  case nil => simp [new]
  case append_singleton es e hi =>
    simp only [List.foldl_append, List.foldl_cons, List.foldl_nil]
    have invariant := SessionInvariant.run c nodeId faucetKey es
    generalize es.foldl step (.new c nodeId faucetKey) = s at *
    have hg := (s.step_stepped e).grows
    intro t n ht
    rcases (s.step_stepped e).dripped with hd | ⟨k, query, publicKey, assetId, info, n', hs, hd⟩
    · exact (hi t n (hd ▸ ht)).grows hg
    · rw [hd, List.mem_append, List.mem_singleton, Prod.mk.injEq] at ht
      rcases ht with ht | ⟨rfl, rfl⟩
      · exact (hi t n ht).grows hg
      · obtain ⟨_, session⟩ := invariant.sessions k
        have sound := session.sound
        rw [hs] at sound
        exact (Drip.of_answered sound).grows hg

omit [Sha256] [Ed25519] in
-- An account has no two executed transactions with the same nonce.
theorem ReplayProtected.executed_once {l : LedgerState} {ts : List SignedTransaction}
    {ns : List (Option (PublicKeyHash × Nat))} (h : ReplayProtected l ts ns) (k : PublicKeyHash) (nonce : Nat) :
    ((executedBy k ts).filter (·.getNonce = nonce)).length ≤ 1 := by
  have hcount := List.nodup_iff_count_le_one.mp (List.nodup_range (n := (executedBy k ts).length)) nonce
  rw [← h.nonces k, List.count_eq_countP, List.countP_map] at hcount
  rw [← List.countP_eq_length_filter]
  refine le_trans (le_of_eq (List.countP_congr fun t _ => ?_)) hcount
  simp

-- The faucet takes its nonce from the ledger. Drips that were asked for before the next block have the same
-- nonce, so that not more than one of them is ever executed.
theorem drips_share_nonce (c : Config) (nodeId : PeerId) (faucetKey : SigningKey) (es : List Event) :
    let s := es.foldl step (.new c nodeId faucetKey)
    ∀ t₁ t₂ n, (t₁, n) ∈ s.drips → (t₂, n) ∈ s.drips →
      t₁.getFromAccount = s.faucet ∧ t₂.getFromAccount = s.faucet ∧ t₁.getNonce = t₂.getNonce ∧
      ∀ ts l ts' ns, (LedgerState.new c.faucet).apply ts = .ok (l, ts', ns) →
        ((executedBy s.faucet ts').filter (·.getNonce = t₁.getNonce)).length ≤ 1 := by
  intro s t₁ t₂ n h₁ h₂
  obtain ⟨_, _, _, l₁, ⟨_, _, hl₁⟩, rfl⟩ := run_drips c nodeId faucetKey es t₁ n h₁
  obtain ⟨_, _, _, l₂, ⟨_, _, hl₂⟩, rfl⟩ := run_drips c nodeId faucetKey es t₂ n h₂
  cases hl₁.symm.trans hl₂
  refine ⟨rfl, rfl, rfl, fun ts l ts' ns h => ?_⟩
  exact ReplayProtected.executed_once (.of_apply h) _ _

-- Two clients ask for a drip at the same time.
def twoDrips : List Event := [
  .arrive (.client 0) (.message (.application (.drip 7 0))),
  .arrive (.client 1) (.message (.application (.drip 8 1))),
  .proceed (.client 0),
  .proceed (.client 1),
  .receive .inserted,
  .receive .inserted,
  .proceed (.client 0),
  .proceed (.client 1)
]

omit [Sha256] [Ed25519] in
theorem twoDrips_share_nonce :
    ∃ (_ : Sha256) (_ : Ed25519) (c : Config),
      let s := twoDrips.foldl step (.new c 1 { bytes := 4 })
      ∃ t₁ t₂, s.drips = [(t₁, 0), (t₂, 0)] ∧ t₁.getNonce = t₂.getNonce := by
  let _ := Sha256.encoding
  let _ := Ed25519.encoding
  let c := Config.ofSize 4
  refine ⟨.encoding, .encoding, c, ?_⟩
  have heights : (twoDrips.foldl step (.new c 1 { bytes := 4 })).drips.map Prod.snd = [0, 0] := by decide +kernel
  have shared := drips_share_nonce c 1 { bytes := 4 } twoDrips
  generalize twoDrips.foldl step (.new c 1 { bytes := 4 }) = s at *
  simp only [List.map_eq_cons_iff, List.map_eq_nil_iff] at heights
  obtain ⟨⟨t₁, _⟩, _, hd, rfl, ⟨t₂, _⟩, _, rfl, rfl, rfl⟩ := heights
  exact ⟨t₁, t₂, hd, (shared t₁ t₂ 0 (by simp [hd]) (by simp [hd])).2.2.1⟩

end Superliquid.Service

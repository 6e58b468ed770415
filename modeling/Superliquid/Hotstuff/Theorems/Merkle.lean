import Superliquid.Hotstuff.Merkle
import Superliquid.Hotstuff.Theorems.Digests
import Superliquid.Lib.Merkle

namespace Superliquid.Block

open Merkle

section

variable [Digest (Sha256Hash × Sha256Hash)]

-- The Merkle root by recursion on levels: nothing hashes to zero, a single hash is its own root, and
-- otherwise neighbours are hashed together, the last one with itself if their number is odd.
def recursiveRoot (hashes : List Sha256Hash) : Sha256Hash :=
  root digest 0 hashes

namespace InPlace

variable {hashes : List Sha256Hash} {len m : Nat}

theorem hashPair_eq {left right : Sha256Hash} {i : Nat} (hl : hashes[i]? = some left)
    (hr : hashes[i + 1]? = some right) : hashPair hashes i = .ok (hashes.set (i / 2) (digest (left, right))) := by
  have ⟨hi, _⟩ := List.getElem?_eq_some_iff.mp hl
  simp [hashPair, Checked.index, hl, hr, bind, Except.bind, set]
  omega

-- After `m` rounds the first `m` hashes are those of the next level, the others have not been written to.
-- What a round reads stands to the right of what was written.
theorem hashLevel_foldlM (h : 2 * m ≤ hashes.length) :
    ((List.range m).map (2 * ·)).foldlM hashPair hashes =
      .ok ((pairUp (hashes.take (2 * m))).map digest ++ hashes.drop m) := by
  induction m
  case zero => simp [pairUp, pure, Except.pure]
  case succ m hi =>
    have hlen : ((pairUp (hashes.take (2 * m))).map (digest : _ → Sha256Hash)).length = m := by
      simp
      omega
    have read : ∀ i, m ≤ i → ((pairUp (hashes.take (2 * m))).map digest ++ hashes.drop m)[i]? = hashes[i]? := by
      intro i hi
      rw [List.getElem?_append_right (by omega), hlen, List.getElem?_drop]
      congr 1
      omega
    have hleft := List.getElem?_eq_getElem (l := hashes) (i := 2 * m) (by omega)
    have hright := List.getElem?_eq_getElem (l := hashes) (i := 2 * m + 1) (by omega)
    have htake : hashes.take (2 * (m + 1)) = hashes.take (2 * m) ++ [hashes[2 * m], hashes[2 * m + 1]] := by
      rw [show 2 * (m + 1) = 2 * m + 1 + 1 by omega, List.take_add_one, List.take_add_one, hleft, hright,
        List.append_assoc]
      rfl
    rw [List.range_succ, List.map_append, List.foldlM_append, hi (by omega), Checked.ok_bind, List.map_singleton,
      List.foldlM_cons, hashPair_eq ((read _ (by omega)).trans hleft) ((read _ (by omega)).trans hright),
      Checked.ok_bind, htake, pairUp_append (by simp; omega)]
    simp only [List.foldlM_nil, pure, Except.pure]
    congr 1
    rw [Nat.mul_div_cancel_left _ (by decide), List.set_append_right _ _ hlen.le, hlen, Nat.sub_self,
      List.drop_eq_getElem_cons (i := m) (by omega), List.set_cons_zero]
    simp [pairUp]

theorem hashLevel_eq (h : 2 * m ≤ hashes.length) :
    hashLevel hashes (2 * m) = .ok ((pairUp (hashes.take (2 * m))).map digest ++ hashes.drop m) := by
  rw [hashLevel, show (2 * m + 1) / 2 = m by omega, hashLevel_foldlM h]

-- As long as the hashes in use are a single one, or an even number.
theorem merkleLoop_eq (hashes : List Sha256Hash) (hl : len ≤ hashes.length) (h : len = 1 ∨ len % 2 = 0 ∧ 0 < len) :
    ∃ rest, merkleLoop hashes len = .ok rest ∧ rest[0]? = some (recursiveRoot (hashes.take len)) := by
  induction len using Nat.strong_induction_on generalizing hashes
  case h len hi =>
  unfold merkleLoop
  by_cases hlen : 1 < len
  case neg =>
    obtain rfl : len = 1 := by omega
    cases hashes
    case nil => simp at hl
    case cons => exact ⟨_, by simp [pure, Except.pure]; rfl, by simp [recursiveRoot, root]⟩
  case pos =>
    obtain ⟨m, rfl⟩ : ∃ m, len = 2 * m := ⟨len / 2, by omega⟩
    have hnext : ((pairUp (hashes.take (2 * m))).map (digest : _ → Sha256Hash)).length = m := by
      simp
      omega
    have hroot : recursiveRoot (hashes.take (2 * m)) = recursiveRoot ((pairUp (hashes.take (2 * m))).map digest) :=
      root_eq (by simp; omega)
    rw [if_pos hlen, hashLevel_eq hl, Checked.ok_bind, show (2 * m + 1) / 2 = m by omega, hroot]
    generalize (pairUp (hashes.take (2 * m))).map (digest : _ → Sha256Hash) = next at hnext
    have hbound : (next ++ hashes.drop m).length = hashes.length := by
      simp
      omega
    dsimp only
    split
    case isFalse hm =>
      obtain ⟨rest, hr, hz⟩ := @hi m (by omega) (next ++ hashes.drop m) (by omega) (by omega)
      exact ⟨rest, hr, by rw [hz, List.take_left' hnext]⟩
    case isTrue hm =>
      -- There is room for the copy, since this level is half as long as the last one.
      obtain ⟨last, hlast⟩ : ∃ last, next.getLast? = some last :=
        Option.isSome_iff_exists.mp (by rw [List.getLast?_isSome]; exact List.ne_nil_of_length_pos (by omega))
      have hindex : (next ++ hashes.drop m)[m - 1]? = some last := by
        rw [List.getElem?_append_left (by omega), ← hlast, List.getLast?_eq_getElem?, hnext]
      have htake : ((next ++ hashes.drop m).set m last).take (m + 1) = next ++ [last] := by
        rw [List.set_append_right _ _ hnext.le, hnext, Nat.sub_self, List.drop_eq_getElem_cons (i := m) (by omega),
          List.set_cons_zero, List.take_append, hnext]
        simp [hnext]
      obtain ⟨rest, hr, hz⟩ := @hi (m + 1) (by omega) ((next ++ hashes.drop m).set m last)
        (by rw [List.length_set]; omega) (by omega)
      refine ⟨rest, ?_, ?_⟩
      · rw [Checked.index_ok.mpr hindex, Checked.ok_bind, set, if_pos (by omega), Checked.ok_bind, hr]
      · rw [hz, htake, recursiveRoot, root_append_last (by omega) (by omega) hlast]
        rfl

theorem inPlace_computeMerkleRoot_eq (hashes : List Sha256Hash) :
    computeMerkleRoot hashes = .ok (recursiveRoot hashes) := by
  unfold computeMerkleRoot
  rcases hashes with _ | ⟨h, _ | ⟨h', hashes⟩⟩
  · simp [recursiveRoot, root, pure, Except.pure]
  · simp [recursiveRoot, root, Checked.index]
  · rw [if_neg (by simp), if_neg (by simp)]
    split
    case isFalse heven =>
      obtain ⟨rest, hr, hz⟩ := merkleLoop_eq (h :: h' :: hashes) le_rfl (.inr (by simp at heven ⊢; omega))
      rw [pure_bind, hr, Checked.ok_bind, Checked.index_ok.mpr hz, List.take_length]
    case isTrue hodd =>
      obtain ⟨last, hlast⟩ : ∃ last, (h :: h' :: hashes).getLast? = some last :=
        ⟨_, List.getLast?_eq_some_getLast (by simp)⟩
      obtain ⟨rest, hr, hz⟩ := merkleLoop_eq (h :: h' :: hashes ++ [last]) le_rfl (.inr (by simp at hodd ⊢; omega))
      rw [Checked.expect_ok.mpr hlast, Checked.ok_bind, pure_bind, hr, Checked.ok_bind, Checked.index_ok.mpr hz,
        List.take_length, recursiveRoot, root_append_last hodd (by simp) hlast]
      rfl

end InPlace

variable {hashes : List Sha256Hash}

theorem hashPairs_eq (h : hashes.length % 2 = 0) : hashPairs hashes = (pairUp hashes).map digest := by
  fun_induction hashPairs
  case case1 hi => simpa [pairUp] using hi (by simp at h; omega)
  case case2 hashes hn =>
    rcases hashes with _ | ⟨h₁, _ | ⟨h₂, hashes⟩⟩
    · rfl
    · simp at h
    · exact (hn h₁ h₂ hashes rfl).elim

omit [Digest (Sha256Hash × Sha256Hash)] in
theorem padHashes_length (hashes : List Sha256Hash) :
    (padHashes hashes).length = hashes.length + hashes.length % 2 := by
  unfold padHashes
  cases hashes using List.reverseRecOn <;> simp
  split <;> simp <;> omega

theorem recursiveRoot_padHashes (h : 1 < hashes.length) : recursiveRoot (padHashes hashes) = recursiveRoot hashes := by
  unfold padHashes
  split
  case isFalse => rfl
  case isTrue hodd =>
    have ⟨last, hlast⟩ : ∃ last, hashes.getLast? = some last :=
      ⟨_, List.getLast?_eq_some_getLast (List.ne_nil_of_length_pos (by omega))⟩
    rw [hlast]
    exact root_append_last hodd h hlast

theorem merkleLoop_eq {fuel : Nat} (hf : hashes.length ≤ fuel + 1) (h : hashes.length = 1 ∨ hashes.length % 2 = 0) :
    merkleLoop fuel hashes = recursiveRoot hashes := by
  induction fuel generalizing hashes
  case zero =>
    rcases hashes with _ | ⟨h₁, _ | ⟨h₂, hashes⟩⟩
    · simp [merkleLoop, recursiveRoot, root]
    · simp [merkleLoop, recursiveRoot, root]
    · simp at hf
  case succ fuel hi =>
    rcases hashes with _ | ⟨h₁, _ | ⟨h₂, hashes⟩⟩
    · simp [merkleLoop, recursiveRoot, root]
    · simp [merkleLoop, recursiveRoot, root]
    · have heven : (h₁ :: h₂ :: hashes).length % 2 = 0 := h.resolve_left (by simp)
      have hroot : recursiveRoot (h₁ :: h₂ :: hashes) = recursiveRoot (hashPairs (h₁ :: h₂ :: hashes)) := by
        rw [hashPairs_eq heven]
        exact root_eq (by simp)
      have hlen : (hashPairs (h₁ :: h₂ :: hashes)).length = (h₁ :: h₂ :: hashes).length / 2 := by
        rw [hashPairs_eq heven, List.length_map, pairUp_length]
        omega
      have hloop : merkleLoop (fuel + 1) (h₁ :: h₂ :: hashes) =
          let next := hashPairs (h₁ :: h₂ :: hashes)
          merkleLoop fuel (if 1 < next.length then padHashes next else next) :=
        rfl
      rw [hroot, hloop]
      generalize hashPairs (h₁ :: h₂ :: hashes) = next at hlen
      simp only [List.length_cons] at hlen hf heven
      dsimp only
      split
      case isTrue hn =>
        rw [hi (by rw [padHashes_length]; omega) (.inr (by rw [padHashes_length]; omega)), recursiveRoot_padHashes hn]
      case isFalse hn => exact hi (by omega) (by omega)

theorem computeMerkleRoot_eq (hashes : List Sha256Hash) : computeMerkleRoot hashes = recursiveRoot hashes := by
  unfold computeMerkleRoot
  rcases hashes with _ | ⟨h, _ | ⟨h', hashes⟩⟩
  · simp [recursiveRoot, root]
  · simp [recursiveRoot, root]
  · rw [if_neg (by simp), merkleLoop_eq (by rw [padHashes_length]; omega) (.inr (by rw [padHashes_length]; omega)),
      recursiveRoot_padHashes (by simp)]

end

variable [Sha256]

section

variable [CollisionFree UnsignedTransaction] [CollisionFree (Sha256Hash × Sha256Hash)]
         {ts ts' : List SignedTransaction}

-- Lists whose trees have the same number of levels. A longer list may repeat the end of a shorter one.
theorem prefix_of_hashTransactions_eq (hn : ts ≠ []) (hl : ts.length ≤ ts'.length)
    (hk : Nat.clog 2 ts.length = Nat.clog 2 ts'.length) (h : hashTransactions ts = hashTransactions ts') :
    ts.map (·.tx) <+: ts'.map (·.tx) ∧ ts'.map (·.tx) ⊆ ts.map (·.tx) := by
  simp only [hashTransactions, computeMerkleRoot_eq] at h
  have hn' : ts' ≠ [] := by
    rintro rfl
    exact hn (List.length_eq_zero_iff.mp (Nat.le_zero.mp hl))
  have ⟨hp, hs⟩ := prefix_of_root_eq CollisionFree.injective (by simpa using hn) (by simpa using hn')
    (by simpa using hk) h (by simpa using hl)
  have hmap : ∀ ts : List SignedTransaction, ts.map (·.tx.hash) = (ts.map (·.tx)).map (digest : _ → Sha256Hash) := by
    intro ts
    rw [List.map_map]
    rfl
  rw [hmap, hmap] at hp hs
  constructor
  · exact (List.prefix_map_iff_of_injective CollisionFree.injective).mp hp
  · exact (List.map_subset_iff _ CollisionFree.injective).mp hs

theorem transactions_eq_of_hashTransactions_eq (hl : ts.length = ts'.length)
    (h : hashTransactions ts = hashTransactions ts') : ts.map (·.tx) = ts'.map (·.tx) := by
  by_cases hn : ts = []
  case pos =>
    subst hn
    rw [List.length_eq_zero_iff.mp hl.symm]
  case neg =>
    have ⟨hp, _⟩ := prefix_of_hashTransactions_eq hn hl.le (by rw [hl]) h
    exact hp.eq_of_length (by simpa using hl)

omit [CollisionFree UnsignedTransaction] [CollisionFree (Sha256Hash × Sha256Hash)] in
theorem merkleRoot_eq_of_hash_eq [CollisionFree HashableBlock] {b b' : Block} (hp : b.parentId ≠ none)
    (hp' : b'.parentId ≠ none) (h : b.hash = b'.hash) : b.merkleRoot = b'.merkleRoot := by
  have ⟨p, hp⟩ := Option.ne_none_iff_exists'.mp hp
  have ⟨p', hp'⟩ := Option.ne_none_iff_exists'.mp hp'
  rw [hash_normal hp, hash_normal hp'] at h
  exact congrArg HashableBlock.merkleRoot (CollisionFree.injective h)

theorem merkle_root_fixes_transactions [CollisionFree HashableBlock] :
    (∀ ts ts' : List SignedTransaction, ts.length = ts'.length → hashTransactions ts = hashTransactions ts' →
      ts.map (·.tx) = ts'.map (·.tx)) ∧
    (∀ ts ts' : List SignedTransaction, ts ≠ [] → ts.length ≤ ts'.length →
      Nat.clog 2 ts.length = Nat.clog 2 ts'.length → hashTransactions ts = hashTransactions ts' →
      ts.map (·.tx) <+: ts'.map (·.tx) ∧ ts'.map (·.tx) ⊆ ts.map (·.tx)) ∧
    (∀ b b' : Block, b.parentId ≠ none → b'.parentId ≠ none → b.hash = b'.hash →
      b.hashBlockTransaction = b.merkleRoot → b'.hashBlockTransaction = b'.merkleRoot →
      b.transactions.length = b'.transactions.length → b.transactions.map (·.tx) = b'.transactions.map (·.tx)) := by
  refine ⟨fun _ _ => transactions_eq_of_hashTransactions_eq, fun _ _ => prefix_of_hashTransactions_eq, ?_⟩
  intro b b' hp hp' hh hm hm' hl
  refine transactions_eq_of_hashTransactions_eq hl ?_
  exact hm.trans ((merkleRoot_eq_of_hash_eq hp hp' hh).trans hm'.symm)

end

-- The last of three transactions has no neighbour.
theorem hashTransactions_repeat (t₁ t₂ t₃ : SignedTransaction) :
    hashTransactions [t₁, t₂, t₃] = hashTransactions [t₁, t₂, t₃, t₃] := by
  simp [hashTransactions, computeMerkleRoot_eq, recursiveRoot, root, pairUp]

def cancelOf (orderId : Nat) : SignedTransaction where
  tx := .cancelOrder { source := 0, marketId := 0, orderId, status := .pending, nonce := 0 }
  signature := ⟨[]⟩
  hash := 0

omit [Sha256] in
theorem merkle_root_fixes_three :
    ∃ _ : Sha256, hashTransactions ([1, 2, 3].map cancelOf) = hashTransactions ([1, 2, 3, 3].map cancelOf) ∧
      ([1, 2, 3].map cancelOf).map (·.tx) <+: ([1, 2, 3, 3].map cancelOf).map (·.tx) ∧
      ([1, 2, 3, 3].map cancelOf).map (·.tx) ⊆ ([1, 2, 3].map cancelOf).map (·.tx) := by
  let _ := Sha256.encoding
  have _ : CollisionFree UnsignedTransaction := ⟨Encodable.encode_injective⟩
  have _ : CollisionFree (Sha256Hash × Sha256Hash) := ⟨Encodable.encode_injective⟩
  have _ := Sha256.encoding_block
  obtain ⟨-, fixes, -⟩ := merkle_root_fixes_transactions
  have h := hashTransactions_repeat (cancelOf 1) (cancelOf 2) (cancelOf 3)
  exact ⟨_, h, fixes _ _ (by simp) (by simp) (by decide) h⟩

omit [Sha256] in
theorem merkle_root_not_fixes_length :
    ∃ _ : Sha256, CollisionFree UnsignedTransaction ∧ CollisionFree (Sha256Hash × Sha256Hash) ∧
      hashTransactions ([1, 2, 3].map cancelOf) = hashTransactions ([1, 2, 3, 3].map cancelOf) ∧
      ([1, 2, 3].map cancelOf).length ≠ ([1, 2, 3, 3].map cancelOf).length := by
  let _ := Sha256.encoding
  exact ⟨_, ⟨Encodable.encode_injective⟩, ⟨Encodable.encode_injective⟩, hashTransactions_repeat .., by simp⟩

end Superliquid.Block

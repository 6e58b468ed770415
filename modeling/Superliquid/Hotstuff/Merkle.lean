import Superliquid.Hotstuff.Block

namespace Superliquid.Block

-- `compute_merkle_root` as it works on the vector: `len` hashes are in use, the others are left over
-- from earlier levels.
namespace InPlace

variable [Digest (Sha256Hash × Sha256Hash)]

-- Writing to a vector.
def set (xs : List α) (i : Nat) (x : α) : Checked (List α) :=
  if i < xs.length then .ok (xs.set i x) else .error .outOfBounds

-- The body of the loop over `(0..len).step_by(2)`.
def hashPair (hashes : List Sha256Hash) (i : Nat) : Checked (List Sha256Hash) := do
  let left ← Checked.index hashes i
  let right ← Checked.index hashes (i + 1)
  set hashes (i / 2) (digest (left, right))

def hashLevel (hashes : List Sha256Hash) (len : Nat) : Checked (List Sha256Hash) :=
  ((List.range ((len + 1) / 2)).map (2 * ·)).foldlM hashPair hashes

def merkleLoop (hashes : List Sha256Hash) (len : Nat) : Checked (List Sha256Hash) := do
  if 1 < len then
    let hashes ← hashLevel hashes len
    let half := (len + 1) / 2
    if half % 2 = 1 ∧ 1 < half then
      let last ← Checked.index hashes (half - 1)
      let hashes ← set hashes half last
      merkleLoop hashes (half + 1)
    else
      merkleLoop hashes half
  else
    return hashes
termination_by len

def computeMerkleRoot (hashes : List Sha256Hash) : Checked Sha256Hash := do
  if hashes.isEmpty then
    return 0
  else if hashes.length = 1 then
    Checked.index hashes 0
  else
    let hashes ← (if hashes.length % 2 = 1 then do
        let last ← Checked.expect hashes.getLast? "called `Option::unwrap()` on a `None` value"
        return hashes ++ [last]
      else
        return hashes)
    let hashes ← merkleLoop hashes hashes.length
    Checked.index hashes 0

end InPlace
end Superliquid.Block

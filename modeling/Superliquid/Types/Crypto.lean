import Superliquid.State.Order

namespace Superliquid

-- SHA-256 of the bincode encoding of a value. Encodings of different types may coincide, so digests
-- are only ever compared within one type.
class Digest (α : Type) where
  digest : α → Sha256Hash

export Digest (digest)

class CollisionFree (α : Type) [Digest α] : Prop where
  injective : Function.Injective (digest : α → _)

structure SigningKey where
  bytes : Nat
  deriving DecidableEq

structure VerifyingKey where
  bytes : PublicKeyHash
  deriving DecidableEq

structure Signature where
  bytes : Nat
  deriving DecidableEq

-- What the program uses of ed25519. Every message that it signs is a digest.
class Ed25519 where
  fromBytes    : PublicKeyHash → Option VerifyingKey
  verifyingKey : SigningKey → VerifyingKey
  sign         : SigningKey → Sha256Hash → Signature
  verifyStrict : VerifyingKey → Sha256Hash → Signature → Bool
  verify_sign  : ∀ k m, verifyStrict (verifyingKey k) m (sign k m) = true

-- `signed pk m` says that the holder of the key `pk` has signed `m`. A signature that is around is
-- genuine if nobody else made it: whatever it is valid for has been signed.
def Signature.Genuine [Ed25519] (signed : VerifyingKey → Sha256Hash → Prop) (pk : VerifyingKey)
    (σ : Signature) : Prop :=
  ∀ m, Ed25519.verifyStrict pk m σ = true → signed pk m

-- The hexadecimal digits of a signature.
structure SignatureString where
  chars : List Char
  deriving DecidableEq

namespace SignatureString

def hexDigit (c : Char) : Option Nat :=
  if c ∈ ['0', '1', '2', '3', '4', '5', '6', '7', '8', '9'] then
    some (c.toNat - '0'.toNat)
  else if c ∈ ['a', 'b', 'c', 'd', 'e', 'f'] then
    some (c.toNat - 'a'.toNat + 10)
  else if c ∈ ['A', 'B', 'C', 'D', 'E', 'F'] then
    some (c.toNat - 'A'.toNat + 10)
  else
    none

-- Bytes are written with two digits each, the upper half first.
def hexDecode : List Char → Option (List Nat)
  | []           => some []
  | [_]          => none
  | c :: c' :: cs => do
    let high ← hexDigit c
    let low ← hexDigit c'
    let bytes ← hexDecode cs
    return (high * 16 + low) :: bytes

def hexEncode (width n : Nat) : List Char :=
  let digits := Nat.toDigits 16 n
  List.replicate (2 * width - digits.length) '0' ++ digits

def sigToString (σ : Signature) : SignatureString where
  chars := hexEncode 64 σ.bytes

def stringToSig (s : SignatureString) : Option Signature :=
  match hexDecode s.chars with
  | none       => none
  | some bytes =>
    if bytes.length = 64 then some { bytes := bytes.foldl (fun n b => n * 256 + b) 0 } else none

end SignatureString
end Superliquid

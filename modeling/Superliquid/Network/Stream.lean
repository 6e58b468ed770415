import Mathlib.Algebra.Ring.Nat
import Mathlib.Data.List.Basic

namespace Superliquid

inductive ErrorKind
  | unexpectedEof
  | other
  deriving DecidableEq

-- What `send_data` uses of a stream. `written` is everything that has been accepted so far. A call that
-- fails may have written a part.
class AsyncWrite (W : Type) where
  writeAll    : W → List UInt8 → Except ErrorKind Unit × W
  flush       : W → Except ErrorKind Unit × W
  written     : W → List UInt8
  writeAll_ok : writeAll w data = (.ok (), w') → written w' = written w ++ data
  flush_ok    : flush w = (.ok (), w') → written w' = written w

-- What `receive_data` uses of a stream. `remaining` are the bytes that the stream still delivers before
-- its end. A buffer is filled with the bytes that come next, or else there are too few of them.
class AsyncRead (R : Type) where
  readExact           : R → Nat → Except ErrorKind (List UInt8) × R
  remaining           : R → List UInt8
  readExact_ok        : n ≤ (remaining r).length → (readExact r n).1 = .ok ((remaining r).take n)
  readExact_remaining : n ≤ (remaining r).length → remaining (readExact r n).2 = (remaining r).drop n
  readExact_eof       : (remaining r).length < n → (readExact r n).1 = .error .unexpectedEof

namespace Wire

def lenBufLen : Nat := 4

-- `u32::to_be_bytes`, after the cast to `u32`.
def toBeBytes (n : Nat) : List UInt8 :=
  [n / 2 ^ 24, n / 2 ^ 16, n / 2 ^ 8, n].map UInt8.ofNat

def fromBeBytes (bytes : List UInt8) : Nat :=
  bytes.foldl (fun n byte => n * 2 ^ 8 + byte.toNat) 0

def sendData [AsyncWrite W] (stream : W) (data : List UInt8) : Except ErrorKind Unit × W :=
  let dataLen := toBeBytes (data.length % 2 ^ 32)
  match AsyncWrite.writeAll stream dataLen with
  | (.error e, stream) => (.error e, stream)
  | (.ok (), stream)   =>
    match AsyncWrite.writeAll stream data with
    | (.error e, stream) => (.error e, stream)
    | (.ok (), stream)   => AsyncWrite.flush stream

def receiveData [AsyncRead R] (stream : R) : Except ErrorKind (Option (List UInt8)) × R :=
  match AsyncRead.readExact stream lenBufLen with
  | (.error .unexpectedEof, stream) => (.ok none, stream)
  | (.error e, stream)              => (.error e, stream)
  | (.ok lenBuf, stream)            =>
    let msgLen := fromBeBytes lenBuf
    match AsyncRead.readExact stream msgLen with
    | (.error e, stream)    => (.error e, stream)
    | (.ok respBuf, stream) => (.ok (some respBuf), stream)

-- Successful calls of `send_data`, one after the other.
inductive Sends [AsyncWrite W] : W → List (List UInt8) → W → Prop
  | nil  : Sends w [] w
  | cons : sendData w data = (.ok (), w') → Sends w' payloads w'' → Sends w (data :: payloads) w''

-- What the next `n` calls of `receive_data` return.
def receives [AsyncRead R] : Nat → R → List (Except ErrorKind (Option (List UInt8)))
  | 0, _          => []
  | n + 1, stream => (receiveData stream).1 :: receives n (receiveData stream).2

end Wire
end Superliquid

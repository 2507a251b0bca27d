import Mathlib.Algebra.BigOperators.Group.List.Basic
import Mathlib.Algebra.Order.Ring.Int
import Mathlib.Algebra.Order.Ring.Nat
import Mathlib.Data.UInt

/-!
# Identifiers and byte fields

Every identifier of the protocol is a byte string of a fixed length, and the
length is part of its type. Two kinds of identifier never mix: a vault id and a
token id are both sixteen bytes and are different types.

The digests are parameters. What the development uses of SHA-256 and of blake3
is that they are functions of the bytes they are given; where a result needs
more (no collision between two given inputs), it says so.
-/

namespace GalataVault.Proto

/-- A byte string of exactly `n` bytes. -/
structure FixedBytes (n : Nat) where
  bytes : List UInt8
  size : bytes.length = n
deriving DecidableEq

/-- A vault's public identifier. -/
structure VaultId where
  raw : FixedBytes 16
deriving DecidableEq

/-- The public half of an access token. -/
structure TokenId where
  raw : FixedBytes 16
deriving DecidableEq

/-- A record's index. It reveals nothing about the name without the name key. -/
structure NameHmac where
  raw : FixedBytes 32
deriving DecidableEq

/-- A 32-byte digest: of a descriptor or a ciphertext, or an audit-chain hash. -/
structure Hash32 where
  raw : FixedBytes 32
deriving DecidableEq

/-- A 32-byte public key, for signatures or for key agreement. -/
structure Key32 where
  raw : FixedBytes 32
deriving DecidableEq

/-- An Ed25519 signature. -/
structure Sig64 where
  raw : FixedBytes 64
deriving DecidableEq

/-- Opaque bytes: ciphertext and sealed bundles. -/
structure B64 where
  bytes : List UInt8
deriving DecidableEq

/-- The identifier all of whose bytes are `b`. -/
def FixedBytes.fill (n : Nat) (b : UInt8) : FixedBytes n := ⟨List.replicate n b, List.length_replicate⟩

/-- `memcmp` order, which is how the store orders blob columns. -/
def FixedBytes.le {n : Nat} (left right : FixedBytes n) : Bool := decide (left.bytes ≤ right.bytes)

/-- The digest functions the protocol is built on. -/
class Digests where
  sha256 : List UInt8 → Hash32
  /-- blake3 in derive-key mode under a context string. -/
  blake3DeriveKey : String → List UInt8 → Hash32

/-- `n` as `width` bytes, most significant first; what does not fit is dropped. -/
def beBytes : Nat → Nat → List UInt8
  | 0, _ => []
  | width + 1, n => beBytes width (n / 256) ++ [UInt8.ofNat n]

/-- A signed 64-bit integer in two's complement, most significant byte first. -/
def beBytesI64 (i : Int) : List UInt8 := beBytes 8 (i % 2 ^ 64).toNat

end GalataVault.Proto

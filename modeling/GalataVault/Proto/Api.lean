import GalataVault.Proto.Ids

/-!
# Wire types of the server's interface

The types the store and the server's handlers share: token scopes, signed
bundles, the quotas of a vault, and the atomic batch of a rotation. Numbers are
mathematical: a field the source gives as `u32` or `u64` is a `Nat`, one it
gives as `i64` an `Int`. A result that depends on a width states the bound.
-/

namespace GalataVault.Proto

inductive Scope where
  /-- `meta` in the source, which is a keyword here. -/
  | metadata
  | append
  | read
  | admin
  | config
  | configWrite
deriving DecidableEq

/-- A bundle as it travels: sealed to its holder's box key, signed by the owner. -/
structure SignedBundle where
  sealed : B64
  sig : Sig64
deriving DecidableEq

/-- A descriptor's bytes and the owner's signature over them. -/
structure SignedDescriptor where
  descriptor : B64
  sig : Sig64
deriving DecidableEq

/-- The children record as it is stored and served. -/
structure ChildrenBlob where
  version : Nat
  ct : B64
  sig : Sig64
deriving DecidableEq

/-- The quotas of a vault. -/
structure Limits where
  maxNames : Nat
  maxValueBytes : Nat
  maxVersions : Nat
  /-- Secrets and configs together. -/
  maxVaultBytes : Nat
  maxTokens : Nat
  maxConfigs : Nat
  maxConfigBytes : Nat
  maxConfigVersions : Nat
deriving DecidableEq

/-- The quotas a server applies when it is given none. -/
def Limits.default : Limits where
  maxNames := 200
  maxValueBytes := 16 * 1024
  maxVersions := 20
  maxVaultBytes := 4 * 1024 * 1024
  maxTokens := 128
  maxConfigs := 64
  maxConfigBytes := 256 * 1024
  maxConfigVersions := 20

/-- One retained version, re-encrypted to the new keys and re-signed, keeping its
number and write time. -/
structure RotatedVersion where
  oldNameHmac : NameHmac
  version : Nat
  nameHmac : NameHmac
  nameCt : B64
  /-- `none` for a tombstone version. -/
  valueCt : Option B64
  writtenAt : Int
  sig : Sig64
deriving DecidableEq

structure ResealedBundle where
  tokenId : TokenId
  bundle : SignedBundle
deriving DecidableEq

/-- A rotation: one atomic, owner-signed batch. -/
structure RotationRequest where
  fromGeneration : Nat
  fromRevision : Nat
  /-- The next generation's descriptor, linked by `prev_hash`. -/
  descriptor : SignedDescriptor
  ownerBundle : SignedBundle
  secrets : List RotatedVersion
  configs : List RotatedVersion
  tokens : List ResealedBundle
  revoke : List TokenId
deriving DecidableEq

end GalataVault.Proto

import GalataVault.Proto.Api
import GalataVault.Proto.Audit

/-!
# The store's types

What callers hand to the store and what it hands back, the errors it refuses
with, and the journal records of critical operations. A tombstone is a version
without a value, and a stored version cannot disagree with itself about it.
-/

namespace GalataVault.Backend

open Proto

/-- A vault's row number. -/
abbrev VaultPk := Nat

/-- Who is acting, and when. -/
structure Ctx where
  actor : Actor
  now : Int
deriving DecidableEq

structure VaultRow where
  pk : VaultPk
  vaultId : VaultId
  ownerSignPub : Key32
  ownerBoxPub : Key32
  ownerBundle : SignedBundle
  generation : Nat
  revision : Nat
  createdAt : Int
  lastActiveAt : Int
  bytesUsed : Nat
  /-- The current generation's owner-signed descriptor. -/
  descriptor : SignedDescriptor
deriving DecidableEq

structure NewVault where
  vaultId : VaultId
  ownerSignPub : Key32
  ownerBoxPub : Key32
  /-- Generation 1's descriptor, verified by the server. -/
  descriptor : SignedDescriptor
  ownerBundle : SignedBundle
deriving DecidableEq

structure TokenRow where
  tokenId : TokenId
  vaultPk : VaultPk
  authPub : Key32
  boxPub : Key32
  scope : Scope
  createdAt : Int
  expiresAt : Int
  bundle : SignedBundle
  generation : Nat
  allowList : Option (List NameHmac)
deriving DecidableEq

structure NewToken where
  tokenId : TokenId
  authPub : Key32
  boxPub : Key32
  scope : Scope
  expiresAt : Int
  bundle : SignedBundle
  generation : Nat
  allowList : Option (List NameHmac)
deriving DecidableEq

structure VersionRow where
  nameHmac : NameHmac
  version : Nat
  nameCt : List UInt8
  /-- `none` for a tombstone. -/
  valueCt : Option (List UInt8)
  generation : Nat
  /-- The write time the writer signed. -/
  writtenAt : Int
  writtenBy : Actor
  tombstone : Bool
  sig : Sig64
  tombstone_eq : tombstone = valueCt.isNone
deriving DecidableEq

/-- A name's current version, as listed. -/
structure HeadRow where
  nameHmac : NameHmac
  nameCt : List UInt8
  version : Nat
  writtenAt : Int
  size : Nat
  tombstone : Bool
  generation : Nat
  valueCtHash : Hash32
  sig : Sig64
deriving DecidableEq

inductive Precondition where
  /-- `If-None-Match: *`: create, or revive a deleted name. -/
  | ifNoneMatch
  /-- `If-Match: v`: update version `v` and nothing else. -/
  | ifMatch (version : Nat)
deriving DecidableEq

/-- A signed record write. -/
structure RecordWrite where
  nameCt : List UInt8
  /-- `none` for a tombstone. -/
  valueCt : Option (List UInt8)
  generation : Nat
  /-- The version the writer signed; it must be the one the store assigns. -/
  version : Nat
  writtenAt : Int
  sig : Sig64
deriving DecidableEq

/-- Which record tables a call addresses. -/
inductive RecordKind where
  | secret
  | config
deriving DecidableEq

inductive Quota where
  | names
  | valueSize
  | vaultBytes
  | tokens
  | configs
  | configSize
deriving DecidableEq

/-- Single-use identifiers, remembered until they expire. -/
inductive SpentKind where
  | challenge
  | nonce
deriving DecidableEq

inductive StoreError where
  | notFound
  | exists
  | preconditionFailed (current : Option Nat)
  | versionMismatch (signed assigned : Nat)
  | staleGeneration
  | conflict
  | incompleteRotation (detail : String)
  | quota (quota : Quota)
  | spent
  | journal (detail : String)
  | database (detail : String)
deriving DecidableEq

namespace RecordKind

def putAction : RecordKind → AuditAction
  | secret => .secretPut
  | config => .configWrite

def deleteAction : RecordKind → AuditAction
  | secret => .secretDelete
  | config => .configDelete

def maxValue (l : Limits) : RecordKind → Nat
  | secret => l.maxValueBytes
  | config => l.maxConfigBytes

def maxLive (l : Limits) : RecordKind → Nat
  | secret => l.maxNames
  | config => l.maxConfigs

def maxVersions (l : Limits) : RecordKind → Nat
  | secret => l.maxVersions
  | config => l.maxConfigVersions

def sizeQuota : RecordKind → Quota
  | secret => .valueSize
  | config => .configSize

def liveQuota : RecordKind → Quota
  | secret => .names
  | config => .configs

end RecordKind

/-- A critical operation, as the journal records it. -/
inductive JournalOp where
  | revokeTokens (vaultId : VaultId) (tokenIds : List TokenId) (actor : Actor) (reported : Bool)
  | rotate (vaultId : VaultId) (actor : Actor) (request : RotationRequest)
  | deleteVault (vaultId : VaultId)
deriving DecidableEq

structure JournalRecord where
  seq : Nat
  ts : Int
  op : JournalOp
deriving DecidableEq

/-- Called with the record while the transaction is open, on whatever the journal
is kept in. A failure rolls the transaction back; what the call did to the
journal stays done. -/
abbrev CommitHook (σ : Type) := JournalRecord → σ → Except String Unit × σ

end GalataVault.Backend

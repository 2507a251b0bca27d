import GalataVault.Backend.Store
import GalataVault.Proto.Sig

/-!
# Requests and answers of the server

What a request carries and what an answer says. Bodies are JSON in the source,
and their parser is a parameter: for each request type, the value a body stands
for or the place where it stops being one. An answer's body is the value the
source serialises. The authorization header is the signature parameters it
parses to; a header that is missing and one that is malformed are answered alike.
-/

namespace GalataVault.Server

open Proto Backend

/-! ## Errors -/

/-- The stable error codes. -/
inductive ErrorCode where
  | unauthorized
  | tokenExpired
  | forbidden
  | notFound
  | conflict
  | staleGeneration
  | challengeReused
  | preconditionFailed
  | valueTooLarge
  | invalidRequest
  | credentialInQuery
  | challengeExpired
  | invalidProofOfWork
  | vaultIdMismatch
  | notAgeCiphertext
  | incompleteRotation
  | ttlTooLong
  | vaultQuotaExceeded
  | nameQuotaExceeded
  | tokenQuotaExceeded
  | configTooLarge
  | configQuotaExceeded
  | preconditionRequired
  | rateLimited
  | unavailable
  | internal
  | badSignature
  | versionMismatch
  | keyMismatch
  | versionRollback
  | generationRollback
deriving DecidableEq

def ErrorCode.status : ErrorCode → Nat
  | invalidRequest | credentialInQuery | challengeExpired | invalidProofOfWork => 400
  | unauthorized | tokenExpired => 401
  | forbidden => 403
  | notFound => 404
  | conflict | staleGeneration | challengeReused | versionMismatch | versionRollback | generationRollback => 409
  | preconditionFailed => 412
  | valueTooLarge | configTooLarge => 413
  | vaultIdMismatch | notAgeCiphertext | incompleteRotation | ttlTooLong | vaultQuotaExceeded
  | nameQuotaExceeded | tokenQuotaExceeded | configQuotaExceeded | badSignature | keyMismatch => 422
  | preconditionRequired => 428
  | rateLimited => 429
  | internal => 500
  | unavailable => 503

structure CoreError where
  code : ErrorCode
  message : String
  /-- Seconds, for 429. -/
  retryAfter : Option Nat := none
  /-- For the operator's log, never for the caller. -/
  detail : Option String := none
deriving DecidableEq

namespace CoreError

/-- The one answer for every authentication failure. -/
def unauthorized : CoreError := { code := .unauthorized, message := "authentication failed" }

def forbidden : CoreError :=
  { code := .forbidden, message := "this credential's scope does not allow that" }

def invalid (message : String) : CoreError := { code := .invalidRequest, message := message }

def internal : CoreError := { code := .internal, message := "internal error" }

/-- A path this server does not serve. -/
def noEndpoint : CoreError := { code := .notFound, message := "no such endpoint" }

/-- The same error, with a detail for the operator's log. -/
def logged (e : CoreError) (detail : String) : CoreError := { e with detail := some detail }

/-- A signature that does not verify, or a key that does not match: refused before
anything is stored. -/
def ofIntegrity (e : IntegrityError) : CoreError :=
  { code := match e with
      | .keyMismatch _ => .keyMismatch
      | .malformed _ => .invalidRequest
      | _ => .badSignature
    message := e.message }

def ofStore : StoreError → CoreError
  | .notFound => { code := .notFound, message := "not found" }
  | .exists => { code := .conflict, message := "already exists" }
  | .preconditionFailed current =>
    { code := .preconditionFailed
      message := match current with
        | some v => s!"precondition failed: the current version is {v}"
        | none => "precondition failed: there is no current version" }
  | .versionMismatch signed assigned =>
    { code := .versionMismatch
      message := s!"the write signs version {signed}, but it would create version {assigned}" }
  | .staleGeneration =>
    { code := .staleGeneration
      message := "written for a stale key generation; fetch the current descriptor and bundle" }
  | .conflict => { code := .conflict, message := "the vault changed since this batch was built; rebuild it" }
  | .incompleteRotation why => { code := .incompleteRotation, message := why }
  | .quota .names => { code := .nameQuotaExceeded, message := "the vault has reached its name quota" }
  | .quota .valueSize => { code := .valueTooLarge, message := "the value is larger than the per-value quota" }
  | .quota .vaultBytes => { code := .vaultQuotaExceeded, message := "the vault has reached its storage quota" }
  | .quota .tokens => { code := .tokenQuotaExceeded, message := "the vault has reached its token quota" }
  | .quota .configs => { code := .configQuotaExceeded, message := "the vault has reached its config quota" }
  | .quota .configSize => { code := .configTooLarge, message := "the config is larger than the per-config quota" }
  | .spent => { code := .challengeReused, message := "already used" }
  | .journal detail =>
    { code := .unavailable
      message := "the operation could not be made durable, so it was not applied; retry"
      detail := some ("journal write failed; operation rolled back: " ++ detail) }
  | .database detail => internal.logged ("storage error: database error: " ++ detail)

end CoreError

/-! ## Requests -/

/-- One request, exactly as a signature covers it. -/
structure CanonicalRequest where
  method : String
  pathAndQuery : String
  authorization : Option SigParams
  ifMatch : Option String
  ifNoneMatch : Option String
  body : List UInt8
deriving DecidableEq

structure CreateVaultRequest where
  challenge : Option String
  nonce : Option Nat
  vaultId : VaultId
  ownerSignPub : Key32
  ownerBoxPub : Key32
  descriptor : SignedDescriptor
  ownerBundle : SignedBundle
deriving DecidableEq

structure PutSecretRequest where
  nameCt : B64
  valueCt : B64
  generation : Nat
  version : Nat
  writtenAt : Int
  sig : Sig64
deriving DecidableEq

structure DeleteRecordRequest where
  nameCt : B64
  generation : Nat
  version : Nat
  writtenAt : Int
  sig : Sig64
deriving DecidableEq

structure RegisterTokenRequest where
  tokenId : TokenId
  authPub : Key32
  boxPub : Key32
  scope : Scope
  ttlSecs : Nat
  allowList : Option (List NameHmac)
  generation : Nat
  bundle : SignedBundle
deriving DecidableEq

structure ReportTokenRequest where
  tokenId : TokenId
  ts : Int
  sig : Sig64
deriving DecidableEq

/-- A body as the value it stands for, or the line and column where it fails. -/
abbrev Parsed (α : Type) := Except (Nat × Nat) α

/-- The JSON parser, for each type a request body may have. -/
class Bodies where
  challenge : List UInt8 → Parsed Unit
  createVault : List UInt8 → Parsed CreateVaultRequest
  putSecret : List UInt8 → Parsed PutSecretRequest
  deleteRecord : List UInt8 → Parsed DeleteRecordRequest
  registerToken : List UInt8 → Parsed RegisterTokenRequest
  reportToken : List UInt8 → Parsed ReportTokenRequest
  rotation : List UInt8 → Parsed RotationRequest
  children : List UInt8 → Parsed ChildrenBlob

/-! ## Answers -/

structure ChallengeResponse where
  challenge : String
  difficulty : Nat
  expiresAt : Int
deriving DecidableEq

/-- The version of each format this build implements. -/
structure Formats where
  descriptor : Nat := 1
  bundle : Nat := 1
  envelope : Nat := 1
  children : Nat := 1
  auditRow : Nat := 1
  requestSignature : Nat := 1
deriving DecidableEq

structure Capabilities where
  protocols : List String
  formats : Formats
  proofOfWork : Option Nat
  idleExpiryDays : Option Nat
  limits : Limits
  features : List String
  server : Option String
deriving DecidableEq

structure TokenSummary where
  tokenId : TokenId
  scope : Scope
  createdAt : Int
  expiresAt : Int
  boxPub : Key32
  allowList : Option (List NameHmac)
deriving DecidableEq

structure VaultStatus where
  vaultId : VaultId
  generation : Nat
  revision : Nat
  ownerSignPub : Key32
  ownerBoxPub : Key32
  descriptor : SignedDescriptor
  configCount : Nat
  createdAt : Int
  lastActiveAt : Int
  expiresAt : Option Int
  bytesUsed : Nat
  limits : Limits
  /-- For the owner and admin tokens. -/
  tokens : Option (List TokenSummary)
  /-- For the owner alone. -/
  ownerBundle : Option SignedBundle
deriving DecidableEq

structure TokenSelf where
  tokenId : TokenId
  vaultId : VaultId
  scope : Scope
  expiresAt : Int
  allowList : Option (List NameHmac)
  ownerSignPub : Key32
  descriptor : SignedDescriptor
  bundle : SignedBundle
deriving DecidableEq

/-- One retained version, as its history lists it. -/
structure VersionMeta where
  version : Nat
  writtenAt : Int
  writtenBy : Actor
  size : Nat
  tombstone : Bool
  generation : Nat
  valueCtHash : Hash32
  nameCtHash : Hash32
  sig : Sig64
deriving DecidableEq

/-- What an answer's JSON body stands for. -/
inductive Body where
  | error (code : ErrorCode) (message : String)
  | capabilities (document : Capabilities)
  | challenge (response : ChallengeResponse)
  | createVault (vaultId : VaultId) (generation : Nat) (expiresAt : Option Int)
  | status (status : VaultStatus)
  | descriptors (chain : List SignedDescriptor)
  | children (blob : ChildrenBlob)
  | put (version : Nat)
  | list (items : List HeadRow) (nextCursor : Option NameHmac)
  | record (row : VersionRow)
  | versions (rows : List VersionMeta)
  | audit (rows : List AuditRow) (head : Option ChainHead)
  | rotation (generation : Nat)
  | deleteVault (vaultId : VaultId)
  | revoked (ids : List TokenId)
  | registerToken (tokenId : TokenId) (expiresAt : Int)
  | tokenSelf (me : TokenSelf)
deriving DecidableEq

structure CoreResponse where
  status : Nat
  error : Option ErrorCode
  /-- A record version, sent as `ETag`. -/
  etag : Option Nat
  /-- When the caller's vault expires if nothing touches it. -/
  expiresAt : Option Int
  retryAfter : Option Nat
  body : Body
deriving DecidableEq

namespace CoreResponse

/-- A success with `body`. -/
def json (status : Nat) (body : Body) : CoreResponse where
  status := status
  error := none
  etag := none
  expiresAt := none
  retryAfter := none
  body := body

def withEtag (response : CoreResponse) (version : Nat) : CoreResponse := { response with etag := some version }

end CoreResponse

/-- The answer a caller receives: the status, the code and the message, and nothing
of the error's detail. -/
def CoreError.toResponse (e : CoreError) : CoreResponse where
  status := e.code.status
  error := some e.code
  etag := none
  expiresAt := none
  retryAfter := e.retryAfter
  body := .error e.code e.message

end GalataVault.Server

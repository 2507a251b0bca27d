import GalataVault.Server.Core

/-!
# Authentication

A request is verified against its vault's owner key or a token's stored key,
within the skew window, and its nonce is spent only after the signature verifies.
The caller is bound to the vault row that was read first; nothing reads it again.
Every failure before the credential is proven is the same answer.
-/

namespace GalataVault.Server

open Proto Backend Interaction

section

variable [Digests] [Ed25519]

/-- The part of a request its signature covers. -/
def CanonicalRequest.signed (request : CanonicalRequest) : SignedRequest where
  method := request.method
  pathAndQuery := request.pathAndQuery
  body := request.body
  ifMatch := request.ifMatch
  ifNoneMatch := request.ifNoneMatch

/-- Verify a request signature within the skew window. -/
def verifyRequest (pub : Key32) (request : CanonicalRequest) (params : SigParams) (now : Int) :
    Except CoreError Unit :=
  if maxSkewSecs < ((now - params.ts).natAbs : Int) then .error .unauthorized
  else (verifyEd25519 pub (params.signingInput request.signed) params.sig "request").mapError fun _ => .unauthorized

end

/-- What a nonce is remembered as: the vault's id and the nonce. -/
def nonceId (params : SigParams) : List UInt8 := params.vaultId.raw.bytes ++ params.nonce.bytes

/-- Spend a request signature's nonce; a replay within the skew window, like any
other failure here, is an authentication failure. -/
def spendNonce (params : SigParams) : Handler Unit := do
  let now ← Handler.now
  let spent ← Program.ask (.write (.spend .nonce (nonceId params) (params.ts + 2 * maxSkewSecs) now))
  Handler.check (spent.mapError fun _ => .unauthorized)

/-- When the vault expires if nothing else touches it. -/
def expiresAt (policy : Policy) (vault : VaultRow) (now : Int) : Option Int :=
  policy.idleSecs.map fun idle => max vault.lastActiveAt now + idle

/-- Never true when expiry is off. -/
def expired (policy : Policy) (vault : VaultRow) (now : Int) : Bool :=
  (policy.idleSecs.map fun idle => decide (vault.lastActiveAt + idle < now)).getD false

section

variable [Digests] [Ed25519] (policy : Policy)

def ownerAuth (request : CanonicalRequest) (params : SigParams) (now : Int) : Handler Caller := do
  match ← Handler.findVault (Db.loadVaultById · params.vaultId) with
  | none => Program.fail .unauthorized
  | some vault =>
    Handler.check (verifyRequest vault.ownerSignPub request params now)
    if expired policy vault now then Program.fail .unauthorized
    else
      spendNonce params
      pure { vault := vault, principal := .owner, expiresAt := expiresAt policy vault now }

def tokenAuth (request : CanonicalRequest) (params : SigParams) (id : TokenId) (now : Int) : Handler Caller := do
  match ← Handler.read (tokenById id) with
  | none => Program.fail .unauthorized
  | some row =>
    match ← Handler.findVault (Db.loadVault · row.vaultPk) with
    | none => Program.fail .unauthorized
    | some vault =>
      -- The token names its vault in the signature; a token of another vault is
      -- unknown here.
      if vault.vaultId ≠ params.vaultId then Program.fail .unauthorized
      else
        Handler.check (verifyRequest row.authPub request params now)
        if expired policy vault now then Program.fail .unauthorized
        else
          spendNonce params
          -- Only a holder who proved possession learns that the token expired.
          if row.expiresAt ≤ now then
            Program.fail { code := .tokenExpired, message := "this token has expired" }
          else pure { vault := vault, principal := .token row, expiresAt := expiresAt policy vault now }

def authenticate (request : CanonicalRequest) : Handler Caller := do
  match request.authorization with
  | none => Program.fail .unauthorized
  | some params =>
    let now ← Handler.now
    let caller ← (match params.actor with
      | .owner => ownerAuth policy request params now
      | .token id => tokenAuth policy request params id now)
    Handler.store (.touch caller.vault.pk now)
    pure caller

/-- Authenticate a request, admit it, and run `op` as its caller. Every answer after
authentication carries the vault's expiry. -/
def authed (request : CanonicalRequest) (op : Caller → Handler CoreResponse) : Handler CoreResponse := do
  let caller ← authenticate policy request
  let now ← Handler.now
  Handler.check (policy.admission.admitRequest caller now)
  let outcome ← (op caller).attempt
  let response := match outcome with
    | .ok response => response
    | .error failure => failure.toResponse
  pure { response with expiresAt := caller.expiresAt }

end

/-- A JSON body; the error names the type and the place, never the input. -/
def json {α : Type} (parsed : Parsed α) (what : String) : Handler α :=
  Handler.check <| parsed.mapError fun place =>
    .invalid s!"the body is not a valid {what} (line {place.1}, column {place.2})"

end GalataVault.Server

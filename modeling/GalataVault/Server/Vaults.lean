import GalataVault.Server.Records

/-!
# Vaults, tokens and critical operations

The capabilities document, challenges, vault creation and status, the descriptor
chain and the children record; registering tokens and a token's view of itself;
and the journaled operations: revocation, leak reports, rotation and deletion.
-/

namespace GalataVault.Server

open Proto Backend Interaction

section

variable [Digests] [Ed25519] [Bodies] (policy : Policy)

/-! ## Vaults -/

/-- `GET /v1/capabilities`, unauthenticated. -/
def capabilities : Handler CoreResponse := pure (.json 200 (.capabilities policy.capabilities))

/-- `POST /v1/challenges`, from a policy that asks for proof of work. -/
def challenge (request : CanonicalRequest) : Handler CoreResponse := do
  if policy.admission.proofOfWork = none then Program.fail .noEndpoint
  else
    json (Bodies.challenge request.body) "challenge request"
    let now ← Handler.now
    let response ← Handler.check (policy.admission.challenge now)
    pure (.json 200 (.challenge response))

/-- `POST /v1/vaults`: a request signed by the key whose hash is the vault id. -/
def create (request : CanonicalRequest) : Handler CoreResponse := do
  let body ← json (Bodies.createVault request.body) "vault creation request"
  let now ← Handler.now
  let admitted ← Handler.check (policy.admission.admitCreation body now)
  if VaultId.fromOwnerSignPub body.ownerSignPub ≠ body.vaultId then
    Program.fail
      { code := .vaultIdMismatch, message := "the vault id is not the hash of the owner signing key" }
  else
    match request.authorization with
    | none => Program.fail .unauthorized
    | some params =>
      if params.actor ≠ .owner ∨ params.vaultId ≠ body.vaultId then Program.fail .unauthorized
      else
        Handler.check (verifyRequest body.ownerSignPub request params now)
        let descriptor ← Handler.integrity (body.descriptor.verifyFor body.vaultId body.ownerSignPub)
        if ¬ descriptor.isFirst then
          Program.fail (.invalid "a vault starts at generation 1, with a zero previous-descriptor hash")
        else
          Handler.integrity
            (body.ownerBundle.verify body.ownerSignPub body.vaultId ownerTokenId ownerScopeCode 1)
          (match admitted with
            | none => pure ()
            | some admitted => Handler.store (.spend .challenge admitted.challengeId.bytes admitted.expiresAt now))
          spendNonce params
          let vault : NewVault :=
            { vaultId := body.vaultId, ownerSignPub := body.ownerSignPub, ownerBoxPub := body.ownerBoxPub,
              descriptor := body.descriptor, ownerBundle := body.ownerBundle }
          let row ← Handler.store (.createVault vault now)
          pure (.json 201
            (.createVault row.vaultId row.generation (policy.idleSecs.map fun idle => row.lastActiveAt + idle)))

/-- A token as the owner and admin tokens see it listed. -/
def tokenSummary (t : TokenRow) : TokenSummary where
  tokenId := t.tokenId
  scope := t.scope
  createdAt := t.createdAt
  expiresAt := t.expiresAt
  boxPub := t.boxPub
  allowList := t.allowList

/-- The vault's tokens, for a caller that may manage them. A credential other than
the owner key receiving the list is worth a row; what the audit write answers is
ignored. -/
def listTokens (caller : Caller) : Handler (Option (List TokenSummary)) := do
  if caller.can .manage then
    let rows ← Handler.read (Db.tokensOf · caller.vault.pk)
    if caller.isOwner then pure (some (rows.map tokenSummary))
    else
      let now ← Handler.now
      let _ ← Program.ask
        (.write (.record caller.vault.pk (.simple caller.actor .tokenList none .ok) now))
      pure (some (rows.map tokenSummary))
  else pure none

/-- `GET /v1/vault`: status for any scope, from the row the caller is bound to. -/
def status (caller : Caller) : Handler CoreResponse := do
  let v := caller.vault
  let tokens ← listTokens caller
  let configCount ← Handler.read fun db => (db.liveHeads .config v.pk).length
  pure (.json 200 (.status
    { vaultId := v.vaultId
      generation := v.generation
      revision := v.revision
      ownerSignPub := v.ownerSignPub
      ownerBoxPub := v.ownerBoxPub
      descriptor := v.descriptor
      configCount := configCount
      createdAt := v.createdAt
      lastActiveAt := v.lastActiveAt
      expiresAt := caller.expiresAt
      bytesUsed := v.bytesUsed
      limits := policy.limits
      tokens := tokens
      ownerBundle := if caller.isOwner then some v.ownerBundle else none }))

/-- `GET /v1/vault/descriptors`: the owner-signed chain, for any authenticated
caller. -/
def descriptors (caller : Caller) (query : Option String) : Handler CoreResponse := do
  let after ← (match queryValue query "after" with
    | none => pure 0
    | some text =>
      match parseUnsigned (2 ^ 32) text.toList with
      | some generation => pure generation
      | none => Program.fail (.invalid "after is a generation number"))
  let chain ← Handler.read (Backend.descriptors caller.vault.pk after)
  pure (.json 200 (.descriptors chain))

/-- `GET /v1/vault/children`: the owner-only children record. -/
def children (caller : Caller) : Handler CoreResponse := do
  if ¬ caller.isOwner then Program.fail .forbidden
  else
    match ← Handler.read (Backend.children caller.vault.pk) with
    | none => Program.fail { code := .notFound, message := "this vault has no children record" }
    | some blob => pure ((CoreResponse.json 200 (.children blob)).withEtag blob.version)

/-- `PUT /v1/vault/children`: owner only, signed for the version the precondition
creates. -/
def putChildren (caller : Caller) (request : CanonicalRequest) : Handler CoreResponse := do
  require caller .owner .childrenWrite none
  let pre ← Handler.check (precondition request.ifMatch request.ifNoneMatch)
  let blob ← json (Bodies.children request.body) "children record"
  match blob.verify caller.vault.vaultId caller.vault.ownerSignPub with
  | .error failure =>
    refuse caller .childrenWrite none
    Program.fail (.ofIntegrity failure)
  | .ok () =>
    let now ← Handler.now
    let version ← Handler.store (.putChildren caller.vault.pk pre blob (caller.ctx now) policy.limits)
    let status := match pre with
      | .ifNoneMatch => 201
      | .ifMatch _ => 200
    pure ((CoreResponse.json status (.put version)).withEtag version)

/-! ## Tokens -/

def day : Nat := 86400

def Scope.defaultTtlSecs : Scope → Nat
  | .admin => day
  | _ => 90 * day

def Scope.maxTtlSecs : Scope → Nat
  | .admin => 30 * day
  | _ => 365 * day

/-- The scope's name on the wire. -/
def Scope.text : Scope → String
  | .metadata => "meta"
  | .append => "append"
  | .read => "read"
  | .admin => "admin"
  | .config => "config"
  | .configWrite => "config-write"

/-- `POST /v1/tokens`: owner only. -/
def register (caller : Caller) (body : List UInt8) : Handler CoreResponse := do
  require caller .owner .tokenMint none
  let r ← json (Bodies.registerToken body) "token registration"
  let ttl := if r.ttlSecs = 0 then Scope.defaultTtlSecs r.scope else r.ttlSecs
  if Scope.maxTtlSecs r.scope < ttl then
    Program.fail
      { code := .ttlTooLong
        message := s!"a {Scope.text r.scope} token lives at most {Scope.maxTtlSecs r.scope / day} days" }
  else if r.allowList.isSome ∧ r.scope ≠ .read then
    Program.fail (.invalid "only read tokens take a name allow-list")
  else
    -- The bundle must be the owner's, for this token, scope and generation.
    match r.bundle.verify caller.vault.ownerSignPub caller.vault.vaultId r.tokenId r.scope.code r.generation with
    | .error failure =>
      refuse caller .tokenMint none
      Program.fail (.ofIntegrity failure)
    | .ok () =>
      let now ← Handler.now
      let token : NewToken :=
        { tokenId := r.tokenId, authPub := r.authPub, boxPub := r.boxPub, scope := r.scope,
          expiresAt := now + ttl, bundle := r.bundle, generation := r.generation, allowList := r.allowList }
      let row ← Handler.store (.registerToken caller.vault.pk token (caller.ctx now) policy.limits)
      pure (.json 201 (.registerToken row.tokenId row.expiresAt))

/-- `GET /v1/tokens/self`: what the calling token needs to verify its vault. -/
def whoami (caller : Caller) : Handler CoreResponse :=
  match caller.principal with
  | .owner => Program.fail (.invalid "the owner has no token; use GET /v1/vault for the owner bundle")
  | .token t =>
    pure (.json 200 (.tokenSelf
      { tokenId := t.tokenId
        vaultId := caller.vault.vaultId
        scope := t.scope
        expiresAt := t.expiresAt
        allowList := t.allowList
        ownerSignPub := caller.vault.ownerSignPub
        descriptor := caller.vault.descriptor
        bundle := t.bundle }))

/-! ## Critical operations -/

/-- `DELETE /v1/tokens/{id}`: owner or admin. -/
def revoke (caller : Caller) (id : String) : Handler CoreResponse := do
  require caller .manage .tokenRevoke none
  match fromHex 16 id with
  | none => Program.fail (.invalid "a token id is 32 hexadecimal characters")
  | some raw =>
    let now ← Handler.now
    let revoked ← Handler.store (.revokeTokens caller.vault.pk [⟨raw⟩] false (caller.ctx now))
    pure (.json 200 (.revoked revoked))

/-- `POST /v1/tokens/report`: whoever holds a token may revoke it, by proving
possession with the token's request-signing key. -/
def report (body : List UInt8) : Handler CoreResponse := do
  let request ← json (Bodies.reportToken body) "token report"
  match ← Handler.read (tokenById request.tokenId) with
  | none => Program.fail .unauthorized
  | some row =>
    let now ← Handler.now
    if maxSkewSecs < ((now - request.ts).natAbs : Int) then Program.fail .unauthorized
    else
      Handler.check <|
        (verifyEd25519 row.authPub (reportSigningInput request.tokenId request.ts) request.sig "report").mapError
          fun _ => .unauthorized
      let revoked ← Handler.store
        (.revokeTokens row.vaultPk [request.tokenId] true { actor := .token request.tokenId, now := now })
      pure (.json 200 (.revoked revoked))

/-- Every version of a batch, re-signed by the new generation's writer key. -/
def verifyVersions (vaultId : VaultId) (generation : Nat) (kind : RecordKind) (writerPub : Key32)
    (batch : List RotatedVersion) : Except IntegrityError Unit :=
  batch.forM fun v =>
    (RecordContext.ofCiphertexts vaultId generation (wire kind) v.nameHmac v.version v.writtenAt v.nameCt.bytes
      (v.valueCt.map (·.bytes))).verify writerPub v.sig

/-- Every resealed bundle is the owner's, for a token of this vault. -/
def verifyResealed (vault : VaultRow) (generation : Nat) (tokens : List TokenRow) (batch : List ResealedBundle) :
    Except CoreError Unit :=
  batch.forM fun t =>
    match tokens.find? fun row => row.tokenId = t.tokenId with
    | none => .error (.ofStore (.incompleteRotation "a resealed bundle names a token not in this vault"))
    | some row =>
      (t.bundle.verify vault.ownerSignPub vault.vaultId t.tokenId row.scope.code generation).mapError .ofIntegrity

/-- `POST /v1/vault/rotations`: owner only; one atomic batch. -/
def rotate (caller : Caller) (body : List UInt8) : Handler CoreResponse := do
  require caller .owner .vaultRotate none
  let request ← json (Bodies.rotation body) "rotation batch"
  if (request.secrets ++ request.configs).any
      (fun s => (s.valueCt.map fun v => !decide (ageHeader <+: v.bytes)).getD false) then
    Program.fail
      { code := .notAgeCiphertext, message := "every re-encrypted value must be age v1 ciphertext" }
  else
    let vault := caller.vault
    if request.fromGeneration ≠ vault.generation ∨ request.fromRevision ≠ vault.revision then
      Program.fail (.ofStore .conflict)
    else
      let current ← Handler.check caller.descriptor
      let next ← Handler.integrity (request.descriptor.verifyFor vault.vaultId vault.ownerSignPub)
      if ¬ next.follows current then
        Program.fail
          { code := .keyMismatch, message := "the new descriptor does not follow the current one" }
      else
        Handler.integrity
          (verifyVersions vault.vaultId next.generation .secret next.secretWriterPub request.secrets)
        Handler.integrity
          (verifyVersions vault.vaultId next.generation .config next.configWriterPub request.configs)
        Handler.integrity
          (request.ownerBundle.verify vault.ownerSignPub vault.vaultId ownerTokenId ownerScopeCode next.generation)
        let tokens ← Handler.read (Db.tokensOf · vault.pk)
        Handler.check (verifyResealed vault next.generation tokens request.tokens)
        let now ← Handler.now
        let generation ← Handler.store (.applyRotation vault.pk request (caller.ctx now))
        pure (.json 200 (.rotation generation))

/-- `DELETE /v1/vault`: owner only. -/
def deleteVault (caller : Caller) : Handler CoreResponse := do
  require caller .owner .vaultDelete none
  let now ← Handler.now
  Handler.store (.deleteVault caller.vault.pk now)
  pure (.json 200 (.deleteVault caller.vault.vaultId))

end

end GalataVault.Server

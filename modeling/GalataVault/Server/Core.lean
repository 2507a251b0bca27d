import GalataVault.Backend.Runs
import GalataVault.Library.Interaction
import GalataVault.Server.Interface

/-!
# Handlers and what they perform

A handler is a program over four kinds of operation: reading the clock, one read
of the store, the read that finds the vault a request is bound to, and one write
of the store. Each store operation is a transaction of its own, and between two
of them other requests may run. What an operation meets outside the database is
its environment: the time, what SQLite answers, and the journal's hook.

The policy's admission is a value here: what it decides is a function of what it
is given. Log lines are not modelled.
-/

namespace GalataVault.Server

open Proto Backend Interaction

/-! ## Operations -/

/-- A mutating call of the store, and what it answers when it succeeds. -/
inductive StoreCall : Type → Type where
  | createVault (v : NewVault) (now : Int) : StoreCall VaultRow
  | touch (pk : VaultPk) (now : Int) : StoreCall Unit
  | registerToken (pk : VaultPk) (t : NewToken) (ctx : Ctx) (limits : Limits) : StoreCall TokenRow
  | revokeTokens (pk : VaultPk) (ids : List TokenId) (reported : Bool) (ctx : Ctx) : StoreCall (List TokenId)
  | putRecord (pk : VaultPk) (kind : RecordKind) (name : NameHmac) (pre : Precondition) (w : RecordWrite)
      (ctx : Ctx) (limits : Limits) : StoreCall Nat
  | deleteRecord (pk : VaultPk) (kind : RecordKind) (name : NameHmac) (ifMatch : Nat) (w : RecordWrite)
      (ctx : Ctx) (limits : Limits) : StoreCall Nat
  | putChildren (pk : VaultPk) (pre : Precondition) (blob : ChildrenBlob) (ctx : Ctx) (limits : Limits) :
      StoreCall Nat
  | record (pk : VaultPk) (e : AuditEvent) (now : Int) : StoreCall Unit
  | applyRotation (pk : VaultPk) (r : RotationRequest) (ctx : Ctx) : StoreCall Nat
  | deleteVault (pk : VaultPk) (now : Int) : StoreCall Unit
  | spend (kind : SpentKind) (id : List UInt8) (expiresAt now : Int) : StoreCall Unit

/-- What an operation meets outside the database. -/
structure Env (σ : Type) where
  now : Int
  /-- What SQLite answers to a read, or to a write's commit. -/
  disk : Except String Unit
  hook : CommitHook σ

namespace StoreCall

variable {σ β : Type}

/-- The call as one step of the store. -/
def call (env : Env σ) : StoreCall β → Call σ
  | createVault v now => .createVault env.disk v now
  | touch pk now => .touch env.disk pk now
  | registerToken pk t ctx limits => .registerToken env.disk pk t ctx limits
  | revokeTokens pk ids reported ctx => .revokeTokens env.disk env.hook pk ids reported ctx
  | putRecord pk kind name pre w ctx limits => .putRecord env.disk pk kind name pre w ctx limits
  | deleteRecord pk kind name ifMatch w ctx limits => .deleteRecord env.disk pk kind name ifMatch w ctx limits
  | putChildren pk pre blob ctx limits => .putChildren env.disk pk pre blob ctx limits
  | record pk e now => .record env.disk pk e now
  | applyRotation pk r ctx => .applyRotation env.disk env.hook pk r ctx
  | deleteVault pk now => .deleteVault env.disk env.hook pk now
  | spend kind id expiresAt now => .spend env.disk kind id expiresAt now

/-- What the caller is answered. -/
def answer [Digests] (env : Env σ) (world : World σ) : StoreCall β → Except StoreError β
  | createVault v now => (Backend.createVault env.disk v now world.db).1
  | touch pk now => (Backend.touch env.disk pk now world.db).1
  | registerToken pk t ctx limits => (Backend.registerToken env.disk pk t ctx limits world.db).1
  | revokeTokens pk ids reported ctx =>
    (Backend.revokeTokens env.disk env.hook pk ids reported ctx world.db world.journal).1
  | putRecord pk kind name pre w ctx limits => (Backend.putRecord env.disk pk kind name pre w ctx limits world.db).1
  | deleteRecord pk kind name ifMatch w ctx limits =>
    (Backend.deleteRecord env.disk pk kind name ifMatch w ctx limits world.db).1
  | putChildren pk pre blob ctx limits => (Backend.putChildren env.disk pk pre blob ctx limits world.db).1
  | record pk e now => (Backend.record env.disk pk e now world.db).1
  | applyRotation pk r ctx => (Backend.applyRotation env.disk env.hook pk r ctx world.db world.journal).1
  | deleteVault pk now => (Backend.deleteVault env.disk env.hook pk now world.db world.journal).1
  | spend kind id expiresAt now => (Backend.spend env.disk kind id expiresAt now world.db).1

end StoreCall

/-- One operation of a handler. -/
inductive Op : Type → Type 1 where
  | now : Op Int
  | read {β : Type} (query : Db → β) : Op (Except StoreError β)
  /-- The read that finds the vault a request acts on. -/
  | findVault (query : Db → Option VaultRow) : Op (Except StoreError (Option VaultRow))
  | write {β : Type} (call : StoreCall β) : Op (Except StoreError β)

/-- What an operation answers, and the world after it. -/
def perform [Digests] {σ β : Type} (env : Env σ) : Op β → World σ → β × World σ
  | .now, world => (env.now, world)
  | .read query, world => ((env.disk.mapError .database).map fun _ => query world.db, world)
  | .findVault query, world => ((env.disk.mapError .database).map fun _ => query world.db, world)
  | .write call, world => (call.answer env world, step world (call.call env))

/-! ## Handlers -/

abbrev Handler := Program Op CoreError

namespace Handler

variable {β : Type}

def now : Handler Int := Program.ask .now

/-- Go on with the value of a store operation; its error is the handler's. -/
def orError : Except StoreError β → Handler β
  | .ok value => pure value
  | .error failure => Program.fail (.ofStore failure)

def read (query : Db → β) : Handler β := Program.ask (.read query) >>= orError

def findVault (query : Db → Option VaultRow) : Handler (Option VaultRow) :=
  Program.ask (.findVault query) >>= orError

def store (call : StoreCall β) : Handler β := Program.ask (.write call) >>= orError

/-- A pure check. -/
def check : Except CoreError β → Handler β := Program.done

/-- A pure check of a signature or a key. -/
def integrity (result : Except IntegrityError β) : Handler β := check (result.mapError .ofIntegrity)

end Handler

/-! ## Callers -/

/-- Who signed a request. -/
inductive Principal where
  | owner
  | token (row : TokenRow)
deriving DecidableEq

/-- An authenticated caller, bound to exactly one vault. -/
structure Caller where
  vault : VaultRow
  principal : Principal
  /-- When this vault expires if nothing else touches it. -/
  expiresAt : Option Int
deriving DecidableEq

/-- What an operation needs from the credential. -/
inductive Need where
  | readValues
  | writeValues
  | readConfigs
  | writeConfigs
  | manage
  | readAudit
  | owner
deriving DecidableEq

/-- The scope matrix: what a token of each scope may do. -/
def scopeCan : Scope → Need → Bool
  | scope, .readValues => scope = .read || scope = .admin
  | scope, .writeValues => scope = .append || scope = .admin
  | scope, .readConfigs => scope = .read || scope = .admin || scope = .config || scope = .configWrite
  | scope, .writeConfigs => scope = .append || scope = .admin || scope = .configWrite
  | scope, .manage => scope = .admin
  | _, .readAudit => true
  | _, .owner => false

namespace Caller

def actor (caller : Caller) : Actor :=
  match caller.principal with
  | .owner => .owner
  | .token row => .token row.tokenId

def isOwner (caller : Caller) : Bool := caller.principal = .owner

def ctx (caller : Caller) (now : Int) : Ctx := { actor := caller.actor, now := now }

/-- The current generation's descriptor, decoded and not verified again. -/
def descriptor (caller : Caller) : Except CoreError Descriptor :=
  caller.vault.descriptor.decodeUnverified.mapError fun e =>
    CoreError.internal.logged ("a stored descriptor does not decode: " ++ e.message)

/-- The owner can do everything. -/
def can (caller : Caller) (need : Need) : Bool :=
  match caller.principal with
  | .owner => true
  | .token row => scopeCan row.scope need

/-- The read-token allow-list. -/
def allowsName (caller : Caller) (name : NameHmac) : Bool :=
  match caller.principal with
  | .owner => true
  | .token row => (row.allowList.map fun list => decide (name ∈ list)).getD true

end Caller

/-- Record a refused attempt. Best effort: what the audit write answers is ignored. -/
def refuse (caller : Caller) (action : AuditAction) (name : Option NameHmac) : Handler Unit := do
  let now ← Handler.now
  let _ ← Program.ask (.write (.record caller.vault.pk (.simple caller.actor action name .refused) now))
  pure ()

/-- Refuse, and audit the refusal, if the credential lacks `need`. -/
def require (caller : Caller) (need : Need) (action : AuditAction) (name : Option NameHmac) : Handler Unit :=
  if caller.can need then pure ()
  else do
    refuse caller action name
    Program.fail .forbidden

/-! ## Policy -/

/-- A challenge that admitted a creation, to be spent with it. -/
structure Admitted where
  challengeId : FixedBytes 16
  expiresAt : Int

/-- Admits vault creations and authenticated requests. -/
structure Admission where
  proofOfWork : Option Nat
  challenge : Int → Except CoreError ChallengeResponse
  admitCreation : CreateVaultRequest → Int → Except CoreError (Option Admitted)
  admitRequest : Caller → Int → Except CoreError Unit
  features : List String

/-- Admits everything and issues no challenge: the default admission. -/
def Admission.allowAll : Admission where
  proofOfWork := none
  challenge := fun _ => .error .noEndpoint
  admitCreation := fun _ _ => .ok none
  admitRequest := fun _ _ => .ok ()
  features := []

/-- The policy a core enforces. -/
structure Policy where
  admission : Admission
  idleExpiryDays : Option Nat
  limits : Limits
  server : Option String

namespace Policy

def default : Policy where
  admission := .allowAll
  idleExpiryDays := none
  limits := .default
  server := none

/-- The idle window in seconds. A window of no days is no window. -/
def idleSecs (policy : Policy) : Option Int :=
  (policy.idleExpiryDays.filter fun days => 0 < days).map fun days => (days : Int) * 86400

/-- What `GET /v1/capabilities` reports: the same for every caller. -/
def capabilities (policy : Policy) : Capabilities where
  protocols := ["1"]
  formats := {}
  proofOfWork := policy.admission.proofOfWork
  idleExpiryDays := policy.idleExpiryDays.filter fun days => 0 < days
  limits := policy.limits
  features := "token_report" :: policy.admission.features
  server := policy.server

end Policy

end GalataVault.Server

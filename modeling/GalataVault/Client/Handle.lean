import GalataVault.Client.Bundles
import GalataVault.Library.Interaction
import GalataVault.Server.Interface

/-!
# A handle on a vault

One opened vault as a client's threads share it: the verified generation under one
lock, the pins under another, and a server that answers each request as it pleases.
Every call is a program over these: it reads or writes one of the two locks, or sends
one request, and between two of its operations the other threads may have run.

A list asks for page after page for as long as the server names a next one. A call
carries the number of pages it is followed for.
-/

namespace GalataVault.Client

open Proto Interaction
open Server (ErrorCode VaultStatus VersionMeta)

/-! ## What a server answers -/

/-- Why a request got no answer. -/
inductive ApiError where
  | transport
  | refused (code : ErrorCode)
  /-- An answer that did not decode. -/
  | undecoded
deriving DecidableEq

def ApiError.code : ApiError → Option ErrorCode
  | refused code => some code
  | _ => none

/-- A token's view of itself. -/
structure TokenSelf where
  tokenId : TokenId
  vaultId : VaultId
  scope : TokenScope
  allowList : Option (List NameHmac)
  ownerSignPub : Key32
  descriptor : SignedDescriptor
  bundle : SignedBundle
deriving DecidableEq

structure SecretListItem where
  nameHmac : NameHmac
  nameCt : B64
  version : Nat
  writtenAt : Int
  size : Nat
  tombstone : Bool
  generation : Nat
  valueCtHash : Hash32
  sig : Sig64
deriving DecidableEq

structure SecretList where
  items : List SecretListItem
  nextCursor : Option NameHmac
deriving DecidableEq

/-! ## Errors of a call -/

/-- Every failure a call returns, without its label and text. -/
inductive Error where
  /-- A value this client does not know. -/
  | unsupported
  | auth (code : ErrorCode)
  | forbidden
  | notFound
  /-- The server does not know an owner's vault. -/
  | vaultNotFound
  /-- Another writer won; the server's latest version, if the record exists. -/
  | conflict (name : String) (current : Option Nat)
  | staleGeneration
  | integrity (failure : IntegrityError)
  | server (code : ErrorCode)
  | transport
  | other
  /-- Not an outcome of the source: the pages a list was followed for are used up. -/
  | unfinished
deriving DecidableEq

namespace Error

/-- What an integrity failure is reported as. -/
def failure : IntegrityError → IntegrityError
  | .malformed what => .bindingMismatch what
  | e => e

def key : KeyError → Error
  | .integrity i => .integrity (failure i)
  | .binding what => .integrity (.bindingMismatch what)
  | .nameMismatch => .integrity (.bindingMismatch "record name")
  | .kind _ _ => .integrity (.bindingMismatch "bundle kind")
  | _ => .other

def sealing : SealError → Error
  | .integrity i => .integrity (failure i)
  | .key k => key k
  | .binding what => .integrity (.bindingMismatch what)
  | .nameMismatch => .integrity (.bindingMismatch "record name")
  | .kindMismatch _ _ => .integrity (.bindingMismatch "record kind")
  | .staleGeneration _ _ => .staleGeneration
  | .unsupportedByClient _ _ => .unsupported
  | _ => .other

/-- A request that did not succeed. -/
def api : ApiError → Error
  | .transport => .transport
  | .refused .unauthorized => .auth .unauthorized
  | .refused .tokenExpired => .auth .tokenExpired
  | .refused .forbidden => .forbidden
  | .refused .notFound => .notFound
  | .refused code => .server code
  | .undecoded => .other

/-- The server answers `unauthorized` both for a vault that does not exist and for one
that expired. -/
def owner (e : ApiError) : Error := if e.code = some .unauthorized then .vaultNotFound else api e

/-- Whether an error tells the user that what the server served does not verify. -/
def accuses : Error → Bool
  | integrity _ => true
  | _ => false

end Error

/-! ## Views and pins -/

/-- A descriptor as it is remembered. -/
structure DescriptorPin where
  generation : Nat
  hash : Hash32
deriving DecidableEq

def DescriptorPin.of [Digests] (d : Descriptor) : DescriptorPin := ⟨d.generation, d.hash⟩

/-- What a client remembers to detect rollback. -/
structure Pins where
  descriptor : Option DescriptorPin
  secrets : NameHmac → Option Nat
  configs : NameHmac → Option Nat

namespace Pins

def none : Pins := ⟨.none, fun _ => .none, fun _ => .none⟩

def versions (pins : Pins) : RecordCode → NameHmac → Option Nat
  | .secret => pins.secrets
  | .config => pins.configs

/-- Remember a version of a record. -/
def insert (pins : Pins) (kind : RecordCode) (index : NameHmac) (version : Nat) : Pins :=
  match kind with
  | .secret => { pins with secrets := Function.update pins.secrets index (some version) }
  | .config => { pins with configs := Function.update pins.configs index (some version) }

end Pins

/-- The verified generation: its descriptor and the keys this holder has for it. -/
structure View where
  descriptor : Descriptor
  bundle : Bundle
  /-- A read token's allow-list. -/
  allowList : Option (List NameHmac)
deriving DecidableEq

/-- What is pinned of a view. -/
def View.pin [Digests] (v : View) : DescriptorPin := .of v.descriptor

inductive Holder where
  | owner (keys : OwnerKeys)
  | token (keys : TokenKeys)
deriving DecidableEq

/-- What never changes of a handle. -/
structure Handle where
  holder : Holder
  /-- The pinned vault id. -/
  vaultId : VaultId
  ownerSignPub : Key32
deriving DecidableEq

/-- What its threads share. -/
structure Shared where
  view : View
  pins : Pins

/-- The precondition of a write. -/
inductive Pre where
  | create
  | revive (version : Nat)
  | update (version : Nat)
deriving DecidableEq

namespace Pre

/-- The precondition for writing after `latest`. -/
def after : Option VersionMeta → Pre
  | none => create
  | some m => if m.tombstone then revive m.version else update m.version

/-- The version a write under this precondition signs. -/
def nextVersion : Pre → Nat
  | create => 1
  | revive v | update v => v + 1

end Pre

/-! ## Operations -/

/-- One request, with the type of its answer. -/
inductive Query : Type → Type where
  | status : Query VaultStatus
  | tokenSelf : Query TokenSelf
  | descriptors (after : Nat) : Query (List SignedDescriptor)
  | list (kind : RecordCode) (after : Option NameHmac) : Query SecretList
  | versions (kind : RecordCode) (index : NameHmac) : Query (List VersionMeta)
  | record (kind : RecordCode) (index : NameHmac) (version : Option Nat) : Query SecretVersion
  /-- A put, or a delete where the record is a tombstone; the version the server
  reports. -/
  | write (written : WrittenRecord) (pre : Pre) : Query Nat

/-- One operation of a call. -/
inductive HandleOp : Type → Type 1 where
  | view : HandleOp View
  | setView (view : View) : HandleOp Unit
  | pinned : HandleOp (Option DescriptorPin)
  | setPin (pin : DescriptorPin) : HandleOp Unit
  /-- Take over the record versions of pins; the descriptor pin stays. -/
  | adopt (pins : Pins) : HandleOp Unit
  /-- Refuse a latest version older than one this handle saw, and remember it. The name
  it is the index of is not looked at. -/
  | checkVersion (name : String) (kind : RecordCode) (index : NameHmac) (got : Nat) : HandleOp (Except Error Unit)
  | ask {β : Type} (query : Query β) : HandleOp (Except ApiError β)

/-- What a server would answer at one moment, to every kind of request. -/
structure Answers where
  status : Except ApiError VaultStatus
  tokenSelf : Except ApiError TokenSelf
  descriptors : Nat → Except ApiError (List SignedDescriptor)
  list : RecordCode → Option NameHmac → Except ApiError SecretList
  versions : RecordCode → NameHmac → Except ApiError (List VersionMeta)
  record : RecordCode → NameHmac → Option Nat → Except ApiError SecretVersion
  write : WrittenRecord → Pre → Except ApiError Nat

def Answers.answer {β : Type} (answers : Answers) : Query β → Except ApiError β
  | .status => answers.status
  | .tokenSelf => answers.tokenSelf
  | .descriptors after => answers.descriptors after
  | .list kind after => answers.list kind after
  | .versions kind index => answers.versions kind index
  | .record kind index version => answers.record kind index version
  | .write written pre => answers.write written pre

/-- The check of a latest version, under the lock of the pins. -/
def Shared.checkVersion (shared : Shared) (kind : RecordCode) (index : NameHmac) (got : Nat) : Except Error Unit × Shared :=
  match shared.pins.versions kind index with
  | none => (.ok (), { shared with pins := shared.pins.insert kind index got })
  | some known =>
    if got < known then (.error (.integrity (.versionRollback known got)), shared)
    else (.ok (), { shared with pins := shared.pins.insert kind index got })

/-- What an operation answers, and what the threads share after it. -/
def Shared.perform {β : Type} (answers : Answers) : HandleOp β → Shared → β × Shared
  | .view, shared => (shared.view, shared)
  | .setView view, shared => ((), { shared with view := view })
  | .pinned, shared => (shared.pins.descriptor, shared)
  | .setPin pin, shared => ((), { shared with pins := { shared.pins with descriptor := some pin } })
  | .adopt pins, shared => ((), { shared with pins := { pins with descriptor := shared.pins.descriptor } })
  | .checkVersion _ kind index got, shared => shared.checkVersion kind index got
  | .ask query, shared => (answers.answer query, shared)

abbrev Action := Program HandleOp Error

namespace Action

variable {β : Type}

def check : Except Error β → Action β := Program.done

def integrity (result : Except IntegrityError β) : Action β := check (result.mapError fun e => .integrity (Error.failure e))

/-- Send a request and go on with its answer. -/
def ask (query : Query β) (onError : ApiError → Error) : Action β :=
  Program.ask (.ask query) >>= fun answer =>
    match answer with
    | .ok value => pure value
    | .error e => Program.fail (onError e)

end Action

/-! ## Verifying a generation -/

section Views

variable [Crypto] [Digests] [Ed25519] [Unsealing]

/-- Whether every key a bundle holds is the one the descriptor names. -/
def Bundle.isFor (bundle : Bundle) (d : Descriptor) : Bool :=
  bundle.generation = d.generation &&
    (bundle.vaultSecret.map fun k => decide (k.publicKey = d.vaultPub)).getD true &&
    (bundle.configSecret.map fun k => decide (k.publicKey = d.configPub)).getD true &&
    (bundle.secretWriter.map fun k => decide (k.publicKey = d.secretWriterPub)).getD true &&
    (bundle.configWriter.map fun k => decide (k.publicKey = d.configWriterPub)).getD true

/-- The status names this owner's keys, the descriptor verifies from the derived vault
id, and the owner bundle is owner-signed and holds exactly the descriptor's keys. -/
def ownerView (owner : OwnerKeys) (status : VaultStatus) : Except Error View :=
  if status.vaultId ≠ owner.vaultId then .error (.integrity (.keyMismatch "vault id"))
  else if status.ownerSignPub ≠ owner.signPub then .error (.integrity (.keyMismatch "owner signing key"))
  else if status.ownerBoxPub ≠ owner.boxPub then .error (.integrity (.keyMismatch "owner box key"))
  else
    match status.descriptor.verifyFor owner.vaultId owner.signPub with
    | .error e => .error (.integrity (Error.failure e))
    | .ok descriptor =>
      if descriptor.generation ≠ status.generation then .error (.integrity (.bindingMismatch "generation"))
      else
        match status.ownerBundle with
        | none => .error .other
        | some signed =>
          match owner.openOwnBundle signed descriptor.generation with
          | .error e => .error (.key e)
          | .ok full =>
            if ¬ (Bundle.full full).isFor descriptor then .error (.integrity (.keyMismatch "owner bundle"))
            else .ok { descriptor := descriptor, bundle := .full full, allowList := none }

/-- The answer is for this token and vault, the descriptor verifies from the vault id in
the token string, and the bundle is owner-signed for this token and holds exactly the
descriptor's keys. -/
def tokenView (token : TokenKeys) (me : TokenSelf) : Except Error (View × Key32) :=
  if me.vaultId ≠ token.vaultId then .error (.integrity (.keyMismatch "vault id"))
  else if me.tokenId ≠ token.id then .error (.integrity (.keyMismatch "token id"))
  else
    match me.scope with
    | .unknown _ => .error .unsupported
    | .known scope =>
      match me.descriptor.verifyFor token.vaultId me.ownerSignPub with
      | .error e => .error (.integrity (Error.failure e))
      | .ok descriptor =>
        match token.openBundle me.bundle me.ownerSignPub scope descriptor.generation with
        | .error e => .error (.key e)
        | .ok bundle =>
          if ¬ bundle.isFor descriptor then .error (.integrity (.keyMismatch "token bundle"))
          else .ok ({ descriptor := descriptor, bundle := bundle, allowList := me.allowList }, me.ownerSignPub)

end Views

/-! ## Verifying records from their hashes -/

section Records

variable [Digests] [Ed25519]

/-- Verify a listed record's signature, from its hashes, without its value. -/
def verifyListed (descriptor : Descriptor) (kind : RecordCode) (item : SecretListItem) : Except SealError Unit := do
  checkGeneration descriptor item.generation
  (RecordContext.verify
    { vaultId := descriptor.vaultId, generation := item.generation, kind := kind, nameIndex := item.nameHmac,
      version := item.version, writtenAt := item.writtenAt, tombstone := item.tombstone,
      valueCtHash := item.valueCtHash, nameCtHash := Digests.sha256 item.nameCt.bytes }
    (writerPub descriptor kind) item.sig).mapError .integrity

/-- Verify one entry of a version history, from its hashes. -/
def verifyMeta (descriptor : Descriptor) (kind : RecordCode) (index : NameHmac) (m : VersionMeta) :
    Except SealError Unit := do
  checkGeneration descriptor m.generation
  (RecordContext.verify
    { vaultId := descriptor.vaultId, generation := m.generation, kind := kind, nameIndex := index,
      version := m.version, writtenAt := m.writtenAt, tombstone := m.tombstone, valueCtHash := m.valueCtHash,
      nameCtHash := m.nameCtHash }
    (writerPub descriptor kind) m.sig).mapError .integrity

end Records

/-! ## Calls -/

/-- A verified, decrypted record name and its latest version's metadata. -/
structure Item where
  name : String
  hmac : NameHmac
  version : Nat
  updatedAt : Int
  size : Nat
  tombstone : Bool
deriving DecidableEq

/-- What a write draws and reads of the clock. -/
structure Signing where
  draw : Draw
  writtenAt : Int

namespace Handle

variable [Crypto] [Digests] [Ed25519] [Unsealing] (handle : Handle)

/-! ### Pins and generations -/

/-- Every owner-signed descriptor after a generation, verified. -/
def descriptorsAfter (after : Nat) : Action (List Descriptor) := do
  let list ← Action.ask (.descriptors after) .api
  Action.integrity (list.mapM fun s => s.verifyFor handle.vaultId handle.ownerSignPub)

/-- Follow served descriptors from a pin, up to the generation looked for. -/
def followChain (d : Descriptor) : DescriptorPin → List Descriptor → Except Error DescriptorPin
  | pin, [] => .ok pin
  | pin, next :: rest =>
    if d.generation < next.generation then .ok pin
    else if next.generation ≠ pin.generation + 1 ∨ next.prevHash ≠ pin.hash then
      .error (.integrity (.bindingMismatch "descriptor chain"))
    else followChain d (.of next) rest

def checkDescriptorPin (pin : DescriptorPin) (d : Descriptor) : Action Unit :=
  if d.generation < pin.generation then
    Program.fail (.integrity (.generationRollback pin.generation d.generation))
  else if d.generation = pin.generation then
    if d.hash = pin.hash then pure ()
    else Program.fail (.integrity (.generationRollback pin.generation d.generation))
  else do
    let served ← handle.descriptorsAfter pin.generation
    let last ← Action.check (followChain d pin served)
    if last ≠ .of d then Program.fail (.integrity (.bindingMismatch "descriptor chain")) else pure ()

/-- Adopt pins a caller kept. -/
def setPins (pins : Pins) : Action Unit := do
  (match pins.descriptor with
    | none => pure ()
    | some pin => do
      let v ← Program.ask .view
      handle.checkDescriptorPin pin v.descriptor)
  Program.ask (.adopt pins)

/-- The vault's current generation as the server has it, verified from the pinned vault
id. -/
def candidate : Action View :=
  match handle.holder with
  | .owner owner => do
    let status ← Action.ask .status .owner
    Action.check (ownerView owner status)
  | .token token => do
    let me ← Action.ask .tokenSelf .api
    let (view, signPub) ← Action.check (tokenView token me)
    if signPub ≠ handle.ownerSignPub then Program.fail (.integrity (.keyMismatch "owner signing key"))
    else pure view

/-- Fetch the vault's current generation again. A newer generation must follow the
pinned one by an unbroken chain of owner-signed descriptors; an older one is a
rollback. -/
def refresh : Action Unit := do
  let view ← handle.candidate
  let pinned ← Program.ask .pinned
  (match pinned with
    | none => pure ()
    | some pin => handle.checkDescriptorPin pin view.descriptor)
  -- The view and the pin are under two locks.
  Program.ask (.setView view)
  Program.ask (.setPin view.pin)

/-- The vault's status, its descriptor verified against the pinned id. -/
def refreshStatus : Action VaultStatus := do
  let status ← Action.ask .status .api
  if status.ownerSignPub ≠ handle.ownerSignPub ∨ status.vaultId ≠ handle.vaultId then
    Program.fail (.integrity (.keyMismatch "owner signing key"))
  else do
    let _ ← Action.integrity (status.descriptor.verifyFor handle.vaultId handle.ownerSignPub)
    pure status

/-- What actually happened on a miss: whether the vault moved to another generation. If
that cannot be confirmed either way, nothing. -/
def movedOn (v : View) : Action (Option Error) := do
  match ← handle.refreshStatus.attempt with
  | .error _ => pure none
  | .ok status => pure (if status.generation = v.descriptor.generation then none else some .staleGeneration)

/-! ### Reading -/

def checkListed (v : View) (kind : RecordCode) (it : SecretListItem) : Action Item := do
  Action.check ((verifyListed v.descriptor kind it).mapError .sealing)
  let name ← Action.check
    ((openName v.descriptor v.bundle.nameKey kind it.nameHmac it.nameCt.bytes).mapError .sealing)
  let checked ← Program.ask (.checkVersion name kind it.nameHmac it.version)
  Action.check checked
  pure ⟨name, it.nameHmac, it.version, it.writtenAt, it.size, it.tombstone⟩

/-- The items of one page, in order. -/
def checkPage (v : View) (kind : RecordCode) : List SecretListItem → Action (List Item)
  | [] => pure []
  | it :: rest => do
    let item ← checkListed v kind it
    let items ← checkPage v kind rest
    pure (item :: items)

/-- Every page from a cursor on. -/
def listPages (v : View) (kind : RecordCode) : Nat → Option NameHmac → Action (List Item)
  | 0, _ => Program.fail .unfinished
  | pages + 1, after => do
    let page ← Action.ask (.list kind after) .api
    let items ← checkPage v kind page.items
    match page.nextCursor with
    | none => pure items
    | some cursor => do
      let more ← listPages v kind pages (some cursor)
      pure (items ++ more)

/-- Every record's latest version, verified, names decrypted. -/
def listKind (pages : Nat) (v : View) (kind : RecordCode) : Action (List Item) := do
  let items ← listPages v kind pages none
  pure (items.insertionSort fun a b => a.name ≤ b.name)

def versionsKind (v : View) (kind : RecordCode) (name : String) : Action (List VersionMeta) := do
  let index := v.bundle.nameKey.index kind name
  let answer ← Program.ask (.ask (.versions kind index))
  match answer with
  | .ok list => do
    Action.check (list.forM fun m => (verifyMeta v.descriptor kind index m).mapError .sealing)
    pure list
  | .error e =>
    if e.code = some .notFound then do
      match ← handle.movedOn v with
      | some moved => Program.fail moved
      | none => pure []
    else Program.fail (.api e)

/-- The record a name's index was answered with, its latest version checked. -/
def fetch (v : View) (kind : RecordCode) (name : String) (version : Option Nat) : Action SecretVersion := do
  let index := v.bundle.nameKey.index kind name
  let answer ← Program.ask (.ask (.record kind index version))
  match answer with
  | .ok record =>
    if record.nameHmac ≠ index then Program.fail (.integrity (.bindingMismatch "record index"))
    else
      match version with
      | some want =>
        if record.version ≠ want then Program.fail (.integrity (.bindingMismatch "record version")) else pure record
      | none => do
        -- Verify before the pin moves: a forged answer leaves no version behind.
        Action.check ((verifyVersion v.descriptor kind record).mapError .sealing)
        let checked ← Program.ask (.checkVersion name kind index record.version)
        Action.check checked
        pure record
  | .error e =>
    if e.code = some .notFound then do
      match ← handle.movedOn v with
      | some moved => Program.fail moved
      | none => Program.fail .notFound
    else if e.code = some .forbidden then Program.fail .forbidden
    else Program.fail (.api e)

/-- Verify and decrypt a secret. -/
def get (name : String) (version : Option Nat) : Action OpenedRecord := do
  let v ← Program.ask .view
  match v.bundle.vaultSecret with
  | none => Program.fail .forbidden
  | some vaultSecret => do
    let record ← handle.fetch v .secret name version
    let opened ← Action.check ((openSecret v.descriptor v.bundle.nameKey vaultSecret record).mapError .sealing)
    if opened.value.isNone then Program.fail .notFound else pure opened

/-- Verify and decrypt a config document. -/
def getConfig (name : String) (version : Option Nat) : Action OpenedRecord := do
  let v ← Program.ask .view
  match v.bundle.configSecret with
  | none => Program.fail .forbidden
  | some configSecret => do
    let record ← handle.fetch v .config name version
    let opened ← Action.check
      ((openConfigRecord v.descriptor v.bundle.nameKey configSecret record).mapError .sealing)
    if opened.value.isNone ∨ opened.format.isNone then Program.fail .notFound else pure opened

/-! ### Writing -/

/-- The conflict of a write, with the server's latest version. -/
def conflict (v : View) (kind : RecordCode) (name : String) : Action Error := do
  match ← (handle.versionsKind v kind name).attempt with
  | .ok versions => pure (.conflict name (versions.getLast?.map (·.version)))
  | .error e => pure e

def sendWrite (v : View) (name : String) (written : WrittenRecord) (pre : Pre) : Action Nat := do
  let answer ← Program.ask (.ask (.write written pre))
  match answer with
  | .ok version =>
    -- Pin the version this client signed, never an unsigned number from the server.
    if version ≠ written.version then Program.fail (.integrity (.bindingMismatch "written version"))
    else do
      let checked ← Program.ask (.checkVersion name written.kind written.nameHmac written.version)
      Action.check checked
      pure written.version
  | .error e =>
    if e.code = some .preconditionFailed ∨ e.code = some .versionMismatch then do
      let failed ← handle.conflict v written.kind name
      Program.fail failed
    else if e.code = some .forbidden then Program.fail .forbidden
    else if e.code = some .staleGeneration then Program.fail .staleGeneration
    else Program.fail (.api e)

/-- The writer key of a kind, if the credential holds it. -/
def writerOf (v : View) : RecordCode → Option WriterKey
  | .secret => v.bundle.secretWriter
  | .config => v.bundle.configWriter

/-- Seal, sign and send a value as the version `pre` implies. -/
def writeValue (v : View) (kind : RecordCode) (name : String) (format : ConfigFormat) (body : List UInt8) (pre : Pre)
    (signing : Signing) : Action Nat :=
  match writerOf v kind with
  | none => Program.fail .forbidden
  | some writer => do
    let w : Writer := ⟨v.descriptor, v.bundle.nameKey, writer⟩
    let written ← Action.check <| Except.mapError Error.sealing <|
      match kind with
      | .secret => w.secret signing.draw name body pre.nextVersion signing.writtenAt
      | .config => w.config signing.draw name format body pre.nextVersion signing.writtenAt
    handle.sendWrite v name written pre

/-- Sign and send a tombstone as the version `pre` implies. -/
def writeTombstone (v : View) (kind : RecordCode) (name : String) (pre : Pre) (signing : Signing) : Action Nat :=
  match writerOf v kind with
  | none => Program.fail .forbidden
  | some writer => do
    let w : Writer := ⟨v.descriptor, v.bundle.nameKey, writer⟩
    let written ← Action.check
      ((w.tombstone signing.draw kind name pre.nextVersion signing.writtenAt).mapError .sealing)
    handle.sendWrite v name written pre

end Handle

/-! ## Threads -/

/-- A call on a handle. -/
inductive HandleCall where
  | get (kind : RecordCode) (name : String) (version : Option Nat)
  | list (kind : RecordCode) (pages : Nat)
  | versions (kind : RecordCode) (name : String)
  | current (kind : RecordCode) (name : String)
  /-- The format is that of a config. -/
  | put (kind : RecordCode) (name : String) (format : ConfigFormat) (body : List UInt8) (pre : Pre) (signing : Signing)
  | delete (kind : RecordCode) (name : String) (version : Nat) (signing : Signing)
  | refresh
  | setPins (pins : Pins)

/-- What a call returns. -/
inductive Returned where
  | record (opened : OpenedRecord)
  | items (items : List Item)
  | history (versions : List VersionMeta)
  | pre (pre : Pre)
  | written (version : Nat)
  | nothing

/-- The program of a call. -/
def HandleCall.program [Crypto] [Digests] [Ed25519] [Unsealing] (handle : Handle) : HandleCall → Action Returned
  | .get .secret name version => Returned.record <$> handle.get name version
  | .get .config name version => Returned.record <$> handle.getConfig name version
  | .list kind pages => do
    let v ← Program.ask .view
    Returned.items <$> Handle.listKind pages v kind
  | .versions kind name => do
    let v ← Program.ask .view
    Returned.history <$> handle.versionsKind v kind name
  | .current kind name => do
    let v ← Program.ask .view
    let versions ← handle.versionsKind v kind name
    pure (.pre (.after versions.getLast?))
  | .put kind name format body pre signing => do
    let v ← Program.ask .view
    Returned.written <$> handle.writeValue v kind name format body pre signing
  | .delete kind name version signing => do
    let v ← Program.ask .view
    Returned.written <$> handle.writeTombstone v kind name (.update version) signing
  | .refresh => (fun _ => .nothing) <$> handle.refresh
  | .setPins pins => (fun _ => .nothing) <$> handle.setPins pins

end GalataVault.Client

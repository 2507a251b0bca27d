import GalataVault.Server.Auth

/-!
# The records API

Secrets and configs have the same endpoints over separate tables: the kind
decides the scope a caller needs, the writer key, the quotas and the audit
actions. Every write needs a precondition and a signature by the current
generation's writer key for its kind, over the version the precondition creates.
-/

namespace GalataVault.Server

open Proto Backend Interaction

def defaultPage : Nat := 100
def maxPage : Nat := 500
def maxAuditPage : Nat := 1000

def noun : RecordKind → String
  | .secret => "secret"
  | .config => "config"

def needRead : RecordKind → Need
  | .secret => .readValues
  | .config => .readConfigs

def needWrite : RecordKind → Need
  | .secret => .writeValues
  | .config => .writeConfigs

def readAction : RecordKind → AuditAction
  | .secret => .secretRead
  | .config => .configRead

def wire : RecordKind → RecordCode
  | .secret => .secret
  | .config => .config

/-- The key that verifies this kind's records in a generation. -/
def writerPub (descriptor : Descriptor) : RecordKind → Key32
  | .secret => descriptor.secretWriterPub
  | .config => descriptor.configWriterPub

/-! ## Parsing -/

/-- Rust's `parse` for an unsigned integer below `bound`: an optional plus sign and
at least one digit. -/
def parseUnsigned (bound : Nat) (text : List Char) : Option Nat :=
  let digits := match text with
    | '+' :: rest => rest
    | _ => text
  if digits = [] ∨ digits.any (fun c => !c.isDigit) then none
  else
    let n := digits.foldl (fun n c => n * 10 + (c.toNat - '0'.toNat)) 0
    if n < bound then some n else none

def parseName (text : String) : Except CoreError NameHmac :=
  match fromHex 32 text with
  | some raw => .ok ⟨raw⟩
  | none => .error (.invalid "the record index must be 64 hexadecimal characters")

def parseVersion (text : String) : Except CoreError Nat :=
  match parseUnsigned (2 ^ 64) text.toList with
  | some version => .ok version
  | none => .error (.invalid "a version is a positive whole number")

/-- What stands before and after the first `sep`. -/
def splitOnce (sep : Char) : List Char → Option (List Char × List Char)
  | [] => none
  | c :: rest => if c = sep then some ([], rest) else (splitOnce sep rest).map fun p => (c :: p.1, p.2)

/-- The value of the first pair with this key. -/
def queryValue (query : Option String) (key : String) : Option String :=
  query.bind fun text =>
    (text.toList.splitOn '&').findSome? fun pair =>
      let (k, v) := (splitOnce '=' pair).getD (pair, [])
      if k = key.toList then some (String.ofList v) else none

def pageLimit (query : Option String) (default max : Nat) : Except CoreError Nat :=
  match queryValue query "limit" with
  | none => .ok default
  | some text =>
    match parseUnsigned (2 ^ 64) text.toList with
    | some n => .ok (min (Nat.max n 1) max)
    | none => .error (.invalid "limit must be a whole number")

/-- Unicode's `White_Space`. -/
def isWhitespace (c : Char) : Bool :=
  (0x9 ≤ c.toNat && c.toNat ≤ 0xD) || (0x2000 ≤ c.toNat && c.toNat ≤ 0x200A) ||
    [0x20, 0x85, 0xA0, 0x1680, 0x2028, 0x2029, 0x202F, 0x205F, 0x3000].contains c.toNat

/-- Drop what satisfies `p` from both ends. -/
def trimBoth (p : Char → Bool) (text : List Char) : List Char := ((text.dropWhile p).reverse.dropWhile p).reverse

def parseEtag (value : String) : Except CoreError Nat :=
  let trimmed := trimBoth isWhitespace value.toList
  let strong := match trimmed with
    | 'W' :: '/' :: rest => rest
    | _ => trimmed
  match parseUnsigned (2 ^ 64) (trimBoth (· = '"') strong) with
  | some version => .ok version
  | none => .error (.invalid "If-Match must be a version number")

/-- The write precondition: `If-None-Match: *` to create, or `If-Match: <version>`
to update, and never both. -/
def precondition (ifMatch ifNoneMatch : Option String) : Except CoreError Precondition :=
  match ifNoneMatch, ifMatch with
  | some _, some _ => .error (.invalid "send If-Match or If-None-Match, not both")
  | some star, none =>
    if star = "*" then .ok .ifNoneMatch else .error (.invalid "If-None-Match accepts only *")
  | none, some v => (parseEtag v).map .ifMatch
  | none, none =>
    .error
      { code := .preconditionRequired
        message := "a write needs If-None-Match: * to create, or If-Match: <version> to update" }

/-- The age v1 header every value ciphertext must begin with. -/
def ageHeader : List UInt8 := utf8 "age-encryption.org/v1\n"

/-! ## Reading -/

/-- `GET /v1/{secrets,configs}`: every scope may list. -/
def list (caller : Caller) (kind : RecordKind) (query : Option String) : Handler CoreResponse := do
  let after ← Handler.check ((queryValue query "after").mapM parseName)
  let limit ← Handler.check (pageLimit query defaultPage maxPage)
  let rows ← Handler.read (listRecords caller.vault.pk kind after limit)
  let nextCursor := if rows.length = limit then rows.getLast?.map (·.nameHmac) else none
  pure (.json 200 (.list rows nextCursor))

/-- `GET /v1/{secrets,configs}/{name}`, and one retained version of it. -/
def read [Digests] (caller : Caller) (kind : RecordKind) (name : String) (version : Option String) :
    Handler CoreResponse := do
  let name ← Handler.check (parseName name)
  let version ← Handler.check (version.mapM parseVersion)
  require caller (needRead kind) (readAction kind) (some name)
  -- The read allow-list names secrets; configs are the scope's to read.
  if kind = .secret ∧ caller.allowsName name = false then
    refuse caller (readAction kind) (some name)
    Program.fail .forbidden
  else
    let pk := caller.vault.pk
    let found ← (match version with
      | none => Handler.read (latestRecord pk kind name)
      | some v => Handler.read (recordVersion pk kind name v))
    match found with
    | none => Program.fail { code := .notFound, message := "no such " ++ noun kind }
    | some row =>
      if row.tombstone ∧ version = none then
        let deleted : CoreError :=
          { code := .notFound, message := s!"the {noun kind} was deleted at version {row.version}" }
        pure (deleted.toResponse.withEtag row.version)
      else
        let event := { AuditEvent.simple caller.actor (readAction kind) (some name) .ok with
          version := row.version
          ctHash := row.valueCt.map Digests.sha256 }
        let now ← Handler.now
        Handler.store (.record pk event now)
        pure ((CoreResponse.json 200 (.record row)).withEtag row.version)

/-- One version as its history shows it. -/
def versionMeta [Digests] (row : VersionRow) : VersionMeta where
  version := row.version
  writtenAt := row.writtenAt
  writtenBy := row.writtenBy
  size := (row.valueCt.map fun v => v.length % 2 ^ 32).getD 0
  tombstone := row.tombstone
  generation := row.generation
  valueCtHash := valueHash row.valueCt
  nameCtHash := Digests.sha256 row.nameCt
  sig := row.sig

/-- `GET /v1/{secrets,configs}/{name}/versions`: history metadata, for every scope. -/
def versions [Digests] (caller : Caller) (kind : RecordKind) (name : String) : Handler CoreResponse := do
  let name ← Handler.check (parseName name)
  let rows ← Handler.read (recordVersions caller.vault.pk kind name)
  if rows = [] then Program.fail { code := .notFound, message := "no such " ++ noun kind }
  else pure (.json 200 (.versions (rows.map versionMeta)))

/-! ## Writing -/

/-- Check a write's generation and signature against the current descriptor, and
audit a refusal. -/
def checkSigned [Digests] [Ed25519] (caller : Caller) (kind : RecordKind) (action : AuditAction) (name : NameHmac)
    (w : RecordWrite) : Handler Unit := do
  if w.generation ≠ caller.vault.generation then
    refuse caller action (some name)
    Program.fail (.ofStore .staleGeneration)
  else
    let descriptor ← Handler.check caller.descriptor
    let context := RecordContext.ofCiphertexts caller.vault.vaultId w.generation (wire kind) name w.version
      w.writtenAt w.nameCt w.valueCt
    match context.verify (writerPub descriptor kind) w.sig with
    | .ok () => pure ()
    | .error failure =>
      refuse caller action (some name)
      Program.fail (.ofIntegrity failure)

section

variable [Digests] [Ed25519] [Bodies] (policy : Policy)

/-- `PUT /v1/{secrets,configs}/{name}`. -/
def put (caller : Caller) (kind : RecordKind) (name : String) (request : CanonicalRequest) :
    Handler CoreResponse := do
  let name ← Handler.check (parseName name)
  require caller (needWrite kind) kind.putAction (some name)
  let pre ← Handler.check (precondition request.ifMatch request.ifNoneMatch)
  let body ← json (Bodies.putSecret request.body) (noun kind ++ " write")
  if ¬ ageHeader <+: body.valueCt.bytes then
    Program.fail
      { code := .notAgeCiphertext
        message := "the value is not age v1 ciphertext; values are encrypted on the client" }
  else
    let write : RecordWrite :=
      { nameCt := body.nameCt.bytes, valueCt := some body.valueCt.bytes, generation := body.generation,
        version := body.version, writtenAt := body.writtenAt, sig := body.sig }
    checkSigned caller kind kind.putAction name write
    let now ← Handler.now
    let version ← Handler.store (.putRecord caller.vault.pk kind name pre write (caller.ctx now) policy.limits)
    let status := match pre with
      | .ifNoneMatch => 201
      | .ifMatch _ => 200
    pure ((CoreResponse.json status (.put version)).withEtag version)

/-- `DELETE /v1/{secrets,configs}/{name}`: a signed tombstone. -/
def delete (caller : Caller) (kind : RecordKind) (name : String) (request : CanonicalRequest) :
    Handler CoreResponse := do
  let name ← Handler.check (parseName name)
  require caller (needWrite kind) kind.deleteAction (some name)
  if request.ifNoneMatch.isSome then Program.fail (.invalid "a delete takes If-Match only")
  else
    match request.ifMatch with
    | none => Program.fail { code := .preconditionRequired, message := "a delete needs If-Match: <version>" }
    | some etag =>
      let ifMatch ← Handler.check (parseEtag etag)
      let body ← json (Bodies.deleteRecord request.body) (noun kind ++ " tombstone")
      let write : RecordWrite :=
        { nameCt := body.nameCt.bytes, valueCt := none, generation := body.generation,
          version := body.version, writtenAt := body.writtenAt, sig := body.sig }
      checkSigned caller kind kind.deleteAction name write
      let now ← Handler.now
      let version ← Handler.store
        (.deleteRecord caller.vault.pk kind name ifMatch write (caller.ctx now) policy.limits)
      pure ((CoreResponse.json 200 (.put version)).withEtag version)

end

/-! ## Audit -/

/-- `GET /v1/audit`: every scope. The rows and the head are two queries on one
connection. -/
def audit (caller : Caller) (query : Option String) : Handler CoreResponse := do
  if caller.can .readAudit = false then Program.fail .forbidden
  else
    let after ← Handler.check (((queryValue query "after").mapM parseVersion).map fun v => v.getD 0)
    let limit ← Handler.check (pageLimit query maxAuditPage maxAuditPage)
    let rows ← Handler.read fun db => (auditAfter caller.vault.pk after limit db).1
    let head ← Handler.read fun db => (auditAfter caller.vault.pk after limit db).2
    pure (.json 200 (.audit rows head))

end GalataVault.Server

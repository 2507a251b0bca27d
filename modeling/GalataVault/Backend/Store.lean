import GalataVault.Backend.Statements
import GalataVault.Library.MachineInt

/-!
# The store's operations

Every operation of the interface, over the database as a value. A write is a
body run in one transaction; a read is a function of the database it is given.
What can fail outside the body is an argument: `disk` is what SQLite answers to
the commit, and a critical operation takes the hook its journal record goes to.

Each refusal appends its audit row and commits; the errors that leave no trace
are the ones thrown inside the body.
-/

namespace GalataVault.Backend

open Proto Relational MachineInt

/-! ## Vaults -/

/-- The row number SQLite gives the next vault: one more than the largest. -/
def Db.nextPk (db : Db) : VaultPk := (db.vaults.rows.map (·.pk)).foldr max 0 + 1

/-- The row a new vault starts from. -/
def NewVault.cols (v : NewVault) (pk : VaultPk) (now : Int) : VaultCols where
  pk := pk
  vaultId := v.vaultId
  ownerSignPub := v.ownerSignPub
  ownerBoxPub := v.ownerBoxPub
  ownerBundle := v.ownerBundle
  generation := 1
  revision := 1
  createdAt := now
  lastActiveAt := now
  bytesUsed := 0
  auditSeq := 0
  auditHead := genesis

def createVaultBody [Digests] (v : NewVault) (now : Int) : Tx (Done VaultRow) := do
  let db ← get
  if db.vaults.rows.any (fun old => old.vaultId = v.vaultId) then
    pure (.refused .exists)
  else
    let pk := db.nextPk
    match db.vaults.insert (v.cols pk now) with
    | none => throw .exists
    | some vaults =>
      match db.descriptors.insert ⟨pk, 1, v.descriptor⟩ with
      | none => throw .exists
      | some descriptors =>
        set { db with vaults := vaults, descriptors := descriptors }
        appendAudit pk
          (written .owner .vaultCreate none 0 (some (Digests.sha256 v.descriptor.descriptor.bytes))) now
        let db ← get
        match db.loadVault pk with
        | none => throw .notFound
        | some row => pure (.ok row)

def createVault [Digests] (disk : Except String Unit) (v : NewVault) (now : Int) (db : Db) :
    Except StoreError VaultRow × Db :=
  write disk (createVaultBody v now) db

def touchGranularitySecs : Int := 60

/-- Record activity, at most once a minute per vault. -/
def touch (disk : Except String Unit) (pk : VaultPk) (now : Int) (db : Db) :
    Except StoreError Unit × Db :=
  if ((db.vaults.find? pk).map (fun v => decide (v.lastActiveAt < now - touchGranularitySecs))).getD
      false then
    write disk
      (do
        -- `AND last_active_at < now` keeps the later of the two times.
        modify fun db => db.updateVault pk fun v => { v with lastActiveAt := max v.lastActiveAt now }
        pure (.ok ()))
      db
  else (.ok (), db)

/-- The descriptor chain after `after`, ascending. -/
def descriptors (pk : VaultPk) (after : Nat) (db : Db) : List SignedDescriptor :=
  ((db.descriptors.select (fun d => d.vaultPk = pk && decide (after < d.generation))).insertionSort
    (fun a b => a.generation ≤ b.generation)).map (·.descriptor)

/-! ## Tokens -/

/-- The row a registration stores. -/
def NewToken.row (t : NewToken) (pk : VaultPk) (now : Int) : TokenRow where
  tokenId := t.tokenId
  vaultPk := pk
  authPub := t.authPub
  boxPub := t.boxPub
  scope := t.scope
  createdAt := now
  expiresAt := t.expiresAt
  bundle := t.bundle
  generation := t.generation
  allowList := t.allowList

def insertToken (row : TokenRow) : Tx Unit := do
  let db ← get
  match db.tokens.insert row with
  | none => throw .exists
  | some tokens =>
    if db.hasVault row.vaultPk then set { db with tokens := tokens } else throw .exists

def registerTokenBody [Digests] (pk : VaultPk) (t : NewToken) (ctx : Ctx) (limits : Limits) :
    Tx (Done TokenRow) := do
  let db ← get
  match db.loadVault pk with
  | none => throw .notFound
  | some vault =>
    let refusal := event ctx.actor .tokenMint none (some t.tokenId) .refused
    if t.generation ≠ vault.generation then
      refuse pk refusal ctx.now .staleGeneration
    else if limits.maxTokens ≤ (db.activeTokens pk ctx.now).length then
      refuse pk refusal ctx.now (.quota .tokens)
    else
      insertToken (t.row pk ctx.now)
      bumpRevision pk
      appendAudit pk (event ctx.actor .tokenMint none (some t.tokenId) .ok) ctx.now
      let db ← get
      match db.tokens.find? t.tokenId with
      | none => throw (.database "Query returned no rows")
      | some row => pure (.ok row)

def registerToken [Digests] (disk : Except String Unit) (pk : VaultPk) (t : NewToken) (ctx : Ctx)
    (limits : Limits) (db : Db) : Except StoreError TokenRow × Db :=
  write disk (registerTokenBody pk t ctx limits) db

def tokenById (id : TokenId) (db : Db) : Option TokenRow := db.tokens.find? id

/-- The audit action of a revocation, by whether the token was reported. -/
def revokeAction (reported : Bool) : AuditAction := if reported then .tokenReport else .tokenRevoke

def revokeTokensBody [Digests] (pk : VaultPk) (ids : List TokenId) (reported : Bool) (ctx : Ctx) :
    Tx (List TokenId × JournalRecord) := do
  let db ← get
  match db.loadVault pk with
  | none => throw .notFound
  | some vault =>
    let removed ← deleteTokens pk ids
    if removed = [] then throw .notFound
    else
      bumpRevision pk
      removed.forM fun id =>
        appendAudit pk (event ctx.actor (revokeAction reported) none (some id) .ok) ctx.now
      let record ← journal (.revokeTokens vault.vaultId removed ctx.actor reported) ctx.now
      pure (removed, record)

/-- Critical: journaled before commit. -/
def revokeTokens [Digests] {σ : Type} (disk : Except String Unit) (hook : CommitHook σ)
    (pk : VaultPk) (ids : List TokenId) (reported : Bool) (ctx : Ctx) (db : Db) (journal : σ) :
    Except StoreError (List TokenId) × Db × σ :=
  writeCritical disk hook (revokeTokensBody pk ids reported ctx) db journal

/-! ## Records -/

/-- One page of a kind's heads, each joined with its current version. -/
def listRecords (pk : VaultPk) (kind : RecordKind) (after : Option NameHmac) (limit : Nat)
    (db : Db) : List HeadRow :=
  let heads := ((db.tables kind).heads.select fun h =>
    h.vaultPk = pk && (after.map (fun n => !h.nameHmac.raw.le n.raw)).getD true)
  let joined := heads.filterMap fun h =>
    ((db.tables kind).records.find? (pk, h.nameHmac, h.currentVersion)).map fun s =>
      { nameHmac := h.nameHmac
        nameCt := s.row.nameCt
        version := h.currentVersion
        writtenAt := s.row.writtenAt
        size := (s.row.valueCt.map List.length).getD 0
        tombstone := h.tombstone
        generation := s.row.generation
        valueCtHash := s.ctHash
        sig := s.row.sig : HeadRow }
  (joined.insertionSort fun a b => a.nameHmac.raw.le b.nameHmac.raw).take limit

def recordVersion (pk : VaultPk) (kind : RecordKind) (name : NameHmac) (version : Nat) (db : Db) :
    Option VersionRow :=
  ((db.tables kind).records.find? (pk, name, version)).map (·.row)

def latestRecord (pk : VaultPk) (kind : RecordKind) (name : NameHmac) (db : Db) :
    Option VersionRow :=
  (db.loadHead kind pk name).bind fun head => recordVersion pk kind name head.1 db

/-- Every retained version of one name, oldest first. -/
def recordVersions (pk : VaultPk) (kind : RecordKind) (name : NameHmac) (db : Db) :
    List VersionRow :=
  (db.versionsOf kind pk name).map (·.row)

/-- Every retained version of one kind: what a rotating client re-encrypts. -/
def allRecordVersions (pk : VaultPk) (kind : RecordKind) (db : Db) : List VersionRow :=
  ((db.versionsIn kind pk).map (·.row)).insertionSort fun a b =>
    a.nameHmac ≠ b.nameHmac ∧ a.nameHmac.raw.le b.nameHmac.raw ∨
      a.nameHmac = b.nameHmac ∧ a.version ≤ b.version

/-- The version a precondition assigns, given the name's head. -/
def nextVersion (pre : Precondition) (head : Option (Nat × Bool)) : Option Nat :=
  match pre, head with
  | .ifNoneMatch, none => some 1
  | .ifNoneMatch, some (v, true) => some (v + 1)
  | .ifMatch x, some (v, false) => if x = v then some (v + 1) else none
  | _, _ => none

/-- The statements of an accepted put or delete: the version, its head, the
pruning, the vault's bytes and revision, and the audit row. -/
def storeVersion [Digests] (kind : RecordKind) (pk : VaultPk) (v : Insert) (tombstone : Bool)
    (pruned : List (Nat × Nat)) (total : Nat) (e : AuditEvent) (now : Int) : Tx Unit := do
  insertVersion kind pk v
  setHead kind pk v.name v.version tombstone
  deleteVersions kind pk v.name pruned
  modify fun db => db.updateVault pk fun cols =>
    { cols with bytesUsed := total, revision := cols.revision + 1 }
  appendAudit pk e now

/-- The bytes pruning frees. -/
def freedBytes (pruned : List (Nat × Nat)) : Nat := (pruned.map Prod.snd).sum

def putRecordBody [Digests] (pk : VaultPk) (kind : RecordKind) (name : NameHmac)
    (pre : Precondition) (w : RecordWrite) (valueCt : List UInt8) (ctx : Ctx) (limits : Limits) :
    Tx (Done Nat) := do
  let db ← get
  match db.loadVault pk with
  | none => throw .notFound
  | some vault =>
    let refusal := event ctx.actor kind.putAction (some name) none .refused
    if w.generation ≠ vault.generation then
      refuse pk refusal ctx.now .staleGeneration
    else if kind.maxValue limits < valueCt.length then
      refuse pk refusal ctx.now (.quota kind.sizeQuota)
    else
      let head := db.loadHead kind pk name
      match nextVersion pre head with
      | none => refuse pk refusal ctx.now (.preconditionFailed (head.map (·.1)))
      | some next =>
        if w.version ≠ next then
          refuse pk refusal ctx.now (.versionMismatch w.version next)
        else if (head.map (·.2)).getD true ∧ kind.maxLive limits ≤ (db.liveHeads kind pk).length then
          refuse pk refusal ctx.now (.quota kind.liveQuota)
        else
          let pruned := prunable db kind pk name (kind.maxVersions limits)
          let total := vault.bytesUsed + (w.nameCt.length + valueCt.length) - freedBytes pruned
          if limits.maxVaultBytes < total then
            refuse pk refusal ctx.now (.quota .vaultBytes)
          else
            storeVersion kind pk
              { name := name, version := next, nameCt := w.nameCt, valueCt := some valueCt,
                generation := w.generation, writtenAt := w.writtenAt, writtenBy := ctx.actor,
                sig := w.sig }
              false pruned total
              (written ctx.actor kind.putAction (some name) next (some (Digests.sha256 valueCt)))
              ctx.now
            pure (.ok next)

/-- Write a record; the write must carry a value. -/
def putRecord [Digests] (disk : Except String Unit) (pk : VaultPk) (kind : RecordKind)
    (name : NameHmac) (pre : Precondition) (w : RecordWrite) (ctx : Ctx) (limits : Limits) (db : Db) :
    Except StoreError Nat × Db :=
  match w.valueCt with
  | none => (.error (.database "a put needs a value; a tombstone is a delete"), db)
  | some valueCt => write disk (putRecordBody pk kind name pre w valueCt ctx limits) db

def deleteRecordBody [Digests] (pk : VaultPk) (kind : RecordKind) (name : NameHmac) (ifMatch : Nat)
    (w : RecordWrite) (ctx : Ctx) (limits : Limits) : Tx (Done Nat) := do
  let db ← get
  match db.loadVault pk with
  | none => throw .notFound
  | some vault =>
    let refusal := event ctx.actor kind.deleteAction (some name) none .refused
    match db.loadHead kind pk name with
    | none => throw .notFound
    | some (_, true) => throw .notFound
    | some (current, false) =>
      if w.generation ≠ vault.generation then
        refuse pk refusal ctx.now .staleGeneration
      else if ifMatch ≠ current then
        refuse pk refusal ctx.now (.preconditionFailed (some current))
      else
        let next := current + 1
        if w.version ≠ next then
          refuse pk refusal ctx.now (.versionMismatch w.version next)
        else
          let pruned := prunable db kind pk name (kind.maxVersions limits)
          storeVersion kind pk
            { name := name, version := next, nameCt := w.nameCt, valueCt := none,
              generation := w.generation, writtenAt := w.writtenAt, writtenBy := ctx.actor,
              sig := w.sig }
            true pruned (vault.bytesUsed + w.nameCt.length - freedBytes pruned)
            (written ctx.actor kind.deleteAction (some name) next none) ctx.now
          pure (.ok next)

/-- Write a signed tombstone as `ifMatch + 1`; the write must carry no value. -/
def deleteRecord [Digests] (disk : Except String Unit) (pk : VaultPk) (kind : RecordKind)
    (name : NameHmac) (ifMatch : Nat) (w : RecordWrite) (ctx : Ctx) (limits : Limits) (db : Db) :
    Except StoreError Nat × Db :=
  match w.valueCt with
  | some _ => (.error (.database "a delete writes a tombstone, with no value"), db)
  | none => write disk (deleteRecordBody pk kind name ifMatch w ctx limits) db

/-! ## Children -/

/-- The owner-only children record, if written. -/
def children (pk : VaultPk) (db : Db) : Option ChildrenBlob := (db.children.find? pk).map (·.blob)

/-- The version a precondition assigns to the children record. -/
def nextChildren (pre : Precondition) (current : Option Nat) : Option Nat :=
  match pre, current with
  | .ifNoneMatch, none => some 1
  | .ifMatch x, some v => if x = v then some (v + 1) else none
  | _, _ => none

def setChildren (pk : VaultPk) (blob : ChildrenBlob) : Tx Unit := do
  let db ← get
  if db.hasVault pk then set { db with children := db.children.upsert ⟨pk, blob⟩ }
  else throw .exists

def putChildrenBody [Digests] (pk : VaultPk) (pre : Precondition) (blob : ChildrenBlob) (ctx : Ctx)
    (limits : Limits) : Tx (Done Nat) := do
  let db ← get
  match db.loadVault pk with
  | none => throw .notFound
  | some _ =>
    let refusal := event ctx.actor .childrenWrite none none .refused
    if limits.maxConfigBytes < blob.ct.bytes.length then
      refuse pk refusal ctx.now (.quota .valueSize)
    else
      let current := (children pk db).map (·.version)
      match nextChildren pre current with
      | none => refuse pk refusal ctx.now (.preconditionFailed current)
      | some next =>
        if blob.version ≠ next then
          refuse pk refusal ctx.now (.versionMismatch blob.version next)
        else
          setChildren pk { version := next, ct := blob.ct, sig := blob.sig }
          appendAudit pk
            (written ctx.actor .childrenWrite none next (some (Digests.sha256 blob.ct.bytes))) ctx.now
          pure (.ok next)

def putChildren [Digests] (disk : Except String Unit) (pk : VaultPk) (pre : Precondition)
    (blob : ChildrenBlob) (ctx : Ctx) (limits : Limits) (db : Db) : Except StoreError Nat × Db :=
  write disk (putChildrenBody pk pre blob ctx limits) db

/-! ## Audit -/

/-- Append an audit row on its own: value reads, and attempts refused before they
reach a write. -/
def record [Digests] (disk : Except String Unit) (pk : VaultPk) (e : AuditEvent) (now : Int) (db : Db) :
    Except StoreError Unit × Db :=
  write disk
    (do
      let db ← get
      if db.hasVault pk then
        appendAudit pk e now
        pure (.ok ())
      else throw .notFound)
    db

/-- The head `audit_after` reports: none before the first row. -/
def Db.auditHeadOf (db : Db) (pk : VaultPk) : Option ChainHead :=
  (db.vaults.find? pk).bind fun v => if 0 < v.auditSeq then some ⟨v.auditSeq, v.auditHead⟩ else none

/-- The first rows after a number. The number is a `u64` that the query reads as an `i64`. -/
def auditAfter (pk : VaultPk) (after limit : Nat) (db : Db) : List AuditRow × Option ChainHead :=
  (((db.auditOf pk).filter (fun r => decide (i64.wrap after < r.seq))).take limit, db.auditHeadOf pk)

/-- A number that an `i64` holds is compared as it is. -/
theorem auditAfter_of_holds {after : Nat} (small : after < 2 ^ 63) (pk : VaultPk) (limit : Nat) (db : Db) :
    auditAfter pk after limit db =
      (((db.auditOf pk).filter (fun r => decide (after < r.seq))).take limit, db.auditHeadOf pk) := by
  have holds : i64.Holds after := by
    constructor
    · change -2 ^ 63 ≤ (after : Int)
      omega
    · change (after : Int) < 2 ^ 63
      omega
  simp only [auditAfter, IntType.wrap_of_holds holds, Nat.cast_lt]

/-! ## Critical operations -/

def applyRotationBody [Digests] (pk : VaultPk) (r : RotationRequest) (ctx : Ctx) :
    Tx (Nat × JournalRecord) := do
  let db ← get
  match db.loadVault pk with
  | none => throw .notFound
  | some vault =>
    let generation ← rotate vault r ctx true
    let record ← journal (.rotate vault.vaultId ctx.actor r) ctx.now
    pure (generation, record)

def applyRotation [Digests] {σ : Type} (disk : Except String Unit) (hook : CommitHook σ)
    (pk : VaultPk) (r : RotationRequest) (ctx : Ctx) (db : Db) (journal : σ) :
    Except StoreError Nat × Db × σ :=
  writeCritical disk hook (applyRotationBody pk r ctx) db journal

/-- `DELETE FROM vaults WHERE p`, with what it cascades to. -/
def Db.deleteVaults (db : Db) (p : VaultCols → Bool) : Db :=
  let gone := fun pk => (db.vaults.select p).any (fun v => v.pk = pk)
  let drop := fun tables : RecordTables =>
    { records := tables.records.deleteWhere fun v => gone v.vaultPk
      heads := tables.heads.deleteWhere fun h => gone h.vaultPk : RecordTables }
  { db with
    vaults := db.vaults.deleteWhere p
    descriptors := db.descriptors.deleteWhere fun d => gone d.vaultPk
    tokens := db.tokens.deleteWhere fun t => gone t.vaultPk
    secret := drop db.secret
    config := drop db.config
    children := db.children.deleteWhere fun c => gone c.vaultPk
    audit := db.audit.deleteWhere fun a => gone a.vaultPk }

def deleteVaultBody (pk : VaultPk) (now : Int) : Tx (Unit × JournalRecord) := do
  let db ← get
  match db.loadVault pk with
  | none => throw .notFound
  | some vault =>
    set (db.deleteVaults fun v => v.pk = pk)
    let record ← journal (.deleteVault vault.vaultId) now
    pure ((), record)

def deleteVault {σ : Type} (disk : Except String Unit) (hook : CommitHook σ) (pk : VaultPk)
    (now : Int) (db : Db) (journal : σ) : Except StoreError Unit × Db × σ :=
  writeCritical disk hook (deleteVaultBody pk now) db journal

/-! ## Housekeeping -/

def spendBody (kind : SpentKind) (id : List UInt8) (expiresAt now : Int) : Tx (Done Unit) := do
  modify fun db => { db with spent := db.spent.deleteWhere fun s => decide (s.expiresAt < now) }
  let db ← get
  match db.spent.insert ⟨kind, id, expiresAt⟩ with
  | none => pure (.refused .spent)
  | some spent =>
    set { db with spent := spent }
    pure (.ok ())

/-- Remember a single-use id until `expiresAt`; refused if already seen. -/
def spend (disk : Except String Unit) (kind : SpentKind) (id : List UInt8) (expiresAt now : Int)
    (db : Db) : Except StoreError Unit × Db :=
  write disk (spendBody kind id expiresAt now) db

/-! ## Replay -/

/-- What replaying a record does before its sequence is marked applied; whether it
changed anything. -/
def replayOp [Digests] (record : JournalRecord) : Tx Bool := do
  let db ← get
  match record.op with
  | .revokeTokens vaultId tokenIds actor reported =>
    match db.loadVaultById vaultId with
    | none => pure false
    | some vault =>
      let removed ← deleteTokens vault.pk tokenIds
      removed.forM fun id =>
        appendAudit vault.pk (event actor (revokeAction reported) none (some id) .ok) record.ts
      if removed = [] then pure false
      else
        bumpRevision vault.pk
        pure true
  | .rotate vaultId actor request =>
    match db.loadVaultById vaultId with
    | none => pure false
    | some vault =>
      if vault.generation = request.fromGeneration then
        let _ ← rotate vault request { actor := actor, now := record.ts } false
        pure true
      else pure false
  | .deleteVault vaultId =>
    set (db.deleteVaults fun v => v.vaultId = vaultId)
    pure (db.vaults.rows.any fun v => v.vaultId = vaultId)

def replayBody [Digests] (record : JournalRecord) : Tx (Done Bool) := do
  let db ← get
  if record.seq ≤ db.lastApplied then pure (.ok false)
  else
    let applied ← replayOp record
    modify fun db => { db with lastApplied := record.seq }
    pure (.ok applied)

/-- Re-apply one journal record after a restore. -/
def replay [Digests] (disk : Except String Unit) (record : JournalRecord) (db : Db) :
    Except StoreError Bool × Db :=
  write disk (replayBody record) db

end GalataVault.Backend

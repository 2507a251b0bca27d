import GalataVault.Backend.Schema
import Mathlib.Data.Finset.Card
import Mathlib.Data.List.Sort

/-!
# Statements and helpers of the store

Each definition is one helper function of the store, or one SQL statement that
several of its operations run. Queries are functions of the database; statements
that may violate a constraint are transactions. A query whose source has no
`ORDER BY` feeds a set or a map there, and only its set of rows matters here.
-/

namespace GalataVault.Backend

open Proto Relational

namespace Db

/-- Every vault column, with the current generation's descriptor joined in. -/
def vaultRow (db : Db) (v : VaultCols) : Option VaultRow :=
  (db.descriptors.find? (v.pk, v.generation)).map fun d =>
    { pk := v.pk
      vaultId := v.vaultId
      ownerSignPub := v.ownerSignPub
      ownerBoxPub := v.ownerBoxPub
      ownerBundle := v.ownerBundle
      generation := v.generation
      revision := v.revision
      createdAt := v.createdAt
      lastActiveAt := v.lastActiveAt
      bytesUsed := v.bytesUsed
      descriptor := d.descriptor }

def loadVault (db : Db) (pk : VaultPk) : Option VaultRow := (db.vaults.find? pk).bind db.vaultRow

def loadVaultById (db : Db) (id : VaultId) : Option VaultRow :=
  (db.vaults.rows.find? (fun v => v.vaultId = id)).bind db.vaultRow

def loadHead (db : Db) (kind : RecordKind) (pk : VaultPk) (name : NameHmac) : Option (Nat × Bool) :=
  ((db.tables kind).heads.find? (pk, name)).map fun h => (h.currentVersion, h.tombstone)

/-- The live (not deleted) names of one kind. -/
def liveHeads (db : Db) (kind : RecordKind) (pk : VaultPk) : List HeadCols :=
  (db.tables kind).heads.select fun h => h.vaultPk = pk && !h.tombstone

/-- The vault's tokens that have not expired. -/
def activeTokens (db : Db) (pk : VaultPk) (now : Int) : List TokenRow :=
  db.tokens.select fun t => t.vaultPk = pk && decide (now < t.expiresAt)

def tokensOf (db : Db) (pk : VaultPk) : List TokenRow :=
  (db.tokens.select (fun t => t.vaultPk = pk)).insertionSort fun a b =>
    a.createdAt < b.createdAt ∨ a.createdAt = b.createdAt ∧ a.tokenId.raw.le b.tokenId.raw

/-- Every retained version of one name, oldest first. -/
def versionsOf (db : Db) (kind : RecordKind) (pk : VaultPk) (name : NameHmac) : List VersionCols :=
  ((db.tables kind).records.select (fun v => v.vaultPk = pk && v.row.nameHmac = name)).insertionSort
    fun a b => a.row.version ≤ b.row.version

/-- Every retained version of one kind, in no order. -/
def versionsIn (db : Db) (kind : RecordKind) (pk : VaultPk) : List VersionCols :=
  (db.tables kind).records.select fun v => v.vaultPk = pk

/-- The vault's audit rows, by sequence number. -/
def auditOf (db : Db) (pk : VaultPk) : List AuditRow :=
  ((db.audit.select (fun a => a.vaultPk = pk)).map (·.row)).insertionSort fun a b => a.seq ≤ b.seq

end Db

/-- The bytes a version counts for: its encrypted name and its value. -/
def VersionCols.size (v : VersionCols) : Nat :=
  v.row.nameCt.length + (v.row.valueCt.map List.length).getD 0

/-- Oldest versions of `name` that must go to keep `maxVersions` once one more is
written: each with its bytes. -/
def prunable (db : Db) (kind : RecordKind) (pk : VaultPk) (name : NameHmac) (maxVersions : Nat) :
    List (Nat × Nat) :=
  let all := (db.versionsOf kind pk name).map fun v => (v.row.version, v.size)
  all.take (all.length + 1 - max maxVersions 1)

def event (actor : Actor) (action : AuditAction) (nameHmac : Option NameHmac)
    (subject : Option TokenId) (result : AuditResult) : AuditEvent :=
  { AuditEvent.simple actor action nameHmac result with subject := subject }

/-- An event that names the version it wrote, and the hash of what it wrote. -/
def written (actor : Actor) (action : AuditAction) (nameHmac : Option NameHmac) (version : Nat)
    (ctHash : Option Hash32) : AuditEvent :=
  { AuditEvent.simple actor action nameHmac .ok with version := version, ctHash := ctHash }

/-- One version, as a write or a rotation hands it to the records table. -/
structure Insert where
  name : NameHmac
  version : Nat
  nameCt : List UInt8
  valueCt : Option (List UInt8)
  generation : Nat
  writtenAt : Int
  writtenBy : Actor
  sig : Sig64
deriving DecidableEq

/-- SHA-256 of a value ciphertext, or of an empty value for a tombstone. -/
def valueHash [Digests] (valueCt : Option (List UInt8)) : Hash32 := Digests.sha256 (valueCt.getD [])

/-- The row an insertion stores. -/
def Insert.cols [Digests] (pk : VaultPk) (v : Insert) : VersionCols where
  vaultPk := pk
  row :=
    { nameHmac := v.name
      version := v.version
      nameCt := v.nameCt
      valueCt := v.valueCt
      generation := v.generation
      writtenAt := v.writtenAt
      writtenBy := v.writtenBy
      tombstone := v.valueCt.isNone
      sig := v.sig
      tombstone_eq := rfl }
  ctHash := valueHash v.valueCt

/-- `UPDATE vaults SET … WHERE pk = ?`. -/
def Db.updateVault (db : Db) (pk : VaultPk) (f : VaultCols → VaultCols)
    (keeps : ∀ v, (f v).pk = v.pk := by intro v; rfl) : Db :=
  { db with vaults := db.vaults.updateWhere (fun v => v.pk = pk) f keeps }

@[simp] theorem Db.tables_updateVault (db : Db) (pk : VaultPk) (f : VaultCols → VaultCols)
    (keeps : ∀ v, (f v).pk = v.pk) (kind : RecordKind) :
    (db.updateVault pk f keeps).tables kind = db.tables kind := by
  cases kind <;> rfl

/-- After the update of a vault's row, the row is the updated one. -/
theorem Db.updateVault_found {db : Db} {pk : VaultPk} {v : VaultCols} (found : db.vaults.find? pk = some v)
    (f : VaultCols → VaultCols) (keeps : ∀ v, (f v).pk = v.pk) :
    (db.updateVault pk f keeps).vaults.find? pk = some (f v) := by
  have mine : v.pk = pk := (Table.find?_eq_some.mp found).2
  rw [Db.updateVault, Table.find?_updateWhere, found, Option.map_some, Table.rewrite, if_pos (by simp [mine])]

/-- Append one row to the vault's chain, and move its head. -/
def appendAudit [Digests] (pk : VaultPk) (e : AuditEvent) (now : Int) : Tx Unit := do
  let db ← get
  match db.vaults.find? pk with
  | none => throw (.database "Query returned no rows")
  | some v =>
    let row := AuditRow.fromEvent (v.auditSeq + 1) now v.auditHead e
    match db.audit.insert ⟨pk, row⟩ with
    | none => throw .exists
    | some audit =>
      set ({ db with audit := audit }.updateVault pk
        fun v => { v with auditSeq := row.seq, auditHead := row.hash })

/-- Append the row of a refusal, and refuse. -/
def refuse {α : Type} [Digests] (pk : VaultPk) (e : AuditEvent) (now : Int) (error : StoreError) :
    Tx (Done α) := do
  appendAudit pk e now
  pure (.refused error)

def bumpRevision (pk : VaultPk) : Tx Unit :=
  modify fun db => db.updateVault pk fun v => { v with revision := v.revision + 1 }

/-- Allocate the next journal sequence. The record goes to the hook as the last
statement of the body that called this. -/
def journal (op : JournalOp) (now : Int) : Tx JournalRecord := do
  let db ← get
  let record : JournalRecord := { seq := db.lastApplied + 1, ts := now, op := op }
  set { db with lastApplied := record.seq }
  pure record

def insertVersion [Digests] (kind : RecordKind) (pk : VaultPk) (v : Insert) : Tx Unit := do
  let db ← get
  match (db.tables kind).records.insert (v.cols pk) with
  | none => throw .exists
  | some records =>
    if db.hasVault pk then
      set (db.withTables kind { db.tables kind with records := records })
    else throw .exists

def setHead (kind : RecordKind) (pk : VaultPk) (name : NameHmac) (version : Nat)
    (tombstone : Bool) : Tx Unit := do
  let db ← get
  if db.hasVault pk then
    let head : HeadCols := ⟨pk, name, version, tombstone⟩
    set (db.withTables kind { db.tables kind with heads := (db.tables kind).heads.upsert head })
  else throw .exists

/-- One `DELETE` of `delete_versions`. -/
def Db.deleteVersion (db : Db) (kind : RecordKind) (pk : VaultPk) (name : NameHmac)
    (version : Nat) : Db :=
  db.withTables kind { db.tables kind with
    records := (db.tables kind).records.deleteWhere fun v => v.key = (pk, name, version) }

def deleteVersions (kind : RecordKind) (pk : VaultPk) (name : NameHmac)
    (versions : List (Nat × Nat)) : Tx Unit :=
  versions.forM fun v => modify fun db => db.deleteVersion kind pk name v.1

/-- Delete the given tokens of the vault; the result lists those that were there. -/
def deleteTokens (pk : VaultPk) : List TokenId → Tx (List TokenId)
  | [] => pure []
  | id :: ids => do
    let db ← get
    let mine := fun t : TokenRow => t.vaultPk = pk && t.tokenId = id
    set { db with tokens := db.tokens.deleteWhere mine }
    let removed ← deleteTokens pk ids
    pure (if (db.tokens.select mine).length = 1 then id :: removed else removed)

/-- One version as rewritten by a rotation. -/
structure Rewritten where
  name : NameHmac
  version : Nat
  nameCt : List UInt8
  valueCt : Option (List UInt8)
  writtenAt : Int
  writtenBy : Actor
  sig : Sig64
deriving DecidableEq

/-- A name's highest version so far, and whether it is a tombstone. -/
abbrev HeadMap := List (NameHmac × Nat × Bool)

/-- Enter one rewritten version into the map of heads. -/
def noteHead (heads : HeadMap) (r : Rewritten) : HeadMap :=
  if heads.any (fun h => h.1 = r.name) then
    heads.map fun h =>
      if h.1 = r.name ∧ h.2.1 ≤ r.version then (r.name, r.version, r.valueCt.isNone) else h
  else heads ++ [(r.name, r.version, r.valueCt.isNone)]

/-- Insert the rewritten versions of one kind, collecting heads and bytes. -/
def insertRewritten [Digests] (kind : RecordKind) (pk : VaultPk) (generation : Nat) (heads : HeadMap)
    (bytes : Nat) : List Rewritten → Tx (HeadMap × Nat)
  | [] => pure (heads, bytes)
  | r :: rows => do
    insertVersion kind pk
      { name := r.name, version := r.version, nameCt := r.nameCt, valueCt := r.valueCt,
        generation := generation, writtenAt := r.writtenAt, writtenBy := r.writtenBy, sig := r.sig }
    insertRewritten kind pk generation (noteHead heads r)
      (bytes + (r.nameCt.length + (r.valueCt.map List.length).getD 0)) rows

/-- The two `DELETE`s that start `replace_records`. -/
def Db.clearRecords (db : Db) (kind : RecordKind) (pk : VaultPk) : Db :=
  db.withTables kind
    { heads := (db.tables kind).heads.deleteWhere fun h => h.vaultPk = pk
      records := (db.tables kind).records.deleteWhere fun v => v.vaultPk = pk }

/-- Replace a vault's records of one kind wholesale. Returns the bytes they now
take. -/
def replaceRecords [Digests] (kind : RecordKind) (pk : VaultPk) (generation : Nat)
    (rows : List Rewritten) : Tx Nat := do
  modify fun db => db.clearRecords kind pk
  let (heads, bytes) ← insertRewritten kind pk generation [] 0 rows
  heads.forM fun h => setHead kind pk h.1 h.2.1 h.2.2
  pure bytes

/-- What a rotation may not change about a version. -/
structure VersionMeta where
  writtenAt : Int
  writtenBy : Actor
  tombstone : Bool
deriving DecidableEq

/-- A kind's versions, by name and number. -/
abbrev Meta := List ((NameHmac × Nat) × VersionMeta)

def versionMeta (db : Db) (kind : RecordKind) (pk : VaultPk) : Meta :=
  (db.versionsIn kind pk).map fun v =>
    ((v.row.nameHmac, v.row.version),
      { writtenAt := v.row.writtenAt, writtenBy := v.row.writtenBy, tombstone := v.row.tombstone })

/-- The version a batch entry rewrites. -/
def oldKey (s : RotatedVersion) : NameHmac × Nat := (s.oldNameHmac, s.version)

/-- The version a batch entry becomes. -/
def newKey (s : RotatedVersion) : NameHmac × Nat := (s.nameHmac, s.version)

/-- Every retained version of one kind must be re-encrypted exactly once, keeping
its write time, and tombstones must stay tombstones. -/
def checkComplete (batch : List RotatedVersion) (stored : Meta) : Except StoreError Unit :=
  let keys := (batch.map oldKey).toFinset
  if keys.card ≠ batch.length ∨ keys ≠ (stored.map Prod.fst).toFinset then
    .error (.incompleteRotation "every retained version must be re-encrypted exactly once")
  else if batch.any (fun s => (stored.lookup (oldKey s)).map (·.tombstone) != some s.valueCt.isNone) then
    .error (.incompleteRotation "tombstones must stay tombstones")
  else if batch.any (fun s => (stored.lookup (oldKey s)).map (·.writtenAt) != some s.writtenAt) then
    .error (.incompleteRotation "every version must keep its write time")
  else .ok ()

/-- A batch of one kind as rows, keeping each version's writer. -/
def rewritten (batch : List RotatedVersion) (stored : Meta) (ctx : Ctx) :
    Except StoreError (List Rewritten) :=
  if (batch.map newKey).toFinset.card ≠ batch.length then
    .error (.incompleteRotation "two versions map to the same new name")
  else .ok <| batch.map fun s =>
    { name := s.nameHmac
      version := s.version
      nameCt := s.nameCt.bytes
      valueCt := s.valueCt.map (·.bytes)
      writtenAt := s.writtenAt
      writtenBy := ((stored.lookup (oldKey s)).map (·.writtenBy)).getD ctx.actor
      sig := s.sig }

/-- What the live path demands of a batch before it changes anything. -/
def checkRotation (db : Db) (vault : VaultRow) (r : RotationRequest) : Except StoreError Unit := do
  if vault.generation ≠ r.fromGeneration ∨ vault.revision ≠ r.fromRevision then
    throw .conflict
  else
    checkComplete r.secrets (versionMeta db .secret vault.pk)
    checkComplete r.configs (versionMeta db .config vault.pk)
    let existing := ((db.tokensOf vault.pk).map (·.tokenId)).toFinset
    let revoke := r.revoke.toFinset
    if ¬ revoke ⊆ existing then
      throw (.incompleteRotation "revoke names a token not in this vault")
    else
      let resealed := (r.tokens.map (·.tokenId)).toFinset
      if resealed.card ≠ r.tokens.length ∨ resealed ≠ existing \ revoke then
        throw (.incompleteRotation "every surviving token needs exactly one resealed bundle")
      else pure ()

/-- `INSERT INTO descriptors … ON CONFLICT DO NOTHING`. -/
def insertDescriptor (d : DescriptorCols) : Tx Unit := do
  let db ← get
  match db.descriptors.insert d with
  | none => pure ()
  | some descriptors =>
    if db.hasVault d.vaultPk then set { db with descriptors := descriptors } else throw .exists

/-- `UPDATE tokens SET bundle, bundle_sig, generation` for one resealed bundle. -/
def Db.resealToken (db : Db) (pk : VaultPk) (generation : Nat) (t : ResealedBundle) : Db :=
  let mine := fun row : TokenRow => row.vaultPk = pk && row.tokenId = t.tokenId
  { db with
    tokens := db.tokens.updateWhere mine
      fun row => { row with bundle := t.bundle, generation := generation } }

/-- A transaction from a check that changes nothing. -/
def liftCheck {α : Type} (check : Except StoreError α) : Tx α :=
  match check with
  | .ok value => pure value
  | .error failure => throw failure

/-- Everything `rotate` does once its checks have passed. -/
def applyBatch [Digests] (vault : VaultRow) (r : RotationRequest) (ctx : Ctx) : Tx Nat := do
  let db ← get
  let pk := vault.pk
  let generation := r.fromGeneration + 1
  let secretRows ← liftCheck (rewritten r.secrets (versionMeta db .secret pk) ctx)
  let configRows ← liftCheck (rewritten r.configs (versionMeta db .config pk) ctx)
  let secretBytes ← replaceRecords .secret pk generation secretRows
  let configBytes ← replaceRecords .config pk generation configRows
  insertDescriptor ⟨pk, generation, r.descriptor⟩
  let revoked ← deleteTokens pk r.revoke
  r.tokens.forM fun t => modify fun db => db.resealToken pk generation t
  modify fun db => db.updateVault pk fun v =>
    { v with
      generation := generation
      ownerBundle := r.ownerBundle
      bytesUsed := secretBytes + configBytes
      revision := v.revision + 1 }
  appendAudit pk
    (written ctx.actor .vaultRotate none 0 (some (Digests.sha256 r.descriptor.descriptor.bytes))) ctx.now
  revoked.forM fun id => appendAudit pk (event ctx.actor .tokenRevoke none (some id) .ok) ctx.now
  pure generation

/-- Apply a rotation. `strict` is the live path; replay after a restore is
lenient, because the restored database may be older than the state the batch was
built from, and the batch itself is the whole new state. -/
def rotate [Digests] (vault : VaultRow) (r : RotationRequest) (ctx : Ctx) (strict : Bool) : Tx Nat := do
  let db ← get
  if strict then
    liftCheck (checkRotation db vault r)
    applyBatch vault r ctx
  else if vault.generation > r.fromGeneration then
    pure vault.generation
  else applyBatch vault r ctx

end GalataVault.Backend

import GalataVault.Backend.Types
import GalataVault.Library.Table
import GalataVault.Library.Transaction

/-!
# The schema

The database as its tables, each with its primary key. Secrets and configs have
the same columns in separate tables, so a query for one kind cannot return the
other. Columns that two Rust types read differently are kept once: a stored
version is the row the interface returns, together with the vault it belongs to
and the hash of its value.

Every child table references a vault by its row number. With foreign keys on,
inserting a child of no vault violates a constraint, and deleting a vault
deletes its rows in every child table; both are part of the statements here.
Row numbers are `INTEGER PRIMARY KEY` without `AUTOINCREMENT`: a new row takes
one more than the largest in the table, so the number of a deleted last row is
used again.
-/

namespace GalataVault.Backend

open Proto Relational

/-- A row of `vaults`. -/
structure VaultCols where
  pk : VaultPk
  vaultId : VaultId
  ownerSignPub : Key32
  ownerBoxPub : Key32
  ownerBundle : SignedBundle
  generation : Nat
  revision : Nat
  createdAt : Int
  lastActiveAt : Int
  bytesUsed : Nat
  auditSeq : Nat
  auditHead : Hash32
deriving DecidableEq

/-- A row of `descriptors`. -/
structure DescriptorCols where
  vaultPk : VaultPk
  generation : Nat
  descriptor : SignedDescriptor
deriving DecidableEq

/-- A row of `secrets` or `configs`. -/
structure VersionCols where
  vaultPk : VaultPk
  row : VersionRow
  ctHash : Hash32
deriving DecidableEq

/-- A row of `heads` or `config_heads`. -/
structure HeadCols where
  vaultPk : VaultPk
  nameHmac : NameHmac
  currentVersion : Nat
  tombstone : Bool
deriving DecidableEq

/-- A row of `children`. -/
structure ChildrenCols where
  vaultPk : VaultPk
  blob : ChildrenBlob
deriving DecidableEq

/-- A row of `audit`. -/
structure AuditCols where
  vaultPk : VaultPk
  row : AuditRow
deriving DecidableEq

/-- A row of `spent`. -/
structure SpentCols where
  kind : SpentKind
  id : List UInt8
  expiresAt : Int
deriving DecidableEq

def DescriptorCols.key (d : DescriptorCols) : VaultPk × Nat := (d.vaultPk, d.generation)

def VersionCols.key (v : VersionCols) : VaultPk × NameHmac × Nat :=
  (v.vaultPk, v.row.nameHmac, v.row.version)

def HeadCols.key (h : HeadCols) : VaultPk × NameHmac := (h.vaultPk, h.nameHmac)

def AuditCols.key (a : AuditCols) : VaultPk × Nat := (a.vaultPk, a.row.seq)

def SpentCols.key (s : SpentCols) : SpentKind × List UInt8 := (s.kind, s.id)

/-- One kind's tables: its versions, and each name's current version. -/
structure RecordTables where
  records : Table VersionCols.key
  heads : Table HeadCols.key
deriving DecidableEq

structure Db where
  vaults : Table VaultCols.pk
  descriptors : Table DescriptorCols.key
  tokens : Table TokenRow.tokenId
  secret : RecordTables
  config : RecordTables
  children : Table ChildrenCols.vaultPk
  audit : Table AuditCols.key
  /-- The one row of `journal_state`. -/
  lastApplied : Nat
  spent : Table SpentCols.key
deriving DecidableEq

namespace Db

/-- A migrated database without any rows. -/
def empty : Db where
  vaults := .empty
  descriptors := .empty
  tokens := .empty
  secret := ⟨.empty, .empty⟩
  config := ⟨.empty, .empty⟩
  children := .empty
  audit := .empty
  lastApplied := 0
  spent := .empty

/-- The tables of one kind. -/
def tables (db : Db) : RecordKind → RecordTables
  | .secret => db.secret
  | .config => db.config

/-- The database with one kind's tables replaced. -/
def withTables (db : Db) : RecordKind → RecordTables → Db
  | .secret, tables => { db with secret := tables }
  | .config, tables => { db with config := tables }

@[simp] theorem tables_withTables_same (db : Db) (kind : RecordKind) (tables : RecordTables) :
    (db.withTables kind tables).tables kind = tables := by
  cases kind <;> rfl

theorem tables_withTables_other (db : Db) {kind other : RecordKind} (differs : other ≠ kind)
    (tables : RecordTables) : (db.withTables kind tables).tables other = db.tables other := by
  cases kind <;> cases other <;> first | rfl | exact absurd rfl differs

@[simp] theorem withTables_withTables (db : Db) (kind : RecordKind) (first second : RecordTables) :
    (db.withTables kind first).withTables kind second = db.withTables kind second := by
  cases kind <;> rfl

@[simp] theorem withTables_vaults (db : Db) (kind : RecordKind) (tables : RecordTables) :
    (db.withTables kind tables).vaults = db.vaults := by
  cases kind <;> rfl

@[simp] theorem withTables_audit (db : Db) (kind : RecordKind) (tables : RecordTables) :
    (db.withTables kind tables).audit = db.audit := by
  cases kind <;> rfl

@[simp] theorem withTables_children (db : Db) (kind : RecordKind) (tables : RecordTables) :
    (db.withTables kind tables).children = db.children := by
  cases kind <;> rfl

def hasVault (db : Db) (pk : VaultPk) : Bool := (db.vaults.find? pk).isSome

/-- The number of rows in all tables. -/
def rowCount (db : Db) : Nat :=
  db.vaults.rows.length + db.descriptors.rows.length + db.tokens.rows.length +
    db.secret.records.rows.length + db.secret.heads.rows.length +
    db.config.records.rows.length + db.config.heads.rows.length +
    db.children.rows.length + db.audit.rows.length + db.spent.rows.length

end Db

/-- SQLite's documented limit: a database file is at most 281 terabytes, and a
row takes at least one byte of it. -/
def maxRows : Nat := 2 ^ 48

/-- A body of `BEGIN IMMEDIATE … COMMIT`, or of a read on one connection. -/
abbrev Tx := Transaction Db StoreError

/-- A write that either happened, or was refused and audited as refused. Both
commit; a failure of the body rolls back. -/
inductive Done (α : Type) where
  | ok (value : α)
  | refused (error : StoreError)
deriving DecidableEq

/-- What the caller of a committed write is told. -/
def Done.answer {α : Type} : Done α → Except StoreError α
  | ok value => .ok value
  | refused error => .error error

/-- `COMMIT`: SQLite may answer an error, and does when the file would grow past
its limit. -/
def commit (disk : Except String Unit) (next : Db) : Except StoreError Unit :=
  match disk with
  | .error detail => .error (.database detail)
  | .ok () =>
    if next.rowCount ≤ maxRows then .ok () else .error (.database "database or disk is full")

/-- Run a body as one write: the answer to the caller and the database after it.
A failed body and a failed commit leave the database as it was. -/
def write {α : Type} (disk : Except String Unit) (body : Tx (Done α)) (db : Db) :
    Except StoreError α × Db :=
  match body.run db with
  | .error failure => (.error failure, db)
  | .ok (done, next) =>
    match commit disk next with
    | .error failure => (.error failure, db)
    | .ok () => (done.answer, next)

/-- Run the body of a critical operation. The hook receives the journal record
while the transaction is open, as the body's last statement: if it fails the
transaction rolls back, and if it succeeds the commit may still fail. -/
def writeCritical {α σ : Type} (disk : Except String Unit) (hook : CommitHook σ)
    (body : Tx (α × JournalRecord)) (db : Db) (journal : σ) : Except StoreError α × Db × σ :=
  match body.run db with
  | .error failure => (.error failure, db, journal)
  | .ok ((value, record), next) =>
    match hook record journal with
    | (.error detail, journal) => (.error (.journal detail), db, journal)
    | (.ok (), journal) =>
      match commit disk next with
      | .error failure => (.error failure, db, journal)
      | .ok () => (.ok value, next, journal)

end GalataVault.Backend

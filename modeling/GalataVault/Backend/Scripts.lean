import GalataVault.Backend.Store

/-!
# What an operation can do to the database

Every operation that addresses a vault runs a script: a sequence of statements,
each of which writes one table and touches the rows of that one vault. This
module lists the statements once, with what each requires, and shows that every
operation's body commits only scripts, and which tables they write. A property of
statements is then a property of operations, and no later proof takes an
operation's branches apart to establish it.

Creating a vault and deleting vaults are the two effects that are not scripts.
-/

namespace GalataVault.Backend

open Proto Relational Relational.Transaction

/-- The join reads the vault's own row number. -/
theorem Db.vaultRow_pk {db : Db} {v : VaultCols} {row : VaultRow} (joined : db.vaultRow v = some row) :
    row.pk = v.pk := by
  obtain ⟨_, _, rfl⟩ := Option.map_eq_some_iff.mp joined
  rfl

theorem Db.loadVault_pk {db : Db} {pk : VaultPk} {row : VaultRow} (loaded : db.loadVault pk = some row) : row.pk = pk := by
  obtain ⟨v, found, joined⟩ := Option.bind_eq_some_iff.mp loaded
  rw [Db.vaultRow_pk joined]
  exact (Table.find?_eq_some.mp found).2

/-- A loaded vault shows the columns of its row. -/
theorem Db.loadVault_found {db : Db} {pk : VaultPk} {row : VaultRow} (loaded : db.loadVault pk = some row) :
    ∃ v, db.vaults.find? pk = some v ∧ row.vaultId = v.vaultId ∧ row.generation = v.generation ∧
      row.revision = v.revision ∧ row.bytesUsed = v.bytesUsed := by
  obtain ⟨v, found, joined⟩ := Option.bind_eq_some_iff.mp loaded
  obtain ⟨_, _, rfl⟩ := Option.map_eq_some_iff.mp joined
  exact ⟨v, found, rfl, rfl, rfl, rfl⟩

/-- An update of a vault's row that leaves its identity and its audit head alone,
and does not take its revision back. -/
structure KeepsIdentity (f : VaultCols → VaultCols) : Prop where
  pk : ∀ v, (f v).pk = v.pk := by intro v; rfl
  vaultId : ∀ v, (f v).vaultId = v.vaultId := by intro v; rfl
  ownerSignPub : ∀ v, (f v).ownerSignPub = v.ownerSignPub := by intro v; rfl
  ownerBoxPub : ∀ v, (f v).ownerBoxPub = v.ownerBoxPub := by intro v; rfl
  auditSeq : ∀ v, (f v).auditSeq = v.auditSeq := by intro v; rfl
  auditHead : ∀ v, (f v).auditHead = v.auditHead := by intro v; rfl
  revision : ∀ v, v.revision ≤ (f v).revision := by intro v; simp

/-- It leaves the key generation and the owner's bundle alone as well, which only a
rotation changes. -/
structure KeepsGeneration (f : VaultCols → VaultCols) : Prop extends KeepsIdentity f where
  generation : ∀ v, (f v).generation = v.generation := by intro v; rfl
  ownerBundle : ∀ v, (f v).ownerBundle = v.ownerBundle := by intro v; rfl

/-- It leaves the count of bytes alone as well. -/
structure KeepsBytes (f : VaultCols → VaultCols) : Prop extends KeepsGeneration f where
  bytesUsed : ∀ v, (f v).bytesUsed = v.bytesUsed := by intro v; rfl

/-- The table a statement writes; the updates of a vault's row that count its bytes
or rotate its keys are targets of their own. -/
inductive Target where
  | vaults
  | bytes
  | generation
  | descriptors
  | tokens
  | records (kind : RecordKind)
  | children
  | audit
  | journalState
deriving DecidableEq

/-- One statement of a script addressed to the vault with row number `pk`. -/
inductive Stmt [Digests] (pk : VaultPk) (db : Db) : Target → Db → Prop where
  | appendAudit (v : VaultCols) (e : AuditEvent) (now : Int) (audit : Table AuditCols.key)
      (present : db.vaults.find? pk = some v)
      (inserted : db.audit.insert ⟨pk, .fromEvent (v.auditSeq + 1) now v.auditHead e⟩ = some audit) :
      Stmt pk db .audit ({ db with audit := audit }.updateVault pk fun v' =>
        { v' with
          auditSeq := (AuditRow.fromEvent (v.auditSeq + 1) now v.auditHead e).seq
          auditHead := (AuditRow.fromEvent (v.auditSeq + 1) now v.auditHead e).hash })
  | updateVault (f : VaultCols → VaultCols) (keeps : KeepsBytes f) :
      Stmt pk db .vaults (db.updateVault pk f keeps.pk)
  | countBytes (f : VaultCols → VaultCols) (keeps : KeepsGeneration f) :
      Stmt pk db .bytes (db.updateVault pk f keeps.pk)
  | rotateVault (f : VaultCols → VaultCols) (keeps : KeepsIdentity f) :
      Stmt pk db .generation (db.updateVault pk f keeps.pk)
  | insertVersion (kind : RecordKind) (v : Insert) (records : Table VersionCols.key)
      (inserted : (db.tables kind).records.insert (v.cols pk) = some records)
      (present : db.hasVault pk = true) :
      Stmt pk db (.records kind) (db.withTables kind { db.tables kind with records := records })
  | setHead (kind : RecordKind) (name : NameHmac) (version : Nat) (tombstone : Bool)
      (present : db.hasVault pk = true) :
      Stmt pk db (.records kind) (db.withTables kind { db.tables kind with
        heads := (db.tables kind).heads.upsert ⟨pk, name, version, tombstone⟩ })
  | deleteVersion (kind : RecordKind) (name : NameHmac) (version : Nat) :
      Stmt pk db (.records kind) (db.deleteVersion kind pk name version)
  | clearRecords (kind : RecordKind) : Stmt pk db (.records kind) (db.clearRecords kind pk)
  | insertToken (row : TokenRow) (tokens : Table TokenRow.tokenId)
      (inserted : db.tokens.insert row = some tokens) (mine : row.vaultPk = pk)
      (present : db.hasVault pk = true) : Stmt pk db .tokens { db with tokens := tokens }
  | deleteToken (id : TokenId) :
      Stmt pk db .tokens { db with
        tokens := db.tokens.deleteWhere fun t => t.vaultPk = pk && t.tokenId = id }
  | resealToken (generation : Nat) (t : ResealedBundle) : Stmt pk db .tokens (db.resealToken pk generation t)
  | insertDescriptor (generation : Nat) (d : SignedDescriptor) (descriptors : Table DescriptorCols.key)
      (inserted : db.descriptors.insert ⟨pk, generation, d⟩ = some descriptors)
      (present : db.hasVault pk = true) : Stmt pk db .descriptors { db with descriptors := descriptors }
  | setChildren (blob : ChildrenBlob) (present : db.hasVault pk = true) :
      Stmt pk db .children { db with children := db.children.upsert ⟨pk, blob⟩ }
  | setApplied (seq : Nat) : Stmt pk db .journalState { db with lastApplied := seq }

/-- A sequence of statements addressed to one vault, writing only the given
tables. -/
def Script [Digests] (pk : VaultPk) (targets : List Target) : Db → Db → Prop :=
  Relation.ReflTransGen fun db after => ∃ target ∈ targets, Stmt pk db target after

variable [Digests] {pk : VaultPk} {targets : List Target}

theorem Script.refl (db : Db) : Script pk targets db db := Relation.ReflTransGen.refl

theorem Script.trans (a b c : Db) (first : Script pk targets a b)
    (second : Script pk targets b c) : Script pk targets a c :=
  Relation.ReflTransGen.trans first second

theorem Stmt.script {target : Target} {db after : Db} (stmt : Stmt pk db target after)
    (allowed : target ∈ targets := by simp) : Script pk targets db after :=
  Relation.ReflTransGen.single ⟨target, allowed, stmt⟩

theorem Script.widen {fewer : List Target} {db after : Db} (included : ∀ target ∈ fewer, target ∈ targets)
    (script : Script pk fewer db after) : Script pk targets db after := by
  induction script with
  | refl => exact Script.refl db
  | tail _ last inductionHypothesis =>
    obtain ⟨target, member, stmt⟩ := last
    exact Script.trans _ _ _ inductionHypothesis (stmt.script (included target member))

/-! ## Statements are scripts -/

/-- An appended row follows the vault's stored head, which moves to it. -/
theorem appendAudit_ok {e : AuditEvent} {now : Int} {db after : Db} {value : Unit}
    (committed : (appendAudit pk e now).run db = .ok (value, after)) :
    ∃ v audit, db.vaults.find? pk = some v ∧
      db.audit.insert ⟨pk, .fromEvent (v.auditSeq + 1) now v.auditHead e⟩ = some audit ∧
      after = ({ db with audit := audit }.updateVault pk fun v' =>
        { v' with
          auditSeq := (AuditRow.fromEvent (v.auditSeq + 1) now v.auditHead e).seq
          auditHead := (AuditRow.fromEvent (v.auditSeq + 1) now v.auditHead e).hash }) := by
  rw [appendAudit, get_bind_ok] at committed
  split at committed
  · simp only [throw_ok] at committed
  · next v present =>
    dsimp only at committed
    split at committed
    · simp only [throw_ok] at committed
    · next audit inserted =>
      simp only [set_ok, Prod.mk.injEq] at committed
      exact ⟨v, audit, present, inserted, committed.2.symm⟩

theorem appendAudit_script (e : AuditEvent) (now : Int) (allowed : .audit ∈ targets := by simp) :
    Keeps (Script pk targets) (appendAudit pk e now) := by
  intro db value after committed
  obtain ⟨v, audit, present, inserted, rfl⟩ := appendAudit_ok committed
  exact (Stmt.appendAudit v e now audit present inserted).script allowed

theorem refuse_script {α : Type} (e : AuditEvent) (now : Int) (error : StoreError)
    (allowed : .audit ∈ targets := by simp) : Keeps (Script pk targets) (refuse pk e now error : Tx (Done α)) :=
  .bind Script.trans (appendAudit_script e now allowed) (fun _ => .pure Script.refl _)

theorem updateVault_script (f : VaultCols → VaultCols) (keeps : KeepsBytes f)
    (allowed : .vaults ∈ targets := by simp) :
    Keeps (Script pk targets) (modify fun db => db.updateVault pk f keeps.pk : Tx Unit) :=
  .modify _ (fun _ => (Stmt.updateVault f keeps).script allowed)

theorem countBytes_script (f : VaultCols → VaultCols) (keeps : KeepsGeneration f)
    (allowed : .bytes ∈ targets := by simp) :
    Keeps (Script pk targets) (modify fun db => db.updateVault pk f keeps.pk : Tx Unit) :=
  .modify _ (fun _ => (Stmt.countBytes f keeps).script allowed)

theorem rotateVault_script (f : VaultCols → VaultCols) (keeps : KeepsIdentity f)
    (allowed : .generation ∈ targets := by simp) :
    Keeps (Script pk targets) (modify fun db => db.updateVault pk f keeps.pk : Tx Unit) :=
  .modify _ (fun _ => (Stmt.rotateVault f keeps).script allowed)

theorem bumpRevision_script (allowed : .vaults ∈ targets := by simp) :
    Keeps (Script pk targets) (bumpRevision pk) :=
  updateVault_script (fun v => { v with revision := v.revision + 1 }) {} allowed

omit [Digests] in
theorem journal_ok {op : JournalOp} {now : Int} {db after : Db} {record : JournalRecord}
    (committed : (journal op now).run db = .ok (record, after)) :
    record = { seq := db.lastApplied + 1, ts := now, op := op } ∧
      after = { db with lastApplied := db.lastApplied + 1 } := by
  rw [journal, get_bind_ok] at committed
  simp only [bind_ok, set_ok, pure_ok, Prod.mk.injEq] at committed
  obtain ⟨_, _, ⟨_, rfl⟩, rfl, rfl⟩ := committed
  exact ⟨rfl, rfl⟩

theorem journal_script (op : JournalOp) (now : Int) (allowed : .journalState ∈ targets := by simp) :
    Keeps (Script pk targets) (journal op now) := by
  intro db record after committed
  obtain ⟨_, rfl⟩ := journal_ok committed
  exact (Stmt.setApplied _).script allowed

theorem insertVersion_ok {kind : RecordKind} {v : Insert} {db after : Db} {value : Unit}
    (committed : (insertVersion kind pk v).run db = .ok (value, after)) :
    ∃ records, (db.tables kind).records.insert (v.cols pk) = some records ∧ db.hasVault pk = true ∧
      after = db.withTables kind { db.tables kind with records := records } := by
  rw [insertVersion, get_bind_ok] at committed
  split at committed
  · simp only [throw_ok] at committed
  · next records inserted =>
    split at committed
    · next present =>
      simp only [set_ok, Prod.mk.injEq] at committed
      exact ⟨records, inserted, present, committed.2.symm⟩
    · simp only [throw_ok] at committed

theorem insertVersion_script (kind : RecordKind) (v : Insert)
    (allowed : .records kind ∈ targets := by simp) :
    Keeps (Script pk targets) (insertVersion kind pk v) := by
  intro db _ after committed
  obtain ⟨records, inserted, present, rfl⟩ := insertVersion_ok committed
  exact (Stmt.insertVersion kind v records inserted present).script allowed

omit [Digests] in
theorem setHead_ok {kind : RecordKind} {name : NameHmac} {version : Nat} {tombstone : Bool}
    {db after : Db} {value : Unit}
    (committed : (setHead kind pk name version tombstone).run db = .ok (value, after)) :
    db.hasVault pk = true ∧ after = db.withTables kind { db.tables kind with
      heads := (db.tables kind).heads.upsert ⟨pk, name, version, tombstone⟩ } := by
  rw [setHead, get_bind_ok] at committed
  split at committed
  · next present =>
    simp only [set_ok, Prod.mk.injEq] at committed
    exact ⟨present, committed.2.symm⟩
  · simp only [throw_ok] at committed

theorem setHead_script (kind : RecordKind) (name : NameHmac) (version : Nat) (tombstone : Bool)
    (allowed : .records kind ∈ targets := by simp) :
    Keeps (Script pk targets) (setHead kind pk name version tombstone) := by
  intro db _ after committed
  obtain ⟨present, rfl⟩ := setHead_ok committed
  exact (Stmt.setHead kind name version tombstone present).script allowed

theorem deleteVersions_script (kind : RecordKind) (name : NameHmac) (versions : List (Nat × Nat))
    (allowed : .records kind ∈ targets := by simp) :
    Keeps (Script pk targets) (deleteVersions kind pk name versions) :=
  .forM Script.refl Script.trans _ fun v _ =>
    .modify _ fun _ => (Stmt.deleteVersion kind name v.1).script allowed

theorem deleteTokens_script (ids : List TokenId) (allowed : .tokens ∈ targets := by simp) :
    Keeps (Script pk targets) (deleteTokens pk ids) := by
  induction ids with
  | nil => exact .pure Script.refl _
  | cons id ids inductionHypothesis =>
    refine .get_bind fun db _ after committed => ?_
    simp only [bind_ok, set_ok, pure_ok, Prod.mk.injEq] at committed
    obtain ⟨_, _, ⟨_, rfl⟩, removed, _, rest, _, rfl⟩ := committed
    exact Script.trans _ _ _ ((Stmt.deleteToken id).script allowed) (inductionHypothesis _ _ _ rest)

omit [Digests] in
theorem insertToken_ok {row : TokenRow} {db after : Db} {value : Unit}
    (committed : (insertToken row).run db = .ok (value, after)) :
    ∃ tokens, db.tokens.insert row = some tokens ∧ db.hasVault row.vaultPk = true ∧
      after = { db with tokens := tokens } := by
  rw [insertToken, get_bind_ok] at committed
  split at committed
  · simp only [throw_ok] at committed
  · next tokens inserted =>
    split at committed
    · next present =>
      simp only [set_ok, Prod.mk.injEq] at committed
      exact ⟨tokens, inserted, present, committed.2.symm⟩
    · simp only [throw_ok] at committed

theorem insertToken_script (row : TokenRow) (mine : row.vaultPk = pk)
    (allowed : .tokens ∈ targets := by simp) : Keeps (Script pk targets) (insertToken row) := by
  intro db _ after committed
  obtain ⟨tokens, inserted, present, rfl⟩ := insertToken_ok committed
  exact (Stmt.insertToken row tokens inserted mine (mine ▸ present)).script allowed

omit [Digests] in
/-- A descriptor is inserted, unless its generation has one already. -/
theorem insertDescriptor_ok {d : DescriptorCols} {db after : Db} {value : Unit}
    (committed : (insertDescriptor d).run db = .ok (value, after)) :
    (after = db ∧ ∃ old, db.descriptors.find? d.key = some old) ∨
      ∃ descriptors, db.descriptors.insert d = some descriptors ∧
        db.hasVault d.vaultPk = true ∧ after = { db with descriptors := descriptors } := by
  rw [insertDescriptor, get_bind_ok] at committed
  split at committed
  · next taken =>
    simp only [pure_ok, Prod.mk.injEq] at committed
    exact .inl ⟨committed.2.symm, Table.insert_eq_none.mp taken⟩
  · next descriptors inserted =>
    split at committed
    · next present =>
      simp only [set_ok, Prod.mk.injEq] at committed
      exact .inr ⟨descriptors, inserted, present, committed.2.symm⟩
    · simp only [throw_ok] at committed

theorem insertDescriptor_script (generation : Nat) (d : SignedDescriptor)
    (allowed : .descriptors ∈ targets := by simp) :
    Keeps (Script pk targets) (insertDescriptor ⟨pk, generation, d⟩) := by
  intro db _ after committed
  rcases insertDescriptor_ok committed with ⟨rfl, _⟩ | ⟨descriptors, inserted, present, rfl⟩
  · exact Script.refl _
  · exact (Stmt.insertDescriptor generation d descriptors inserted present).script allowed

omit [Digests] in
theorem setChildren_ok {blob : ChildrenBlob} {db after : Db} {value : Unit}
    (committed : (setChildren pk blob).run db = .ok (value, after)) :
    db.hasVault pk = true ∧ after = { db with children := db.children.upsert ⟨pk, blob⟩ } := by
  rw [setChildren, get_bind_ok] at committed
  split at committed
  · next present =>
    simp only [set_ok, Prod.mk.injEq] at committed
    exact ⟨present, committed.2.symm⟩
  · simp only [throw_ok] at committed

theorem setChildren_script (blob : ChildrenBlob) (allowed : .children ∈ targets := by simp) :
    Keeps (Script pk targets) (setChildren pk blob) := by
  intro db _ after committed
  obtain ⟨present, rfl⟩ := setChildren_ok committed
  exact (Stmt.setChildren blob present).script allowed

theorem liftCheck_script {α : Type} (check : Except StoreError α) :
    Keeps (Script pk targets) (liftCheck check) := by
  cases check with
  | error failure => exact .throw failure
  | ok value => exact .pure Script.refl value

/-! ## Operations are scripts -/

theorem insertRewritten_script (kind : RecordKind) (generation : Nat) (heads : HeadMap) (bytes : Nat)
    (rows : List Rewritten) (allowed : .records kind ∈ targets := by simp) :
    Keeps (Script pk targets) (insertRewritten kind pk generation heads bytes rows) := by
  induction rows generalizing heads bytes with
  | nil => exact .pure Script.refl _
  | cons r rows inductionHypothesis =>
    exact .bind Script.trans (insertVersion_script kind _ allowed) (fun _ => inductionHypothesis _ _)

theorem replaceRecords_script (kind : RecordKind) (generation : Nat) (rows : List Rewritten)
    (allowed : .records kind ∈ targets := by simp) :
    Keeps (Script pk targets) (replaceRecords kind pk generation rows) := by
  refine .bind Script.trans (.modify _ fun _ => (Stmt.clearRecords kind).script allowed) fun _ => ?_
  refine .bind Script.trans (insertRewritten_script kind generation [] 0 rows allowed) fun collected => ?_
  refine .bind Script.trans (.forM Script.refl Script.trans _ fun h _ => ?_) fun _ => .pure Script.refl _
  exact setHead_script kind h.1 h.2.1 h.2.2 allowed

/-- The tables a rotation writes. -/
abbrev rotationTargets : List Target :=
  [.records .secret, .records .config, .descriptors, .tokens, .vaults, .generation, .audit]

theorem applyBatch_script (vault : VaultRow) (r : RotationRequest) (ctx : Ctx) (mine : vault.pk = pk) :
    Keeps (Script pk rotationTargets) (applyBatch vault r ctx) := by
  subst mine
  refine .bind Script.trans (.get Script.refl) fun db => ?_
  refine .bind Script.trans (liftCheck_script _) fun secretRows => ?_
  refine .bind Script.trans (liftCheck_script _) fun configRows => ?_
  refine .bind Script.trans (replaceRecords_script _ _ _) fun secretBytes => ?_
  refine .bind Script.trans (replaceRecords_script _ _ _) fun configBytes => ?_
  refine .bind Script.trans (insertDescriptor_script _ _) fun _ => ?_
  refine .bind Script.trans (deleteTokens_script _) fun revoked => ?_
  refine .bind Script.trans (.forM Script.refl Script.trans _ fun t _ =>
    .modify _ fun _ => (Stmt.resealToken _ t).script) fun _ => ?_
  refine .bind Script.trans (rotateVault_script _ {}) fun _ => ?_
  refine .bind Script.trans (appendAudit_script _ _) fun _ => ?_
  refine .bind Script.trans (.forM Script.refl Script.trans _ fun id _ =>
    appendAudit_script _ _) fun _ => ?_
  exact .pure Script.refl _

theorem rotate_script (vault : VaultRow) (r : RotationRequest) (ctx : Ctx) (strict : Bool)
    (mine : vault.pk = pk) : Keeps (Script pk rotationTargets) (rotate vault r ctx strict) := by
  refine .bind Script.trans (.get Script.refl) fun db => ?_
  split
  · exact .bind Script.trans (liftCheck_script _) fun _ => applyBatch_script vault r ctx mine
  · split
    · exact .pure Script.refl _
    · exact applyBatch_script vault r ctx mine

theorem touchBody_script (now : Int) :
    Keeps (Script pk [.vaults]) (do
      modify fun db => db.updateVault pk fun v => { v with lastActiveAt := max v.lastActiveAt now }
      pure (.ok ()) : Tx (Done Unit)) :=
  .bind Script.trans (updateVault_script _ {}) fun _ => .pure Script.refl _

theorem recordBody_script (e : AuditEvent) (now : Int) :
    Keeps (Script pk [.audit]) (do
      let db ← get
      if db.hasVault pk then
        appendAudit pk e now
        pure (.ok ())
      else throw .notFound : Tx (Done Unit)) := by
  refine .bind Script.trans (.get Script.refl) fun db => ?_
  split
  · exact .bind Script.trans (appendAudit_script e now) fun _ => .pure Script.refl _
  · exact .throw _

theorem registerTokenBody_script (t : NewToken) (ctx : Ctx) (limits : Limits) :
    Keeps (Script pk [.tokens, .vaults, .audit]) (registerTokenBody pk t ctx limits) := by
  refine .bind Script.trans (.get Script.refl) fun db => ?_
  split
  · exact .throw _
  · next vault _ =>
    split
    · exact refuse_script _ _ _
    · split
      · exact refuse_script _ _ _
      · refine .bind Script.trans (insertToken_script _ rfl) fun _ => ?_
        refine .bind Script.trans bumpRevision_script fun _ => ?_
        refine .bind Script.trans (appendAudit_script _ _) fun _ => ?_
        refine .bind Script.trans (.get Script.refl) fun db => ?_
        split
        · exact .throw _
        · exact .pure Script.refl _

theorem revokeTokensBody_script (ids : List TokenId) (reported : Bool) (ctx : Ctx) :
    Keeps (Script pk [.tokens, .vaults, .audit, .journalState]) (revokeTokensBody pk ids reported ctx) := by
  refine .bind Script.trans (.get Script.refl) fun db => ?_
  split
  · exact .throw _
  · refine .bind Script.trans (deleteTokens_script _) fun removed => ?_
    split
    · exact .throw _
    · refine .bind Script.trans bumpRevision_script fun _ => ?_
      refine .bind Script.trans (.forM Script.refl Script.trans _ fun id _ =>
        appendAudit_script _ _) fun _ => ?_
      exact .bind Script.trans (journal_script _ _) fun _ => .pure Script.refl _

theorem storeVersion_script (kind : RecordKind) (v : Insert) (tombstone : Bool)
    (pruned : List (Nat × Nat)) (total : Nat) (e : AuditEvent) (now : Int) :
    Keeps (Script pk [.records kind, .bytes, .audit]) (storeVersion kind pk v tombstone pruned total e now) := by
  refine .bind Script.trans (insertVersion_script kind v) fun _ => ?_
  refine .bind Script.trans (setHead_script kind _ _ _) fun _ => ?_
  refine .bind Script.trans (deleteVersions_script kind _ _) fun _ => ?_
  exact .bind Script.trans (countBytes_script _ {}) fun _ => appendAudit_script e now

theorem putRecordBody_script (kind : RecordKind) (name : NameHmac) (pre : Precondition)
    (w : RecordWrite) (valueCt : List UInt8) (ctx : Ctx) (limits : Limits) :
    Keeps (Script pk [.records kind, .bytes, .audit]) (putRecordBody pk kind name pre w valueCt ctx limits) := by
  refine .bind Script.trans (.get Script.refl) fun db => ?_
  split
  · exact .throw _
  · next vault _ =>
    split
    · exact refuse_script _ _ _
    · split
      · exact refuse_script _ _ _
      · dsimp only
        split
        · exact refuse_script _ _ _
        · split
          · exact refuse_script _ _ _
          · split
            · exact refuse_script _ _ _
            · split
              · exact refuse_script _ _ _
              · exact .bind Script.trans (storeVersion_script _ _ _ _ _ _ _) fun _ => .pure Script.refl _

theorem deleteRecordBody_script (kind : RecordKind) (name : NameHmac) (ifMatch : Nat)
    (w : RecordWrite) (ctx : Ctx) (limits : Limits) :
    Keeps (Script pk [.records kind, .bytes, .audit]) (deleteRecordBody pk kind name ifMatch w ctx limits) := by
  refine .bind Script.trans (.get Script.refl) fun db => ?_
  split
  · exact .throw _
  · dsimp only
    split
    · exact .throw _
    · exact .throw _
    · split
      · exact refuse_script _ _ _
      · split
        · exact refuse_script _ _ _
        · split
          · exact refuse_script _ _ _
          · exact .bind Script.trans (storeVersion_script _ _ _ _ _ _ _) fun _ => .pure Script.refl _

theorem putChildrenBody_script (pre : Precondition) (blob : ChildrenBlob) (ctx : Ctx)
    (limits : Limits) : Keeps (Script pk [.children, .audit]) (putChildrenBody pk pre blob ctx limits) := by
  refine .bind Script.trans (.get Script.refl) fun db => ?_
  split
  · exact .throw _
  · dsimp only
    split
    · exact refuse_script _ _ _
    · split
      · exact refuse_script _ _ _
      · split
        · exact refuse_script _ _ _
        · refine .bind Script.trans (setChildren_script _) fun _ => ?_
          exact .bind Script.trans (appendAudit_script _ _) fun _ => .pure Script.refl _

theorem applyRotationBody_script (r : RotationRequest) (ctx : Ctx) :
    Keeps (Script pk (.journalState :: rotationTargets)) (applyRotationBody pk r ctx) := by
  refine .get_bind fun db _ after committed => ?_
  split at committed
  · simp only [throw_ok] at committed
  · next vault loaded =>
    have script : Keeps (Script pk (.journalState :: rotationTargets)) (do
        let generation ← rotate vault r ctx true
        let record ← journal (.rotate vault.vaultId ctx.actor r) ctx.now
        pure (generation, record)) :=
      .bind Script.trans ((rotate_script vault r ctx true (Db.loadVault_pk loaded)).mono fun _ _ =>
          Script.widen fun _ => List.mem_cons_of_mem _) fun _ =>
        .bind Script.trans (journal_script _ _) fun _ => .pure Script.refl _
    exact script _ _ _ committed

end GalataVault.Backend

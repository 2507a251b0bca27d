import GalataVault.Backend.Frames

/-!
# Accepted writes

What an accepted put, delete or write of the children record did, taken apart
once: the version its precondition named, the version it created, and what else
it touched. Everything here is about one call and the database it met.
-/

namespace GalataVault.Backend

open Proto Relational Relational.Transaction

variable [Digests]

/-! ## Accepted writes -/

/-- A refusal commits nothing but its audit row. -/
theorem refuse_ok {α : Type} {pk : VaultPk} {e : AuditEvent} {now : Int} {error : StoreError}
    {db after : Db} {done : Done α}
    (committed : (refuse pk e now error : Tx (Done α)).run db = .ok (done, after)) :
    done = .refused error ∧ (appendAudit pk e now).run db = .ok ((), after) := by
  simp only [refuse, bind_ok, pure_ok, Prod.mk.injEq] at committed
  obtain ⟨_, _, appended, rfl, rfl⟩ := committed
  exact ⟨rfl, appended⟩

/-- A refusal's answer, and the row of it that is all the write committed. -/
inductive Refused {α : Type} (pk : VaultPk) (now : Int) (db : Db) : Done α → Db → Prop where
  | mk (error : StoreError) (e : AuditEvent) {after : Db} (appended : (appendAudit pk e now).run db = .ok ((), after))
      (result : e.result = .refused) : Refused pk now db (.refused error) after

theorem refuse_answer {α : Type} {pk : VaultPk} {actor : Actor} {action : AuditAction} {name : Option NameHmac}
    {subject : Option TokenId} {now : Int} {error : StoreError} {db after : Db} {done : Done α}
    (committed : (refuse pk (event actor action name subject .refused) now error : Tx (Done α)).run db = .ok (done, after)) :
    Refused pk now db done after := by
  obtain ⟨rfl, appended⟩ := refuse_ok committed
  exact .mk error _ appended rfl

omit [Digests] in
/-- Deleting versions one by one is deleting those with one of the numbers. -/
theorem deleteVersions_run (kind : RecordKind) (pk : VaultPk) (name : NameHmac)
    (versions : List (Nat × Nat)) (db : Db) :
    (deleteVersions kind pk name versions).run db =
      .ok ((), db.withTables kind { db.tables kind with
        records := (db.tables kind).records.deleteWhere fun r =>
          versions.any fun v => r.key = (pk, name, v.1) }) := by
  induction versions generalizing db with
  | nil =>
    have same : (db.tables kind).records.deleteWhere (fun _ => false) = (db.tables kind).records :=
      Table.ext (List.filter_eq_self.mpr fun _ _ => rfl)
    cases kind <;> simp only [List.any_nil, same] <;> rfl
  | cons v versions inductionHypothesis =>
    change (deleteVersions kind pk name versions).run (db.deleteVersion kind pk name v.1) = _
    rw [inductionHypothesis]
    simp only [Db.deleteVersion, Db.tables_withTables_same, Db.withTables_withTables,
      Table.deleteWhere_deleteWhere, List.any_cons]

/-- What an accepted put or delete leaves: one new version, the pruned ones gone,
the head moved to it, and the revision one up. -/
structure Stored (db after : Db) (kind : RecordKind) (pk : VaultPk) (v : Insert) (tombstone : Bool)
    (pruned : List (Nat × Nat)) (total : Nat) : Prop where
  inserted : ∃ records, (db.tables kind).records.insert (v.cols pk) = some records ∧
    (after.tables kind).records = records.deleteWhere fun r =>
      pruned.any fun p => r.key = (pk, v.name, p.1)
  heads : (after.tables kind).heads = (db.tables kind).heads.upsert ⟨pk, v.name, v.version, tombstone⟩
  vault : ∃ row row', db.vaults.find? pk = some row ∧ after.vaults.find? pk = some row' ∧
    row'.revision = row.revision + 1 ∧ row'.bytesUsed = total ∧ row'.generation = row.generation

theorem storeVersion_ok {kind : RecordKind} {pk : VaultPk} {v : Insert} {tombstone : Bool}
    {pruned : List (Nat × Nat)} {total : Nat} {e : AuditEvent} {now : Int} {db after : Db} {value : Unit}
    (committed : (storeVersion kind pk v tombstone pruned total e now).run db = .ok (value, after)) :
    Stored db after kind pk v tombstone pruned total := by
  simp only [storeVersion, bind_ok, deleteVersions_run, modify_ok, Except.ok.injEq,
    Prod.mk.injEq] at committed
  obtain ⟨_, _, insertedRun, _, _, headRun, _, _, ⟨_, rfl⟩, _, _, ⟨_, rfl⟩, appended⟩ := committed
  obtain ⟨records, inserted, _, rfl⟩ := insertVersion_ok insertedRun
  obtain ⟨_, rfl⟩ := setHead_ok headRun
  simp only [Db.tables_withTables_same, Db.withTables_withTables] at appended
  -- The row update and the audit row come last and leave the record tables alone.
  have scripts : Keeps (Script pk [.audit]) (appendAudit pk e now) := appendAudit_script e now
  have tables := (scripts _ _ _ appended).tables_same kind
  obtain ⟨row, audit, found, _, rfl⟩ := appendAudit_ok appended
  have survives := found
  rw [Db.updateVault, Table.find?_updateWhere, Option.map_eq_some_iff] at survives
  obtain ⟨row₀, found₀, moved⟩ := survives
  have mine : row₀.pk = pk := (Table.find?_eq_some.mp found₀).2
  rw [Table.rewrite, if_pos (by simp [mine])] at moved
  refine ⟨⟨records, inserted, ?_⟩, ?_, row₀, _, by simpa using found₀, Db.updateVault_found found _ _, ?_⟩
  · rw [tables, Db.tables_updateVault, Db.tables_withTables_same]
  · rw [tables, Db.tables_updateVault, Db.tables_withTables_same]
  · rw [← moved]
    exact ⟨rfl, rfl, rfl⟩

/-- The version a write of `next` stores. -/
def RecordWrite.toInsert (w : RecordWrite) (name : NameHmac) (next : Nat) (writer : Actor) : Insert where
  name := name
  version := next
  nameCt := w.nameCt
  valueCt := w.valueCt
  generation := w.generation
  writtenAt := w.writtenAt
  writtenBy := writer
  sig := w.sig

omit [Digests] in
theorem liftCheck_ok {α : Type} {check : Except StoreError α} {db after : Db} {value : α}
    (committed : (liftCheck check : Tx α).run db = .ok (value, after)) : check = .ok value ∧ db = after := by
  cases check with
  | error failure => simp only [liftCheck, throw_ok] at committed
  | ok given =>
    simp only [liftCheck, pure_ok, Prod.mk.injEq] at committed
    exact ⟨by rw [committed.1], committed.2⟩

/-- An accepted rotation passed its checks on the state it met, and then applied the
batch. -/
theorem applyRotationBody_ok {pk : VaultPk} {r : RotationRequest} {ctx : Ctx} {db after : Db}
    {generation : Nat} {record : JournalRecord}
    (ran : (applyRotationBody pk r ctx).run db = .ok ((generation, record), after)) :
    ∃ vault middle, db.loadVault pk = some vault ∧ checkRotation db vault r = .ok () ∧
      (applyBatch vault r ctx).run db = .ok (generation, middle) ∧
      record = { seq := middle.lastApplied + 1, ts := ctx.now, op := .rotate vault.vaultId ctx.actor r } ∧
      after = { middle with lastApplied := middle.lastApplied + 1 } := by
  rw [applyRotationBody, get_bind_ok] at ran
  split at ran
  · simp only [throw_ok] at ran
  · next vault loaded =>
    simp only [bind_ok] at ran
    obtain ⟨_, middle, rotated, _, _, journaled, ran⟩ := ran
    rw [rotate, get_bind_ok, if_pos rfl] at rotated
    simp only [bind_ok] at rotated
    obtain ⟨_, _, checked, applied⟩ := rotated
    obtain ⟨passed, rfl⟩ := liftCheck_ok checked
    obtain ⟨rfl, rfl⟩ := journal_ok journaled
    simp only [pure_ok, Prod.mk.injEq] at ran
    obtain ⟨⟨rfl, rfl⟩, rfl⟩ := ran
    exact ⟨vault, middle, loaded, passed, applied, rfl, rfl⟩

omit [Digests] in
/-- The live path names the state the batch was built from. -/
theorem checkRotation_current {db : Db} {vault : VaultRow} {r : RotationRequest}
    (passed : checkRotation db vault r = .ok ()) :
    vault.generation = r.fromGeneration ∧ vault.revision = r.fromRevision := by
  unfold checkRotation at passed
  split at passed
  · cases passed
  · next current => exact not_or.mp current |>.imp not_not.mp not_not.mp

/-- An accepted revocation deleted the tokens it reports, raised the revision, and
appended one audit row for each. -/
theorem revokeTokensBody_ok {pk : VaultPk} {ids : List TokenId} {reported : Bool} {ctx : Ctx} {db after : Db}
    {removed : List TokenId} {record : JournalRecord}
    (ran : (revokeTokensBody pk ids reported ctx).run db = .ok ((removed, record), after)) :
    ∃ vault deleted audited, db.loadVault pk = some vault ∧
      (deleteTokens pk ids).run db = .ok (removed, deleted) ∧ removed ≠ [] ∧
      (removed.forM fun id =>
          appendAudit pk (event ctx.actor (revokeAction reported) none (some id) .ok) ctx.now).run
        (deleted.updateVault pk fun v => { v with revision := v.revision + 1 }) = .ok ((), audited) ∧
      record = { seq := audited.lastApplied + 1, ts := ctx.now,
                 op := .revokeTokens vault.vaultId removed ctx.actor reported } ∧
      after = { audited with lastApplied := audited.lastApplied + 1 } := by
  rw [revokeTokensBody, get_bind_ok] at ran
  split at ran
  · simp only [throw_ok] at ran
  · next vault loaded =>
    simp only [bind_ok] at ran
    obtain ⟨_, deleted, deletedRun, ran⟩ := ran
    split at ran
    · simp only [throw_ok] at ran
    · next some_removed =>
      simp only [bind_ok, bumpRevision, modify_ok, pure_ok, Prod.mk.injEq] at ran
      obtain ⟨_, _, ⟨_, rfl⟩, _, audited, auditedRun, _, _, journaled, ⟨rfl, rfl⟩, rfl⟩ := ran
      obtain ⟨rfl, rfl⟩ := journal_ok journaled
      exact ⟨vault, deleted, audited, loaded, deletedRun, some_removed, auditedRun, rfl, rfl⟩

/-- A registration is refused with an audit row, or inserts the token, raises the
revision and appends its row. -/
theorem registerTokenBody_cases {pk : VaultPk} {t : NewToken} {ctx : Ctx} {limits : Limits} {db after : Db}
    {done : Done TokenRow} (ran : (registerTokenBody pk t ctx limits).run db = .ok (done, after)) :
    Refused pk ctx.now db done after ∨
      ∃ vault tokens, done = .ok (t.row pk ctx.now) ∧ db.loadVault pk = some vault ∧
        t.generation = vault.generation ∧ (db.activeTokens pk ctx.now).length < limits.maxTokens ∧
        db.tokens.insert (t.row pk ctx.now) = some tokens ∧
        (appendAudit pk (event ctx.actor .tokenMint none (some t.tokenId) .ok) ctx.now).run
          ({ db with tokens := tokens }.updateVault pk fun v => { v with revision := v.revision + 1 }) =
            .ok ((), after) := by
  rw [registerTokenBody, get_bind_ok] at ran
  split at ran
  · simp only [throw_ok] at ran
  · next vault loaded =>
    dsimp only at ran
    split at ran
    · exact .inl (refuse_answer ran)
    · next current =>
      split at ran
      · exact .inl (refuse_answer ran)
      · next room =>
        simp only [bind_ok, bumpRevision, modify_ok, get_ok, Prod.mk.injEq] at ran
        obtain ⟨_, _, insertRun, _, _, ⟨_, rfl⟩, _, audited, appended, _, _, ⟨rfl, rfl⟩, ran⟩ := ran
        obtain ⟨tokens, inserted, _, rfl⟩ := insertToken_ok insertRun
        have audits : Keeps (Script pk [.audit])
            (appendAudit pk (event ctx.actor .tokenMint none (some t.tokenId) .ok) ctx.now) := appendAudit_script _ _
        have same : audited.tokens = tokens := (audits _ _ _ appended).tokens_same
        have found : audited.tokens.find? t.tokenId = some (t.row pk ctx.now) := by
          rw [same, Table.find?_insert inserted]
          exact if_pos rfl
        split at ran
        · simp only [throw_ok] at ran
        · next row loadedRow =>
          simp only [pure_ok, Prod.mk.injEq] at ran
          obtain ⟨rfl, rfl⟩ := ran
          obtain rfl := Option.some.inj (found.symm.trans loadedRow)
          exact .inr ⟨vault, tokens, rfl, loaded, not_not.mp current, Nat.lt_of_not_le room, inserted, appended⟩

/-- A put is refused with an audit row, or assigns the version its precondition
leads to and stores it. -/
theorem putRecordBody_cases {pk : VaultPk} {kind : RecordKind} {name : NameHmac} {pre : Precondition}
    {w : RecordWrite} {valueCt : List UInt8} {ctx : Ctx} {limits : Limits} {db after : Db} {done : Done Nat}
    (value : w.valueCt = some valueCt)
    (committed : (putRecordBody pk kind name pre w valueCt ctx limits).run db = .ok (done, after)) :
    Refused pk ctx.now db done after ∨
      ∃ vault next, done = .ok next ∧ db.loadVault pk = some vault ∧ w.generation = vault.generation ∧
        valueCt.length ≤ kind.maxValue limits ∧
        nextVersion pre (db.loadHead kind pk name) = some next ∧ w.version = next ∧
        ¬ (((db.loadHead kind pk name).map (·.2)).getD true ∧
          kind.maxLive limits ≤ (db.liveHeads kind pk).length) ∧
        vault.bytesUsed + (w.nameCt.length + valueCt.length) -
          freedBytes (prunable db kind pk name (kind.maxVersions limits)) ≤ limits.maxVaultBytes ∧
        Stored db after kind pk (w.toInsert name next ctx.actor) false
          (prunable db kind pk name (kind.maxVersions limits))
          (vault.bytesUsed + (w.nameCt.length + valueCt.length) -
            freedBytes (prunable db kind pk name (kind.maxVersions limits))) := by
  rw [putRecordBody, get_bind_ok] at committed
  split at committed
  · simp only [throw_ok] at committed
  · next vault loaded =>
    dsimp only at committed
    split at committed
    · exact .inl (refuse_answer committed)
    · next current =>
      split at committed
      · exact .inl (refuse_answer committed)
      · next small =>
        split at committed
        · exact .inl (refuse_answer committed)
        · next next assigned =>
          split at committed
          · exact .inl (refuse_answer committed)
          · next signed =>
            split at committed
            · exact .inl (refuse_answer committed)
            · next room =>
              split at committed
              · exact .inl (refuse_answer committed)
              · next fits =>
                simp only [bind_ok, pure_ok, Prod.mk.injEq] at committed
                obtain ⟨_, _, stored, rfl, rfl⟩ := committed
                rw [← value] at stored
                exact .inr ⟨vault, next, rfl, loaded, not_not.mp current, Nat.le_of_not_lt small, assigned,
                  not_not.mp signed, room, Nat.le_of_not_lt fits, storeVersion_ok stored⟩

/-- A delete is refused with an audit row, or stores the tombstone after the live
head it named. -/
theorem deleteRecordBody_cases {pk : VaultPk} {kind : RecordKind} {name : NameHmac} {ifMatch : Nat}
    {w : RecordWrite} {ctx : Ctx} {limits : Limits} {db after : Db} {done : Done Nat}
    (value : w.valueCt = none)
    (committed : (deleteRecordBody pk kind name ifMatch w ctx limits).run db = .ok (done, after)) :
    Refused pk ctx.now db done after ∨
      ∃ vault, done = .ok (ifMatch + 1) ∧ db.loadVault pk = some vault ∧ w.generation = vault.generation ∧
        db.loadHead kind pk name = some (ifMatch, false) ∧ w.version = ifMatch + 1 ∧
        Stored db after kind pk (w.toInsert name (ifMatch + 1) ctx.actor) true
          (prunable db kind pk name (kind.maxVersions limits))
          (vault.bytesUsed + w.nameCt.length -
            freedBytes (prunable db kind pk name (kind.maxVersions limits))) := by
  rw [deleteRecordBody, get_bind_ok] at committed
  split at committed
  · simp only [throw_ok] at committed
  · next vault loaded =>
    dsimp only at committed
    split at committed
    · simp only [throw_ok] at committed
    · simp only [throw_ok] at committed
    · next current head =>
      split at committed
      · exact .inl (refuse_answer committed)
      · next generation =>
        split at committed
        · exact .inl (refuse_answer committed)
        · next named =>
          split at committed
          · exact .inl (refuse_answer committed)
          · next signed =>
            simp only [bind_ok, pure_ok, Prod.mk.injEq] at committed
            obtain ⟨_, _, stored, rfl, rfl⟩ := committed
            rw [← value] at stored
            obtain rfl := not_not.mp named
            exact .inr ⟨vault, rfl, loaded, not_not.mp generation, head, not_not.mp signed,
              storeVersion_ok stored⟩

/-- A write of the children record is refused with an audit row, or assigns the
version after the one it named. -/
theorem putChildrenBody_cases {pk : VaultPk} {pre : Precondition} {blob : ChildrenBlob} {ctx : Ctx}
    {limits : Limits} {db after : Db} {done : Done Nat}
    (committed : (putChildrenBody pk pre blob ctx limits).run db = .ok (done, after)) :
    Refused pk ctx.now db done after ∨
      ∃ next, done = .ok next ∧ nextChildren pre ((children pk db).map (·.version)) = some next ∧
        blob.version = next ∧ children pk after = some { blob with version := next } := by
  rw [putChildrenBody, get_bind_ok] at committed
  split at committed
  · simp only [throw_ok] at committed
  · dsimp only at committed
    split at committed
    · exact .inl (refuse_answer committed)
    · split at committed
      · exact .inl (refuse_answer committed)
      · next next assigned =>
        split at committed
        · exact .inl (refuse_answer committed)
        · next signed =>
          simp only [bind_ok, pure_ok, Prod.mk.injEq] at committed
          obtain ⟨_, _, setRun, _, _, appended, rfl, rfl⟩ := committed
          obtain ⟨_, rfl⟩ := setChildren_ok setRun
          obtain ⟨_, _, _, _, rfl⟩ := appendAudit_ok appended
          refine .inr ⟨next, rfl, assigned, not_not.mp signed, ?_⟩
          simp only [children, Db.updateVault, Table.find?_upsert, if_true, Option.map_some]

/-! ## What a write creates -/

/-- The version a precondition names is the name's head, in the state it asks for,
and the write's version is the next one. -/
def Names (pre : Precondition) (head : Option (Nat × Bool)) (version : Nat) : Prop :=
  match pre with
  | .ifNoneMatch => head = none ∧ version = 1 ∨ ∃ dead, head = some (dead, true) ∧ version = dead + 1
  | .ifMatch live => head = some (live, false) ∧ version = live + 1

/-- The same of the children record, which has no tombstones. -/
def NamesChildren (pre : Precondition) (current : Option Nat) (version : Nat) : Prop :=
  match pre with
  | .ifNoneMatch => current = none ∧ version = 1
  | .ifMatch live => current = some live ∧ version = live + 1

omit [Digests] in
theorem nextVersion_names {pre : Precondition} {head : Option (Nat × Bool)} {version : Nat}
    (assigned : nextVersion pre head = some version) : Names pre head version := by
  unfold nextVersion at assigned
  split at assigned
  · exact .inl ⟨rfl, (Option.some.inj assigned).symm⟩
  · next dead => exact .inr ⟨dead, rfl, (Option.some.inj assigned).symm⟩
  · next named live =>
    split at assigned
    · next same => exact ⟨by rw [same], same ▸ (Option.some.inj assigned).symm⟩
    · exact absurd assigned.symm (Option.some_ne_none _)
  · exact absurd assigned.symm (Option.some_ne_none _)

omit [Digests] in
theorem nextChildren_names {pre : Precondition} {current : Option Nat} {version : Nat}
    (assigned : nextChildren pre current = some version) : NamesChildren pre current version := by
  unfold nextChildren at assigned
  split at assigned
  · exact ⟨rfl, (Option.some.inj assigned).symm⟩
  · next named live =>
    split at assigned
    · next same => exact ⟨by rw [same], same ▸ (Option.some.inj assigned).symm⟩
    · exact absurd assigned.symm (Option.some_ne_none _)
  · exact absurd assigned.symm (Option.some_ne_none _)

/-- A name's head version, zero before its first write. -/
def Db.headVersion (db : Db) (kind : RecordKind) (pk : VaultPk) (name : NameHmac) : Nat :=
  ((db.loadHead kind pk name).map (·.1)).getD 0

/-- The children record's version, zero before its first write. -/
def Db.childrenVersion (db : Db) (pk : VaultPk) : Nat := ((Backend.children pk db).map (·.version)).getD 0

omit [Digests] in
theorem Names.next {db : Db} {kind : RecordKind} {pk : VaultPk} {name : NameHmac} {pre : Precondition}
    {version : Nat} (names : Names pre (db.loadHead kind pk name) version) :
    version = db.headVersion kind pk name + 1 := by
  unfold Db.headVersion
  cases pre with
  | ifNoneMatch =>
    rcases names with ⟨absent, next⟩ | ⟨dead, head, next⟩
    · simp [absent, next]
    · simp [head, next]
  | ifMatch live => simp [names.1, names.2]

omit [Digests] in
theorem NamesChildren.next {db : Db} {pk : VaultPk} {pre : Precondition} {version : Nat}
    (names : NamesChildren pre ((children pk db).map (·.version)) version) :
    version = db.childrenVersion pk + 1 := by
  unfold Db.childrenVersion
  cases pre with
  | ifNoneMatch => simp [names.1, names.2]
  | ifMatch live => simp [names.1, names.2]

/-- A write creates one version: it was not there before, it is the head after, and
every other stored version is as it was or, of the same name, pruned. -/
structure Creates (db after : Db) (kind : RecordKind) (pk : VaultPk) (v : Insert) : Prop where
  fresh : recordVersion pk kind v.name v.version db = none
  stored : recordVersion pk kind v.name v.version after = some (v.cols pk).row
  head : after.loadHead kind pk v.name = some (v.version, v.valueCt.isNone)
  kept : ∀ other name version, (other, name, version) ≠ (pk, v.name, v.version) →
    recordVersion other kind name version after = recordVersion other kind name version db ∨
      other = pk ∧ name = v.name ∧ recordVersion other kind name version after = none
  heads : ∀ other name, (other, name) ≠ (pk, v.name) →
    after.loadHead kind other name = db.loadHead kind other name
  elsewhere : ∀ other, other ≠ kind → after.tables other = db.tables other

omit [Digests] in
theorem versionsOf_mem {db : Db} {kind : RecordKind} {pk : VaultPk} {name : NameHmac} {v : VersionCols} :
    v ∈ db.versionsOf kind pk name ↔ v ∈ (db.tables kind).records.rows ∧ v.vaultPk = pk ∧ v.row.nameHmac = name := by
  rw [Db.versionsOf, (List.perm_insertionSort _ _).mem_iff, Table.select, List.mem_filter]
  simp only [Bool.and_eq_true, decide_eq_true_eq]

omit [Digests] in
theorem versionsOf_nodup (db : Db) (kind : RecordKind) (pk : VaultPk) (name : NameHmac) :
    (db.versionsOf kind pk name).Nodup :=
  (List.perm_insertionSort _ _).nodup_iff.mpr
    ((List.Nodup.of_map _ (db.tables kind).records.distinct).filter _)

omit [Digests] in
/-- What may be pruned is stored. -/
theorem prunable_stored {db : Db} {kind : RecordKind} {pk : VaultPk} {name : NameHmac} {maxVersions : Nat}
    {p : Nat × Nat} (member : p ∈ prunable db kind pk name maxVersions) :
    ∃ row ∈ (db.tables kind).records.rows, row.key = (pk, name, p.1) := by
  obtain ⟨row, listed, rfl⟩ := List.mem_map.mp (List.mem_of_mem_take member)
  obtain ⟨stored, owner, named⟩ := versionsOf_mem.mp listed
  exact ⟨row, stored, by simp [VersionCols.key, owner, named]⟩

/-- A write's records are those that were stored and the new one, less the pruned. -/
theorem Stored.lookup {db after : Db} {kind : RecordKind} {pk : VaultPk} {v : Insert} {tombstone : Bool}
    {pruned : List (Nat × Nat)} {total : Nat} (stored : Stored db after kind pk v tombstone pruned total)
    (key : VaultPk × NameHmac × Nat) :
    (after.tables kind).records.find? key =
      (if (v.cols pk).key = key then some (v.cols pk) else (db.tables kind).records.find? key).filter
        fun r => !pruned.any fun p => r.key = (pk, v.name, p.1) := by
  obtain ⟨records, inserted, left⟩ := stored.inserted
  rw [left, Table.find?_deleteWhere, Table.find?_insert inserted]

theorem Stored.creates {db after : Db} {kind : RecordKind} {pk : VaultPk} {v : Insert} {maxVersions total : Nat}
    (stored : Stored db after kind pk v v.valueCt.isNone (prunable db kind pk v.name maxVersions) total)
    (elsewhere : ∀ other, other ≠ kind → after.tables other = db.tables other) :
    Creates db after kind pk v := by
  obtain ⟨records, inserted, pruned⟩ := stored.inserted
  have fresh := (Table.insert_eq_some.mp inserted).1
  have newKey : (v.cols pk).key = (pk, v.name, v.version) := rfl
  have lookup := stored.lookup
  constructor
  case fresh =>
    rw [recordVersion, Option.map_eq_none_iff, Table.find?_eq_none]
    exact fun old member => newKey ▸ fresh old member
  case stored =>
    -- The pruned versions were stored before; the new one was not.
    have survives : (prunable db kind pk v.name maxVersions).any
        (fun p => (v.cols pk).key = (pk, v.name, p.1)) = false := by
      rw [List.any_eq_false]
      intro p member same
      obtain ⟨old, oldMember, oldKey⟩ := prunable_stored member
      exact fresh old oldMember (oldKey.trans (of_decide_eq_true same).symm)
    rw [recordVersion, lookup, if_pos newKey, Option.filter_some, survives]
    rfl
  case head =>
    rw [Db.loadHead, stored.heads, Table.find?_upsert, if_pos (by rfl)]
    rfl
  case kept =>
    intro other name version differs
    rw [recordVersion, recordVersion, lookup, if_neg (newKey ▸ Ne.symm differs)]
    cases found : (db.tables kind).records.find? (other, name, version) with
    | none => exact .inl rfl
    | some row =>
      have rowKey := (Table.find?_eq_some.mp found).2
      rw [Option.filter_some]
      split
      · exact .inl rfl
      · next dropped =>
        simp only [Bool.not_eq_true', Bool.not_eq_false, List.any_eq_true, decide_eq_true_eq] at dropped
        obtain ⟨p, _, same⟩ := dropped
        rw [rowKey, Prod.mk.injEq, Prod.mk.injEq] at same
        exact .inr ⟨same.1, same.2.1, rfl⟩
  case heads =>
    intro other name differs
    rw [Db.loadHead, stored.heads, Table.find?_upsert, if_neg]
    · rfl
    · exact fun same => differs same.symm
  case elsewhere => exact elsewhere

/-! ## What a call did, by its answer -/

theorem putRecord_accepted {disk : Except String Unit} {pk : VaultPk} {kind : RecordKind} {name : NameHmac}
    {pre : Precondition} {w : RecordWrite} {ctx : Ctx} {limits : Limits} {db : Db} {version : Nat}
    (accepted : (putRecord disk pk kind name pre w ctx limits db).1 = .ok version) :
    Names pre (db.loadHead kind pk name) version ∧
      Creates db (putRecord disk pk kind name pre w ctx limits db).2 kind pk
        (w.toInsert name version ctx.actor) := by
  unfold putRecord at accepted ⊢
  split at accepted
  · cases accepted
  · next valueCt value =>
    have ran := write_accepted accepted
    have script := putRecordBody_script kind name pre w valueCt ctx limits _ _ _ ran
    rcases putRecordBody_cases value ran with refused | ⟨_, next, answer, _, _, _, assigned, _, _, _, stored⟩
    · cases refused
    · obtain rfl := Done.ok.inj answer
      have tombstone : (w.toInsert name version ctx.actor).valueCt.isNone = false := by
        simp [RecordWrite.toInsert, value]
      refine ⟨nextVersion_names assigned, Stored.creates (tombstone ▸ stored) fun other differs => ?_⟩
      exact script.tables_same other (by simpa using differs)

theorem deleteRecord_accepted {disk : Except String Unit} {pk : VaultPk} {kind : RecordKind} {name : NameHmac}
    {ifMatch : Nat} {w : RecordWrite} {ctx : Ctx} {limits : Limits} {db : Db} {version : Nat}
    (accepted : (deleteRecord disk pk kind name ifMatch w ctx limits db).1 = .ok version) :
    Names (.ifMatch ifMatch) (db.loadHead kind pk name) version ∧
      Creates db (deleteRecord disk pk kind name ifMatch w ctx limits db).2 kind pk
        (w.toInsert name version ctx.actor) := by
  unfold deleteRecord at accepted ⊢
  split at accepted
  · cases accepted
  · next value =>
    have ran := write_accepted accepted
    have script := deleteRecordBody_script kind name ifMatch w ctx limits _ _ _ ran
    rcases deleteRecordBody_cases value ran with refused | ⟨_, answer, _, _, head, _, stored⟩
    · cases refused
    · obtain rfl := Done.ok.inj answer
      have tombstone : (w.toInsert name (ifMatch + 1) ctx.actor).valueCt.isNone = true := by
        simp [RecordWrite.toInsert, value]
      refine ⟨⟨head, rfl⟩, Stored.creates (tombstone ▸ stored) fun other differs => ?_⟩
      exact script.tables_same other (by simpa using differs)

theorem putChildren_accepted {disk : Except String Unit} {pk : VaultPk} {pre : Precondition}
    {blob : ChildrenBlob} {ctx : Ctx} {limits : Limits} {db : Db} {version : Nat}
    (accepted : (putChildren disk pk pre blob ctx limits db).1 = .ok version) :
    NamesChildren pre ((children pk db).map (·.version)) version ∧ blob.version = version ∧
      children pk (putChildren disk pk pre blob ctx limits db).2 = some { blob with version := version } := by
  have ran := write_accepted accepted
  rcases putChildrenBody_cases ran with refused | ⟨next, answer, assigned, signed, left⟩
  · cases refused
  · obtain rfl := Done.ok.inj answer
    exact ⟨nextChildren_names assigned, signed, left⟩

/-- An appended audit row leaves the records of every kind alone. -/
theorem appendAudit_tables {pk : VaultPk} {e : AuditEvent} {now : Int} {db after : Db}
    (appended : (appendAudit pk e now).run db = .ok ((), after)) (kind : RecordKind) :
    after.tables kind = db.tables kind := by
  have scripts : Keeps (Script pk [.audit]) (appendAudit pk e now) := appendAudit_script e now
  exact (scripts _ _ _ appended).tables_same kind

theorem putRecord_refused {disk : Except String Unit} {pk : VaultPk} {kind : RecordKind} {name : NameHmac}
    {pre : Precondition} {w : RecordWrite} {ctx : Ctx} {limits : Limits} {db : Db} {failure : StoreError}
    (answer : (putRecord disk pk kind name pre w ctx limits db).1 = .error failure) (any : RecordKind) :
    (putRecord disk pk kind name pre w ctx limits db).2.tables any = db.tables any := by
  unfold putRecord at answer ⊢
  split at answer
  · rfl
  · next valueCt value =>
    rcases write_refused answer with same | ran
    · rw [same]
    · rcases putRecordBody_cases value ran with ⟨_, _, appended, _⟩ | ⟨_, _, accepted, _⟩
      · exact appendAudit_tables appended any
      · cases accepted

theorem deleteRecord_refused {disk : Except String Unit} {pk : VaultPk} {kind : RecordKind} {name : NameHmac}
    {ifMatch : Nat} {w : RecordWrite} {ctx : Ctx} {limits : Limits} {db : Db} {failure : StoreError}
    (answer : (deleteRecord disk pk kind name ifMatch w ctx limits db).1 = .error failure) (any : RecordKind) :
    (deleteRecord disk pk kind name ifMatch w ctx limits db).2.tables any = db.tables any := by
  unfold deleteRecord at answer ⊢
  split at answer
  · rfl
  · next value =>
    rcases write_refused answer with same | ran
    · rw [same]
    · rcases deleteRecordBody_cases value ran with ⟨_, _, appended, _⟩ | ⟨_, accepted, _⟩
      · exact appendAudit_tables appended any
      · cases accepted

theorem putChildren_refused {disk : Except String Unit} {pk : VaultPk} {pre : Precondition}
    {blob : ChildrenBlob} {ctx : Ctx} {limits : Limits} {db : Db} {failure : StoreError}
    (answer : (putChildren disk pk pre blob ctx limits db).1 = .error failure) :
    (putChildren disk pk pre blob ctx limits db).2.children = db.children := by
  rcases write_refused answer with same | ran
  · exact congrArg Db.children same
  · rcases putChildrenBody_cases ran with ⟨_, _, appended, _⟩ | ⟨_, accepted, _⟩
    · have scripts : ∀ e, Keeps (Script pk [.audit]) (appendAudit pk e ctx.now) :=
        fun e => appendAudit_script e ctx.now
      exact (scripts _ _ _ _ appended).children_same
    · cases accepted

end GalataVault.Backend

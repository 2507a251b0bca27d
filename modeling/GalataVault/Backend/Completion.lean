import GalataVault.Backend.AuditLog
import GalataVault.Backend.Ownership
import GalataVault.Backend.Renaming

/-!
# What can refuse a rotation

A rotation's checks are all that can refuse it. Once the batch is complete and gives no
two versions one new name and number, every statement of the transaction finds what it
needs: the vault's row, a free key for each rewritten version, and a free number at the
end of the vault's log. What is left to fail is the journal's hook and the commit.
-/

namespace GalataVault.Backend

open Proto Relational Relational.Transaction

section

variable [Digests] {pk : VaultPk}

/-- A vault is there, and every log is linked to its stored head. -/
structure Sound (pk : VaultPk) (db : Db) : Prop where
  present : db.hasVault pk = true
  chained : Chained db

theorem Script.hasVault {targets : List Target} {db after : Db} (script : Script pk targets db after) {q : VaultPk}
    (present : db.hasVault q = true) : after.hasVault q = true := by
  induction script with
  | refl => exact present
  | tail _ last inductionHypothesis =>
    obtain ⟨_, _, stmt⟩ := last
    exact stmt.hasVault inductionHypothesis

theorem Script.sound {targets : List Target} {db after : Db} (script : Script pk targets db after)
    (sound : Sound pk db) : Sound pk after :=
  ⟨script.hasVault sound.present, sound.chained.continues script.continues⟩

/-- Of a sound database, the transaction commits. -/
theorem commits_of_script {α : Type} {targets : List Target} {action : Tx α} (scripts : Keeps (Script pk targets) action)
    (runs : ∀ db, Sound pk db → ∃ value after, action.run db = .ok (value, after)) : Commits (Sound pk) action := by
  intro db sound
  obtain ⟨value, after, ran⟩ := runs db sound
  exact ⟨value, after, ran, (scripts _ _ _ ran).sound sound⟩

/-! ## Statements -/

/-- The number after the last of a linked log is free. -/
theorem appendAudit_commits (e : AuditEvent) (now : Int) : Commits (Sound pk) (appendAudit pk e now) := by
  have scripts : Keeps (Script pk [.audit]) (appendAudit pk e now) := appendAudit_script e now
  refine commits_of_script scripts fun db sound => ?_
  obtain ⟨v, found⟩ := Db.hasVault_iff.mp sound.present
  have linked := sound.chained.linked pk v found
  have numbers := linked.seqs
  cases inserted : db.audit.insert ⟨pk, .fromEvent (v.auditSeq + 1) now v.auditHead e⟩ with
  | none =>
    obtain ⟨old, taken⟩ := Table.insert_eq_none.mp inserted
    obtain ⟨member, key⟩ := Table.find?_eq_some.mp taken
    obtain ⟨mine, number⟩ := Prod.mk.inj key
    have listed : old.row.seq ∈ (db.log pk).map auditFormat.seq :=
      List.mem_map_of_mem (List.mem_map_of_mem (List.mem_filter.mpr ⟨member, decide_eq_true mine⟩))
    rw [numbers, List.mem_range'_1] at listed
    have taken : old.row.seq = v.auditSeq + 1 := number
    have length : v.auditSeq = 0 + (db.log pk).length := linked.finish_seq
    have first : start.seq = 0 := rfl
    omega
  | some audit =>
    let row := AuditRow.fromEvent (v.auditSeq + 1) now v.auditHead e
    refine ⟨(), { db with audit := audit }.updateVault pk fun v => { v with auditSeq := row.seq, auditHead := row.hash },
      ?_⟩
    rw [appendAudit, get_bind_ok, found]
    dsimp only
    rw [inserted]
    rfl

theorem setHead_commits (kind : RecordKind) (name : NameHmac) (version : Nat) (tombstone : Bool) :
    Commits (Sound pk) (setHead kind pk name version tombstone) := by
  have scripts : Keeps (Script pk [.records kind]) (setHead kind pk name version tombstone) :=
    setHead_script kind name version tombstone
  refine commits_of_script scripts fun db sound => ?_
  refine ⟨(), db.withTables kind { db.tables kind with
    heads := (db.tables kind).heads.upsert ⟨pk, name, version, tombstone⟩ }, ?_⟩
  rw [setHead, get_bind_ok, if_pos sound.present]
  rfl

theorem insertDescriptor_commits (generation : Nat) (d : SignedDescriptor) :
    Commits (Sound pk) (insertDescriptor ⟨pk, generation, d⟩) := by
  have scripts : Keeps (Script pk [.descriptors]) (insertDescriptor ⟨pk, generation, d⟩) := insertDescriptor_script _ _
  refine commits_of_script scripts fun db sound => ?_
  cases inserted : db.descriptors.insert ⟨pk, generation, d⟩ with
  | none =>
    refine ⟨(), db, ?_⟩
    rw [insertDescriptor, get_bind_ok, inserted]
    exact (pure_ok _ _ _).mpr rfl
  | some descriptors =>
    refine ⟨(), { db with descriptors := descriptors }, ?_⟩
    rw [insertDescriptor, get_bind_ok, inserted]
    dsimp only
    rw [if_pos sound.present]
    rfl

/-! ## Rewritten records -/

/-- Rows of distinct names and numbers, none of which is taken, are all inserted. -/
theorem insertRewritten_runs {kind : RecordKind} (generation : Nat) (heads : HeadMap) (bytes : Nat)
    {rows : List Rewritten} (distinct : (rows.map fun r => (r.name, r.version)).Nodup) {db : Db}
    (present : db.hasVault pk = true)
    (free : ∀ r ∈ rows, ∀ old ∈ (db.tables kind).records.rows, old.key ≠ (pk, r.name, r.version)) :
    ∃ value after, (insertRewritten kind pk generation heads bytes rows).run db = .ok (value, after) := by
  induction rows generalizing heads bytes db with
  | nil => exact ⟨_, db, rfl⟩
  | cons r rows inductionHypothesis =>
    rw [List.map_cons, List.nodup_cons] at distinct
    let row := (r.toInsert generation).cols pk
    have key : row.key = (pk, r.name, r.version) := rfl
    cases inserted : (db.tables kind).records.insert row with
    | none =>
      obtain ⟨old, taken⟩ := Table.insert_eq_none.mp inserted
      obtain ⟨member, same⟩ := Table.find?_eq_some.mp taken
      exact absurd same (free r List.mem_cons_self old member)
    | some records =>
      let next := db.withTables kind { db.tables kind with records := records }
      have later : ∀ r' ∈ rows, ∀ old ∈ (next.tables kind).records.rows, old.key ≠ (pk, r'.name, r'.version) := by
        intro r' member old stored
        simp only [next, Db.tables_withTables_same, (Table.insert_eq_some.mp inserted).2, List.mem_append,
          List.mem_singleton] at stored
        rcases stored with before | rfl
        · exact free r' (List.mem_cons_of_mem _ member) old before
        · intro same
          rw [key, Prod.mk.injEq] at same
          exact distinct.1 (List.mem_map.mpr ⟨r', member, same.2.symm⟩)
      have stays : next.hasVault pk = true := by
        rw [← present]
        cases kind <;> rfl
      obtain ⟨value, after, ran⟩ := inductionHypothesis _ _ distinct.2 stays later
      refine ⟨value, after, ?_⟩
      rw [insertRewritten, bind_ok]
      refine ⟨(), next, ?_, ran⟩
      rw [insertVersion, get_bind_ok]
      have fits : (db.tables kind).records.insert
          (Insert.cols pk ⟨r.name, r.version, r.nameCt, r.valueCt, generation, r.writtenAt, r.writtenBy, r.sig⟩) =
          some records := inserted
      simp only [fits, if_pos present]
      exact (set_ok _ _ _).mpr rfl

theorem replaceRecords_commits {kind : RecordKind} {generation : Nat} {rows : List Rewritten}
    (distinct : (rows.map fun r => (r.name, r.version)).Nodup) :
    Commits (Sound pk) (replaceRecords kind pk generation rows) := by
  intro db sound
  have clears : Script pk [.records kind] db (db.clearRecords kind pk) := (Stmt.clearRecords kind).script
  have cleared := clears.sound sound
  have free : ∀ r ∈ rows, ∀ old ∈ ((db.clearRecords kind pk).tables kind).records.rows,
      old.key ≠ (pk, r.name, r.version) := by
    intro r _ old stored same
    simp only [Db.clearRecords, Db.tables_withTables_same, Table.deleteWhere, List.mem_filter] at stored
    have mine : old.vaultPk = pk := congrArg Prod.fst same
    simp [mine] at stored
  obtain ⟨⟨heads, bytes⟩, middle, inserted⟩ :=
    insertRewritten_runs generation [] 0 distinct cleared.present free
  have scripts : Keeps (Script pk [.records kind]) (insertRewritten kind pk generation [] 0 rows) :=
    insertRewritten_script kind generation [] 0 rows
  obtain ⟨_, after, led, reached⟩ := Commits.forM heads (fun h => setHead_commits kind h.1 h.2.1 h.2.2) middle
    ((scripts _ _ _ inserted).sound cleared)
  refine ⟨bytes, after, ?_, reached⟩
  rw [replaceRecords, bind_ok]
  refine ⟨(), _, (modify_ok _ _ _).mpr rfl, ?_⟩
  rw [bind_ok]
  refine ⟨(heads, bytes), middle, inserted, ?_⟩
  rw [bind_ok]
  exact ⟨(), after, led, rfl⟩

/-! ## Batches -/

theorem deleteTokens_commits (ids : List TokenId) : Commits (Sound pk) (deleteTokens pk ids) := by
  have scripts : Keeps (Script pk [.tokens]) (deleteTokens pk ids) := deleteTokens_script ids
  refine commits_of_script scripts fun db _ => ?_
  obtain ⟨removed, ran, _⟩ := deleteTokens_run pk ids db
  exact ⟨removed, _, ran⟩

omit [Digests] in
theorem rewritten_distinct {batch : List RotatedVersion} (stored : Meta) (ctx : Ctx) (distinct : (batch.map newKey).Nodup) :
    ∃ rows, rewritten batch stored ctx = .ok rows ∧ (rows.map fun r => (r.name, r.version)).Nodup := by
  refine ⟨batch.map (rewrittenRow stored ctx), ?_, ?_⟩
  · unfold rewritten
    rw [if_neg (by rw [List.toFinset_card_of_nodup distinct, List.length_map]; simp)]
    rfl
  · rw [List.map_map]
    exact distinct

/-- A batch that gives no two versions one new name and number is applied whole. -/
theorem applyBatch_commits {vault : VaultRow} {r : RotationRequest} (ctx : Ctx) (mine : vault.pk = pk)
    (secrets : (r.secrets.map newKey).Nodup) (configs : (r.configs.map newKey).Nodup) :
    Commits (Sound pk) (applyBatch vault r ctx) := by
  subst mine
  intro db sound
  obtain ⟨secretRows, secretsPassed, secretsDistinct⟩ :=
    rewritten_distinct (versionMeta db .secret vault.pk) ctx secrets
  obtain ⟨configRows, configsPassed, configsDistinct⟩ :=
    rewritten_distinct (versionMeta db .config vault.pk) ctx configs
  have tail : Commits (Sound vault.pk) (do
      let secretBytes ← replaceRecords .secret vault.pk (r.fromGeneration + 1) secretRows
      let configBytes ← replaceRecords .config vault.pk (r.fromGeneration + 1) configRows
      insertDescriptor ⟨vault.pk, r.fromGeneration + 1, r.descriptor⟩
      let revoked ← deleteTokens vault.pk r.revoke
      r.tokens.forM fun t => modify fun db => db.resealToken vault.pk (r.fromGeneration + 1) t
      modify fun db => db.updateVault vault.pk fun v =>
        { v with
          generation := r.fromGeneration + 1
          ownerBundle := r.ownerBundle
          bytesUsed := secretBytes + configBytes
          revision := v.revision + 1 }
      appendAudit vault.pk
        (written ctx.actor .vaultRotate none 0 (some (Digests.sha256 r.descriptor.descriptor.bytes))) ctx.now
      revoked.forM fun id => appendAudit vault.pk (event ctx.actor .tokenRevoke none (some id) .ok) ctx.now
      pure (r.fromGeneration + 1)) := by
    refine .bind (replaceRecords_commits secretsDistinct) fun secretBytes => ?_
    refine .bind (replaceRecords_commits configsDistinct) fun configBytes => ?_
    refine .bind (insertDescriptor_commits _ _) fun _ => ?_
    refine .bind (deleteTokens_commits _) fun revoked => ?_
    refine .bind (.forM _ fun t => .modify _ fun db sound => ?_) fun _ => ?_
    · have reseals : Script vault.pk [.tokens] db (db.resealToken vault.pk (r.fromGeneration + 1) t) :=
        (Stmt.resealToken _ t).script
      exact reseals.sound sound
    refine .bind (.modify _ fun db sound => ?_) fun _ => ?_
    · have moves : Script vault.pk [.generation] db (db.updateVault vault.pk fun v =>
          { v with
            generation := r.fromGeneration + 1
            ownerBundle := r.ownerBundle
            bytesUsed := secretBytes + configBytes
            revision := v.revision + 1 }) := (Stmt.rotateVault _ {}).script
      exact moves.sound sound
    · refine .bind (appendAudit_commits _ _) fun _ => ?_
      exact .bind (.forM _ fun id => appendAudit_commits _ _) fun _ => .pure _
  rw [applyBatch]
  obtain ⟨generation, after, ran, reached⟩ := tail db sound
  refine ⟨generation, after, ?_, reached⟩
  rw [get_bind_ok]
  dsimp only
  rw [secretsPassed, configsPassed]
  exact ran

/-- A batch that passes every check is applied, whoever asks and whenever. -/
theorem applyRotationBody_commits {vault : VaultRow} {r : RotationRequest} {db : Db} (sound : Sound pk db)
    (loaded : db.loadVault pk = some vault) (checked : checkRotation db vault r = .ok ())
    (secrets : (r.secrets.map newKey).Nodup) (configs : (r.configs.map newKey).Nodup) (ctx : Ctx) :
    ∃ record after, (applyRotationBody pk r ctx).run db = .ok ((r.fromGeneration + 1, record), after) := by
  obtain ⟨generation, middle, ran, _⟩ := applyBatch_commits ctx (Db.loadVault_pk loaded) secrets configs db sound
  obtain ⟨rfl, _⟩ := applyBatch_ok ran
  refine ⟨⟨middle.lastApplied + 1, ctx.now, .rotate vault.vaultId ctx.actor r⟩,
    { middle with lastApplied := middle.lastApplied + 1 }, ?_⟩
  rw [applyRotationBody, get_bind_ok, loaded]
  dsimp only
  rw [bind_ok]
  refine ⟨_, middle, ?_, rfl⟩
  rw [rotate, get_bind_ok, if_pos rfl, checked, bind_ok]
  exact ⟨(), db, rfl, ran⟩

end

end GalataVault.Backend

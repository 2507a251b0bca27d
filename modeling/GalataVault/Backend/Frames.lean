import GalataVault.Backend.Runs

/-!
# What scripts leave alone

The frame rules of scripts. A script leaves every table it does not write as it
was, every row of another vault as it was, and the identity of every vault as it
was; a vault's revision never falls. Deleting and creating vaults are not scripts
and have frame rules of their own beside their definitions.
-/

namespace GalataVault.Backend

open Proto Relational Relational.Transaction

/-! ## Rows by vault -/

/-- The rows of all tables that belong to the selected vaults. -/
structure Rows where
  vaults : List VaultCols
  descriptors : List DescriptorCols
  tokens : List TokenRow
  secrets : List VersionCols
  secretHeads : List HeadCols
  configs : List VersionCols
  configHeads : List HeadCols
  children : List ChildrenCols
  audit : List AuditCols
deriving DecidableEq

/-- The rows of the vaults whose row number satisfies `p`. -/
def Db.rowsWhere (db : Db) (p : VaultPk → Bool) : Rows where
  vaults := db.vaults.select fun v => p v.pk
  descriptors := db.descriptors.select fun d => p d.vaultPk
  tokens := db.tokens.select fun t => p t.vaultPk
  secrets := db.secret.records.select fun v => p v.vaultPk
  secretHeads := db.secret.heads.select fun h => p h.vaultPk
  configs := db.config.records.select fun v => p v.vaultPk
  configHeads := db.config.heads.select fun h => p h.vaultPk
  children := db.children.select fun c => p c.vaultPk
  audit := db.audit.select fun a => p a.vaultPk

/-- Replacing one kind's tables by tables with the same selected rows selects the
same rows. -/
theorem Db.rowsWhere_withTables (db : Db) (kind : RecordKind) (tables : RecordTables)
    (p : VaultPk → Bool)
    (records : tables.records.select (fun v => p v.vaultPk) =
      (db.tables kind).records.select fun v => p v.vaultPk)
    (heads : tables.heads.select (fun h => p h.vaultPk) =
      (db.tables kind).heads.select fun h => p h.vaultPk) :
    (db.withTables kind tables).rowsWhere p = db.rowsWhere p := by
  cases kind with
  | secret => simp only [rowsWhere, withTables, records, heads, Db.tables]
  | config => simp only [rowsWhere, withTables, records, heads, Db.tables]

/-- An update of one vault's row leaves the rows of other vaults alone. -/
theorem Db.rowsWhere_updateVault (db : Db) {pk : VaultPk} {f : VaultCols → VaultCols}
    (keeps : ∀ v, (f v).pk = v.pk) {p : VaultPk → Bool} (off : p pk = false) :
    (db.updateVault pk f keeps).rowsWhere p = db.rowsWhere p := by
  have vaults := Table.select_updateWhere_off (p := fun v => v.pk = pk) (q := fun v => p v.pk)
    db.vaults keeps (by
      intro v mine
      have same : v.pk = pk := by simpa using mine
      rw [keeps v, same]
      exact ⟨off, off⟩)
  simp only [rowsWhere, updateVault, vaults]

/-- An update that leaves a column alone leaves it alone in every row. -/
theorem Db.updateVault_column {α : Type} (db : Db) {pk : VaultPk} {f : VaultCols → VaultCols}
    (keeps : ∀ v, (f v).pk = v.pk) (column : VaultCols → α) (same : ∀ v, column (f v) = column v) (q : VaultPk) :
    ((db.updateVault pk f keeps).vaults.find? q).map column = (db.vaults.find? q).map column := by
  rw [Db.updateVault, Table.find?_updateWhere, Option.map_map]
  congr 1
  funext v
  rw [Function.comp_apply, Table.rewrite]
  split
  · exact same v
  · rfl

/-- Deleting vaults leaves the rows of the others alone. -/
theorem Db.rowsWhere_deleteVaults (db : Db) {gone : VaultCols → Bool} {p : VaultPk → Bool}
    (off : ∀ v ∈ db.vaults.rows, gone v = true → p v.pk = false) :
    (db.deleteVaults gone).rowsWhere p = db.rowsWhere p := by
  have kept : ∀ pk, p pk = true → ((db.vaults.select gone).any fun v => v.pk = pk) = false := by
    intro pk inside
    rw [List.any_eq_false]
    intro v member
    obtain ⟨member, selected⟩ := List.mem_filter.mp member
    rintro same
    rw [← of_decide_eq_true same, off v member selected] at inside
    exact Bool.false_ne_true inside
  have vaults : (db.vaults.deleteWhere gone).select (fun v => p v.pk) = db.vaults.select fun v => p v.pk := by
    refine Table.select_deleteWhere_off _ fun v member inside => ?_
    by_contra selected
    rw [off v member (by simpa using selected)] at inside
    exact Bool.false_ne_true inside
  have children {ρ κ : Type} {key : ρ → κ} (table : Table key) (owner : ρ → VaultPk) :
      (table.deleteWhere fun row => (db.vaults.select gone).any fun v => v.pk = owner row).select
        (fun row => p (owner row)) = table.select fun row => p (owner row) :=
    Table.select_deleteWhere_off _ fun row _ inside => kept (owner row) inside
  simp only [rowsWhere, deleteVaults, vaults, children]

section Statements

variable [Digests] {pk : VaultPk}

/-- A statement touches rows of its own vault only. -/
theorem Stmt.rowsWhere {target : Target} {db after : Db} (stmt : Stmt pk db target after)
    {p : VaultPk → Bool} (off : p pk = false) : after.rowsWhere p = db.rowsWhere p := by
  cases stmt with
  | appendAudit v e now audit present inserted =>
    rw [Db.rowsWhere_updateVault _ _ off]
    have rows := Table.select_insert_off inserted (q := fun a => p a.vaultPk) off
    simp only [Db.rowsWhere, rows]
  | updateVault f keeps | countBytes f keeps | rotateVault f keeps => exact Db.rowsWhere_updateVault db keeps.pk off
  | insertVersion kind v records inserted present =>
    exact Db.rowsWhere_withTables db kind _ p (Table.select_insert_off inserted off) rfl
  | setHead kind name version tombstone present =>
    refine Db.rowsWhere_withTables db kind _ p rfl (Table.select_upsert_off _ ?_)
    intro old same
    rw [show old.vaultPk = pk from congrArg Prod.fst same]
    exact off
  | deleteVersion kind name version =>
    refine Db.rowsWhere_withTables db kind _ p (Table.select_deleteWhere_off _ ?_) rfl
    intro v _ inside
    rw [decide_eq_false_iff_not]
    intro same
    rw [show v.vaultPk = pk from congrArg Prod.fst same, off] at inside
    exact Bool.false_ne_true inside
  | clearRecords kind =>
    refine Db.rowsWhere_withTables db kind _ p (Table.select_deleteWhere_off _ ?_)
      (Table.select_deleteWhere_off _ ?_)
    · intro v _ inside
      rw [decide_eq_false_iff_not]
      rintro rfl
      rw [off] at inside
      exact Bool.false_ne_true inside
    · intro h _ inside
      rw [decide_eq_false_iff_not]
      rintro rfl
      rw [off] at inside
      exact Bool.false_ne_true inside
  | insertToken row tokens inserted mine present =>
    have rows := Table.select_insert_off inserted (q := fun t => p t.vaultPk) (mine ▸ off)
    simp only [Db.rowsWhere, rows]
  | deleteToken id =>
    have rows := Table.select_deleteWhere_off (q := fun t => p t.vaultPk)
      (p := fun t => t.vaultPk = pk && t.tokenId = id) db.tokens (by
        intro t _ inside
        by_cases mine : t.vaultPk = pk
        · rw [mine, off] at inside
          exact absurd inside Bool.false_ne_true
        · simp [mine])
    simp only [Db.rowsWhere, rows]
  | resealToken generation t =>
    have rows := Table.select_updateWhere_off (q := fun t => p t.vaultPk)
      (p := fun row => row.vaultPk = pk && row.tokenId = t.tokenId)
      (f := fun row => { row with bundle := t.bundle, generation := generation }) db.tokens
      (fun _ => rfl) (by
        intro row mine
        simp only [Bool.and_eq_true, decide_eq_true_eq] at mine
        simp [mine.1, off])
    simp only [Db.rowsWhere, Db.resealToken, rows]
  | insertDescriptor generation d descriptors inserted present =>
    have rows := Table.select_insert_off inserted (q := fun d => p d.vaultPk) off
    simp only [Db.rowsWhere, rows]
  | setChildren blob present =>
    have rows : (db.children.upsert ⟨pk, blob⟩).select (fun c => p c.vaultPk) =
        db.children.select fun c => p c.vaultPk := by
      refine Table.select_upsert_off _ ?_
      intro old same
      rw [show old.vaultPk = pk from same]
      exact off
    simp only [Db.rowsWhere, rows]
  | setApplied seq => rfl

/-- A script touches rows of its own vault only. -/
theorem Script.rowsWhere {targets : List Target} {db after : Db} (script : Script pk targets db after)
    {p : VaultPk → Bool} (off : p pk = false) : after.rowsWhere p = db.rowsWhere p := by
  induction script with
  | refl => rfl
  | tail _ last inductionHypothesis =>
    obtain ⟨_, _, stmt⟩ := last
    rw [stmt.rowsWhere off, inductionHypothesis]

/-! ## Tables by target -/

/-- What every statement of a script leaves alone, the script leaves alone. -/
theorem Script.same {α : Type} {targets : List Target} {db after : Db} (script : Script pk targets db after)
    (part : Db → α) (steps : ∀ target ∈ targets, ∀ db after, Stmt pk db target after → part after = part db) :
    part after = part db := by
  induction script with
  | refl => rfl
  | tail _ last inductionHypothesis =>
    obtain ⟨target, member, stmt⟩ := last
    rw [steps target member _ _ stmt, inductionHypothesis]

theorem Stmt.tables_same {target : Target} {db after : Db} (stmt : Stmt pk db target after)
    {kind : RecordKind} (off : target ≠ .records kind) : after.tables kind = db.tables kind := by
  have other : ∀ k : RecordKind, Target.records k ≠ .records kind → kind ≠ k := by
    rintro k differs rfl
    exact differs rfl
  cases stmt with
  | insertVersion | setHead | deleteVersion | clearRecords =>
    exact Db.tables_withTables_other db (other _ off) _
  | appendAudit | updateVault | countBytes | rotateVault | insertToken | deleteToken | resealToken | insertDescriptor
  | setChildren | setApplied => cases kind <;> rfl

/-- The table a target names, other than the record tables. -/
theorem Stmt.rest_same {target : Target} {db after : Db} (stmt : Stmt pk db target after) :
    (target ≠ .vaults → target ≠ .bytes → target ≠ .generation → target ≠ .audit → after.vaults = db.vaults) ∧
      (target ≠ .descriptors → after.descriptors = db.descriptors) ∧
      (target ≠ .tokens → after.tokens = db.tokens) ∧
      (target ≠ .children → after.children = db.children) ∧
      (target ≠ .journalState → after.lastApplied = db.lastApplied) := by
  cases stmt with
  | insertVersion kind | setHead kind | deleteVersion kind | clearRecords kind => cases kind <;> simp [Db.deleteVersion, Db.clearRecords, Db.withTables]
  | appendAudit | updateVault | countBytes | rotateVault | insertToken | deleteToken | resealToken | insertDescriptor
  | setChildren | setApplied => simp [Db.updateVault, Db.resealToken]

section Untouched

variable {targets : List Target} {db after : Db} (script : Script pk targets db after)
include script

/-- A script that does not write a kind's tables leaves them as they were. -/
theorem Script.tables_same (kind : RecordKind) (off : .records kind ∉ targets := by simp) :
    after.tables kind = db.tables kind :=
  script.same (Db.tables · kind) fun _ member _ _ stmt => stmt.tables_same fun same => off (same ▸ member)

/-- Vault rows are written by their own targets and by audit rows. -/
theorem Script.vaults_same (off : .vaults ∉ targets := by simp) (uncounted : .bytes ∉ targets := by simp)
    (unrotated : .generation ∉ targets := by simp) (unaudited : .audit ∉ targets := by simp) :
    after.vaults = db.vaults :=
  script.same Db.vaults fun _ member _ _ stmt =>
    stmt.rest_same.1 (fun same => off (same ▸ member)) (fun same => uncounted (same ▸ member))
      (fun same => unrotated (same ▸ member)) fun same => unaudited (same ▸ member)

theorem Script.descriptors_same (off : .descriptors ∉ targets := by simp) : after.descriptors = db.descriptors :=
  script.same Db.descriptors fun _ member _ _ stmt => stmt.rest_same.2.1 fun same => off (same ▸ member)

theorem Script.tokens_same (off : .tokens ∉ targets := by simp) : after.tokens = db.tokens :=
  script.same Db.tokens fun _ member _ _ stmt => stmt.rest_same.2.2.1 fun same => off (same ▸ member)

theorem Script.children_same (off : .children ∉ targets := by simp) : after.children = db.children :=
  script.same Db.children fun _ member _ _ stmt => stmt.rest_same.2.2.2.1 fun same => off (same ▸ member)

theorem Script.lastApplied_same (off : .journalState ∉ targets := by simp) : after.lastApplied = db.lastApplied :=
  script.same Db.lastApplied fun _ member _ _ stmt => stmt.rest_same.2.2.2.2 fun same => off (same ▸ member)

end Untouched

/-- Only a rotation changes a vault's generation or its owner bundle. -/
theorem Stmt.generation_same {target : Target} {db after : Db} (stmt : Stmt pk db target after)
    (unrotated : target ≠ .generation) (q : VaultPk) :
    (after.vaults.find? q).map (fun v => (v.generation, v.ownerBundle)) =
      (db.vaults.find? q).map fun v => (v.generation, v.ownerBundle) := by
  have kept {f : VaultCols → VaultCols} (keeps : KeepsGeneration f) (db : Db) :
      ((db.updateVault pk f keeps.pk).vaults.find? q).map (fun v => (v.generation, v.ownerBundle)) =
        (db.vaults.find? q).map fun v => (v.generation, v.ownerBundle) :=
    db.updateVault_column keeps.pk (fun v => (v.generation, v.ownerBundle))
      (fun v => Prod.ext (keeps.generation v) (keeps.ownerBundle v)) q
  cases stmt with
  | appendAudit v e now audit present inserted =>
    exact Db.updateVault_column { db with audit := audit } (by intro v; rfl) _ (by intro v; rfl) q
  | updateVault f keeps => exact kept keeps.toKeepsGeneration db
  | countBytes f keeps => exact kept keeps db
  | rotateVault => exact absurd rfl unrotated
  | insertVersion | setHead | deleteVersion | clearRecords =>
    exact congrArg (fun vaults : Table VaultCols.pk => (vaults.find? q).map _) (Db.withTables_vaults _ _ _)
  | insertToken | deleteToken | resealToken | insertDescriptor | setChildren | setApplied => rfl

theorem Script.generation_same {targets : List Target} {db after : Db} (script : Script pk targets db after)
    (unrotated : .generation ∉ targets) (q : VaultPk) :
    (after.vaults.find? q).map (fun v => (v.generation, v.ownerBundle)) =
      (db.vaults.find? q).map fun v => (v.generation, v.ownerBundle) :=
  script.same (fun db => (db.vaults.find? q).map fun v => (v.generation, v.ownerBundle))
    fun _ member _ _ stmt => stmt.generation_same (fun same => unrotated (same ▸ member)) q

/-! ## Calls that run a script -/

/-- The vault and the tables of a call that runs a script. -/
def Call.script {σ : Type} : Call σ → Option (VaultPk × List Target)
  | .touch _ pk _ => some (pk, [.vaults])
  | .registerToken _ pk .. => some (pk, [.tokens, .vaults, .audit])
  | .revokeTokens _ _ pk .. => some (pk, [.tokens, .vaults, .audit, .journalState])
  | .putRecord _ pk kind .. => some (pk, [.records kind, .bytes, .audit])
  | .deleteRecord _ pk kind .. => some (pk, [.records kind, .bytes, .audit])
  | .putChildren _ pk .. => some (pk, [.children, .audit])
  | .record _ pk .. => some (pk, [.audit])
  | .applyRotation _ _ pk .. => some (pk, .journalState :: rotationTargets)
  | .createVault .. | .deleteVault .. | .spend .. | .replay .. => none

omit [Digests] in
/-- A write leaves the database as it was or as its body did. -/
theorem write_keeps {α : Type} {R : Db → Db → Prop} (reflexive : ∀ db, R db db) {body : Tx (Done α)}
    (keeps : Keeps R body) (disk : Except String Unit) (db : Db) : R db (write disk body db).2 := by
  rcases write_cases disk body db with ⟨_, outcome⟩ | ⟨done, after, ran, _, outcome⟩
  · rw [outcome]
    exact reflexive db
  · rw [outcome]
    exact keeps _ _ _ ran

omit [Digests] in
theorem writeCritical_keeps {α σ : Type} {R : Db → Db → Prop} (reflexive : ∀ db, R db db)
    {body : Tx (α × JournalRecord)} (keeps : Keeps R body) (disk : Except String Unit) (hook : CommitHook σ) (db : Db)
    (journal : σ) : R db (writeCritical disk hook body db journal).2.1 := by
  rcases writeCritical_cases disk hook body db journal with ⟨_, _, outcome⟩ | ⟨_, _, after, ran, _, _, outcome⟩
  · rw [outcome]
    exact reflexive db
  · rw [outcome]
    exact keeps _ _ _ ran

/-- Such a call runs its script, or changes nothing. -/
theorem step_script {σ : Type} (world : World σ) {call : Call σ} {pk : VaultPk} {targets : List Target}
    (addressed : call.script = some (pk, targets)) : Script pk targets world.db (step world call).db := by
  cases call with
  | createVault | deleteVault | spend | replay => cases addressed
  | touch disk other now =>
    cases addressed
    change Script _ _ world.db (touch disk _ now world.db).2
    unfold touch
    split
    · exact write_keeps Script.refl (touchBody_script now) _ _
    · exact Script.refl _
  | registerToken disk other t ctx limits =>
    cases addressed
    exact write_keeps Script.refl (registerTokenBody_script t ctx limits) _ _
  | revokeTokens disk hook other ids reported ctx =>
    cases addressed
    exact writeCritical_keeps Script.refl (revokeTokensBody_script ids reported ctx) _ _ _ _
  | putRecord disk other kind name pre w ctx limits =>
    cases addressed
    change Script _ _ world.db (putRecord disk _ kind name pre w ctx limits world.db).2
    unfold putRecord
    split
    · exact Script.refl _
    · exact write_keeps Script.refl (putRecordBody_script kind name pre w _ ctx limits) _ _
  | deleteRecord disk other kind name ifMatch w ctx limits =>
    cases addressed
    change Script _ _ world.db (deleteRecord disk _ kind name ifMatch w ctx limits world.db).2
    unfold deleteRecord
    split
    · exact Script.refl _
    · exact write_keeps Script.refl (deleteRecordBody_script kind name ifMatch w ctx limits) _ _
  | putChildren disk other pre blob ctx limits =>
    cases addressed
    exact write_keeps Script.refl (putChildrenBody_script pre blob ctx limits) _ _
  | record disk other e now =>
    cases addressed
    exact write_keeps Script.refl (recordBody_script e now) _ _
  | applyRotation disk hook other r ctx =>
    cases addressed
    exact writeCritical_keeps Script.refl (applyRotationBody_script r ctx) _ _ _ _

/-! ## Vault rows -/

/-- A later row of the same vault. -/
structure Later (v v' : VaultCols) : Prop where
  pk : v'.pk = v.pk
  vaultId : v'.vaultId = v.vaultId
  ownerSignPub : v'.ownerSignPub = v.ownerSignPub
  ownerBoxPub : v'.ownerBoxPub = v.ownerBoxPub
  revision : v.revision ≤ v'.revision

omit [Digests] in
theorem Later.refl (v : VaultCols) : Later v v := ⟨rfl, rfl, rfl, rfl, Nat.le_refl _⟩

omit [Digests] in
theorem Later.trans {a b c : VaultCols} (first : Later a b) (second : Later b c) : Later a c :=
  ⟨second.pk.trans first.pk, second.vaultId.trans first.vaultId,
    second.ownerSignPub.trans first.ownerSignPub, second.ownerBoxPub.trans first.ownerBoxPub,
    Nat.le_trans first.revision second.revision⟩

omit [Digests] in
/-- Every vault row of `db` has a later one in `after`, at the same place. -/
def VaultsLater (db after : Db) : Prop :=
  ∃ f : VaultCols → VaultCols, after.vaults.rows = db.vaults.rows.map f ∧ ∀ v, Later v (f v)

omit [Digests] in
theorem VaultsLater.of_same {db after : Db} (same : after.vaults = db.vaults) : VaultsLater db after :=
  ⟨id, by rw [same, List.map_id], Later.refl⟩

omit [Digests] in
theorem VaultsLater.of_update {db after : Db} {pk : VaultPk} {f : VaultCols → VaultCols}
    (keeps : ∀ v, (f v).pk = v.pk)
    (updated : after.vaults = db.vaults.updateWhere (fun v => v.pk = pk) f keeps)
    (later : ∀ v, Later v (f v)) : VaultsLater db after := by
  refine ⟨Table.rewrite (fun v => v.pk = pk) f, by rw [updated]; rfl, fun v => ?_⟩
  unfold Table.rewrite
  split
  · exact later v
  · exact Later.refl v

theorem Stmt.vaultsLater {target : Target} {db after : Db} (stmt : Stmt pk db target after) :
    VaultsLater db after := by
  cases stmt with
  | appendAudit v e now audit present inserted =>
    exact .of_update (by intro v; rfl) rfl fun _ => ⟨rfl, rfl, rfl, rfl, Nat.le_refl _⟩
  | updateVault f keeps | countBytes f keeps | rotateVault f keeps =>
    exact .of_update keeps.pk rfl fun v =>
      ⟨keeps.pk v, keeps.vaultId v, keeps.ownerSignPub v, keeps.ownerBoxPub v, keeps.revision v⟩
  | insertVersion | setHead | deleteVersion | clearRecords => exact .of_same (Db.withTables_vaults _ _ _)
  | insertToken | deleteToken | resealToken | insertDescriptor | setChildren | setApplied =>
    exact .of_same rfl

/-- A script keeps every vault, with its identity, and takes no revision back. -/
theorem Script.vaultsLater {targets : List Target} {db after : Db}
    (script : Script pk targets db after) : VaultsLater db after := by
  induction script with
  | refl => exact .of_same rfl
  | tail _ last inductionHypothesis =>
    obtain ⟨_, _, stmt⟩ := last
    obtain ⟨f, rows, later⟩ := inductionHypothesis
    obtain ⟨g, rows', later'⟩ := stmt.vaultsLater
    exact ⟨g ∘ f, by rw [rows', rows, List.map_map], fun v => (later v).trans (later' (f v))⟩

omit [Digests] in
theorem VaultsLater.find? {db after : Db} (later : VaultsLater db after) {pk : VaultPk} {v : VaultCols}
    (found : db.vaults.find? pk = some v) : ∃ v', after.vaults.find? pk = some v' ∧ Later v v' := by
  obtain ⟨f, rows, each⟩ := later
  obtain ⟨member, same⟩ := Table.find?_eq_some.mp found
  refine ⟨f v, Table.find?_eq_some.mpr ⟨?_, (each v).pk.trans same⟩, each v⟩
  rw [rows]
  exact List.mem_map_of_mem member

/-- The same row up to the end of its log. -/
def SameButLog (v v' : VaultCols) : Prop := { v' with auditSeq := v.auditSeq, auditHead := v.auditHead } = v

/-- Audit rows move the end of a vault's log and nothing else in its row. -/
theorem Script.sameButLog {db after : Db} (script : Script pk [.audit] db after) {other : VaultPk}
    {v : VaultCols} (found : db.vaults.find? other = some v) :
    ∃ v', after.vaults.find? other = some v' ∧ SameButLog v v' := by
  induction script with
  | refl => exact ⟨v, found, rfl⟩
  | tail _ last inductionHypothesis =>
    obtain ⟨middle, foundMiddle, same⟩ := inductionHypothesis
    obtain ⟨target, member, stmt⟩ := last
    obtain rfl := List.mem_singleton.mp member
    cases stmt with
    | appendAudit w e now audit present inserted =>
      simp only [Db.updateVault, Table.find?_updateWhere, foundMiddle, Option.map_some]
      refine ⟨_, rfl, ?_⟩
      unfold Table.rewrite
      split
      · exact same
      · exact same

end Statements

/-! ## Effects on one vault -/

/-- The next row number belongs to no vault. -/
theorem Db.nextPk_fresh (db : Db) : db.vaults.find? db.nextPk = none := by
  have bounded : ∀ numbers : List Nat, ∀ n ∈ numbers, n ≤ numbers.foldr max 0 := by
    intro numbers n member
    induction numbers with
    | nil => cases member
    | cons head rest inductionHypothesis =>
      rw [List.foldr_cons]
      rcases List.mem_cons.mp member with rfl | member
      · exact Nat.le_max_left _ _
      · exact Nat.le_trans (inductionHypothesis member) (Nat.le_max_right _ _)
  rw [Table.find?_eq_none]
  intro v member same
  have below := bounded (db.vaults.rows.map (·.pk)) v.pk (List.mem_map_of_mem member)
  rw [same, Db.nextPk] at below
  omega

theorem Db.hasVault_iff {db : Db} {pk : VaultPk} : db.hasVault pk = true ↔ ∃ v, db.vaults.find? pk = some v :=
  Option.isSome_iff_exists

/-- A deletion that leaves a vault was not of that vault. -/
theorem Db.spared {db : Db} {gone : VaultCols → Bool} {pk : VaultPk} (seq : Nat)
    (stays : { db.deleteVaults gone with lastApplied := seq }.hasVault pk = true) :
    ∀ v ∈ db.vaults.rows, gone v = true → v.pk ≠ pk := by
  intro v member selected same
  have left : ((db.vaults.find? pk).filter fun v => !gone v).isSome = true := by
    rw [← Table.find?_deleteWhere]
    exact stays
  rw [Table.find?_eq_some.mpr ⟨member, same⟩, Option.filter_some, selected] at left
  exact Bool.false_ne_true left

/-- To a vault that is there and stays, a call does nothing or is addressed to it and
runs a script within its reach. -/
theorem Effect.own [Digests] {reach : Reach} {db after : Db} (effect : Effect reach db after) {pk : VaultPk}
    (present : db.hasVault pk = true) (stays : after.hasVault pk = true) :
    after.rowsWhere (fun q => q = pk) = db.rowsWhere (fun q => q = pk) ∨
      reach.addressed pk ∧ Script pk reach.targets db after := by
  cases effect with
  | none => exact .inl rfl
  | script other mine script =>
    by_cases same : other = pk
    · exact .inr ⟨same ▸ mine, same ▸ script⟩
    · exact .inl (script.rowsWhere (by simpa using same))
  | created v now vaults descriptors e _ fresh inserted described audited =>
    obtain ⟨row, found⟩ := Db.hasVault_iff.mp present
    have taken : db.nextPk ≠ pk := by
      rintro rfl
      rw [db.nextPk_fresh] at found
      exact Option.some_ne_none _ found.symm
    have off : decide (db.nextPk = pk) = false := by simpa using taken
    have audits : Keeps (Script db.nextPk [.audit]) (appendAudit db.nextPk e now) := appendAudit_script e now
    refine .inl (((audits _ _ _ audited).rowsWhere off).trans ?_)
    simp only [Db.rowsWhere, Table.select_insert_off inserted (q := fun v => v.pk = pk) off,
      Table.select_insert_off described (q := fun d => d.vaultPk = pk) off]
  | deleted gone seq mine =>
    have others := Db.rowsWhere_deleteVaults db (p := fun q => q = pk) fun v member selected => by
      simpa using Db.spared seq stays v member selected
    exact .inl others
  | spent table => exact .inl rfl

/-- What is looked up by a vault's row number depends on the vault's rows only. -/
theorem Db.find?_of_rows {db after : Db} {pk : VaultPk}
    (same : after.rowsWhere (fun q => q = pk) = db.rowsWhere fun q => q = pk) :
    after.vaults.find? pk = db.vaults.find? pk ∧ after.children.find? pk = db.children.find? pk ∧
      (∀ kind name, (after.tables kind).heads.find? (pk, name) = (db.tables kind).heads.find? (pk, name)) ∧
      ∀ kind name version, (after.tables kind).records.find? (pk, name, version) =
        (db.tables kind).records.find? (pk, name, version) := by
  refine ⟨Table.find?_eq_of_select (congrArg Rows.vaults same) fun _ hit => decide_eq_true hit,
    Table.find?_eq_of_select (congrArg Rows.children same) fun _ hit => decide_eq_true hit, ?_, ?_⟩
  · intro kind name
    cases kind
    case secret =>
      refine Table.find?_eq_of_select (congrArg Rows.secretHeads same) fun _ hit => ?_
      exact decide_eq_true (congrArg Prod.fst hit)
    case config =>
      refine Table.find?_eq_of_select (congrArg Rows.configHeads same) fun _ hit => ?_
      exact decide_eq_true (congrArg Prod.fst hit)
  · intro kind name version
    cases kind
    case secret =>
      refine Table.find?_eq_of_select (congrArg Rows.secrets same) fun _ hit => ?_
      exact decide_eq_true (congrArg Prod.fst hit)
    case config =>
      refine Table.find?_eq_of_select (congrArg Rows.configs same) fun _ hit => ?_
      exact decide_eq_true (congrArg Prod.fst hit)

/-- As long as a vault stays, every effect leaves a later row of it. -/
theorem Effect.later [Digests] {reach : Reach} {db after : Db} (effect : Effect reach db after) {pk : VaultPk}
    {v : VaultCols} (found : db.vaults.find? pk = some v) (stays : after.hasVault pk = true) :
    ∃ v', after.vaults.find? pk = some v' ∧ Later v v' := by
  rcases effect.own (Db.hasVault_iff.mpr ⟨v, found⟩) stays with same | ⟨_, script⟩
  · exact ⟨v, (Db.find?_of_rows same).1.trans found, .refl v⟩
  · exact script.vaultsLater.find? found

end GalataVault.Backend

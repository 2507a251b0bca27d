import GalataVault.Backend.Ownership

/-!
# The count of a vault's bytes

A vault's row counts the bytes of its retained versions of both kinds. A put or a
delete adds the new version and subtracts the pruned ones; a rotation counts again.
In every database a run reaches the count is the sum, so what a write subtracts is
at most what it subtracts from, whatever the limits of earlier writes were.
-/

namespace GalataVault.Backend

open Proto Relational Relational.Transaction

/-- The bytes of a vault's retained versions of one kind. -/
def Db.bytesIn (db : Db) (kind : RecordKind) (pk : VaultPk) : Nat := ((db.versionsIn kind pk).map VersionCols.size).sum

/-- The bytes of a vault's retained versions. -/
def Db.bytesOf (db : Db) (pk : VaultPk) : Nat := db.bytesIn .secret pk + db.bytesIn .config pk

/-- Every vault counts the bytes of its versions. -/
def Accounted (db : Db) : Prop := ∀ pk v, db.vaults.find? pk = some v → v.bytesUsed = db.bytesOf pk

theorem sum_split {α : Type} (size : α → Nat) (p : α → Bool) (rows : List α) :
    (rows.map size).sum = ((rows.filter p).map size).sum + ((rows.filter fun row => !p row).map size).sum := by
  induction rows with
  | nil => rfl
  | cons row rows inductionHypothesis =>
    by_cases hit : p row = true
    · simp [hit, inductionHypothesis, Nat.add_assoc]
    · simp [hit, inductionHypothesis, Nat.add_left_comm]

theorem sum_take_le {α : Type} (size : α → Nat) (n : Nat) (rows : List α) :
    ((rows.take n).map size).sum ≤ (rows.map size).sum := by
  have whole := congrArg (fun rows => (rows.map size).sum) (List.take_append_drop n rows)
  simp only [List.map_append, List.sum_append] at whole
  omega

/-! ## What pruning frees -/

/-- The versions that pruning takes, as rows. -/
def prunedRows (db : Db) (kind : RecordKind) (pk : VaultPk) (name : NameHmac) (maxVersions : Nat) : List VersionCols :=
  (db.versionsOf kind pk name).take ((db.versionsOf kind pk name).length + 1 - max maxVersions 1)

theorem prunable_eq (db : Db) (kind : RecordKind) (pk : VaultPk) (name : NameHmac) (maxVersions : Nat) :
    prunable db kind pk name maxVersions =
      (prunedRows db kind pk name maxVersions).map fun v => (v.row.version, v.size) := by
  simp only [prunable, prunedRows, List.length_map, List.map_take]

theorem freedBytes_prunable (db : Db) (kind : RecordKind) (pk : VaultPk) (name : NameHmac) (maxVersions : Nat) :
    freedBytes (prunable db kind pk name maxVersions) =
      ((prunedRows db kind pk name maxVersions).map VersionCols.size).sum := by
  rw [freedBytes, prunable_eq, List.map_map]
  rfl

/-- The pruned versions are stored versions of the name, each once, and the statement
that deletes them selects exactly them. -/
theorem prunedRows_selected (db : Db) (kind : RecordKind) (pk : VaultPk) (name : NameHmac) (maxVersions : Nat) :
    ((db.tables kind).records.select fun v =>
      (prunable db kind pk name maxVersions).any fun p => v.key = (pk, name, p.1)).Perm
        (prunedRows db kind pk name maxVersions) := by
  have mine : ∀ v ∈ prunedRows db kind pk name maxVersions,
      v ∈ (db.tables kind).records.rows ∧ v.vaultPk = pk ∧ v.row.nameHmac = name :=
    fun v member => versionsOf_mem.mp (List.mem_of_mem_take member)
  have distinct : (prunedRows db kind pk name maxVersions).Nodup :=
    (versionsOf_nodup db kind pk name).sublist (List.take_sublist _ _)
  have selected := Table.select_keys_perm (db.tables kind).records (fun v member => (mine v member).1) distinct
  have same : (fun v : VersionCols => (prunable db kind pk name maxVersions).any fun p => v.key = (pk, name, p.1)) =
      fun v => (prunedRows db kind pk name maxVersions).any fun p => p.key = v.key := by
    funext v
    rw [prunable_eq, List.any_map, Bool.eq_iff_iff]
    simp only [List.any_eq_true, Function.comp_apply, decide_eq_true_eq]
    refine exists_congr fun p => and_congr_right fun member => ?_
    obtain ⟨_, owner, named⟩ := mine p member
    rw [VersionCols.key, VersionCols.key, owner, named]
    exact eq_comm
  rw [same]
  exact selected

/-- What pruning one name frees is part of what the vault holds. -/
theorem freedBytes_le (db : Db) (kind : RecordKind) (pk : VaultPk) (name : NameHmac) (maxVersions : Nat) :
    freedBytes (prunable db kind pk name maxVersions) ≤ db.bytesOf pk := by
  have part : freedBytes (prunable db kind pk name maxVersions) ≤ db.bytesIn kind pk := by
    rw [freedBytes_prunable, Db.bytesIn, Db.versionsIn, Table.select]
    have taken := sum_split VersionCols.size (fun v : VersionCols => v.row.nameHmac = name)
      ((db.tables kind).records.rows.filter fun v => v.vaultPk = pk)
    have sublist : ((prunedRows db kind pk name maxVersions).map VersionCols.size).sum ≤
        ((db.versionsOf kind pk name).map VersionCols.size).sum := sum_take_le _ _ _
    have all : ((db.versionsOf kind pk name).map VersionCols.size).sum =
        ((((db.tables kind).records.rows.filter fun v => v.vaultPk = pk).filter
          fun v => v.row.nameHmac = name).map VersionCols.size).sum := by
      refine List.Perm.sum_eq (((List.perm_insertionSort _ _).map _).trans ?_)
      rw [Table.select, List.filter_filter]
      simp only [Bool.and_comm]
      exact List.Perm.refl _
    omega
  unfold Db.bytesOf
  cases kind <;> omega

/-! ## Every change keeps the count -/

theorem bytesIn_of_rows {db after : Db} {pk : VaultPk}
    (same : after.rowsWhere (fun q => q = pk) = db.rowsWhere fun q => q = pk) (kind : RecordKind) :
    after.bytesIn kind pk = db.bytesIn kind pk := by
  unfold Db.bytesIn Db.versionsIn
  cases kind with
  | secret => exact congrArg (fun rows => (rows.map VersionCols.size).sum) (congrArg Rows.secrets same)
  | config => exact congrArg (fun rows => (rows.map VersionCols.size).sum) (congrArg Rows.configs same)

theorem bytesOf_of_tables {db after : Db} (same : ∀ kind, after.tables kind = db.tables kind) (pk : VaultPk) :
    after.bytesOf pk = db.bytesOf pk := by
  simp only [Db.bytesOf, Db.bytesIn, Db.versionsIn, same]

variable [Digests]

/-- Only statements that count bytes or rotate change a vault's count. -/
theorem Stmt.bytesUsed_same {pk : VaultPk} {target : Target} {db after : Db} (stmt : Stmt pk db target after)
    (uncounted : target ≠ .bytes) (unrotated : target ≠ .generation) (q : VaultPk) :
    (after.vaults.find? q).map (·.bytesUsed) = (db.vaults.find? q).map (·.bytesUsed) := by
  cases stmt with
  | appendAudit v e now audit present inserted =>
    exact Db.updateVault_column { db with audit := audit } (by intro v; rfl) _ (by intro v; rfl) q
  | updateVault f keeps => exact db.updateVault_column keeps.pk _ keeps.bytesUsed q
  | countBytes => exact absurd rfl uncounted
  | rotateVault => exact absurd rfl unrotated
  | insertVersion | setHead | deleteVersion | clearRecords =>
    exact congrArg (fun vaults : Table VaultCols.pk => (vaults.find? q).map (·.bytesUsed)) (Db.withTables_vaults _ _ _)
  | insertToken | deleteToken | resealToken | insertDescriptor | setChildren | setApplied => rfl

/-- A script that writes no record and counts no bytes keeps every count right. -/
theorem Accounted.script {pk : VaultPk} {targets : List Target} {db after : Db} (accounted : Accounted db)
    (script : Script pk targets db after) (included : ∀ target ∈ targets, target ∈ minorTargets) : Accounted after := by
  have tables (kind : RecordKind) : after.tables kind = db.tables kind :=
    script.tables_same kind fun member => by simpa using included _ member
  intro q v found
  have same : (after.vaults.find? q).map (·.bytesUsed) = (db.vaults.find? q).map (·.bytesUsed) := by
    refine script.same (fun db => (db.vaults.find? q).map (·.bytesUsed)) fun target member _ _ stmt => ?_
    have minor := included target member
    exact stmt.bytesUsed_same (by rintro rfl; simp at minor) (by rintro rfl; simp at minor) q
  rw [found, Option.map_some, eq_comm, Option.map_eq_some_iff] at same
  obtain ⟨old, foundOld, count⟩ := same
  rw [bytesOf_of_tables tables, ← accounted q old foundOld, count]

/-- Whatever a sum over some of a vault's versions measures, a write adds it for the new
version and takes it for the pruned ones, as long as the sum covers the written name. -/
theorem Stored.measure {db after : Db} {kind : RecordKind} {pk : VaultPk} {v : Insert} {tombstone : Bool}
    {maxVersions total : Nat} (stored : Stored db after kind pk v tombstone (prunable db kind pk v.name maxVersions) total)
    (size : VersionCols → Nat) (covered : VersionCols → Bool)
    (covers : ∀ r, r.vaultPk = pk → r.row.nameHmac = v.name → covered r = true) :
    (((after.tables kind).records.select covered).map size).sum +
        ((prunedRows db kind pk v.name maxVersions).map size).sum =
      (((db.tables kind).records.select covered).map size).sum + size (v.cols pk) := by
  obtain ⟨records, inserted, left⟩ := stored.inserted
  have fresh := (Table.insert_eq_some.mp inserted).1
  let gone : VersionCols → Bool := fun r => (prunable db kind pk v.name maxVersions).any fun p => r.key = (pk, v.name, p.1)
  have own : covered (v.cols pk) = true := covers _ rfl rfl
  -- The new version was not stored before, so pruning leaves it.
  have kept : gone (v.cols pk) = false := by
    rw [List.any_eq_false]
    intro p member same
    obtain ⟨old, oldMember, oldKey⟩ := prunable_stored member
    exact fresh old oldMember (oldKey.trans (of_decide_eq_true same).symm)
  have leftRows : (after.tables kind).records.select covered = (records.select covered).filter fun r => !gone r := by
    rw [left, Table.select, Table.select, Table.deleteWhere, List.filter_filter, List.filter_filter]
    simp only [Bool.and_comm, gone]
  have goneRows : (records.select covered).filter gone = (db.tables kind).records.select gone := by
    rw [Table.select_insert inserted, List.filter_append]
    rw [List.filter_cons_of_pos own, List.filter_nil, List.filter_cons_of_neg (by rw [kept]; decide), List.filter_nil,
      List.append_nil, Table.select, Table.select, List.filter_filter]
    refine List.filter_congr fun r _ => ?_
    by_cases hit : gone r = true
    · obtain ⟨p, _, same⟩ := List.any_eq_true.mp hit
      have key := of_decide_eq_true same
      simp only [VersionCols.key, Prod.mk.injEq] at key
      simp [hit, covers r key.1 key.2.1]
    · simp [hit]
  have freed : (((db.tables kind).records.select gone).map size).sum =
      ((prunedRows db kind pk v.name maxVersions).map size).sum :=
    List.Perm.sum_eq ((prunedRows_selected db kind pk v.name maxVersions).map _)
  have whole := sum_split size gone (records.select covered)
  have grown : ((records.select covered).map size).sum =
      (((db.tables kind).records.select covered).map size).sum + size (v.cols pk) := by
    rw [Table.select_insert inserted, List.filter_cons_of_pos own, List.map_append, List.sum_append]
    simp
  rw [goneRows, freed, ← leftRows, grown] at whole
  omega

/-- A stored version is counted, and the pruned ones no longer are. -/
theorem Stored.bytesIn {db after : Db} {kind : RecordKind} {pk : VaultPk} {v : Insert} {tombstone : Bool}
    {maxVersions total : Nat} (stored : Stored db after kind pk v tombstone (prunable db kind pk v.name maxVersions) total) :
    after.bytesIn kind pk + freedBytes (prunable db kind pk v.name maxVersions) =
      db.bytesIn kind pk + (v.nameCt.length + (v.valueCt.map List.length).getD 0) := by
  rw [freedBytes_prunable]
  exact stored.measure VersionCols.size (fun r => r.vaultPk = pk) fun r mine _ => decide_eq_true mine

omit [Digests] in
/-- A vault whose rows stayed counts what it counted. -/
theorem Accounted.elsewhere {db after : Db} {pk : VaultPk} {v : VaultCols} (accounted : Accounted db)
    (same : after.rowsWhere (fun q => q = pk) = db.rowsWhere fun q => q = pk) (found : after.vaults.find? pk = some v) :
    v.bytesUsed = after.bytesOf pk := by
  rw [Db.bytesOf, bytesIn_of_rows same, bytesIn_of_rows same]
  rw [(Db.find?_of_rows same).1] at found
  exact accounted pk v found

/-- The versions of one kind after a rotation are the batch's. -/
theorem Replaced.versionsIn {db after : Db} {kind : RecordKind} {pk : VaultPk} {generation : Nat}
    {rows : List Rewritten} (replaced : Replaced db after kind pk generation rows) :
    after.versionsIn kind pk = rows.map fun r => (r.toInsert generation).cols pk := by
  have others : ((db.tables kind).records.rows.filter fun v => !decide (v.vaultPk = pk)).filter
      (fun v => decide (v.vaultPk = pk)) = [] := by
    rw [List.filter_filter, List.filter_eq_nil_iff]
    intro v _
    simp
  have own : (rows.map fun r => (r.toInsert generation).cols pk).filter (fun v => decide (v.vaultPk = pk)) =
      rows.map fun r => (r.toInsert generation).cols pk := by
    rw [List.filter_eq_self]
    intro v member
    obtain ⟨r, _, rfl⟩ := List.mem_map.mp member
    simp [Insert.cols]
  rw [Db.versionsIn, Table.select, replaced.records, List.filter_append, others, own, List.nil_append]

theorem Replaced.bytesIn {db after : Db} {kind : RecordKind} {pk : VaultPk} {generation : Nat} {rows : List Rewritten}
    (replaced : Replaced db after kind pk generation rows) : after.bytesIn kind pk = (rows.map Rewritten.size).sum := by
  rw [Db.bytesIn, replaced.versionsIn, List.map_map]
  rfl

theorem Accounted.stored {db after : Db} {kind : RecordKind} {vault : VaultRow} {name : NameHmac} {w : RecordWrite}
    {next : Nat} {writer : Actor} {limits : Limits} (accounted : Accounted db)
    (loaded : db.loadVault vault.pk = some vault)
    (stored : Stored db after kind vault.pk (w.toInsert name next writer) w.valueCt.isNone
      (prunable db kind vault.pk name (kind.maxVersions limits)) (totalAfter db kind vault name w limits))
    (script : Script vault.pk [.records kind, .bytes, .audit] db after) : Accounted after := by
  intro pk v found
  by_cases same : pk = vault.pk
  · subst same
    obtain ⟨_, row, _, foundAfter, _, total, _⟩ := stored.vault
    obtain rfl := Option.some.inj (found.symm.trans foundAfter)
    obtain ⟨old, foundOld, _, _, _, bytes⟩ := Db.loadVault_found loaded
    have counted := accounted vault.pk old foundOld
    have freed := freedBytes_le db kind vault.pk name (kind.maxVersions limits)
    have moved := stored.bytesIn
    have size : w.size = w.nameCt.length + (w.valueCt.map List.length).getD 0 := rfl
    rw [total, totalAfter, bytes, counted, size]
    simp only [RecordWrite.toInsert] at moved
    -- The other kind's versions are not written.
    have other : ∀ kind', kind' ≠ kind → after.bytesIn kind' vault.pk = db.bytesIn kind' vault.pk := by
      intro kind' apart
      rw [Db.bytesIn, Db.bytesIn, Db.versionsIn, Db.versionsIn, script.tables_same kind' (by simpa using apart)]
    cases kind with
    | secret =>
      have kept := other .config (by decide)
      unfold Db.bytesOf at freed ⊢
      omega
    | config =>
      have kept := other .secret (by decide)
      unfold Db.bytesOf at freed ⊢
      omega
  · exact accounted.elsewhere (script.rowsWhere (by simpa using Ne.symm same)) found

theorem Accounted.rotated {db after : Db} {vault : VaultRow} {r : RotationRequest} {ctx : Ctx} {generation : Nat}
    (accounted : Accounted db) (loaded : db.loadVault vault.pk = some vault)
    (ran : (applyBatch vault r ctx).run db = .ok (generation, after)) : Accounted after := by
  have scripts : Keeps (Script vault.pk rotationTargets) (applyBatch vault r ctx) := applyBatch_script vault r ctx rfl
  have script := scripts _ _ _ ran
  obtain ⟨_, applied⟩ := applyBatch_ok ran
  intro pk v found
  by_cases same : pk = vault.pk
  · subst same
    obtain ⟨old, foundOld, _⟩ := Db.loadVault_found loaded
    obtain ⟨v', foundAfter, sameRow⟩ := applied.vault old foundOld
    obtain rfl := Option.some.inj (found.symm.trans foundAfter)
    have counted : v.bytesUsed = (r.secrets.map rotatedSize).sum + (r.configs.map rotatedSize).sum :=
      congrArg VaultCols.bytesUsed sameRow
    rw [counted, Db.bytesOf, applied.secrets.replaced.bytesIn, applied.configs.replaced.bytesIn, rewritten_size,
      rewritten_size]
  · exact accounted.elsewhere (script.rowsWhere (by simpa using Ne.symm same)) found

theorem Accounted.created {db after : Db} {v : NewVault} {now : Int} {vaults : Table VaultCols.pk}
    {descriptors : Table DescriptorCols.key} {e : AuditEvent} (accounted : Accounted db) (homed : Homed db)
    (inserted : db.vaults.insert (v.cols db.nextPk now) = some vaults)
    (audited : (appendAudit db.nextPk e now).run { db with vaults := vaults, descriptors := descriptors } =
      .ok ((), after)) : Accounted after := by
  have audits : Keeps (Script db.nextPk [.audit]) (appendAudit db.nextPk e now) := appendAudit_script e now
  refine Accounted.script ?_ (audits _ _ _ audited) (by simp)
  -- No version waits under the new row number.
  have alone : ∀ kind, db.bytesIn kind db.nextPk = 0 := by
    intro kind
    have absent : db.versionsIn kind db.nextPk = [] := by
      rw [Db.versionsIn, Table.select, List.filter_eq_nil_iff]
      intro row member mine
      have present := homed.records kind row member
      rw [of_decide_eq_true mine, Db.hasVault, db.nextPk_fresh] at present
      exact Bool.false_ne_true present
    rw [Db.bytesIn, absent]
    rfl
  intro pk row found
  change vaults.find? pk = some row at found
  change row.bytesUsed = db.bytesOf pk
  rw [Table.find?_insert inserted] at found
  split at found
  · next same =>
    obtain rfl := Option.some.inj found
    obtain rfl : db.nextPk = pk := same
    rw [Db.bytesOf, alone, alone]
    rfl
  · exact accounted pk row found

omit [Digests] in
theorem Accounted.deleted {db : Db} (accounted : Accounted db) (p : VaultCols → Bool) (seq : Nat) :
    Accounted { db.deleteVaults p with lastApplied := seq } := by
  intro pk v found
  have stays : { db.deleteVaults p with lastApplied := seq }.hasVault pk = true := Db.hasVault_iff.mpr ⟨v, found⟩
  have same : (db.deleteVaults p).rowsWhere (fun q => q = pk) = db.rowsWhere fun q => q = pk :=
    Db.rowsWhere_deleteVaults db fun w member selected => by simpa using Db.spared seq stays w member selected
  exact accounted.elsewhere same found

omit [Digests] in
theorem Accounted.tokens {db : Db} (accounted : Accounted db) (tokens : Table TokenRow.tokenId) :
    Accounted { db with tokens := tokens } := accounted

/-- Every change keeps every count right. -/
theorem Change.accounted {σ : Type} {call : Call σ} {db after : Db} (change : Change call db after)
    (accounted : Accounted db) (homed : Homed db) : Accounted after := by
  cases change with
  | idle => exact accounted
  | minor included script => exact accounted.script script included
  | spent table => exact accounted
  | created fresh inserted described audited => exact accounted.created homed inserted audited
  | registered asked loaded current room inserted script =>
    exact (accounted.tokens _).script script fun _ => id
  | revoked mine script => exact (accounted.tokens _).script script fun _ => id
  | stored writer limited loaded current assigned fits live stored script => exact accounted.stored loaded stored script
  | rotated asked loaded current checked applied =>
    have counted := accounted.rotated loaded applied
    exact counted
  | deleted p seq => exact accounted.deleted p seq

theorem run_accounted {σ : Type} (journal : σ) (calls : List (Call σ)) :
    Accounted (run ⟨Db.empty, journal⟩ calls).db := by
  have both : Accounted (run ⟨Db.empty, journal⟩ calls).db ∧ Homed (run ⟨Db.empty, journal⟩ calls).db := by
    have initial : Accounted Db.empty ∧ Homed Db.empty := by
      refine ⟨?_, .initial⟩
      intro pk v found
      cases found
    refine run_induction (P := fun db => Accounted db ∧ Homed db) initial (fun world call kept => ?_) calls
    exact ⟨(step_change world call).accounted kept.1 kept.2, (step_effect world call).homed kept.2⟩
  exact both.1

/-- In every database a run reaches, a vault's count is the bytes of its retained
versions; what a put or a delete frees, under any limits, is part of that count. -/
theorem bytes_used_of_run {σ : Type} (journal : σ) (calls : List (Call σ)) :
    (∀ pk v, (run ⟨Db.empty, journal⟩ calls).db.vaults.find? pk = some v →
      v.bytesUsed = (run ⟨Db.empty, journal⟩ calls).db.bytesOf pk) ∧
    ∀ pk vault, (run ⟨Db.empty, journal⟩ calls).db.loadVault pk = some vault →
      ∀ kind name (limits : Limits),
        freedBytes (prunable (run ⟨Db.empty, journal⟩ calls).db kind pk name (kind.maxVersions limits)) ≤
          vault.bytesUsed := by
  have accounted := run_accounted journal calls
  refine ⟨accounted, ?_⟩
  intro pk vault loaded kind name limits
  obtain ⟨v, found, _, _, _, bytes⟩ := Db.loadVault_found loaded
  rw [bytes, accounted pk v found]
  exact freedBytes_le _ kind pk name _

end GalataVault.Backend

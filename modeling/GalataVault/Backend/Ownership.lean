import GalataVault.Backend.Changes

/-!
# Rows belong to vaults

With foreign keys on, every descriptor, token, stored version and head belongs to
a vault that is there. A new vault's number therefore starts without any, whoever
had it before.
-/

namespace GalataVault.Backend

open Proto Relational Relational.Transaction

/-- Every row of a child table belongs to a vault. -/
structure Homed (db : Db) : Prop where
  descriptors : ∀ d ∈ db.descriptors.rows, db.hasVault d.vaultPk = true
  tokens : ∀ t ∈ db.tokens.rows, db.hasVault t.vaultPk = true
  records : ∀ kind, ∀ v ∈ (db.tables kind).records.rows, db.hasVault v.vaultPk = true
  heads : ∀ kind, ∀ h ∈ (db.tables kind).heads.rows, db.hasVault h.vaultPk = true

namespace Homed

theorem initial : Homed Db.empty where
  descriptors _ member := absurd member List.not_mem_nil
  tokens _ member := absurd member List.not_mem_nil
  records kind _ member := by cases kind <;> exact absurd member List.not_mem_nil
  heads kind _ member := by cases kind <;> exact absurd member List.not_mem_nil

/-- Rows that were there, or belong to a vault that was, are at home as long as no vault
goes. -/
theorem of_rows {db after : Db} (homed : Homed db) (stays : ∀ pk, db.hasVault pk = true → after.hasVault pk = true)
    (descriptors : ∀ d ∈ after.descriptors.rows, d ∈ db.descriptors.rows ∨ db.hasVault d.vaultPk = true)
    (tokens : ∀ t ∈ after.tokens.rows, (∃ old ∈ db.tokens.rows, old.vaultPk = t.vaultPk) ∨ db.hasVault t.vaultPk = true)
    (records : ∀ kind, ∀ v ∈ (after.tables kind).records.rows,
      v ∈ (db.tables kind).records.rows ∨ db.hasVault v.vaultPk = true)
    (heads : ∀ kind, ∀ h ∈ (after.tables kind).heads.rows,
      h ∈ (db.tables kind).heads.rows ∨ db.hasVault h.vaultPk = true) : Homed after where
  descriptors d member := stays _ <| (descriptors d member).elim (homed.descriptors d) id
  tokens t member := by
    apply stays
    rcases tokens t member with ⟨old, present, same⟩ | present
    · exact same ▸ homed.tokens old present
    · exact present
  records kind v member := stays _ <| (records kind v member).elim (homed.records kind v) id
  heads kind h member := stays _ <| (heads kind h member).elim (homed.heads kind h) id

/-- Replacing one kind's tables by rows that are at home. -/
theorem withTables {db : Db} (homed : Homed db) (kind : RecordKind) (tables : RecordTables)
    (records : ∀ v ∈ tables.records.rows, v ∈ (db.tables kind).records.rows ∨ db.hasVault v.vaultPk = true)
    (heads : ∀ h ∈ tables.heads.rows, h ∈ (db.tables kind).heads.rows ∨ db.hasVault h.vaultPk = true) :
    Homed (db.withTables kind tables) := by
  have vaults := db.withTables_vaults kind tables
  refine homed.of_rows (fun pk present => by rw [Db.hasVault, vaults]; exact present) ?_ ?_ ?_ ?_
  · cases kind <;> exact fun d member => .inl member
  · cases kind <;> exact fun t member => .inl ⟨t, member, rfl⟩
  · intro other v member
    by_cases same : other = kind
    · subst same
      rw [Db.tables_withTables_same] at member
      exact records v member
    · rw [Db.tables_withTables_other db same] at member
      exact .inl member
  · intro other h member
    by_cases same : other = kind
    · subst same
      rw [Db.tables_withTables_same] at member
      exact heads h member
    · rw [Db.tables_withTables_other db same] at member
      exact .inl member

end Homed

variable [Digests]

theorem Stmt.hasVault {pk : VaultPk} {target : Target} {db after : Db} (stmt : Stmt pk db target after)
    {q : VaultPk} (present : db.hasVault q = true) : after.hasVault q = true := by
  obtain ⟨v, found⟩ := Db.hasVault_iff.mp present
  obtain ⟨v', found', _⟩ := stmt.vaultsLater.find? found
  exact Db.hasVault_iff.mpr ⟨v', found'⟩

/-- Statements insert rows of vaults that are there, and take no vault away. -/
theorem Stmt.homed {pk : VaultPk} {target : Target} {db after : Db} (stmt : Stmt pk db target after)
    (homed : Homed db) : Homed after := by
  have stays : ∀ q, db.hasVault q = true → after.hasVault q = true := fun _ => stmt.hasVault
  cases stmt with
  | appendAudit | updateVault | countBytes | rotateVault | setChildren | setApplied =>
    refine homed.of_rows stays (fun d member => .inl member) (fun t member => .inl ⟨t, member, rfl⟩) ?_ ?_
    · intro kind v member
      cases kind <;> exact .inl member
    · intro kind h member
      cases kind <;> exact .inl member
  | insertVersion kind v records inserted present =>
    refine homed.withTables kind _ (fun row member => ?_) (fun h member => .inl member)
    rw [(Table.insert_eq_some.mp inserted).2, List.mem_append, List.mem_singleton] at member
    rcases member with old | rfl
    · exact .inl old
    · exact .inr present
  | setHead kind name version tombstone present =>
    refine homed.withTables kind _ (fun row member => .inl member) (fun h member => ?_)
    have found := Table.find?_eq_some.mpr ⟨member, rfl⟩
    rw [Table.find?_upsert] at found
    split at found
    · obtain rfl := Option.some.inj found
      exact .inr present
    · exact .inl (Table.find?_eq_some.mp found).1
  | deleteVersion kind name version =>
    exact homed.withTables kind _ (fun row member => .inl (List.mem_filter.mp member).1) fun h member => .inl member
  | clearRecords kind =>
    exact homed.withTables kind _ (fun row member => .inl (List.mem_filter.mp member).1) fun h member =>
      .inl (List.mem_filter.mp member).1
  | insertToken row tokens inserted mine present =>
    refine homed.of_rows stays (fun d member => .inl member) (fun t member => ?_)
      (fun kind v member => by cases kind <;> exact .inl member) fun kind h member => by cases kind <;> exact .inl member
    change t ∈ tokens.rows at member
    rw [(Table.insert_eq_some.mp inserted).2, List.mem_append, List.mem_singleton] at member
    rcases member with old | rfl
    · exact .inl ⟨t, old, rfl⟩
    · exact .inr (mine ▸ present)
  | deleteToken id =>
    exact homed.of_rows stays (fun d member => .inl member)
      (fun t member => .inl ⟨t, (List.mem_filter.mp member).1, rfl⟩)
      (fun kind v member => by cases kind <;> exact .inl member) fun kind h member => by cases kind <;> exact .inl member
  | resealToken generation t =>
    refine homed.of_rows stays (fun d member => .inl member) (fun row member => ?_)
      (fun kind v member => by cases kind <;> exact .inl member) fun kind h member => by cases kind <;> exact .inl member
    obtain ⟨old, present, rfl⟩ := List.mem_map.mp member
    refine .inl ⟨old, present, ?_⟩
    unfold Table.rewrite
    split <;> rfl
  | insertDescriptor generation d descriptors inserted present =>
    refine homed.of_rows stays (fun row member => ?_) (fun t member => .inl ⟨t, member, rfl⟩)
      (fun kind v member => by cases kind <;> exact .inl member) fun kind h member => by cases kind <;> exact .inl member
    change row ∈ descriptors.rows at member
    rw [(Table.insert_eq_some.mp inserted).2, List.mem_append, List.mem_singleton] at member
    rcases member with old | rfl
    · exact .inl old
    · exact .inr present

theorem Script.homed {pk : VaultPk} {targets : List Target} {db after : Db} (script : Script pk targets db after)
    (homed : Homed db) : Homed after := by
  induction script with
  | refl => exact homed
  | tail _ last inductionHypothesis =>
    obtain ⟨_, _, stmt⟩ := last
    exact stmt.homed inductionHypothesis

omit [Digests] in
/-- A deletion takes the rows of the vaults it deletes. -/
theorem Homed.deleted {db : Db} (homed : Homed db) (p : VaultCols → Bool) (seq : Nat) :
    Homed { db.deleteVaults p with lastApplied := seq } := by
  have kept : ∀ pk, db.hasVault pk = true → (db.vaults.select p).any (fun v => v.pk = pk) = false →
      (db.deleteVaults p).hasVault pk = true := by
    intro pk present spared
    obtain ⟨v, found⟩ := Db.hasVault_iff.mp present
    obtain ⟨member, same⟩ := Table.find?_eq_some.mp found
    have survives : p v = false := by
      by_contra hit
      rw [List.any_eq_false] at spared
      exact spared v (List.mem_filter.mpr ⟨member, by simpa using hit⟩) (by simpa using same)
    refine Db.hasVault_iff.mpr ⟨v, ?_⟩
    change (db.vaults.deleteWhere p).find? pk = some v
    rw [Table.find?_deleteWhere, found, Option.filter_some, survives]
    rfl
  constructor
  · intro d member
    obtain ⟨present, spared⟩ := List.mem_filter.mp member
    exact kept _ (homed.descriptors d present) (by simpa using spared)
  · intro t member
    obtain ⟨present, spared⟩ := List.mem_filter.mp member
    exact kept _ (homed.tokens t present) (by simpa using spared)
  · intro kind v member
    have member : v ∈ ((db.tables kind).records.deleteWhere fun v =>
        (db.vaults.select p).any fun w => w.pk = v.vaultPk).rows := by cases kind <;> exact member
    obtain ⟨present, spared⟩ := List.mem_filter.mp member
    exact kept _ (homed.records kind v present) (by simpa using spared)
  · intro kind h member
    have member : h ∈ ((db.tables kind).heads.deleteWhere fun h =>
        (db.vaults.select p).any fun w => w.pk = h.vaultPk).rows := by cases kind <;> exact member
    obtain ⟨present, spared⟩ := List.mem_filter.mp member
    exact kept _ (homed.heads kind h present) (by simpa using spared)

theorem Effect.homed {reach : Reach} {db after : Db} (effect : Effect reach db after) (homed : Homed db) :
    Homed after := by
  cases effect with
  | none => exact homed
  | script pk mine script => exact script.homed homed
  | spent table =>
    exact homed.of_rows (fun _ => id) (fun d member => .inl member) (fun t member => .inl ⟨t, member, rfl⟩)
      (fun kind v member => by cases kind <;> exact .inl member) fun kind h member => by cases kind <;> exact .inl member
  | deleted p seq mine => exact homed.deleted p seq
  | created v now vaults descriptors e alone fresh inserted described audited =>
    have audits : Keeps (Script db.nextPk [.audit]) (appendAudit db.nextPk e now) := appendAudit_script e now
    have grown : ∀ pk, vaults.find? pk = if db.nextPk = pk then some (v.cols db.nextPk now) else db.vaults.find? pk :=
      fun pk => Table.find?_insert inserted pk
    have stays : ∀ pk, db.hasVault pk = true →
        ({ db with vaults := vaults, descriptors := descriptors } : Db).hasVault pk = true := by
      intro pk present
      rw [Db.hasVault, grown]
      split
      · rfl
      · exact present
    refine (audits _ _ _ audited).homed ?_
    constructor
    · intro d member
      rw [(Table.insert_eq_some.mp described).2, List.mem_append, List.mem_singleton] at member
      rcases member with old | rfl
      · exact stays _ (homed.descriptors d old)
      · rw [Db.hasVault, grown, if_pos rfl]
        rfl
    · exact fun t member => stays _ (homed.tokens t member)
    · intro kind v member
      exact stays _ (homed.records kind v (by cases kind <;> exact member))
    · intro kind h member
      exact stays _ (homed.heads kind h (by cases kind <;> exact member))

/-- In every database a run reaches, every row is at home. -/
theorem run_homed {σ : Type} (journal : σ) (calls : List (Call σ)) : Homed (run ⟨Db.empty, journal⟩ calls).db :=
  run_induction (P := Homed) .initial (fun world call homed => (step_effect world call).homed homed) calls

end GalataVault.Backend

import GalataVault.Backend.Rotations

/-!
# Heads and versions

In every state a run of the store reaches, a name has a head exactly when it has a
version; the head is its largest version, and they agree on being a tombstone.
A write keeps this by assigning the version after the head and pruning only older
ones, a rotation by collecting heads from the batch it inserts, and a deletion by
taking a vault's versions and heads together.
-/

namespace GalataVault.Backend

open Proto Relational Relational.Transaction

/-- A head is a stored version, and no version of its name is larger. -/
structure HeadsLead (db : Db) : Prop where
  leads : ∀ kind pk name version tombstone, db.loadHead kind pk name = some (version, tombstone) →
    ∃ row, recordVersion pk kind name version db = some row ∧ row.tombstone = tombstone
  largest : ∀ kind pk name version row, recordVersion pk kind name version db = some row →
    ∃ head tombstone, db.loadHead kind pk name = some (head, tombstone) ∧ version ≤ head

theorem HeadsLead.of_tables {db after : Db} (lead : HeadsLead db)
    (same : ∀ kind, after.tables kind = db.tables kind) : HeadsLead after where
  leads kind pk name version tombstone := by
    simp only [Db.loadHead, recordVersion, same]
    exact lead.leads kind pk name version tombstone
  largest kind pk name version row := by
    simp only [Db.loadHead, recordVersion, same]
    exact lead.largest kind pk name version row

theorem headsLead_empty : HeadsLead Db.empty where
  leads kind pk name version tombstone found := by cases kind <;> cases found
  largest kind pk name version row found := by cases kind <;> cases found

variable [Digests]

/-- A write of the version after the head keeps heads leading. -/
theorem HeadsLead.creates {db after : Db} {kind : RecordKind} {pk : VaultPk} {v : Insert} (lead : HeadsLead db)
    (next : v.version = db.headVersion kind pk v.name + 1) (made : Creates db after kind pk v) :
    HeadsLead after := by
  constructor
  · intro other owner name version tombstone head
    by_cases sameKind : other = kind
    · subst sameKind
      by_cases same : (owner, name) = (pk, v.name)
      · obtain ⟨rfl, rfl⟩ := Prod.mk.inj same
        rw [made.head, Option.some.injEq, Prod.mk.injEq] at head
        obtain ⟨rfl, rfl⟩ := head
        exact ⟨_, made.stored, rfl⟩
      · rw [made.heads owner name same] at head
        obtain ⟨row, stored, agrees⟩ := lead.leads other owner name version tombstone head
        rcases made.kept owner name version (fun hit => same (by simp_all)) with kept | ⟨rfl, rfl, _⟩
        · exact ⟨row, kept.trans stored, agrees⟩
        · exact absurd rfl same
    · have elsewhere := made.elsewhere other sameKind
      rw [Db.loadHead, elsewhere] at head
      rw [recordVersion, elsewhere]
      exact lead.leads other owner name version tombstone head
  · intro other owner name version row stored
    by_cases sameKind : other = kind
    · subst sameKind
      by_cases fresh : (owner, name, version) = (pk, v.name, v.version)
      · obtain ⟨rfl, rest⟩ := Prod.mk.inj fresh
        obtain ⟨rfl, rfl⟩ := Prod.mk.inj rest
        exact ⟨_, _, made.head, Nat.le_refl _⟩
      · rcases made.kept owner name version fresh with kept | ⟨_, _, pruned⟩
        · obtain ⟨head, tombstone, found, below⟩ := lead.largest other owner name version row (kept ▸ stored)
          by_cases same : (owner, name) = (pk, v.name)
          · obtain ⟨rfl, rfl⟩ := Prod.mk.inj same
            refine ⟨_, _, made.head, ?_⟩
            rw [Db.headVersion, found] at next
            simp only [Option.map_some, Option.getD_some] at next
            omega
          · exact ⟨head, tombstone, (made.heads owner name same).trans found, below⟩
        · rw [pruned] at stored
          exact absurd stored.symm (Option.some_ne_none _)
    · have elsewhere := made.elsewhere other sameKind
      rw [recordVersion, elsewhere] at stored
      rw [Db.loadHead, elsewhere]
      exact lead.largest other owner name version row stored

/-! ## Looking up replaced records -/

section Replaced

variable {db after : Db} {kind : RecordKind} {pk : VaultPk} {generation : Nat} {rows : List Rewritten}

theorem Replaced.recordVersion_other (replaced : Replaced db after kind pk generation rows) {other : VaultPk}
    (apart : other ≠ pk) (name : NameHmac) (version : Nat) :
    recordVersion other kind name version after = recordVersion other kind name version db := by
  have inside : ∀ row : VersionCols, row.key = (other, name, version) → decide (row.vaultPk = other) = true :=
    fun _ hit => decide_eq_true (congrArg Prod.fst hit)
  rw [recordVersion, recordVersion]
  refine congrArg _ (Table.find?_eq_of_select ?_ inside)
  simp only [Table.select, replaced.records, List.filter_append, List.filter_filter]
  have none_mine : (rows.map fun r => (r.toInsert generation).cols pk).filter
      (fun row => decide (row.vaultPk = other)) = [] := by
    rw [List.filter_eq_nil_iff]
    rintro _ member
    obtain ⟨r, _, rfl⟩ := List.mem_map.mp member
    simp [Insert.cols, Ne.symm apart]
  rw [none_mine, List.append_nil]
  refine List.filter_congr fun row _ => ?_
  by_cases mine : row.vaultPk = other
  · simp [mine, apart]
  · simp [mine]

theorem Replaced.recordVersion_own (replaced : Replaced db after kind pk generation rows) {name : NameHmac}
    {version : Nat} {row : VersionRow} :
    recordVersion pk kind name version after = some row ↔
      ∃ r ∈ rows, r.name = name ∧ r.version = version ∧ row = ((r.toInsert generation).cols pk).row := by
  rw [recordVersion, Option.map_eq_some_iff]
  constructor
  · rintro ⟨cols, found, rfl⟩
    obtain ⟨member, key⟩ := Table.find?_eq_some.mp found
    rw [replaced.records, List.mem_append] at member
    rcases member with old | new
    · have mine : cols.vaultPk = pk := congrArg Prod.fst key
      have kept := (List.mem_filter.mp old).2
      simp [mine] at kept
    · obtain ⟨r, present, rfl⟩ := List.mem_map.mp new
      simp only [VersionCols.key, Insert.cols, Rewritten.toInsert, Prod.mk.injEq, true_and] at key
      exact ⟨r, present, key.1, key.2, rfl⟩
  · rintro ⟨r, present, rfl, rfl, rfl⟩
    refine ⟨(r.toInsert generation).cols pk, Table.find?_eq_some.mpr ⟨?_, rfl⟩, rfl⟩
    rw [replaced.records]
    exact List.mem_append_right _ (List.mem_map_of_mem present)

end Replaced

/-- Replacing both kinds of records keeps heads leading. -/
theorem HeadsLead.applied {db after : Db} {pk : VaultPk} {r : RotationRequest} {ctx : Ctx} (lead : HeadsLead db)
    (applied : Applied pk r ctx db after) : HeadsLead after := by
  have replaced : ∀ kind, ∃ rows, Replaced db after kind pk (r.fromGeneration + 1) rows := by
    intro kind
    cases kind with
    | secret => exact ⟨_, applied.secrets.replaced⟩
    | config => exact ⟨_, applied.configs.replaced⟩
  constructor
  · intro kind owner name version tombstone head
    obtain ⟨rows, replaced⟩ := replaced kind
    by_cases mine : owner = pk
    · subst mine
      obtain ⟨h, found, same⟩ := Option.map_eq_some_iff.mp head
      obtain ⟨entry, present, named, rfl, _⟩ := replaced.led name h found
      simp only [Prod.mk.injEq] at same
      obtain ⟨rfl, rfl⟩ := same
      exact ⟨_, replaced.recordVersion_own.mpr ⟨entry, present, named, rfl, rfl⟩, rfl⟩
    · rw [Db.loadHead, replaced.others owner name mine] at head
      rw [replaced.recordVersion_other mine]
      exact lead.leads kind owner name version tombstone head
  · intro kind owner name version row stored
    obtain ⟨rows, replaced⟩ := replaced kind
    by_cases mine : owner = pk
    · subst mine
      obtain ⟨entry, present, rfl, rfl, rfl⟩ := replaced.recordVersion_own.mp stored
      obtain ⟨h, found⟩ := Option.isSome_iff_exists.mp (replaced.covered entry present)
      obtain ⟨leader, _, _, rfl, largest⟩ := replaced.led entry.name h found
      exact ⟨leader.version, leader.valueCt.isNone, by rw [Db.loadHead, found]; rfl, largest entry present rfl⟩
    · rw [replaced.recordVersion_other mine] at stored
      rw [Db.loadHead, replaced.others owner name mine]
      exact lead.largest kind owner name version row stored

omit [Digests] in
/-- What a deletion leaves of a vault's records: nothing if it is deleted, everything
otherwise. -/
theorem Db.deleteVaults_records (db : Db) (gone : VaultCols → Bool) (kind : RecordKind) (pk : VaultPk)
    (name : NameHmac) (version : Nat) :
    ((db.deleteVaults gone).loadHead kind pk name =
        if (db.vaults.select gone).any (fun v => v.pk = pk) then none else db.loadHead kind pk name) ∧
      recordVersion pk kind name version (db.deleteVaults gone) =
        if (db.vaults.select gone).any (fun v => v.pk = pk) then none
        else recordVersion pk kind name version db := by
  have tables : (db.deleteVaults gone).tables kind =
      { records := (db.tables kind).records.deleteWhere fun r =>
          (db.vaults.select gone).any fun v => v.pk = r.vaultPk
        heads := (db.tables kind).heads.deleteWhere fun h =>
          (db.vaults.select gone).any fun v => v.pk = h.vaultPk } := by cases kind <;> rfl
  constructor
  · rw [Db.loadHead, Db.loadHead, tables, Table.find?_deleteWhere]
    cases found : (db.tables kind).heads.find? (pk, name) with
    | none => simp
    | some h =>
      have owner : h.vaultPk = pk := congrArg Prod.fst (Table.find?_eq_some.mp found).2
      rw [Option.filter_some, owner]
      cases (db.vaults.select gone).any fun v => v.pk = pk <;> rfl
  · rw [recordVersion, recordVersion, tables, Table.find?_deleteWhere]
    cases found : (db.tables kind).records.find? (pk, name, version) with
    | none => simp
    | some r =>
      have owner : r.vaultPk = pk := congrArg Prod.fst (Table.find?_eq_some.mp found).2
      rw [Option.filter_some, owner]
      cases (db.vaults.select gone).any fun v => v.pk = pk <;> rfl

omit [Digests] in
/-- A deletion takes the versions and the heads of the same vaults. -/
theorem HeadsLead.deleted {db : Db} (lead : HeadsLead db) (gone : VaultCols → Bool) :
    HeadsLead (db.deleteVaults gone) := by
  constructor
  · intro kind pk name version tombstone head
    obtain ⟨heads, records⟩ := db.deleteVaults_records gone kind pk name version
    rw [heads] at head
    rw [records]
    split at head
    · cases head
    · next kept =>
      rw [if_neg kept]
      exact lead.leads kind pk name version tombstone head
  · intro kind pk name version row stored
    obtain ⟨heads, records⟩ := db.deleteVaults_records gone kind pk name version
    rw [records] at stored
    rw [heads]
    split at stored
    · cases stored
    · next kept =>
      rw [if_neg kept]
      exact lead.largest kind pk name version row stored

/-! ## Every reached state -/

/-- An effect that writes no records but those a deletion takes keeps heads leading. -/
theorem Effect.headsLead {reach : Reach} {db after : Db} (effect : Effect reach db after) (lead : HeadsLead db)
    (off : ∀ kind, .records kind ∉ reach.targets) : HeadsLead after := by
  cases effect with
  | none => exact lead
  | script pk mine script => exact lead.of_tables fun kind => script.tables_same kind (off kind)
  | created v now vaults descriptors e _ fresh inserted described audited =>
    exact lead.of_tables fun kind => (appendAudit_tables audited kind).trans (by cases kind <;> rfl)
  | deleted gone seq mine => exact (lead.deleted gone).of_tables fun kind => by cases kind <;> rfl
  | spent table => exact lead.of_tables fun kind => by cases kind <;> rfl

/-- Every step keeps heads leading. -/
theorem step_headsLead {σ : Type} (world : World σ) (call : Call σ) (lead : HeadsLead world.db) :
    HeadsLead (step world call).db := by
  cases call with
  | putRecord disk pk kind name pre w ctx limits =>
    cases answer : (putRecord disk pk kind name pre w ctx limits world.db).1 with
    | error failure => exact lead.of_tables (putRecord_refused answer)
    | ok version =>
      obtain ⟨names, made⟩ := putRecord_accepted answer
      exact lead.creates names.next made
  | deleteRecord disk pk kind name ifMatch w ctx limits =>
    cases answer : (deleteRecord disk pk kind name ifMatch w ctx limits world.db).1 with
    | error failure => exact lead.of_tables (deleteRecord_refused answer)
    | ok version =>
      obtain ⟨names, made⟩ := deleteRecord_accepted answer
      exact lead.creates names.next made
  | applyRotation disk hook pk r ctx =>
    cases answer : (applyRotation disk hook pk r ctx world.db world.journal).1 with
    | error failure =>
      have same := writeCritical_refused answer
      exact lead.of_tables fun kind => congrArg (Db.tables · kind) same
    | ok generation =>
      obtain ⟨record, ran⟩ := writeCritical_accepted answer
      obtain ⟨vault, middle, _, _, applied, _, outcome⟩ := applyRotationBody_ok ran
      have later : HeadsLead middle := lead.applied (applyBatch_ok applied).2
      refine later.of_tables fun kind => ?_
      change (applyRotation disk hook pk r ctx world.db world.journal).2.1.tables kind = _
      rw [applyRotation, outcome]
      cases kind <;> rfl
  | replay disk record =>
    change HeadsLead (replay disk record world.db).2
    rcases write_cases disk (replayBody record) world.db with ⟨_, outcome⟩ | ⟨_, after, ran, _, outcome⟩
    · rw [replay, outcome]
      exact lead
    · rw [replay, outcome]
      rcases replayBody_cases ran with ⟨_, rfl⟩ | ⟨_, _, middle, replayed, rfl⟩
      · exact lead
      · have marked : HeadsLead middle → HeadsLead { middle with lastApplied := record.seq } :=
          fun lead => lead.of_tables fun kind => by cases kind <;> rfl
        refine marked ?_
        cases replayOp_ok replayed with
        | skipped => exact lead
        | revoked vaultId tokenIds actor reported named found deletes audits raised =>
          exact lead.of_tables fun kind => (revoked_script deletes audits raised).tables_same kind
        | rotated vaultId actor request named found current applied =>
          exact lead.applied (applyBatch_ok applied).2
        | deleted vaultId named => exact lead.deleted _
  | createVault | touch | registerToken | revokeTokens | putChildren | record | deleteVault | spend =>
    refine (step_effect world _).headsLead lead fun kind => ?_
    simp [Call.reach, Reach.at]

/-- Every database that a run from the empty one reaches has its heads leading. -/
theorem run_headsLead {σ : Type} (journal : σ) (calls : List (Call σ)) :
    HeadsLead (run ⟨Db.empty, journal⟩ calls).db :=
  run_induction headsLead_empty step_headsLead calls

end GalataVault.Backend

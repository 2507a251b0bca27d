import GalataVault.Backend.Ownership
import GalataVault.Backend.Renaming
import Mathlib.Order.Interval.Set.OrdConnected

/-!
# What the four tables of a vault agree on

Heads, versions, descriptors and the vault's row are written apart and read
together. In every state that live operations and replays of journaled records
reach, each name's versions are an interval of positive numbers that ends in its
head, every version is of the vault's generation, and the descriptors are those of
the generations up to it.

A rotation joins histories if it gives two old names one new name, and the server
does not refuse that. The interval survives rotations that keep the versions of a
name together and different names apart, live or replayed.
-/

namespace GalataVault.Backend

open Proto Relational Relational.Transaction

/-- The numbers of a name's retained versions. -/
def Db.numbers (db : Db) (kind : RecordKind) (pk : VaultPk) (name : NameHmac) : Set Nat :=
  { version | ∃ row, recordVersion pk kind name version db = some row }

/-- The retained versions of every name are an interval of positive numbers. -/
structure Numbered (db : Db) : Prop where
  positive : ∀ kind pk name, ∀ version ∈ db.numbers kind pk name, 0 < version
  interval : ∀ kind pk name, (db.numbers kind pk name).OrdConnected

/-- Every version is of its vault's generation, and the descriptors are those of the
generations up to it. -/
structure Dated (db : Db) : Prop where
  current : ∀ kind pk name version row v, recordVersion pk kind name version db = some row →
    db.vaults.find? pk = some v → row.generation = v.generation
  described : ∀ pk v, db.vaults.find? pk = some v →
    ∀ generation, (db.descriptors.find? (pk, generation)).isSome = true ↔ 1 ≤ generation ∧ generation ≤ v.generation

/-- Every stored version carries the hash of its value. -/
def Hashed [Digests] (db : Db) : Prop :=
  ∀ kind, ∀ v ∈ (db.tables kind).records.rows, v.ctHash = valueHash v.row.valueCt

/-! ## Rotations that keep names -/

/-- A batch gives all versions of an old name one new name. -/
def Together (r : RotationRequest) : Prop :=
  ∀ kind, ∀ s ∈ batchOf r kind, ∀ t ∈ batchOf r kind, s.oldNameHmac = t.oldNameHmac → s.nameHmac = t.nameHmac

/-- A batch gives different old names different new names. -/
def Apart (r : RotationRequest) : Prop :=
  ∀ kind, ∀ s ∈ batchOf r kind, ∀ t ∈ batchOf r kind, s.nameHmac = t.nameHmac → s.oldNameHmac = t.oldNameHmac

/-- The versions a batch leaves under each new name are an interval of positive
numbers. -/
structure Whole (batch : List RotatedVersion) : Prop where
  positive : ∀ s ∈ batch, 0 < s.version
  interval : ∀ name, { version | ∃ s ∈ batch, s.nameHmac = name ∧ s.version = version }.OrdConnected

/-- A complete batch that keeps names together and apart leaves each name's interval
as it found it. -/
theorem Numbered.whole {db : Db} {pk : VaultPk} {r : RotationRequest} (numbered : Numbered db) (kind : RecordKind)
    (complete : Complete (batchOf r kind) (versionMeta db kind pk)) (together : Together r) (apart : Apart r) :
    Whole (batchOf r kind) := by
  have stored : ∀ s ∈ batchOf r kind, s.version ∈ db.numbers kind pk s.oldNameHmac := by
    intro s member
    obtain ⟨m, found, _, _⟩ := complete.kept s member
    obtain ⟨row, present, _⟩ := versionMeta_lookup found
    exact ⟨row, present⟩
  constructor
  · intro s member
    exact numbered.positive kind pk _ _ (stored s member)
  · intro name
    constructor
    rintro _ ⟨s, first, rfl, rfl⟩ _ ⟨t, last, named, rfl⟩ version between
    have old : t.oldNameHmac = s.oldNameHmac := apart kind t last s first named
    have inside := (numbered.interval kind pk s.oldNameHmac).out (stored s first) (old ▸ stored t last) between
    obtain ⟨row, present⟩ := inside
    obtain ⟨u, member, sameOld, sameVersion⟩ := complete.of_stored present
    exact ⟨u, member, together kind u member s first sameOld, sameVersion⟩

/-! ## What pruning takes -/

/-- Pruning takes the oldest versions of a name. -/
theorem prunable_oldest {db : Db} {kind : RecordKind} {pk : VaultPk} {name : NameHmac} {maxVersions version : Nat}
    {p : Nat × Nat} (member : p ∈ prunable db kind pk name maxVersions) (older : version ≤ p.1)
    (stored : version ∈ db.numbers kind pk name) : ∃ q ∈ prunable db kind pk name maxVersions, q.1 = version := by
  obtain ⟨row, found⟩ := stored
  obtain ⟨cols, lookup, _⟩ := Option.map_eq_some_iff.mp found
  obtain ⟨present, key⟩ := Table.find?_eq_some.mp lookup
  simp only [VersionCols.key, Prod.mk.injEq] at key
  obtain ⟨owner, named, numbered⟩ := key
  let all := db.versionsOf kind pk name
  let count := all.length + 1 - max maxVersions 1
  have listed : cols ∈ all := versionsOf_mem.mpr ⟨present, owner, named⟩
  have sorted : all.Pairwise fun a b => a.row.version ≤ b.row.version := List.pairwise_insertionSort _ _
  have taken : prunable db kind pk name maxVersions = (all.take count).map fun v => (v.row.version, v.size) := by
    simp only [prunable, all, count, List.length_map, List.map_take]
  rw [taken] at member ⊢
  obtain ⟨top, topTaken, rfl⟩ := List.mem_map.mp member
  rw [← List.take_append_drop count all, List.mem_append] at listed
  rcases listed with kept | dropped
  · exact ⟨_, List.mem_map_of_mem kept, numbered⟩
  · rw [← List.take_append_drop count all, List.pairwise_append] at sorted
    have above := sorted.2.2 top topTaken cols dropped
    -- The version is at most the pruned one and comes no earlier, so it is that one.
    have same : top.row.version = version := by
      change version ≤ top.row.version at older
      omega
    exact ⟨_, List.mem_map_of_mem topTaken, same⟩

/-! ## Numbers -/

section Numbers

variable [Digests] {db after : Db}

omit [Digests] in
theorem Numbered.of_lookup (numbered : Numbered db)
    (same : ∀ kind pk name, after.numbers kind pk name = db.numbers kind pk name ∨ after.numbers kind pk name = ∅) :
    Numbered after := by
  constructor
  · intro kind pk name version stored
    rcases same kind pk name with same | none
    · rw [same] at stored
      exact numbered.positive kind pk name version stored
    · rw [none] at stored
      exact stored.elim
  · intro kind pk name
    rcases same kind pk name with same | none
    · rw [same]
      exact numbered.interval kind pk name
    · rw [none]
      exact Set.ordConnected_empty

omit [Digests] in
theorem Db.numbers_of_tables (same : ∀ kind, after.tables kind = db.tables kind) (kind : RecordKind) (pk : VaultPk)
    (name : NameHmac) : after.numbers kind pk name = db.numbers kind pk name := by
  simp only [Db.numbers, recordVersion, same]

/-- A write adds the number after the head and takes the pruned ones. -/
theorem Stored.numbers {kind : RecordKind} {pk : VaultPk} {v : Insert} {maxVersions total : Nat}
    (stored : Stored db after kind pk v v.valueCt.isNone (prunable db kind pk v.name maxVersions) total)
    (elsewhere : ∀ other, other ≠ kind → after.tables other = db.tables other) :
    after.numbers kind pk v.name = { version | version = v.version ∨ version ∈ db.numbers kind pk v.name ∧
      ∀ p ∈ prunable db kind pk v.name maxVersions, p.1 ≠ version } := by
  have made := stored.creates elsewhere
  have otherKey : ∀ version, version ≠ v.version → (v.cols pk).key ≠ (pk, v.name, version) := by
    intro version new same
    exact new (Prod.mk.inj (Prod.mk.inj same).2).2.symm
  ext version
  constructor
  · rintro ⟨row, found⟩
    by_cases new : version = v.version
    · exact .inl new
    · rw [recordVersion, stored.lookup, if_neg (otherKey version new)] at found
      obtain ⟨cols, lookup, _⟩ := Option.map_eq_some_iff.mp found
      obtain ⟨old, spared⟩ := Option.filter_eq_some_iff.mp lookup
      have key := (Table.find?_eq_some.mp old).2
      refine .inr ⟨⟨cols.row, by rw [recordVersion, old]; rfl⟩, ?_⟩
      intro p member same
      rw [Bool.not_eq_true', List.any_eq_false] at spared
      exact spared p member (by rw [key, same, decide_eq_true_eq])
  · rintro (rfl | ⟨⟨row, found⟩, spared⟩)
    · exact ⟨_, made.stored⟩
    · by_cases new : version = v.version
      · subst new
        exact ⟨_, made.stored⟩
      · obtain ⟨cols, old, _⟩ := Option.map_eq_some_iff.mp found
        have key := (Table.find?_eq_some.mp old).2
        refine ⟨cols.row, ?_⟩
        rw [recordVersion, stored.lookup, if_neg (otherKey version new), old,
          Option.filter_some, if_pos]
        · rfl
        · rw [Bool.not_eq_true', List.any_eq_false]
          intro p member same
          rw [key, decide_eq_true_eq, Prod.mk.injEq, Prod.mk.injEq] at same
          exact spared p member same.2.2.symm

theorem Numbered.stored {kind : RecordKind} {pk : VaultPk} {v : Insert} {maxVersions total : Nat}
    (numbered : Numbered db) (lead : HeadsLead db)
    (stored : Stored db after kind pk v v.valueCt.isNone (prunable db kind pk v.name maxVersions) total)
    (next : v.version = db.headVersion kind pk v.name + 1)
    (elsewhere : ∀ other, other ≠ kind → after.tables other = db.tables other) : Numbered after := by
  have made := stored.creates elsewhere
  have others : ∀ other owner name, (other, owner, name) ≠ (kind, pk, v.name) →
      after.numbers other owner name = db.numbers other owner name := by
    intro other owner name apart
    by_cases sameKind : other = kind
    · subst sameKind
      have off : ∀ version, recordVersion owner other name version after = recordVersion owner other name version db := by
        intro version
        have differs : (owner, name, version) ≠ (pk, v.name, v.version) := by
          rintro same
          simp only [Prod.mk.injEq] at same
          exact apart (by rw [same.1, same.2.1])
        rcases made.kept owner name version differs with same | ⟨rfl, rfl, _⟩
        · exact same
        · exact absurd rfl apart
      simp only [Db.numbers, off]
    · simp only [Db.numbers, recordVersion, elsewhere other sameKind]
  -- The old numbers reach up to the head, so the new one extends them.
  have below : ∀ version ∈ db.numbers kind pk v.name, version < v.version ∧ v.version - 1 ∈ db.numbers kind pk v.name := by
    rintro version ⟨row, found⟩
    obtain ⟨head, tombstone, loaded, largest⟩ := lead.largest kind pk v.name version row found
    obtain ⟨top, topFound, _⟩ := lead.leads kind pk v.name head tombstone loaded
    rw [Db.headVersion, loaded, Option.map_some, Option.getD_some] at next
    exact ⟨by omega, top, by rw [next]; exact topFound⟩
  have own := stored.numbers elsewhere
  constructor
  · intro other owner name version present
    by_cases mine : (other, owner, name) = (kind, pk, v.name)
    · simp only [Prod.mk.injEq] at mine
      obtain ⟨rfl, rfl, rfl⟩ := mine
      rw [own] at present
      rcases present with rfl | ⟨old, _⟩
      · omega
      · exact numbered.positive other owner v.name version old
    · rw [others other owner name mine] at present
      exact numbered.positive other owner name version present
  · intro other owner name
    by_cases mine : (other, owner, name) = (kind, pk, v.name)
    · simp only [Prod.mk.injEq] at mine
      obtain ⟨rfl, rfl, rfl⟩ := mine
      rw [own]
      constructor
      rintro low lowIn high highIn version ⟨above, under⟩
      by_cases new : version = v.version
      · exact .inl new
      · have top : high ≤ v.version := by
          rcases highIn with rfl | ⟨old, _⟩
          · exact Nat.le_refl _
          · exact Nat.le_of_lt (below high old).1
        rcases lowIn with rfl | ⟨lowOld, lowSpared⟩
        · omega
        · have inside : version ∈ db.numbers other owner v.name :=
            (numbered.interval other owner v.name).out lowOld (below low lowOld).2 ⟨above, by omega⟩
          refine .inr ⟨inside, ?_⟩
          rintro p member rfl
          obtain ⟨q, pruned, same⟩ := prunable_oldest member above lowOld
          exact lowSpared q pruned same
    · rw [others other owner name mine]
      exact numbered.interval other owner name

theorem Numbered.rotated {pk : VaultPk} {r : RotationRequest} {ctx : Ctx} (numbered : Numbered db)
    (applied : Applied pk r ctx db after) (whole : ∀ kind, Whole (batchOf r kind)) : Numbered after := by
  have own : ∀ kind name, after.numbers kind pk name =
      { version | ∃ s ∈ batchOf r kind, s.nameHmac = name ∧ s.version = version } := by
    intro kind name
    ext version
    constructor
    · rintro ⟨row, found⟩
      exact (applied.rekinded kind).of_rewritten found
    · rintro ⟨s, member, rfl, rfl⟩
      exact ⟨_, (applied.rekinded kind).replaced.recordVersion_own.mpr
        ⟨_, List.mem_map_of_mem member, rfl, rfl, rfl⟩⟩
  have others : ∀ kind owner name, owner ≠ pk → after.numbers kind owner name = db.numbers kind owner name := by
    intro kind owner name apart
    simp only [Db.numbers, (applied.rekinded kind).replaced.recordVersion_other apart]
  constructor
  · intro kind owner name version present
    by_cases mine : owner = pk
    · subst mine
      rw [own] at present
      obtain ⟨s, member, _, rfl⟩ := present
      exact (whole kind).positive s member
    · rw [others kind owner name mine] at present
      exact numbered.positive kind owner name version present
  · intro kind owner name
    by_cases mine : owner = pk
    · subst mine
      rw [own]
      exact (whole kind).interval name
    · rw [others kind owner name mine]
      exact numbered.interval kind owner name

omit [Digests] in
theorem Numbered.deleted (numbered : Numbered db) (gone : VaultCols → Bool) : Numbered (db.deleteVaults gone) := by
  refine numbered.of_lookup fun kind pk name => ?_
  by_cases hit : ((db.vaults.select gone).any fun v => v.pk = pk) = true
  · right
    ext version
    simp [Db.numbers, (db.deleteVaults_records gone kind pk name version).2, hit]
  · left
    ext version
    simp [Db.numbers, (db.deleteVaults_records gone kind pk name version).2, hit]

/-- Every change keeps the numbers. A live rotation is complete; of a replayed one the
batch must be whole. -/
theorem Change.numbered {σ : Type} {call : Call σ} (change : Change call db after) (numbered : Numbered db)
    (lead : HeadsLead db) (names : ∀ r, call.batch = some r → Together r ∧ Apart r)
    (whole : ∀ r, call.isReplay = true → call.batch = some r → ∀ kind, Whole (batchOf r kind)) : Numbered after := by
  have untouched {pk : VaultPk} {targets : List Target} {db after : Db} (script : Script pk targets db after)
      (included : ∀ target ∈ targets, target ∈ minorTargets) (kind : RecordKind) : after.tables kind = db.tables kind :=
    script.tables_same kind fun member => by simpa using included _ member
  have same {db after : Db} (numbered : Numbered db) (tables : ∀ kind, after.tables kind = db.tables kind) :
      Numbered after := numbered.of_lookup fun kind pk name => .inl (Db.numbers_of_tables tables kind pk name)
  cases change with
  | idle => exact numbered
  | minor included script => exact same numbered (untouched script included)
  | spent table => exact same numbered fun kind => by cases kind <;> rfl
  | created fresh inserted described audited =>
    exact same numbered fun kind => (appendAudit_tables audited kind).trans (by cases kind <;> rfl)
  | registered asked loaded current room inserted script =>
    exact same numbered fun kind => (untouched script (fun _ => id) kind).trans (by cases kind <;> rfl)
  | revoked mine script =>
    exact same numbered fun kind => (untouched script (fun _ => id) kind).trans (by cases kind <;> rfl)
  | stored writer limited loaded current assigned fits live stored script =>
    refine numbered.stored lead stored assigned fun other apart => ?_
    exact script.tables_same other (by simpa using apart)
  | @rotated _ r _ _ _ _ asked loaded current checked applied =>
    have wholeBatch : ∀ kind, Whole (batchOf r kind) := by
      rcases checked with ⟨disk, record, rfl⟩ | passed
      · exact whole _ rfl asked
      · obtain ⟨together, apart⟩ := names _ asked
        exact fun kind => numbered.whole kind (checkRotation_complete passed kind) together apart
    have left := numbered.rotated (applyBatch_ok applied).2 wholeBatch
    exact same left fun kind => by cases kind <;> rfl
  | deleted p seq => exact same (numbered.deleted p) fun kind => by cases kind <;> rfl

end Numbers

/-! ## Generations and descriptors -/

section Dates

variable {db after : Db}

theorem Db.descriptor_of_rows {pk : VaultPk}
    (same : after.rowsWhere (fun q => q = pk) = db.rowsWhere fun q => q = pk) (generation : Nat) :
    after.descriptors.find? (pk, generation) = db.descriptors.find? (pk, generation) :=
  Table.find?_eq_of_select (congrArg Rows.descriptors same) fun _ hit => decide_eq_true (congrArg Prod.fst hit)

/-- Generations and descriptors that stay describe each other as before. -/
theorem Dated.of_generations (dated : Dated db)
    (generations : ∀ q, (after.vaults.find? q).map (·.generation) = (db.vaults.find? q).map (·.generation))
    (descriptors : after.descriptors = db.descriptors)
    (current : ∀ kind pk name version row v, recordVersion pk kind name version after = some row →
      db.vaults.find? pk = some v → row.generation = v.generation) : Dated after := by
  have older : ∀ pk v, after.vaults.find? pk = some v → ∃ old, db.vaults.find? pk = some old ∧
      old.generation = v.generation := by
    intro pk v found
    have same := generations pk
    rw [found, Option.map_some, eq_comm, Option.map_eq_some_iff] at same
    exact same
  constructor
  · intro kind pk name version row v stored found
    obtain ⟨old, foundOld, same⟩ := older pk v found
    rw [← same]
    exact current kind pk name version row old stored foundOld
  · intro pk v found generation
    obtain ⟨old, foundOld, same⟩ := older pk v found
    rw [descriptors, ← same]
    exact dated.described pk old foundOld generation

theorem Dated.of_tables (dated : Dated db) (vaults : after.vaults = db.vaults)
    (descriptors : after.descriptors = db.descriptors) (tables : ∀ kind, after.tables kind = db.tables kind) :
    Dated after := by
  refine dated.of_generations (fun q => by rw [vaults]) descriptors ?_
  intro kind pk name version row v stored found
  rw [recordVersion, tables] at stored
  exact dated.current kind pk name version row v stored found

variable [Digests]

theorem Script.generations {pk : VaultPk} {targets : List Target} (script : Script pk targets db after)
    (unrotated : .generation ∉ targets) (q : VaultPk) :
    (after.vaults.find? q).map (·.generation) = (db.vaults.find? q).map (·.generation) := by
  have same := congrArg (Option.map Prod.fst) (script.generation_same unrotated q)
  rwa [Option.map_map, Option.map_map] at same

theorem Dated.script {pk : VaultPk} {targets : List Target} (dated : Dated db) (script : Script pk targets db after)
    (included : ∀ target ∈ targets, target ∈ minorTargets) : Dated after := by
  have tables (kind : RecordKind) : after.tables kind = db.tables kind :=
    script.tables_same kind fun member => by simpa using included _ member
  refine dated.of_generations (script.generations fun member => by simpa using included _ member)
    (script.descriptors_same fun member => by simpa using included _ member) ?_
  intro kind pk name version row v stored found
  rw [recordVersion, tables] at stored
  exact dated.current kind pk name version row v stored found

theorem Dated.stored {kind : RecordKind} {vault : VaultRow} {v : Insert} (dated : Dated db)
    (loaded : db.loadVault vault.pk = some vault) (current : v.generation = vault.generation)
    (made : Creates db after kind vault.pk v)
    (script : Script vault.pk [.records kind, .bytes, .audit] db after) : Dated after := by
  refine dated.of_generations (script.generations (by simp)) (script.descriptors_same (by simp)) ?_
  intro other owner name version row w stored found
  by_cases sameKind : other = kind
  · subst sameKind
    by_cases new : (owner, name, version) = (vault.pk, v.name, v.version)
    · simp only [Prod.mk.injEq] at new
      obtain ⟨rfl, rfl, rfl⟩ := new
      obtain rfl := Option.some.inj (stored.symm.trans made.stored)
      obtain ⟨cols, foundCols, _, same, _⟩ := Db.loadVault_found loaded
      obtain rfl := Option.some.inj (found.symm.trans foundCols)
      exact current.trans same
    · rcases made.kept owner name version new with same | ⟨_, _, pruned⟩
      · exact dated.current other owner name version row w (same ▸ stored) found
      · rw [pruned] at stored
        cases stored
  · rw [recordVersion, made.elsewhere other sameKind] at stored
    exact dated.current other owner name version row w stored found

theorem Dated.created {v : NewVault} {now : Int} {vaults : Table VaultCols.pk} {descriptors : Table DescriptorCols.key}
    {e : AuditEvent} (dated : Dated db) (homed : Homed db)
    (inserted : db.vaults.insert (v.cols db.nextPk now) = some vaults)
    (described : db.descriptors.insert ⟨db.nextPk, 1, v.descriptor⟩ = some descriptors)
    (audited : (appendAudit db.nextPk e now).run { db with vaults := vaults, descriptors := descriptors } =
      .ok ((), after)) : Dated after := by
  have audits : Keeps (Script db.nextPk [.audit]) (appendAudit db.nextPk e now) := appendAudit_script e now
  refine Dated.script ?_ (audits _ _ _ audited) (by simp)
  -- Nothing waits under the new row number.
  have absent : db.hasVault db.nextPk = false := by rw [Db.hasVault, db.nextPk_fresh]; rfl
  constructor
  · intro kind pk name version row w stored found
    change vaults.find? pk = some w at found
    have stored : recordVersion pk kind name version db = some row := by cases kind <;> exact stored
    rw [Table.find?_insert inserted] at found
    split at found
    · next same =>
      obtain rfl : db.nextPk = pk := same
      obtain ⟨cols, lookup, _⟩ := Option.map_eq_some_iff.mp stored
      obtain ⟨member, key⟩ := Table.find?_eq_some.mp lookup
      have present := homed.records kind cols member
      rw [show cols.vaultPk = db.nextPk from congrArg Prod.fst key, absent] at present
      exact absurd present Bool.false_ne_true
    · exact dated.current kind pk name version row w stored found
  · intro pk w found generation
    change vaults.find? pk = some w at found
    change (descriptors.find? (pk, generation)).isSome = true ↔ _
    rw [Table.find?_insert inserted] at found
    rw [Table.find?_insert described]
    split at found
    · next same =>
      obtain rfl := Option.some.inj found
      obtain rfl : db.nextPk = pk := same
      have none_yet : db.descriptors.find? (db.nextPk, generation) = none := by
        cases lookup : db.descriptors.find? (db.nextPk, generation) with
        | none => rfl
        | some d =>
          obtain ⟨member, key⟩ := Table.find?_eq_some.mp lookup
          have present := homed.descriptors d member
          rw [show d.vaultPk = db.nextPk from congrArg Prod.fst key, absent] at present
          exact absurd present Bool.false_ne_true
      change _ ↔ 1 ≤ generation ∧ generation ≤ 1
      rw [none_yet]
      split
      · next first =>
        have first : 1 = generation := congrArg Prod.snd first
        simp [first]
      · next other =>
        have other : generation ≠ 1 := fun same => other (by rw [same]; rfl)
        simp
        omega
    · next apart =>
      rw [if_neg (fun same => apart (congrArg Prod.fst same))]
      exact dated.described pk w found generation

theorem Dated.rotated {vault : VaultRow} {r : RotationRequest} {ctx : Ctx} {generation : Nat} (dated : Dated db)
    (loaded : db.loadVault vault.pk = some vault) (current : vault.generation = r.fromGeneration)
    (ran : (applyBatch vault r ctx).run db = .ok (generation, after)) : Dated after := by
  have scripts : Keeps (Script vault.pk rotationTargets) (applyBatch vault r ctx) := applyBatch_script vault r ctx rfl
  have elsewhere {q : VaultPk} (apart : q ≠ vault.pk) := (scripts _ _ _ ran).rowsWhere
    (p := fun other => other = q) (by simpa using Ne.symm apart)
  obtain ⟨_, applied⟩ := applyBatch_ok ran
  obtain ⟨old, foundOld, _, sameGeneration, _⟩ := Db.loadVault_found loaded
  obtain ⟨new, foundNew, same⟩ := applied.vault old foundOld
  have generationNew : new.generation = r.fromGeneration + 1 := congrArg VaultCols.generation same
  have before := dated.described vault.pk old foundOld
  constructor
  · intro kind pk name version row v stored found
    by_cases mine : pk = vault.pk
    · subst mine
      obtain rfl := Option.some.inj (found.symm.trans foundNew)
      obtain ⟨entry, _, _, _, rfl⟩ := (applied.rekinded kind).replaced.recordVersion_own.mp stored
      exact generationNew.symm
    · rw [(Db.find?_of_rows (elsewhere mine)).1] at found
      rw [(applied.rekinded kind).replaced.recordVersion_other mine] at stored
      exact dated.current kind pk name version row v stored found
  · intro pk v found number
    by_cases mine : pk = vault.pk
    · subst mine
      obtain rfl := Option.some.inj (found.symm.trans foundNew)
      have numberBefore := before number
      rcases applied.descriptors with ⟨_, taken, present⟩ | inserted
      · -- The next generation had no descriptor yet.
        have early := (before (r.fromGeneration + 1)).mp (by rw [present]; rfl)
        omega
      · rw [Table.find?_insert inserted, generationNew]
        split
        · next next =>
          have next : r.fromGeneration + 1 = number := congrArg Prod.snd next
          simp
          omega
        · next other =>
          have other : number ≠ r.fromGeneration + 1 := fun same => other (by rw [same]; rfl)
          rw [numberBefore]
          omega
    · rw [(Db.find?_of_rows (elsewhere mine)).1] at found
      rw [Db.descriptor_of_rows (elsewhere mine)]
      exact dated.described pk v found number

omit [Digests] in
theorem Dated.deleted (dated : Dated db) (p : VaultCols → Bool) (seq : Nat) :
    Dated { db.deleteVaults p with lastApplied := seq } := by
  have kept : ∀ pk v, { db.deleteVaults p with lastApplied := seq }.vaults.find? pk = some v →
      (db.deleteVaults p).rowsWhere (fun q => q = pk) = db.rowsWhere fun q => q = pk := by
    intro pk v found
    have stays : { db.deleteVaults p with lastApplied := seq }.hasVault pk = true := Db.hasVault_iff.mpr ⟨v, found⟩
    exact Db.rowsWhere_deleteVaults db fun w member selected => by simpa using Db.spared seq stays w member selected
  constructor
  · intro kind pk name version row v stored found
    have same := kept pk v found
    have stored : recordVersion pk kind name version (db.deleteVaults p) = some row := by cases kind <;> exact stored
    rw [recordVersion, (Db.find?_of_rows same).2.2.2] at stored
    change (db.deleteVaults p).vaults.find? pk = some v at found
    rw [(Db.find?_of_rows same).1] at found
    exact dated.current kind pk name version row v stored found
  · intro pk v found generation
    have same := kept pk v found
    change (db.deleteVaults p).vaults.find? pk = some v at found
    change ((db.deleteVaults p).descriptors.find? (pk, generation)).isSome = true ↔ _
    rw [(Db.find?_of_rows same).1] at found
    rw [Db.descriptor_of_rows same]
    exact dated.described pk v found generation

/-- Every change keeps versions and descriptors of the vault's generation. -/
theorem Change.dated {σ : Type} {call : Call σ} (change : Change call db after) (dated : Dated db) (homed : Homed db) :
    Dated after := by
  cases change with
  | idle => exact dated
  | minor included script => exact dated.script script included
  | spent table => exact dated.of_tables rfl rfl fun kind => by cases kind <;> rfl
  | created fresh inserted described audited => exact dated.created homed inserted described audited
  | @registered _ _ _ _ _ _ tokens _ asked loaded current room inserted script =>
    have untouched : Dated { db with tokens := tokens } :=
      dated.of_tables rfl rfl fun kind => by cases kind <;> rfl
    exact untouched.script script fun _ => id
  | @revoked _ gone _ mine script =>
    have untouched : Dated { db with tokens := db.tokens.deleteWhere gone } :=
      dated.of_tables rfl rfl fun kind => by cases kind <;> rfl
    exact untouched.script script fun _ => id
  | @stored writer kind vault name w next limits _ limited loaded current assigned fits live stored script =>
    have made : Creates db after kind vault.pk (w.toInsert name next writer) :=
      Stored.creates stored fun other apart => script.tables_same other (by simpa using apart)
    exact dated.stored loaded current made script
  | rotated asked loaded current checked applied =>
    exact (dated.rotated loaded current applied).of_tables rfl rfl fun kind => by cases kind <;> rfl
  | deleted p seq => exact dated.deleted p seq

end Dates

/-! ## Hashes -/

section Hashes

variable [Digests] {db after : Db}

theorem Stmt.hashed {pk : VaultPk} {target : Target} (stmt : Stmt pk db target after) (hashed : Hashed db) :
    Hashed after := by
  have written (kind : RecordKind) (tables : RecordTables)
      (rows : ∀ v ∈ tables.records.rows, v ∈ (db.tables kind).records.rows ∨ v.ctHash = valueHash v.row.valueCt) :
      Hashed (db.withTables kind tables) := by
    intro other v member
    by_cases same : other = kind
    · subst same
      rw [Db.tables_withTables_same] at member
      exact (rows v member).elim (hashed other v) id
    · rw [Db.tables_withTables_other db same] at member
      exact hashed other v member
  cases stmt with
  | insertVersion kind v records inserted present =>
    refine written kind _ fun row member => ?_
    rw [(Table.insert_eq_some.mp inserted).2, List.mem_append, List.mem_singleton] at member
    rcases member with old | rfl
    · exact .inl old
    · exact .inr rfl
  | setHead kind => exact written kind _ fun row member => .inl member
  | deleteVersion kind => exact written kind _ fun row member => .inl (List.mem_filter.mp member).1
  | clearRecords kind => exact written kind _ fun row member => .inl (List.mem_filter.mp member).1
  | appendAudit | updateVault | countBytes | rotateVault | insertToken | deleteToken | resealToken | insertDescriptor |
    setChildren | setApplied => exact fun kind v member => hashed kind v (by cases kind <;> exact member)

theorem Effect.hashed {reach : Reach} (effect : Effect reach db after) (hashed : Hashed db) : Hashed after := by
  have scripted {pk : VaultPk} {targets : List Target} {db after : Db} (script : Script pk targets db after)
      (hashed : Hashed db) : Hashed after := by
    induction script with
    | refl => exact hashed
    | tail _ last inductionHypothesis =>
      obtain ⟨_, _, stmt⟩ := last
      exact stmt.hashed inductionHypothesis
  cases effect with
  | none => exact hashed
  | script pk mine script => exact scripted script hashed
  | spent table => exact fun kind v member => hashed kind v (by cases kind <;> exact member)
  | created v now vaults descriptors e alone fresh inserted described audited =>
    have audits : Keeps (Script db.nextPk [.audit]) (appendAudit db.nextPk e now) := appendAudit_script e now
    exact scripted (audits _ _ _ audited) fun kind v member => hashed kind v (by cases kind <;> exact member)
  | deleted p seq mine =>
    intro kind v member
    have member : v ∈ ((db.tables kind).records.deleteWhere fun v =>
        (db.vaults.select p).any fun w => w.pk = v.vaultPk).rows := by cases kind <;> exact member
    exact hashed kind v (List.mem_filter.mp member).1

end Hashes

end GalataVault.Backend

import GalataVault.Backend.Accounting
import GalataVault.Backend.Renaming

/-!
# Quotas over runs

Under fixed limits every put and every registration is held to the quotas. A delete
is not: its tombstone adds a name whatever the vault counts, so that a full vault can
still be emptied. A rotation is not either: the owner's batch is what the vault then
holds. Runs whose batches keep to the quotas therefore keep every vault within them,
up to the names of its tombstones.

Tokens expire by the clock of the check, so their number is bounded as long as the
clock of registrations does not go back.
-/

namespace GalataVault.Backend

open Proto Relational Relational.Transaction

/-- The bytes a version counts for as a tombstone. -/
def VersionCols.tombstoneSize (v : VersionCols) : Nat := if v.row.valueCt.isSome then 0 else v.row.nameCt.length

/-- The bytes of a vault's retained tombstones of one kind. -/
def Db.tombstoneBytesIn (db : Db) (kind : RecordKind) (pk : VaultPk) : Nat :=
  ((db.versionsIn kind pk).map VersionCols.tombstoneSize).sum

/-- The bytes of a vault's retained tombstones. -/
def Db.tombstoneBytes (db : Db) (pk : VaultPk) : Nat := db.tombstoneBytesIn .secret pk + db.tombstoneBytesIn .config pk

/-- A vault keeps to its quotas, tombstones apart. -/
structure Within (limits : Limits) (db : Db) (pk : VaultPk) : Prop where
  values : ∀ kind, ∀ v ∈ db.versionsIn kind pk, ∀ value, v.row.valueCt = some value → value.length ≤ kind.maxValue limits
  live : ∀ kind, (db.liveHeads kind pk).length ≤ kind.maxLive limits
  versions : ∀ kind name, (db.versionsOf kind pk name).length ≤ max 1 (kind.maxVersions limits)
  bytes : db.bytesOf pk ≤ limits.maxVaultBytes + db.tombstoneBytes pk

/-- The names a batch leaves live: those whose largest version has a value. -/
def liveNames (batch : List RotatedVersion) : Finset NameHmac :=
  ((batch.filter fun s => s.valueCt.isSome && batch.all fun t => t.nameHmac ≠ s.nameHmac || t.version ≤ s.version).map
    (·.nameHmac)).toFinset

/-- The bytes a batch entry counts for as a tombstone. -/
def rotatedTombstoneSize (s : RotatedVersion) : Nat := if s.valueCt.isSome then 0 else s.nameCt.bytes.length

/-- A batch keeps to the quotas, tombstones apart. -/
structure BatchFits (limits : Limits) (r : RotationRequest) : Prop where
  values : ∀ kind, ∀ s ∈ batchOf r kind, ∀ value, s.valueCt = some value → value.bytes.length ≤ kind.maxValue limits
  live : ∀ kind, (liveNames (batchOf r kind)).card ≤ kind.maxLive limits
  versions : ∀ kind name,
    ((batchOf r kind).filter fun s => s.nameHmac = name).length ≤ max 1 (kind.maxVersions limits)
  bytes : (r.secrets.map rotatedSize).sum + (r.configs.map rotatedSize).sum ≤
    limits.maxVaultBytes + ((r.secrets.map rotatedTombstoneSize).sum + (r.configs.map rotatedTombstoneSize).sum)

/-! ## What a vault's rows decide -/

section Rows

variable {limits : Limits} {db after : Db} {pk : VaultPk}

theorem Within.of_parts (within : Within limits db pk)
    (versions : ∀ kind, after.versionsIn kind pk = db.versionsIn kind pk)
    (live : ∀ kind, after.liveHeads kind pk = db.liveHeads kind pk) : Within limits after pk := by
  have named : ∀ kind name, after.versionsOf kind pk name = db.versionsOf kind pk name := by
    intro kind name
    have narrow : ∀ db : Db, db.versionsOf kind pk name =
        ((db.versionsIn kind pk).filter fun v => v.row.nameHmac = name).insertionSort
          fun a b => a.row.version ≤ b.row.version := by
      intro db
      rw [Db.versionsOf, Table.select_and]
      rfl
    rw [narrow, narrow, versions]
  constructor
  · intro kind
    rw [versions]
    exact within.values kind
  · intro kind
    rw [live]
    exact within.live kind
  · intro kind name
    rw [named]
    exact within.versions kind name
  · simp only [Db.bytesOf, Db.bytesIn, Db.tombstoneBytes, Db.tombstoneBytesIn, versions]
    exact within.bytes

theorem Within.of_rows (within : Within limits db pk)
    (same : after.rowsWhere (fun q => q = pk) = db.rowsWhere fun q => q = pk) : Within limits after pk := by
  refine within.of_parts (fun kind => ?_) fun kind => ?_
  · cases kind with
    | secret => exact congrArg Rows.secrets same
    | config => exact congrArg Rows.configs same
  · have narrow : ∀ db : Db, db.liveHeads kind pk =
        ((db.tables kind).heads.select fun h => h.vaultPk = pk).filter fun h => !h.tombstone := by
      intro db
      rw [Db.liveHeads, Table.select_and]
    rw [narrow, narrow]
    cases kind with
    | secret => exact congrArg (List.filter _) (congrArg Rows.secretHeads same)
    | config => exact congrArg (List.filter _) (congrArg Rows.configHeads same)

theorem Within.of_tables (within : Within limits db pk) (same : ∀ kind, after.tables kind = db.tables kind) :
    Within limits after pk :=
  within.of_parts (fun kind => by rw [Db.versionsIn, Db.versionsIn, same])
    fun kind => by rw [Db.liveHeads, Db.liveHeads, same]

/-- A vault without rows keeps to every quota. -/
theorem Within.of_none (versions : ∀ kind, db.versionsIn kind pk = [])
    (heads : ∀ kind, ∀ h ∈ (db.tables kind).heads.rows, h.vaultPk ≠ pk) : Within limits db pk := by
  constructor
  · intro kind v member
    rw [versions] at member
    cases member
  · intro kind
    have none_live : db.liveHeads kind pk = [] := by
      rw [Db.liveHeads, Table.select, List.filter_eq_nil_iff]
      intro h member
      simp [heads kind h member]
    simp [none_live]
  · intro kind name
    have none_named : db.versionsOf kind pk name = [] := by
      rw [List.eq_nil_iff_forall_not_mem]
      intro v listed
      obtain ⟨member, mine, _⟩ := versionsOf_mem.mp listed
      have present : v ∈ db.versionsIn kind pk := List.mem_filter.mpr ⟨member, decide_eq_true mine⟩
      rw [versions] at present
      cases present
    simp [none_named]
  · simp [Db.bytesOf, Db.bytesIn, versions]

end Rows

/-! ## Writes -/

theorem sum_ones {α : Type} (rows : List α) : (rows.map fun _ => 1).sum = rows.length := by
  induction rows with
  | nil => rfl
  | cons row rows inductionHypothesis =>
    rw [List.map_cons, List.sum_cons, inductionHypothesis, List.length_cons, Nat.add_comm]

theorem sum_le {α : Type} {small large : α → Nat} (below : ∀ row, small row ≤ large row) (rows : List α) :
    (rows.map small).sum ≤ (rows.map large).sum := by
  induction rows with
  | nil => exact Nat.le_refl _
  | cons row rows inductionHypothesis =>
    rw [List.map_cons, List.map_cons, List.sum_cons, List.sum_cons]
    exact Nat.add_le_add (below row) inductionHypothesis

theorem tombstoneSize_le (v : VersionCols) : v.tombstoneSize ≤ v.size := by
  unfold VersionCols.tombstoneSize VersionCols.size
  split <;> omega

section Writes

variable [Digests] {limits : Limits} {db after : Db} {kind : RecordKind} {pk : VaultPk} {v : Insert} {total : Nat}

/-- A version after a write is the written one, or was there before. -/
theorem Stored.versionsIn_mem {tombstone : Bool} {pruned : List (Nat × Nat)}
    (stored : Stored db after kind pk v tombstone pruned total) {row : VersionCols}
    (member : row ∈ after.versionsIn kind pk) : row = v.cols pk ∨ row ∈ db.versionsIn kind pk := by
  obtain ⟨records, inserted, left⟩ := stored.inserted
  obtain ⟨present, mine⟩ := List.mem_filter.mp member
  rw [left] at present
  have inRecords := (List.mem_filter.mp present).1
  rw [(Table.insert_eq_some.mp inserted).2, List.mem_append, List.mem_singleton] at inRecords
  rcases inRecords with old | rfl
  · exact .inr (List.mem_filter.mpr ⟨old, mine⟩)
  · exact .inl rfl

/-- A name has at most the retained number of versions after a write of it, and others
have no more than before. -/
theorem Stored.versionsOf_length {tombstone : Bool} {maxVersions : Nat}
    (stored : Stored db after kind pk v tombstone (prunable db kind pk v.name maxVersions) total) (name : NameHmac) :
    (after.versionsOf kind pk name).length ≤ max 1 maxVersions ∨
      (after.versionsOf kind pk name).length ≤ (db.versionsOf kind pk name).length := by
  simp only [Db.versionsOf, List.length_insertionSort]
  by_cases same : v.name = name
  · subst same
    left
    have measured := stored.measure (fun _ => 1) (fun r => r.vaultPk = pk && r.row.nameHmac = v.name)
      (fun r mine named => by simp [mine, named])
    have pruned : (prunedRows db kind pk v.name maxVersions).length =
        ((db.tables kind).records.select fun r => r.vaultPk = pk && r.row.nameHmac = v.name).length + 1 -
          max maxVersions 1 := by
      rw [prunedRows, List.length_take, Db.versionsOf, List.length_insertionSort]
      omega
    simp only [sum_ones] at measured
    omega
  · right
    obtain ⟨records, inserted, left⟩ := stored.inserted
    have off : (fun r : VersionCols => r.vaultPk = pk && r.row.nameHmac = name) (v.cols pk) = false := by
      simp [Insert.cols, same]
    rw [left, Table.select_deleteWhere, Table.select_insert_off inserted off]
    exact List.length_filter_le _ _

/-- A write makes its name live or not, whatever it was. -/
theorem Stored.liveHeads_count {tombstone : Bool} {pruned : List (Nat × Nat)}
    (stored : Stored db after kind pk v tombstone pruned total) :
    (after.liveHeads kind pk).length + (if (db.loadHead kind pk v.name).any (!·.2) then 1 else 0) =
      (db.liveHeads kind pk).length + if tombstone then 0 else 1 := by
  let others := ((db.tables kind).heads.select fun old =>
    (old.vaultPk = pk && !old.tombstone) && !decide (old.key = (pk, v.name))).length
  have counted : (after.liveHeads kind pk).length = others + if (decide (pk = pk) && !tombstone) = true then 1 else 0 := by
    rw [Db.liveHeads, stored.heads]
    exact Table.select_upsert_length _ _ _
  have own : (if (decide (pk = pk) && !tombstone) = true then 1 else 0) = if tombstone = true then 0 else 1 := by
    cases tombstone <;> simp
  have before : (db.liveHeads kind pk).length = others + if (db.loadHead kind pk v.name).any (!·.2) then 1 else 0 := by
    cases found : (db.tables kind).heads.find? (pk, v.name) with
    | none =>
      have all : db.liveHeads kind pk = (db.tables kind).heads.select fun old =>
          (old.vaultPk = pk && !old.tombstone) && !decide (old.key = (pk, v.name)) := by
        apply List.filter_congr
        intro old member
        have differs := Table.find?_eq_none.mp found old member
        simp [differs]
      simp [others, all, Db.loadHead, found]
    | some h =>
      obtain ⟨_, key⟩ := Table.find?_eq_some.mp found
      have mine : h.vaultPk = pk := (Prod.mk.inj key).1
      cases live : h.tombstone with
      | false =>
        have selected : (decide (h.vaultPk = pk) && !h.tombstone) = true := by simp [mine, live]
        have one := Table.select_length_of_find? found (q := fun h => h.vaultPk = pk && !h.tombstone) selected
        simp only [Db.loadHead, found, Option.map_some, Option.any_some, live, Bool.not_false, if_true]
        exact one
      | true =>
        have all : db.liveHeads kind pk = (db.tables kind).heads.select fun old =>
            (old.vaultPk = pk && !old.tombstone) && !decide (old.key = (pk, v.name)) := by
          apply List.filter_congr
          intro old member
          by_cases same : old.key = (pk, v.name)
          · have here : old = h := List.inj_on_of_nodup_map (db.tables kind).heads.distinct member
              (Table.find?_eq_some.mp found).1 (same.trans key.symm)
            subst here
            simp [live]
          · simp [same]
        simp [others, all, Db.loadHead, found, live]
  rw [counted, own, before]
  omega

theorem Stored.liveHeads_length {tombstone : Bool} {pruned : List (Nat × Nat)}
    (stored : Stored db after kind pk v tombstone pruned total) :
    (after.liveHeads kind pk).length ≤ (db.liveHeads kind pk).length + (if tombstone then 0 else 1) ∧
      (∀ version, db.loadHead kind pk v.name = some (version, false) →
        (after.liveHeads kind pk).length ≤ (db.liveHeads kind pk).length) := by
  have count := stored.liveHeads_count
  constructor
  · omega
  · intro version loaded
    rw [loaded, Option.any_some, Bool.not_false, if_pos rfl] at count
    cases tombstone <;> simp only [if_true, Bool.false_eq_true, if_false] at count <;> omega

/-- A put that fits and a delete keep the written vault within its quotas. -/
theorem Within.stored {vault : VaultRow} {name : NameHmac} {w : RecordWrite} {next : Nat} {writer : Actor}
    (within : Within limits db vault.pk) (counted : Accounted after)
    (fits : ∀ value, w.valueCt = some value →
      Fits db kind vault.pk name value limits (totalAfter db kind vault name w limits))
    (live : w.valueCt = none → ∃ version, db.loadHead kind vault.pk name = some (version, false))
    (stored : Stored db after kind vault.pk (w.toInsert name next writer) w.valueCt.isNone
      (prunable db kind vault.pk name (kind.maxVersions limits)) (totalAfter db kind vault name w limits))
    (elsewhere : ∀ other, other ≠ kind → after.tables other = db.tables other) : Within limits after vault.pk := by
  constructor
  · intro other v member value given
    by_cases same : other = kind
    · subst same
      rcases stored.versionsIn_mem member with rfl | old
      · exact (fits value given).small
      · exact within.values other v old value given
    · rw [Db.versionsIn, elsewhere other same] at member
      exact within.values other v member value given
  · intro other
    by_cases same : other = kind
    · subst same
      obtain ⟨grown, kept⟩ := stored.liveHeads_length
      have before := within.live other
      cases given : w.valueCt with
      | none => simp only [given, Option.isNone_none, if_true] at grown; omega
      | some value =>
        have room := (fits value given).room
        rw [not_and_or] at room
        rcases room with wasLive | below
        · -- The name was live already, so its head only moves.
          have present : ∃ version, db.loadHead other vault.pk name = some (version, false) := by
            cases loaded : db.loadHead other vault.pk name with
            | none => simp [loaded] at wasLive
            | some head =>
              obtain ⟨version, tombstone⟩ := head
              simp only [loaded, Option.map_some, Option.getD_some, Bool.not_eq_true] at wasLive
              exact ⟨version, by rw [wasLive]⟩
          obtain ⟨version, loaded⟩ := present
          exact Nat.le_trans (kept version loaded) before
        · simp only [given, Option.isNone_some, Bool.false_eq_true, if_false] at grown
          omega
    · rw [Db.liveHeads, elsewhere other same]
      exact within.live other
  · intro other named
    by_cases same : other = kind
    · subst same
      have before := within.versions other named
      rcases stored.versionsOf_length named with retained | fewer
      · exact retained
      · omega
    · rw [Db.versionsOf, elsewhere other same]
      exact within.versions other named
  · cases given : w.valueCt with
    | some value =>
      -- The vault counts what the put was checked against.
      obtain ⟨_, row, _, found, _, total, _⟩ := stored.vault
      have count := counted vault.pk row found
      have checked := (fits value given).total
      omega
    | none =>
      have sizes := stored.measure VersionCols.size (fun r => r.vaultPk = vault.pk) fun r mine _ => decide_eq_true mine
      have names := stored.measure VersionCols.tombstoneSize (fun r => r.vaultPk = vault.pk)
        fun r mine _ => decide_eq_true mine
      let pruned := prunedRows db kind vault.pk name (kind.maxVersions limits)
      have freed : (pruned.map VersionCols.tombstoneSize).sum ≤ (pruned.map VersionCols.size).sum :=
        sum_le tombstoneSize_le pruned
      have size : ((w.toInsert name next writer).cols vault.pk).size = w.nameCt.length := by
        simp [VersionCols.size, Insert.cols, RecordWrite.toInsert, given]
      have nameSize : ((w.toInsert name next writer).cols vault.pk).tombstoneSize = w.nameCt.length := by
        simp [VersionCols.tombstoneSize, Insert.cols, RecordWrite.toInsert, given]
      rw [size] at sizes
      rw [nameSize] at names
      have sizes : after.bytesIn kind vault.pk + (pruned.map VersionCols.size).sum =
          db.bytesIn kind vault.pk + w.nameCt.length := sizes
      have names : after.tombstoneBytesIn kind vault.pk + (pruned.map VersionCols.tombstoneSize).sum =
          db.tombstoneBytesIn kind vault.pk + w.nameCt.length := names
      have before := within.bytes
      have other : ∀ kind', kind' ≠ kind → after.bytesIn kind' vault.pk = db.bytesIn kind' vault.pk ∧
          after.tombstoneBytesIn kind' vault.pk = db.tombstoneBytesIn kind' vault.pk := by
        intro kind' apart
        simp only [Db.bytesIn, Db.tombstoneBytesIn, Db.versionsIn, elsewhere kind' apart, and_self]
      unfold Db.bytesOf Db.tombstoneBytes at before ⊢
      cases kind with
      | secret =>
        obtain ⟨bytes, tombstones⟩ := other .config (by decide)
        omega
      | config =>
        obtain ⟨bytes, tombstones⟩ := other .secret (by decide)
        omega

end Writes

/-! ## Rotations -/

section Rotations

variable [Digests] {limits : Limits} {db after : Db} {pk : VaultPk} {r : RotationRequest} {ctx : Ctx}

/-- The vault's live names after a rotation are the ones its batch leaves live. -/
theorem Rekinded.liveHeads_length {kind : RecordKind} {batch : List RotatedVersion} {generation : Nat}
    (rekinded : Rekinded kind pk batch generation ctx db after) :
    (after.liveHeads kind pk).length ≤ (liveNames batch).card := by
  have distinct : ((after.liveHeads kind pk).map (·.nameHmac)).Nodup := by
    have nodup : (after.liveHeads kind pk).Nodup := (List.Nodup.of_map _ (after.tables kind).heads.distinct).filter _
    refine nodup.map_on ?_
    intro a first b second same
    obtain ⟨memberA, mineA⟩ := List.mem_filter.mp first
    obtain ⟨memberB, mineB⟩ := List.mem_filter.mp second
    simp only [Bool.and_eq_true, decide_eq_true_eq] at mineA mineB
    have keys : a.key = b.key := by rw [HeadCols.key, HeadCols.key, mineA.1, mineB.1, same]
    exact List.inj_on_of_nodup_map (after.tables kind).heads.distinct memberA memberB keys
  rw [← List.length_map (·.nameHmac), ← List.toFinset_card_of_nodup distinct]
  refine Finset.card_le_card fun name inside => ?_
  obtain ⟨h, member, rfl⟩ := List.mem_map.mp (List.mem_toFinset.mp inside)
  obtain ⟨stored, mine⟩ := List.mem_filter.mp member
  simp only [Bool.and_eq_true, decide_eq_true_eq, Bool.not_eq_true'] at mine
  have found : (after.tables kind).heads.find? (pk, h.nameHmac) = some h :=
    Table.find?_eq_some.mpr ⟨stored, by rw [HeadCols.key, mine.1]⟩
  obtain ⟨entry, present, named, same, largest⟩ := rekinded.replaced.led h.nameHmac h found
  obtain ⟨s, inBatch, rfl⟩ := List.mem_map.mp present
  refine List.mem_toFinset.mpr (List.mem_map.mpr ⟨s, List.mem_filter.mpr ⟨inBatch, ?_⟩, named⟩)
  have valued : s.valueCt.isSome = true := by
    have flag : h.tombstone = (rewrittenRow (versionMeta db kind pk) ctx s).valueCt.isNone := congrArg HeadCols.tombstone same
    rw [mine.2, rewrittenRow, Option.isNone_map] at flag
    cases given : s.valueCt with
    | some value => rfl
    | none => simp [given] at flag
  rw [valued, Bool.true_and, List.all_eq_true]
  intro t other
  by_cases sameName : t.nameHmac = s.nameHmac
  · have below := largest _ (List.mem_map_of_mem other) (sameName.trans named)
    simp only [rewrittenRow] at below
    simp [below]
  · simp [sameName]

theorem Within.rotated (fits : BatchFits limits r) (applied : Applied pk r ctx db after) : Within limits after pk := by
  have rows : ∀ kind, after.versionsIn kind pk = ((batchOf r kind).map (rewrittenRow (versionMeta db kind pk) ctx)).map
      fun entry => (entry.toInsert (r.fromGeneration + 1)).cols pk := fun kind =>
    (applied.rekinded kind).replaced.versionsIn
  constructor
  · intro kind v member value given
    rw [rows, List.map_map] at member
    obtain ⟨s, inBatch, rfl⟩ := List.mem_map.mp member
    obtain ⟨text, entry, rfl⟩ := Option.map_eq_some_iff.mp given
    exact fits.values kind s inBatch text entry
  · intro kind
    exact Nat.le_trans (applied.rekinded kind).liveHeads_length (fits.live kind)
  · intro kind name
    have count : (after.versionsOf kind pk name).length = ((batchOf r kind).filter fun s => s.nameHmac = name).length := by
      rw [Db.versionsOf, List.length_insertionSort, Table.select_and]
      change ((after.versionsIn kind pk).filter fun v => v.row.nameHmac = name).length = _
      rw [rows, List.map_map, List.filter_map, List.length_map]
      rfl
    rw [count]
    exact fits.versions kind name
  · have bytes : ∀ kind, after.bytesIn kind pk = ((batchOf r kind).map rotatedSize).sum := by
      intro kind
      rw [(applied.rekinded kind).replaced.bytesIn, rewritten_size]
    have tombstones : ∀ kind, after.tombstoneBytesIn kind pk = ((batchOf r kind).map rotatedTombstoneSize).sum := by
      intro kind
      rw [Db.tombstoneBytesIn, rows, List.map_map, List.map_map]
      congr 1
      refine List.map_congr_left fun s _ => ?_
      cases given : s.valueCt <;>
        simp [VersionCols.tombstoneSize, rotatedTombstoneSize, Insert.cols, Rewritten.toInsert, rewrittenRow, given]
    rw [Db.bytesOf, Db.tombstoneBytes, bytes, bytes, tombstones, tombstones]
    exact fits.bytes

end Rotations

/-! ## Runs -/

section Runs

variable [Digests] {σ : Type} {call : Call σ} {limits : Limits} {db after : Db}

omit [Digests] in
/-- A row number without a vault has no rows. -/
theorem Within.absent {pk : VaultPk} (homed : Homed db) (absent : db.hasVault pk = false) : Within limits db pk := by
  refine .of_none (fun kind => ?_) fun kind h member mine => ?_
  · rw [Db.versionsIn, Table.select, List.filter_eq_nil_iff]
    intro v member mine
    have present := homed.records kind v member
    rw [of_decide_eq_true mine, absent] at present
    exact Bool.false_ne_true present
  · have present := homed.heads kind h member
    rw [mine, absent] at present
    exact Bool.false_ne_true present

/-- Every change under the limits keeps every vault within its quotas. -/
theorem Change.within (change : Change call db after) (fixed : ∀ other, call.limits = some other → other = limits)
    (fits : ∀ r, call.batch = some r → BatchFits limits r) (homed : Homed after) (counted : Accounted after)
    (within : ∀ pk, Within limits db pk) (pk : VaultPk) : Within limits after pk := by
  have untouched {pk : VaultPk} {targets : List Target} {db after : Db} (script : Script pk targets db after)
      (included : ∀ target ∈ targets, target ∈ minorTargets) (kind : RecordKind) : after.tables kind = db.tables kind :=
    script.tables_same kind fun member => by simpa using included _ member
  cases change with
  | idle => exact within pk
  | minor included script => exact (within pk).of_tables (untouched script included)
  | spent table => exact (within pk).of_tables fun kind => by cases kind <;> rfl
  | created fresh inserted described audited =>
    exact (within pk).of_tables fun kind => (appendAudit_tables audited kind).trans (by cases kind <;> rfl)
  | registered asked loaded current room inserted script =>
    exact (within pk).of_tables fun kind => (untouched script (fun _ => id) kind).trans (by cases kind <;> rfl)
  | revoked mine script =>
    exact (within pk).of_tables fun kind => (untouched script (fun _ => id) kind).trans (by cases kind <;> rfl)
  | @stored writer kind vault name w next _ _ limited loaded current assigned passed live stored script =>
    obtain rfl := fixed _ limited
    by_cases same : pk = vault.pk
    · subst same
      refine (within vault.pk).stored counted passed live stored fun other apart => ?_
      exact script.tables_same other (by simpa using apart)
    · exact (within pk).of_rows (script.rowsWhere (by simpa using Ne.symm same))
  | @rotated vault r ctx generation seq _ asked loaded current checked applied =>
    have scripts : Keeps (Script vault.pk rotationTargets) (applyBatch vault r ctx) := applyBatch_script vault r ctx rfl
    have tables : ∀ db : Db, ∀ kind, { db with lastApplied := seq }.tables kind = db.tables kind :=
      fun db kind => by cases kind <;> rfl
    by_cases same : pk = vault.pk
    · subst same
      exact (Within.rotated (fits r asked) (applyBatch_ok applied).2).of_tables (tables _)
    · have left := (within pk).of_rows ((scripts _ _ _ applied).rowsWhere (by simpa using Ne.symm same))
      exact left.of_tables (tables _)
  | deleted p seq =>
    by_cases present : { db.deleteVaults p with lastApplied := seq }.hasVault pk = true
    · have same : (db.deleteVaults p).rowsWhere (fun q => q = pk) = db.rowsWhere fun q => q = pk :=
        Db.rowsWhere_deleteVaults db fun w member selected => by simpa using Db.spared seq present w member selected
      exact (within pk).of_rows same
    · exact .absent homed (by simpa using present)

/-- The clock reading of a call that registers a token. -/
def Call.registers : Call σ → Option Int
  | .registerToken _ _ _ ctx _ => some ctx.now
  | _ => none

/-- At every clock reading not before the past ones, a vault has no more unexpired tokens
than the limit. -/
def TokensWithin (limits : Limits) (past : List Int) (db : Db) : Prop :=
  ∀ pk now, (∀ time ∈ past, time ≤ now) → (db.activeTokens pk now).length ≤ limits.maxTokens

omit [Digests] in
theorem TokensWithin.of_fewer {past : List Int} (tokens : TokensWithin limits past db) (more : List Int)
    (fewer : ∀ pk now, (after.activeTokens pk now).length ≤ (db.activeTokens pk now).length) :
    TokensWithin limits (past ++ more) after :=
  fun pk now later => Nat.le_trans (fewer pk now) (tokens pk now fun time member => later time (by simp [member]))

omit [Digests] in
/-- Tokens only expire as the clock goes on. -/
theorem activeTokens_later (db : Db) (pk : VaultPk) {early late : Int} (order : early ≤ late) :
    (db.activeTokens pk late).length ≤ (db.activeTokens pk early).length := by
  have narrowed : db.activeTokens pk late = (db.activeTokens pk early).filter fun t => decide (late < t.expiresAt) := by
    rw [Db.activeTokens, Db.activeTokens, ← Table.select_and]
    congr 1
    funext t
    by_cases unexpired : late < t.expiresAt
    · have before : early < t.expiresAt := by omega
      simp [unexpired, before]
    · simp [unexpired]
  rw [narrowed]
  exact List.length_filter_le _ _

theorem Change.tokensWithin {past : List Int} (change : Change call db after)
    (fixed : ∀ other, call.limits = some other → other = limits)
    (ordered : ∀ time, call.registers = some time → ∀ earlier ∈ past, earlier ≤ time)
    (tokens : TokensWithin limits past db) : TokensWithin limits (past ++ call.registers.toList) after := by
  have same {db after : Db} (kept : after.tokens = db.tokens) (pk : VaultPk) (now : Int) :
      (after.activeTokens pk now).length ≤ (db.activeTokens pk now).length := by
    rw [Db.activeTokens, kept]
    exact Nat.le_refl _
  have deleted {db after : Db} {gone : TokenRow → Bool} (left : after.tokens = db.tokens.deleteWhere gone) (pk : VaultPk)
      (now : Int) : (after.activeTokens pk now).length ≤ (db.activeTokens pk now).length := by
    rw [Db.activeTokens, left, Table.select_deleteWhere]
    exact List.length_filter_le _ _
  cases change with
  | idle => exact tokens.of_fewer _ fun _ _ => Nat.le_refl _
  | minor included script =>
    exact tokens.of_fewer _ (same (script.tokens_same fun member => by simpa using included _ member))
  | spent table => exact tokens.of_fewer _ (same rfl)
  | @created _ now _ _ e _ fresh inserted described audited =>
    have audits : Keeps (Script db.nextPk [.audit]) (appendAudit db.nextPk e now) := appendAudit_script e now
    have kept := (audits _ _ _ audited).tokens_same
    exact tokens.of_fewer _ (same kept)
  | @revoked _ gone _ mine script =>
    have kept := script.tokens_same (by simp)
    exact tokens.of_fewer _ (deleted kept)
  | stored writer limited loaded current assigned fits live stored script =>
    exact tokens.of_fewer _ (same (script.tokens_same (by simp)))
  | @rotated vault r ctx generation seq _ asked loaded current checked applied =>
    refine tokens.of_fewer _ fun pk now => ?_
    rw [Db.activeTokens, Table.select, (applyBatch_ok applied).2.tokens, List.filter_map, List.length_map]
    have kept : (fun t : TokenRow => t.vaultPk = pk && decide (now < t.expiresAt)) ∘
        resealed vault.pk (r.fromGeneration + 1) r.tokens =
          fun t => decide (t.vaultPk = pk) && decide (now < t.expiresAt) := by
      funext t
      obtain ⟨bundle, generation, frame⟩ := resealed_frame vault.pk (r.fromGeneration + 1) r.tokens t
      rw [Function.comp_apply, frame]
    rw [kept, Db.activeTokens, Table.select]
    exact (List.filter_sublist.filter _).length_le
  | deleted p seq => exact tokens.of_fewer _ (deleted rfl)
  | @registered disk owner vault t ctx _ table _ asked loaded current room inserted script =>
    subst asked
    obtain rfl := fixed _ rfl
    intro pk now later
    have past_before : ∀ time ∈ past, time ≤ now := fun time member => later time (by simp [member])
    have now_after : ctx.now ≤ now := later ctx.now (by simp [Call.registers])
    have kept := script.tokens_same (by simp)
    rw [Db.activeTokens, kept]
    change (table.select fun t => decide (t.vaultPk = pk) && decide (now < t.expiresAt)).length ≤ _
    rw [Table.select_insert inserted, List.length_append]
    by_cases mine : owner = pk
    · -- The check counted the tokens unexpired at its own reading.
      subst mine
      have fewer := activeTokens_later db owner now_after
      have one : ([t.row owner ctx.now].filter fun t => decide (t.vaultPk = owner) && decide (now < t.expiresAt)).length ≤
          1 := List.length_filter_le _ _
      unfold Db.activeTokens at fewer room
      omega
    · have none_mine : [t.row owner ctx.now].filter (fun t => decide (t.vaultPk = pk) && decide (now < t.expiresAt)) =
          [] := by
        simp [NewToken.row, mine]
      have before := tokens pk now past_before
      rw [none_mine, List.length_nil]
      exact before

theorem run_within (journal : σ) (calls : List (Call σ))
    (fixed : ∀ call ∈ calls, ∀ other, call.limits = some other → other = limits)
    (fits : ∀ call ∈ calls, ∀ r, call.batch = some r → BatchFits limits r) (pk : VaultPk) :
    Within limits (run ⟨Db.empty, journal⟩ calls).db pk := by
  induction calls using List.reverseRecOn generalizing pk with
  | nil => exact .of_none (fun kind => by cases kind <;> rfl) fun kind h member => by cases kind <;> cases member
  | append_singleton calls call inductionHypothesis =>
    have within := inductionHypothesis (fun other member => fixed other (by simp [member]))
      (fun other member => fits other (by simp [member]))
    have homed := run_homed journal (calls ++ [call])
    have counted := run_accounted journal (calls ++ [call])
    rw [run_append] at homed counted ⊢
    exact (step_change _ call).within (fixed call (by simp)) (fits call (by simp)) homed counted within pk

theorem run_tokensWithin (journal : σ) (calls : List (Call σ))
    (fixed : ∀ call ∈ calls, ∀ other, call.limits = some other → other = limits)
    (clock : (calls.filterMap Call.registers).Pairwise (· ≤ ·)) :
    TokensWithin limits (calls.filterMap Call.registers) (run ⟨Db.empty, journal⟩ calls).db := by
  induction calls using List.reverseRecOn with
  | nil => exact fun pk now _ => Nat.zero_le _
  | append_singleton calls call inductionHypothesis =>
    have single : [call].filterMap Call.registers = call.registers.toList := by
      cases given : call.registers <;> simp [given]
    rw [List.filterMap_append, single] at clock ⊢
    obtain ⟨before, _, order⟩ := List.pairwise_append.mp clock
    have tokens := inductionHypothesis (fun other member => fixed other (by simp [member])) before
    rw [run_append]
    refine (step_change _ call).tokensWithin (fixed call (by simp)) ?_ tokens
    intro time registers earlier member
    exact order earlier member time (by simp [registers])

/-- Under fixed limits, whose batches keep to them, every reached vault keeps to its
quotas up to the names of its tombstones; and whatever the batches, as long as the clock
of registrations does not go back, no reading of it finds more unexpired tokens than
the limit. -/
theorem quotas_of_run (journal : σ) (calls : List (Call σ)) (limits : Limits)
    (fixed : ∀ call ∈ calls, ∀ other, call.limits = some other → other = limits) :
    ((∀ call ∈ calls, ∀ r, call.batch = some r → BatchFits limits r) →
      ∀ pk v, (run ⟨Db.empty, journal⟩ calls).db.vaults.find? pk = some v →
        v.bytesUsed ≤ limits.maxVaultBytes + (run ⟨Db.empty, journal⟩ calls).db.tombstoneBytes pk ∧
        Within limits (run ⟨Db.empty, journal⟩ calls).db pk) ∧
    ((calls.filterMap Call.registers).Pairwise (· ≤ ·) →
      TokensWithin limits (calls.filterMap Call.registers) (run ⟨Db.empty, journal⟩ calls).db) := by
  refine ⟨fun fits pk v found => ?_, run_tokensWithin journal calls fixed⟩
  have within := run_within journal calls fixed fits pk
  rw [run_accounted journal calls pk v found]
  exact ⟨within.bytes, within⟩

end Runs

/-- A put and a registration under the default limits. -/
theorem quotas_of_small_history :
    letI := checksum
    let token : NewToken :=
      { tokenId := ⟨.fill 16 1⟩, authPub := ⟨.fill 32 1⟩, boxPub := ⟨.fill 32 1⟩, scope := .read, expiresAt := 9,
        bundle := ⟨⟨[1]⟩, ⟨.fill 64 1⟩⟩, generation := 1, allowList := none }
    let calls : List (Call Unit) :=
      [.createVault (.ok ()) (.filled 7) 1, putFilled .ifNoneMatch 1, .registerToken (.ok ()) 1 token ⟨.owner, 3⟩ .default]
    (∃ v, (run ⟨Db.empty, ()⟩ calls).db.vaults.find? 1 = some v ∧
      v.bytesUsed ≤ Limits.default.maxVaultBytes + (run ⟨Db.empty, ()⟩ calls).db.tombstoneBytes 1) ∧
      ((run ⟨Db.empty, ()⟩ calls).db.activeTokens 1 4).length ≤ Limits.default.maxTokens := by
  intro token calls
  have fixed : ∀ call ∈ calls, ∀ other, call.limits = some other → other = .default := by
    intro call member other limits
    simp only [calls, List.mem_cons, List.not_mem_nil, or_false] at member
    rcases member with rfl | rfl | rfl
    · cases limits
    · exact (Option.some.inj limits).symm
    · exact (Option.some.inj limits).symm
  have fits : ∀ call ∈ calls, ∀ r, call.batch = some r → BatchFits .default r := by
    intro call member r asked
    simp only [calls, List.mem_cons, List.not_mem_nil, or_false] at member
    rcases member with rfl | rfl | rfl <;> cases asked
  have times : calls.filterMap Call.registers = [3] := rfl
  have present : ((@run checksum _ ⟨Db.empty, ()⟩ calls).db.vaults.find? 1).isSome = true := by decide +kernel
  obtain ⟨v, found⟩ := Option.isSome_iff_exists.mp present
  obtain ⟨sizes, tokens⟩ := @quotas_of_run checksum _ () calls .default fixed
  rw [times] at tokens
  exact ⟨⟨v, found, (sizes fits 1 v found).1⟩, tokens (by simp) 1 4 (by simp)⟩

/-- Limits that one put fills. -/
def tightLimits : Limits := { Limits.default with maxVaultBytes := 2, maxValueBytes := 1 }

/-- A batch whose one value is a byte longer than the one it rewrites. -/
def growingRotation : RotationRequest :=
  { filledRotation 2 with
    secrets := [1].map fun version =>
      { oldNameHmac := ⟨.fill 32 1⟩, version := version, nameHmac := ⟨.fill 32 2⟩, nameCt := ⟨[9]⟩,
        valueCt := some ⟨[9, 9]⟩, writtenAt := 1, sig := ⟨.fill 64 9⟩ } }

/-- Under limits that one put fills, a delete is accepted and leaves a byte more than the
vault may hold, and a rotation is accepted whose value is a byte longer than a value may
be. -/
theorem quotas_exceeded :
    letI := checksum
    let full := (run ⟨Db.empty, ()⟩ [.createVault (.ok ()) (.filled 7) 1,
      .putRecord (.ok ()) 1 .secret ⟨.fill 32 1⟩ .ifNoneMatch (.filled 1 5) ⟨.owner, 2⟩ tightLimits]).db
    let deleted := deleteRecord (.ok ()) 1 .secret ⟨.fill 32 1⟩ 1 { RecordWrite.filled 2 5 with valueCt := none }
      ⟨.owner, 3⟩ tightLimits full
    let rotated := applyRotation (.ok ()) (fun _ _ => (.ok (), ())) 1 growingRotation ⟨.owner, 3⟩ full ()
    (deleted.1 = .ok 2 ∧ (deleted.2.vaults.find? 1).map (·.bytesUsed) = some 3 ∧ tightLimits.maxVaultBytes = 2) ∧
    (rotated.1 = .ok 2 ∧ tightLimits.maxValueBytes = 1 ∧
      (rotated.2.1.versionsIn .secret 1).map (fun v => v.row.valueCt) = [some [9, 9]]) := by
  decide +kernel

end GalataVault.Backend

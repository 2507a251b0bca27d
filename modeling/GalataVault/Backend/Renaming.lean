import GalataVault.Backend.Heads
import GalataVault.Backend.Versions

/-!
# A rotation as a renaming

The live path accepts a batch that re-encrypts every retained version exactly once
and gives no two of them the same new name and number. That makes a rotation an
injective map of versions: each keeps its number, write time, writer and tombstone
flag. The server cannot see names and does not demand that the versions of one name
stay together. Where a batch keeps them together, and names apart, the rotation is a
renaming of whole histories.
-/

namespace GalataVault.Backend

open Proto Relational Relational.Transaction

/-- What a rotation may not change about a stored version. -/
def VersionRow.unchanging (row : VersionRow) : VersionMeta where
  writtenAt := row.writtenAt
  writtenBy := row.writtenBy
  tombstone := row.tombstone

/-- The entries of one kind. -/
def batchOf (r : RotationRequest) : RecordKind → List RotatedVersion
  | .secret => r.secrets
  | .config => r.configs

/-! ## What the checks establish -/

theorem versionMeta_lookup {db : Db} {kind : RecordKind} {pk : VaultPk} {name : NameHmac} {version : Nat}
    {m : VersionMeta} (found : (versionMeta db kind pk).lookup (name, version) = some m) :
    ∃ row, recordVersion pk kind name version db = some row ∧ m = row.unchanging := by
  obtain ⟨before, after, split, _⟩ := List.lookup_eq_some_iff.mp found
  have member : ((name, version), m) ∈ versionMeta db kind pk := by rw [split]; simp
  obtain ⟨v, selected, same⟩ := List.mem_map.mp member
  obtain ⟨stored, mine⟩ := List.mem_filter.mp selected
  simp only [Prod.mk.injEq] at same
  obtain ⟨⟨rfl, rfl⟩, rfl⟩ := same
  have found : (db.tables kind).records.find? (pk, v.row.nameHmac, v.row.version) = some v :=
    Table.find?_eq_some.mpr ⟨stored, by rw [VersionCols.key, of_decide_eq_true mine]⟩
  exact ⟨v.row, by rw [recordVersion, found]; rfl, rfl⟩

theorem versionMeta_stored {db : Db} {kind : RecordKind} {pk : VaultPk} {name : NameHmac} {version : Nat}
    {row : VersionRow} (found : recordVersion pk kind name version db = some row) :
    (name, version) ∈ (versionMeta db kind pk).map Prod.fst := by
  obtain ⟨v, stored, rfl⟩ := Option.map_eq_some_iff.mp found
  obtain ⟨member, key⟩ := Table.find?_eq_some.mp stored
  simp only [VersionCols.key, Prod.mk.injEq] at key
  obtain ⟨mine, rfl, rfl⟩ := key
  refine List.mem_map.mpr ⟨_, List.mem_map.mpr ⟨v, List.mem_filter.mpr ⟨member, by simp [mine]⟩, rfl⟩, rfl⟩

/-- A complete batch rewrites each stored version exactly once, with its write time,
and tombstones as tombstones. -/
structure Complete (batch : List RotatedVersion) (stored : Meta) : Prop where
  once : (batch.map oldKey).Nodup
  all : ∀ key, key ∈ batch.map oldKey ↔ key ∈ stored.map Prod.fst
  kept : ∀ s ∈ batch, ∃ m, stored.lookup (oldKey s) = some m ∧
    m.tombstone = s.valueCt.isNone ∧ m.writtenAt = s.writtenAt

theorem nodup_of_card {α : Type} [DecidableEq α] {l : List α} (full : l.toFinset.card = l.length) : l.Nodup :=
  Multiset.coe_nodup.mp (Multiset.toFinset_card_eq_card_iff_nodup.mp full)

theorem checkComplete_ok {batch : List RotatedVersion} {stored : Meta}
    (passed : checkComplete batch stored = .ok ()) : Complete batch stored := by
  unfold checkComplete at passed
  dsimp only at passed
  split at passed
  · cases passed
  · next keys =>
    split at passed
    · cases passed
    · next tombstones =>
      split at passed
      · cases passed
      · next times =>
        obtain ⟨card, same⟩ := not_or.mp keys
        refine ⟨nodup_of_card ?_, fun key => ?_, fun s member => ?_⟩
        · rw [not_not.mp card, List.length_map]
        · rw [← List.mem_toFinset, not_not.mp same, List.mem_toFinset]
        · simp only [List.any_eq_true, not_exists, not_and, bne_iff_ne, ne_eq, not_not] at tombstones times
          obtain ⟨m, found, tombstone⟩ := Option.map_eq_some_iff.mp (tombstones s member)
          obtain ⟨m', found', time⟩ := Option.map_eq_some_iff.mp (times s member)
          obtain rfl := Option.some.inj (found.symm.trans found')
          exact ⟨m, found, tombstone, time⟩

theorem checkRotation_complete {db : Db} {vault : VaultRow} {r : RotationRequest}
    (passed : checkRotation db vault r = .ok ()) (kind : RecordKind) :
    Complete (batchOf r kind) (versionMeta db kind vault.pk) := by
  unfold checkRotation at passed
  split at passed
  · cases passed
  · cases first : checkComplete r.secrets (versionMeta db .secret vault.pk) with
    | error failure => simp [first, bind, Except.bind] at passed
    | ok _ =>
      cases second : checkComplete r.configs (versionMeta db .config vault.pk) with
      | error failure => simp [first, second, bind, Except.bind] at passed
      | ok _ =>
        cases kind with
        | secret => exact checkComplete_ok first
        | config => exact checkComplete_ok second

/-! ## From entries to versions -/

section Entries

variable [Digests] {kind : RecordKind} {pk : VaultPk} {batch : List RotatedVersion} {generation : Nat} {ctx : Ctx}
  {db after : Db}

theorem Applied.rekinded {r : RotationRequest} (applied : Applied pk r ctx db after) (kind : RecordKind) :
    Rekinded kind pk (batchOf r kind) (r.fromGeneration + 1) ctx db after := by
  cases kind with
  | secret => exact applied.secrets
  | config => exact applied.configs

/-- An entry takes a stored version to one with the same unchanging part. -/
theorem Rekinded.entry (rekinded : Rekinded kind pk batch generation ctx db after)
    (complete : Complete batch (versionMeta db kind pk)) {s : RotatedVersion} (member : s ∈ batch) :
    ∃ row row', recordVersion pk kind s.oldNameHmac s.version db = some row ∧
      recordVersion pk kind s.nameHmac s.version after = some row' ∧ row'.unchanging = row.unchanging := by
  obtain ⟨m, found, tombstone, time⟩ := complete.kept s member
  obtain ⟨row, stored, rfl⟩ := versionMeta_lookup found
  refine ⟨row, _, stored, rekinded.replaced.recordVersion_own.mpr
    ⟨rewrittenRow (versionMeta db kind pk) ctx s, List.mem_map_of_mem member, rfl, rfl, rfl⟩, ?_⟩
  have writer : (rewrittenRow (versionMeta db kind pk) ctx s).writtenBy = row.writtenBy := by
    simp [rewrittenRow, found, VersionRow.unchanging]
  have emptied : (rewrittenRow (versionMeta db kind pk) ctx s).valueCt.isNone = row.tombstone := by
    rw [rewrittenRow, Option.isNone_map]
    exact tombstone.symm
  simp only [VersionRow.unchanging, Insert.cols, Rewritten.toInsert, writer, emptied]
  exact congrArg (VersionMeta.mk · row.writtenBy row.tombstone) time.symm

omit [Digests] in
/-- Every stored version has its entry. -/
theorem Complete.of_stored (complete : Complete batch (versionMeta db kind pk)) {name : NameHmac} {version : Nat}
    {row : VersionRow} (stored : recordVersion pk kind name version db = some row) :
    ∃ s ∈ batch, s.oldNameHmac = name ∧ s.version = version := by
  obtain ⟨s, member, same⟩ := List.mem_map.mp ((complete.all _).mpr (versionMeta_stored stored))
  exact ⟨s, member, (Prod.mk.inj same).1, (Prod.mk.inj same).2⟩

/-- Every version of the new generation comes from an entry. -/
theorem Rekinded.of_rewritten (rekinded : Rekinded kind pk batch generation ctx db after) {name : NameHmac}
    {version : Nat} {row : VersionRow} (stored : recordVersion pk kind name version after = some row) :
    ∃ s ∈ batch, s.nameHmac = name ∧ s.version = version := by
  obtain ⟨r, member, rfl, rfl, _⟩ := rekinded.replaced.recordVersion_own.mp stored
  obtain ⟨s, present, rfl⟩ := List.mem_map.mp member
  exact ⟨s, present, rfl, rfl⟩

/-- Entries with the same new name and number are one entry. -/
theorem Rekinded.injective (rekinded : Rekinded kind pk batch generation ctx db after) {s t : RotatedVersion}
    (left : s ∈ batch) (right : t ∈ batch) (same : newKey s = newKey t) : s = t := by
  have distinct : (batch.map newKey).Nodup := nodup_of_card (by rw [rekinded.distinct, List.length_map])
  exact List.inj_on_of_nodup_map distinct left right same

omit [Digests] in
theorem Complete.injective (complete : Complete batch (versionMeta db kind pk)) {s t : RotatedVersion}
    (left : s ∈ batch) (right : t ∈ batch) (same : oldKey s = oldKey t) : s = t :=
  List.inj_on_of_nodup_map complete.once left right same

end Entries

/-! ## The rotation -/

/-- Whether a vault has a version under the name. -/
def Stored.Name (db : Db) (kind : RecordKind) (pk : VaultPk) (name : NameHmac) : Prop :=
  ∃ version row, recordVersion pk kind name version db = some row

/-- Every version moves to a new name under its own number, unchanged otherwise; no two
meet, and nothing else is there after. -/
structure Moves (db after : Db) (kind : RecordKind) (pk : VaultPk) (move : NameHmac × Nat → NameHmac) :
    Prop where
  injective : ∀ name other version row row', recordVersion pk kind name version db = some row →
    recordVersion pk kind other version db = some row' → move (name, version) = move (other, version) → name = other
  kept : ∀ name version row, recordVersion pk kind name version db = some row → ∃ row',
    recordVersion pk kind (move (name, version)) version after = some row' ∧ row'.unchanging = row.unchanging
  onto : ∀ name version row', recordVersion pk kind name version after = some row' → ∃ old row,
    recordVersion pk kind old version db = some row ∧ move (old, version) = name

/-- Every name moves with all its versions and its head, and no two meet. -/
structure Renames (db after : Db) (kind : RecordKind) (pk : VaultPk) (rename : NameHmac → NameHmac) : Prop where
  injective : ∀ name other, Stored.Name db kind pk name → Stored.Name db kind pk other →
    rename name = rename other → name = other
  versions : ∀ name version, Stored.Name db kind pk name →
    (recordVersion pk kind (rename name) version after).map (·.unchanging) =
      (recordVersion pk kind name version db).map (·.unchanging)
  onto : ∀ name, Stored.Name after kind pk name → ∃ old, Stored.Name db kind pk old ∧ rename old = name
  head : ∀ name, Stored.Name db kind pk name → after.loadHead kind pk (rename name) = db.loadHead kind pk name

section Rotation

variable [Digests] {kind : RecordKind} {pk : VaultPk} {batch : List RotatedVersion} {generation : Nat} {ctx : Ctx}
  {db after : Db}

theorem Rekinded.moves (rekinded : Rekinded kind pk batch generation ctx db after)
    (complete : Complete batch (versionMeta db kind pk)) {move : NameHmac × Nat → NameHmac}
    (given : ∀ s ∈ batch, move (oldKey s) = s.nameHmac) : Moves db after kind pk move := by
  constructor
  · intro name other version row row' stored stored' same
    obtain ⟨s, member, rfl, rfl⟩ := complete.of_stored stored
    obtain ⟨t, member', rfl, number⟩ := complete.of_stored stored'
    have names : s.nameHmac = t.nameHmac := by
      rw [← given s member, ← given t member', oldKey, oldKey, number]
      exact same
    rw [rekinded.injective member member' (Prod.ext names number.symm)]
  · intro name version row stored
    obtain ⟨s, member, rfl, rfl⟩ := complete.of_stored stored
    obtain ⟨old, new, found, written, same⟩ := rekinded.entry complete member
    obtain rfl := Option.some.inj (found.symm.trans stored)
    exact ⟨new, (given s member).symm ▸ written, same⟩
  · intro name version row' written
    obtain ⟨s, member, rfl, rfl⟩ := rekinded.of_rewritten written
    obtain ⟨old, _, found, _, _⟩ := rekinded.entry complete member
    exact ⟨s.oldNameHmac, old, found, given s member⟩

/-- A batch that keeps the versions of a name together, and names apart, renames. -/
theorem Rekinded.renames (rekinded : Rekinded kind pk batch generation ctx db after)
    (complete : Complete batch (versionMeta db kind pk)) (before : HeadsLead db) (later : HeadsLead after)
    {rename : NameHmac → NameHmac} (together : ∀ s ∈ batch, s.nameHmac = rename s.oldNameHmac)
    (apart : ∀ s ∈ batch, ∀ t ∈ batch, s.nameHmac = t.nameHmac → s.oldNameHmac = t.oldNameHmac) :
    Renames db after kind pk rename := by
  have injective : ∀ name other, Stored.Name db kind pk name → Stored.Name db kind pk other →
      rename name = rename other → name = other := by
    rintro name other ⟨version, row, stored⟩ ⟨version', row', stored'⟩ same
    obtain ⟨s, member, rfl, rfl⟩ := complete.of_stored stored
    obtain ⟨t, member', rfl, rfl⟩ := complete.of_stored stored'
    exact apart s member t member' (by rw [together s member, together t member', same])
  -- A version under a renamed name comes from an entry of that same old name.
  have back : ∀ name version row', Stored.Name db kind pk name →
      recordVersion pk kind (rename name) version after = some row' →
      ∃ row, recordVersion pk kind name version db = some row ∧ row'.unchanging = row.unchanging := by
    intro name version row' stored written
    obtain ⟨s, member, named, rfl⟩ := rekinded.of_rewritten written
    obtain ⟨old, new, found, written', same⟩ := rekinded.entry complete member
    have same_name : s.oldNameHmac = name :=
      injective _ _ ⟨_, _, found⟩ stored ((together s member).symm.trans named)
    rw [named] at written'
    obtain rfl := Option.some.inj (written'.symm.trans written)
    exact ⟨old, same_name ▸ found, same⟩
  have forth : ∀ name version row, recordVersion pk kind name version db = some row →
      ∃ row', recordVersion pk kind (rename name) version after = some row' ∧ row'.unchanging = row.unchanging := by
    intro name version row stored
    obtain ⟨s, member, rfl, rfl⟩ := complete.of_stored stored
    obtain ⟨old, new, found, written, same⟩ := rekinded.entry complete member
    obtain rfl := Option.some.inj (found.symm.trans stored)
    exact ⟨new, together s member ▸ written, same⟩
  refine ⟨injective, ?_, ?_, ?_⟩
  · intro name version stored
    cases found : recordVersion pk kind name version db with
    | some row =>
      obtain ⟨row', written, same⟩ := forth name version row found
      rw [written, Option.map_some, Option.map_some, same]
    | none =>
      cases written : recordVersion pk kind (rename name) version after with
      | none => rfl
      | some row' =>
        obtain ⟨row, present, _⟩ := back name version row' stored written
        rw [present] at found
        cases found
  · rintro name ⟨version, row', written⟩
    obtain ⟨s, member, rfl, rfl⟩ := rekinded.of_rewritten written
    obtain ⟨old, _, found, _, _⟩ := rekinded.entry complete member
    exact ⟨s.oldNameHmac, ⟨_, _, found⟩, (together s member).symm⟩
  · rintro name ⟨version, row, stored⟩
    -- Both heads are the largest version of the same versions.
    obtain ⟨head, tombstone, old, _⟩ := before.largest kind pk name version row stored
    obtain ⟨top, topStored, rfl⟩ := before.leads kind pk name head tombstone old
    obtain ⟨moved, written, same⟩ := forth name head top topStored
    obtain ⟨head', tombstone', new, below⟩ := later.largest kind pk (rename name) head moved written
    obtain ⟨top', topWritten, rfl⟩ := later.leads kind pk (rename name) head' tombstone' new
    obtain ⟨source, sourceStored, same'⟩ := back name head' top' ⟨version, row, stored⟩ topWritten
    obtain ⟨_, _, found, above⟩ := before.largest kind pk name head' source sourceStored
    rw [old, Option.some.injEq, Prod.mk.injEq] at found
    obtain ⟨rfl, _⟩ := found
    obtain rfl : head = head' := by omega
    obtain rfl := Option.some.inj (topStored.symm.trans sourceStored)
    rw [new, old]
    exact congrArg (fun kept : VersionMeta => some (head, kept.tombstone)) same'

/-- The new name of each old version, as a batch gives it. -/
def moveOf (batch : List RotatedVersion) (key : NameHmac × Nat) : NameHmac :=
  ((batch.find? fun s => oldKey s = key).map (·.nameHmac)).getD key.1

omit [Digests] in
theorem Complete.moveOf (complete : Complete batch (versionMeta db kind pk)) {s : RotatedVersion}
    (member : s ∈ batch) : moveOf batch (oldKey s) = s.nameHmac := by
  unfold Backend.moveOf
  cases found : batch.find? fun t => oldKey t = oldKey s with
  | none => exact absurd (decide_eq_true rfl) (List.find?_eq_none.mp found s member)
  | some t =>
    have same : oldKey t = oldKey s := by simpa using List.find?_some found
    rw [complete.injective (List.mem_of_find?_eq_some found) member same]
    rfl

end Rotation

/-- An accepted rotation of a reached state moves every retained version to a new name
under its own number, keeping write time, writer and tombstone flag; no two versions
meet, and each new name's head is its largest version. If the batch keeps the versions
of a name together and names apart, the rotation is a renaming of names. -/
theorem rotation_moves_versions [Digests] {σ : Type} (journal : σ) (calls : List (Call σ))
    (disk : Except String Unit) (hook : CommitHook σ) (pk : VaultPk) (r : RotationRequest) (ctx : Ctx)
    (generation : Nat) (kind : RecordKind)
    (accepted : (applyRotation disk hook pk r ctx (run ⟨Db.empty, journal⟩ calls).db
      (run ⟨Db.empty, journal⟩ calls).journal).1 = .ok generation) :
    let before := (run ⟨Db.empty, journal⟩ calls).db
    let after := (run ⟨Db.empty, journal⟩ (calls ++ [.applyRotation disk hook pk r ctx])).db
    (∃ move, (∀ s ∈ batchOf r kind, move (oldKey s) = s.nameHmac) ∧ Moves before after kind pk move) ∧
      HeadsLead after ∧
      ∀ rename, (∀ s ∈ batchOf r kind, s.nameHmac = rename s.oldNameHmac) →
        (∀ s ∈ batchOf r kind, ∀ t ∈ batchOf r kind, s.nameHmac = t.nameHmac → s.oldNameHmac = t.oldNameHmac) →
          Renames before after kind pk rename := by
  intro before after
  have leadBefore : HeadsLead before := run_headsLead journal calls
  have leadAfter : HeadsLead after := run_headsLead journal _
  obtain ⟨record, ran⟩ := writeCritical_accepted accepted
  obtain ⟨vault, middle, loaded, passed, applied, _, outcome⟩ := applyRotationBody_ok ran
  obtain rfl := Db.loadVault_pk loaded
  have complete := checkRotation_complete passed kind
  have reached : after = { middle with lastApplied := middle.lastApplied + 1 } := by
    change (run _ (calls ++ [_])).db = _
    rw [run_append]
    exact outcome
  have same : after.tables kind = middle.tables kind := by
    rw [reached]
    cases kind <;> rfl
  obtain ⟨distinct, replaced⟩ := (applyBatch_ok applied).2.rekinded kind
  have rekinded : Rekinded kind vault.pk (batchOf r kind) (r.fromGeneration + 1) ctx before after :=
    ⟨distinct, replaced.of_tables rfl same⟩
  have given : ∀ s ∈ batchOf r kind, moveOf (batchOf r kind) (oldKey s) = s.nameHmac :=
    fun s member => complete.moveOf member
  exact ⟨⟨_, given, rekinded.moves complete given⟩, leadAfter,
    fun rename together apart => rekinded.renames complete leadBefore leadAfter together apart⟩

/-- The rotation of a secret with two versions moves both to its new name. -/
theorem rotation_moves_two_versions :
    letI := checksum
    let calls : List (Call Unit) :=
      [.createVault (.ok ()) (.filled 7) 1, putFilled .ifNoneMatch 1, putFilled (.ifMatch 1) 2]
    let rotation : Call Unit := .applyRotation (.ok ()) (fun _ _ => (.ok (), ())) 1 (filledRotation 3) ⟨.owner, 3⟩
    Renames (run ⟨Db.empty, ()⟩ calls).db (run ⟨Db.empty, ()⟩ (calls ++ [rotation])).db .secret 1
      fun _ => ⟨.fill 32 2⟩ := by
  let _ := checksum
  intro calls rotation
  exact (rotation_moves_versions () calls (.ok ()) (fun _ _ => (.ok (), ())) 1 (filledRotation 3) ⟨.owner, 3⟩ 2
    .secret (by decide +kernel)).2.2 (fun _ => ⟨.fill 32 2⟩) (by decide) (by decide)

/-! ## A rotation that splits a name -/

/-- A delete of the filled name, whose live version is 1. -/
def deleteFilled : Call Unit :=
  .deleteRecord (.ok ()) 1 .secret ⟨.fill 32 1⟩ 1 { RecordWrite.filled 2 5 with valueCt := none }
    ⟨.owner, 2⟩ .default

/-- A batch that sends the live version and the tombstone of one name to two names. -/
def splittingRotation : RotationRequest :=
  { filledRotation 3 with
    secrets := [(1, 2, some ⟨[9]⟩), (2, 3, none)].map fun entry =>
      { oldNameHmac := ⟨.fill 32 1⟩, version := entry.1, nameHmac := ⟨.fill 32 entry.2.1⟩, nameCt := ⟨[9]⟩,
        valueCt := entry.2.2, writtenAt := 1, sig := ⟨.fill 64 9⟩ } }

/-- The live path accepts a batch that splits a deleted name, and the deleted value is
live again under one of the new names: no renaming of names describes it. -/
theorem rotation_splits_a_name :
    letI := checksum
    let calls : List (Call Unit) := [.createVault (.ok ()) (.filled 7) 1, putFilled .ifNoneMatch 1, deleteFilled]
    let before := (run ⟨Db.empty, ()⟩ calls).db
    let outcome := applyRotation (.ok ()) (fun _ _ => (.ok (), ())) 1 splittingRotation ⟨.owner, 3⟩ before ()
    outcome.1 = .ok 2 ∧ before.loadHead .secret 1 ⟨.fill 32 1⟩ = some (2, true) ∧
      outcome.2.1.loadHead .secret 1 ⟨.fill 32 2⟩ = some (1, false) ∧
      ¬ ∃ rename, Renames before outcome.2.1 .secret 1 rename := by
  let _ := checksum
  intro calls before outcome
  refine ⟨by decide +kernel, by decide +kernel, by decide +kernel, ?_⟩
  rintro ⟨rename, renames⟩
  have stored : (recordVersion 1 .secret ⟨.fill 32 1⟩ 1 before).isSome = true := by decide +kernel
  have keys : ((outcome.2.1.tables .secret).records.rows.map VersionCols.key) =
      [(1, ⟨.fill 32 2⟩, 1), (1, ⟨.fill 32 3⟩, 2)] := by decide +kernel
  obtain ⟨row, found⟩ := Option.isSome_iff_exists.mp stored
  have first := renames.versions ⟨.fill 32 1⟩ 1 ⟨1, row, found⟩
  rw [found, Option.map_some, Option.map_eq_some_iff] at first
  obtain ⟨moved, written, _⟩ := first
  obtain ⟨cols, lookup, _⟩ := Option.map_eq_some_iff.mp written
  obtain ⟨member, key⟩ := Table.find?_eq_some.mp lookup
  have listed : (1, rename ⟨.fill 32 1⟩, 1) ∈ (outcome.2.1.tables .secret).records.rows.map VersionCols.key :=
    key ▸ List.mem_map_of_mem member
  rw [keys] at listed
  -- Version 1 is under the first new name only, so the tombstone would be there too.
  have name : rename ⟨.fill 32 1⟩ = ⟨.fill 32 2⟩ := by simpa using listed
  have second := renames.versions ⟨.fill 32 1⟩ 2 ⟨1, row, found⟩
  rw [name] at second
  have absent : (recordVersion 1 .secret ⟨.fill 32 2⟩ 2 outcome.2.1).isSome = false := by decide +kernel
  have present : (recordVersion 1 .secret ⟨.fill 32 1⟩ 2 before).isSome = true := by decide +kernel
  have agree := congrArg Option.isSome second
  rw [Option.isSome_map, Option.isSome_map, absent, present] at agree
  exact Bool.false_ne_true agree

end GalataVault.Backend

import GalataVault.Backend.Failures
import GalataVault.Backend.Histories

/-!
# What one write adds and takes

What a vault counts follows the histories of its names: the bytes by what a write adds at
the end of one and takes from its front, and the live names by whether the written name was
live and is.
-/

namespace GalataVault.Backend

open Proto Relational Relational.Transaction

/-- The bytes a version counts for. -/
def VersionRow.size (row : VersionRow) : Nat := row.nameCt.length + (row.valueCt.map List.length).getD 0

/-- The bytes a vault's row counts. -/
def Db.bytesUsed (db : Db) (pk : VaultPk) : Nat := ((db.vaults.find? pk).map (·.bytesUsed)).getD 0

variable {db after : Db} {kind : RecordKind} {pk : VaultPk} {v : Insert} {tombstone : Bool} {maxVersions total : Nat}

/-- What pruning frees, of the history. -/
theorem freedBytes_history (db : Db) (kind : RecordKind) (pk : VaultPk) (name : NameHmac) (maxVersions : Nat) :
    freedBytes (prunable db kind pk name maxVersions) =
      (((recordVersions pk kind name db).map VersionRow.size).take
        ((recordVersions pk kind name db).length + 1 - max maxVersions 1)).sum := by
  rw [freedBytes_prunable, prunedRows, recordVersions, List.length_map, List.map_map, ← List.map_take]
  rfl

variable [Digests]

/-- What an accepted write adds and takes. -/
structure Metered (db after : Db) (kind : RecordKind) (pk : VaultPk) (v : Insert) (maxVersions : Nat) : Prop where
  history : recordVersions pk kind v.name after =
    (recordVersions pk kind v.name db ++ [(v.cols pk).row]).drop
      ((recordVersions pk kind v.name db).length + 1 - max maxVersions 1)
  bytes : after.bytesUsed pk =
    db.bytesUsed pk + (v.cols pk).row.size - freedBytes (prunable db kind pk v.name maxVersions)
  live : (after.liveHeads kind pk).length + (if (db.loadHead kind pk v.name).any (!·.2) then 1 else 0) =
    (db.liveHeads kind pk).length + if v.valueCt.isNone then 0 else 1

theorem Metered.of_stored {pre : Precondition} (lead : HeadsLead db)
    (stored : Stored db after kind pk v v.valueCt.isNone (prunable db kind pk v.name maxVersions) total)
    (names : Names pre (db.loadHead kind pk v.name) v.version)
    (sum : total = db.bytesUsed pk + (v.cols pk).row.size - freedBytes (prunable db kind pk v.name maxVersions)) :
    Metered db after kind pk v maxVersions where
  history := stored.history (names.newest lead)
  bytes := by
    obtain ⟨_, row, _, found, _, counted, _⟩ := stored.vault
    rw [Db.bytesUsed, found, Option.map_some, Option.getD_some, counted, sum]
  live := stored.liveHeads_count

section Accepted

variable {disk : Except String Unit} {name : NameHmac} {w : RecordWrite} {ctx : Ctx} {limits : Limits} {version : Nat}

/-- What the vault counts after a write that is accepted. -/
def Db.bytesAfter (db : Db) (kind : RecordKind) (pk : VaultPk) (name : NameHmac) (w : RecordWrite) (limits : Limits) :
    Nat :=
  db.bytesUsed pk + w.size - freedBytes (prunable db kind pk name (kind.maxVersions limits))

omit [Digests] in
theorem bytesUsed_loaded {vault : VaultRow} (loaded : db.loadVault pk = some vault) : db.bytesUsed pk = vault.bytesUsed := by
  obtain ⟨row, found, _, _, _, counted⟩ := Db.loadVault_found loaded
  rw [Db.bytesUsed, found, counted]
  rfl

theorem putRecord_metered {pre : Precondition} (lead : HeadsLead db)
    (accepted : (putRecord disk pk kind name pre w ctx limits db).1 = .ok version) :
    (∀ value, w.valueCt = some value → Fits db kind pk name value limits (db.bytesAfter kind pk name w limits)) ∧
      Metered db (putRecord disk pk kind name pre w ctx limits db).2 kind pk (w.toInsert name version ctx.actor)
        (kind.maxVersions limits) := by
  unfold putRecord at accepted ⊢
  split at accepted
  · cases accepted
  · next valueCt value =>
    have ran := write_accepted accepted
    rcases putRecordBody_cases value ran with refused | ⟨vault, next, answer, loaded, _, small, assigned, signed, room,
      total, stored⟩
    · cases refused
    · obtain rfl := Done.ok.inj answer
      have size : w.size = w.nameCt.length + valueCt.length := by simp [RecordWrite.size, value]
      rw [← bytesUsed_loaded loaded, ← size] at total stored
      have live : (w.toInsert name version ctx.actor).valueCt.isNone = false := by simp [RecordWrite.toInsert, value]
      refine ⟨fun other same => ?_, .of_stored lead (live ▸ stored) (nextVersion_names assigned) rfl⟩
      obtain rfl := Option.some.inj (value.symm.trans same)
      exact ⟨small, room, total⟩

theorem deleteRecord_metered {live : Nat} (lead : HeadsLead db)
    (accepted : (deleteRecord disk pk kind name live w ctx limits db).1 = .ok version) :
    Metered db (deleteRecord disk pk kind name live w ctx limits db).2 kind pk (w.toInsert name version ctx.actor)
      (kind.maxVersions limits) := by
  unfold deleteRecord at accepted ⊢
  split at accepted
  · cases accepted
  · next value =>
    have ran := write_accepted accepted
    rcases deleteRecordBody_cases value ran with refused | ⟨vault, answer, loaded, _, head, signed, stored⟩
    · cases refused
    · obtain rfl := Done.ok.inj answer
      have size : w.size = w.nameCt.length := by simp [RecordWrite.size, value]
      rw [← bytesUsed_loaded loaded, ← size] at stored
      have dead : (w.toInsert name (live + 1) ctx.actor).valueCt.isNone = true := by simp [RecordWrite.toInsert, value]
      have names : Names (.ifMatch live) (db.loadHead kind pk name) (live + 1) := ⟨head, rfl⟩
      exact .of_stored lead (dead ▸ stored) names rfl

/-- A put that a quota refuses does not fit. -/
theorem putRecord_quota {pre : Precondition} {quota : Quota}
    (refused : (putRecord disk pk kind name pre w ctx limits db).1 = .error (.quota quota)) :
    ∃ value, w.valueCt = some value ∧ ¬ Fits db kind pk name value limits (db.bytesAfter kind pk name w limits) := by
  unfold putRecord at refused
  split at refused
  · cases refused
  · next valueCt value =>
    refine ⟨valueCt, value, fun fits => ?_⟩
    have ran := write_refuses (putRecordBody_throws kind name pre w valueCt ctx limits) refused rfl
    rw [putRecordBody, get_bind_ok] at ran
    split at ran
    · simp only [throw_ok] at ran
    · next vault loaded =>
      have size : w.size = w.nameCt.length + valueCt.length := by simp [RecordWrite.size, value]
      have total := fits.total
      rw [Db.bytesAfter, bytesUsed_loaded loaded, size] at total
      dsimp only at ran
      split at ran
      · cases (refuse_ok ran).1
      · split at ran
        · next large => exact absurd fits.small (Nat.not_le_of_lt large)
        · split at ran
          · cases (refuse_ok ran).1
          · split at ran
            · cases (refuse_ok ran).1
            · split at ran
              · next full => exact fits.room full
              · split at ran
                · next excess => exact absurd total (Nat.not_le_of_lt excess)
                · simp only [bind_ok, pure_ok, Prod.mk.injEq] at ran
                  obtain ⟨_, _, _, impossible, _⟩ := ran
                  cases impossible

/-- No quota refuses a delete. -/
theorem deleteRecord_quota {live : Nat} {quota : Quota} :
    (deleteRecord disk pk kind name live w ctx limits db).1 ≠ .error (.quota quota) := by
  intro refused
  unfold deleteRecord at refused
  split at refused
  · cases refused
  · have ran := write_refuses (deleteRecordBody_throws kind name live w ctx limits) refused rfl
    rw [deleteRecordBody, get_bind_ok] at ran
    split at ran
    · simp only [throw_ok] at ran
    · dsimp only at ran
      split at ran
      · simp only [throw_ok] at ran
      · simp only [throw_ok] at ran
      · split at ran
        · cases (refuse_ok ran).1
        · split at ran
          · cases (refuse_ok ran).1
          · split at ran
            · cases (refuse_ok ran).1
            · simp only [bind_ok, pure_ok, Prod.mk.injEq] at ran
              obtain ⟨_, _, _, impossible, _⟩ := ran
              cases impossible

end Accepted

end GalataVault.Backend

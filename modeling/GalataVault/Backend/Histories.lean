import GalataVault.Backend.Quotas
import GalataVault.Backend.Reads

/-!
# Histories and writes

The history of a name is the list of its retained versions, oldest first. A write puts one
version at its end, takes from its front what is over the version limit, and leaves every
other history alone. So a history that has room grows by one, and none grows past the limit.
-/

namespace GalataVault.Backend

open Proto Relational Relational.Transaction

variable {db after : Db} {kind : RecordKind} {pk : VaultPk} {name : NameHmac}

/-- Ascending lists of the same versions are the same. -/
theorem ascending_ext {left right : List VersionRow} (ascending : left.Pairwise fun a b => a.version < b.version)
    (ascending' : right.Pairwise fun a b => a.version < b.version) (same : ∀ row, row ∈ left ↔ row ∈ right) :
    left = right := by
  have once : ∀ {rows : List VersionRow}, (rows.Pairwise fun a b => a.version < b.version) → rows.Nodup := by
    intro rows pairwise
    refine pairwise.imp ?_
    rintro a _ less rfl
    exact Nat.lt_irrefl _ less
  have perm := (List.perm_ext_iff_of_nodup (once ascending) (once ascending')).mpr same
  refine perm.eq_of_pairwise ?_ ascending ascending'
  intro a b _ _ less more
  exact absurd less (Nat.lt_asymm more)

/-- A history is decided by its lookups. -/
theorem recordVersions_ext
    (same : ∀ version, recordVersion pk kind name version after = recordVersion pk kind name version db) :
    recordVersions pk kind name after = recordVersions pk kind name db := by
  apply ascending_ext (recordVersions_ascending _ _ _ _) (recordVersions_ascending _ _ _ _)
  intro row
  rw [recordVersions_mem, recordVersions_mem, same]

/-- The last version of a history is the head's. -/
theorem headVersion_last (lead : HeadsLead db) (kind : RecordKind) (pk : VaultPk) (name : NameHmac) :
    db.headVersion kind pk name = ((recordVersions pk kind name db).getLast?.map (·.version)).getD 0 := by
  rw [← latestRecord_last lead, latestRecord, Db.headVersion]
  cases loaded : db.loadHead kind pk name with
  | none => rfl
  | some head =>
    obtain ⟨version, tombstone⟩ := head
    obtain ⟨row, found, _⟩ := lead.leads kind pk name version tombstone loaded
    obtain ⟨_, _, _, _, _, number⟩ := recordVersion_iff.mp found
    rw [Option.bind_some, found]
    exact number.symm

/-- The number that a write is assigned is larger than any of its name. -/
theorem Names.newest {pre : Precondition} {version : Nat} (lead : HeadsLead db)
    (names : Names pre (db.loadHead kind pk name) version) : ∀ row ∈ recordVersions pk kind name db, row.version < version := by
  intro row member
  obtain ⟨head, tombstone, loaded, below⟩ := lead.largest kind pk name row.version row (recordVersions_mem.mp member)
  have next := names.next
  rw [Db.headVersion, loaded] at next
  have next : version = head + 1 := next
  omega

variable [Digests]

/-- Histories of other names and kinds are as they were. -/
theorem Creates.others {v : Insert} (made : Creates db after kind pk v) {other : RecordKind}
    (apart : other ≠ kind ∨ name ≠ v.name) : recordVersions pk other name after = recordVersions pk other name db := by
  apply recordVersions_ext
  intro version
  by_cases same : other = kind
  · subst same
    have differs : name ≠ v.name := apart.resolve_left fun different => different rfl
    rcases made.kept pk name version fun hit => differs (Prod.mk.inj (Prod.mk.inj hit).2).1 with kept | ⟨_, named, _⟩
    · exact kept
    · exact absurd named differs
  · rw [recordVersion, recordVersion, made.elsewhere other same]

omit [Digests] in
/-- What is pruned of a name comes first in its history. -/
theorem mem_prunable {maxVersions version : Nat} :
    (∃ p ∈ prunable db kind pk name maxVersions, p.1 = version) ↔
      ∃ row ∈ (recordVersions pk kind name db).take ((recordVersions pk kind name db).length + 1 - max maxVersions 1),
        row.version = version := by
  rw [prunable_eq, prunedRows, recordVersions, List.length_map]
  simp only [List.mem_map, ← List.map_take]
  constructor
  · rintro ⟨_, ⟨v, member, rfl⟩, same⟩
    exact ⟨v.row, ⟨v, member, rfl⟩, same⟩
  · rintro ⟨_, ⟨v, member, rfl⟩, same⟩
    exact ⟨_, ⟨v, member, rfl⟩, same⟩

/-- A write adds at the end of a history and takes from its front. -/
theorem Stored.history {v : Insert} {tombstone : Bool} {maxVersions total : Nat}
    (stored : Stored db after kind pk v tombstone (prunable db kind pk v.name maxVersions) total)
    (newest : ∀ row ∈ recordVersions pk kind v.name db, row.version < v.version) :
    recordVersions pk kind v.name after =
      (recordVersions pk kind v.name db ++ [(v.cols pk).row]).drop
        ((recordVersions pk kind v.name db).length + 1 - max maxVersions 1) := by
  let old := recordVersions pk kind v.name db
  let count := old.length + 1 - max maxVersions 1
  have ascending : old.Pairwise fun a b => a.version < b.version := recordVersions_ascending _ _ _ _
  have upTo : count ≤ old.length := by
    simp only [count]
    omega
  change _ = (old ++ [(v.cols pk).row]).drop count
  rw [List.drop_append_of_le_length upTo]
  apply ascending_ext (recordVersions_ascending _ _ _ _)
  · refine List.pairwise_append.mpr ⟨ascending.sublist (List.drop_sublist _ _), List.pairwise_singleton _ _, ?_⟩
    intro row later last member
    obtain rfl := List.mem_singleton.mp member
    exact newest row ((List.drop_sublist _ _).mem later)
  · intro row
    have newKey : (v.cols pk).key = (pk, v.name, v.version) := rfl
    have gone : ∀ r : VersionCols, r.key = (pk, v.name, row.version) →
        ((prunable db kind pk v.name maxVersions).any (fun p => r.key = (pk, v.name, p.1)) = true ↔
          ∃ taken ∈ old.take count, taken.version = row.version) := by
      intro r key
      rw [← mem_prunable, List.any_eq_true]
      simp only [key, decide_eq_true_eq, Prod.mk.injEq, true_and]
      exact exists_congr fun p => and_congr_right fun _ => eq_comm
    rw [List.mem_append, List.mem_singleton, recordVersions_mem, recordVersion, stored.lookup]
    by_cases new : row.version = v.version
    · have kept : ¬ ∃ taken ∈ old.take count, taken.version = row.version := by
        rintro ⟨taken, member, same⟩
        have below := newest taken (List.mem_of_mem_take member)
        omega
      have key : (v.cols pk).key = (pk, v.name, row.version) := by rw [newKey, new]
      rw [if_pos key, Option.filter_some, if_pos]
      · constructor
        · intro same
          exact .inr (Option.some.inj same).symm
        · rintro (earlier | rfl)
          · have below := newest row ((List.drop_sublist _ _).mem earlier)
            omega
          · rfl
      · rw [Bool.not_eq_true', ← Bool.not_eq_true, gone _ key]
        exact kept
    · have differs : (v.cols pk).key ≠ (pk, v.name, row.version) := by
        intro same
        exact new (Prod.mk.inj (Prod.mk.inj same).2).2.symm
      rw [if_neg differs]
      have split : row ∈ old ↔ row ∈ old.take count ∨ row ∈ old.drop count := by
        rw [← List.mem_append, List.take_append_drop]
      have present : row ∈ old ↔
          ((db.tables kind).records.find? (pk, v.name, row.version)).map (·.row) = some row := recordVersions_mem
      have apart : row ∈ old.drop count ↔ row ∈ old ∧ ¬ ∃ taken ∈ old.take count, taken.version = row.version := by
        constructor
        · intro later
          refine ⟨split.mpr (.inr later), ?_⟩
          rintro ⟨taken, member, same⟩
          have ordered := ascending
          rw [← List.take_append_drop count old, List.pairwise_append] at ordered
          have below := ordered.2.2 taken member row later
          omega
        · rintro ⟨member, kept⟩
          exact (split.mp member).resolve_left fun taken => kept ⟨row, taken, rfl⟩
      have notNew : row ≠ (v.cols pk).row := fun same => new (congrArg VersionRow.version same)
      rw [or_iff_left notNew, apart, present]
      cases found : (db.tables kind).records.find? (pk, v.name, row.version) with
      | none => simp
      | some r =>
        have key := (Table.find?_eq_some.mp found).2
        have pruned := gone r key
        rw [Option.filter_some, ← pruned]
        cases (prunable db kind pk v.name maxVersions).any fun p => r.key = (pk, v.name, p.1) <;> simp

/-- What an accepted write leaves of the histories of its vault. -/
structure Appended (db after : Db) (kind : RecordKind) (pk : VaultPk) (v : Insert) (maxVersions : Nat) : Prop where
  created : Creates db after kind pk v
  next : v.version = db.headVersion kind pk v.name + 1
  grows : (recordVersions pk kind v.name db).length < max 1 maxVersions →
    recordVersions pk kind v.name after = recordVersions pk kind v.name db ++ [(v.cols pk).row]
  bounded : ∀ name, (recordVersions pk kind name after).length ≤
    max (max 1 maxVersions) (recordVersions pk kind name db).length

theorem Appended.of_stored {v : Insert} {maxVersions total : Nat} {pre : Precondition} (lead : HeadsLead db)
    (stored : Stored db after kind pk v v.valueCt.isNone (prunable db kind pk v.name maxVersions) total)
    (elsewhere : ∀ other, other ≠ kind → after.tables other = db.tables other)
    (names : Names pre (db.loadHead kind pk v.name) v.version) : Appended db after kind pk v maxVersions where
  created := stored.creates elsewhere
  next := names.next
  grows room := by
    have none : (recordVersions pk kind v.name db).length + 1 - max maxVersions 1 = 0 := by omega
    rw [stored.history (names.newest lead), none, List.drop_zero]
  bounded name := by
    have retained := stored.versionsOf_length name
    simp only [recordVersions, List.length_map]
    omega

section Accepted

variable {disk : Except String Unit} {w : RecordWrite} {ctx : Ctx} {limits : Limits} {version : Nat}

theorem putRecord_appended {pre : Precondition} (lead : HeadsLead db)
    (accepted : (putRecord disk pk kind name pre w ctx limits db).1 = .ok version) :
    w.version = version ∧ Appended db (putRecord disk pk kind name pre w ctx limits db).2 kind pk
      (w.toInsert name version ctx.actor) (kind.maxVersions limits) := by
  unfold putRecord at accepted ⊢
  split at accepted
  · cases accepted
  · next valueCt value =>
    have ran := write_accepted accepted
    have script := putRecordBody_script kind name pre w valueCt ctx limits _ _ _ ran
    rcases putRecordBody_cases value ran with refused | ⟨_, next, answer, _, _, _, assigned, signed, _, _, stored⟩
    · cases refused
    · obtain rfl := Done.ok.inj answer
      have live : (w.toInsert name version ctx.actor).valueCt.isNone = false := by simp [RecordWrite.toInsert, value]
      refine ⟨signed, .of_stored lead (live ▸ stored) (fun other differs => ?_) (nextVersion_names assigned)⟩
      exact script.tables_same other (by simpa using differs)

theorem deleteRecord_appended {live : Nat} (lead : HeadsLead db)
    (accepted : (deleteRecord disk pk kind name live w ctx limits db).1 = .ok version) :
    w.version = version ∧ Appended db (deleteRecord disk pk kind name live w ctx limits db).2 kind pk
      (w.toInsert name version ctx.actor) (kind.maxVersions limits) := by
  unfold deleteRecord at accepted ⊢
  split at accepted
  · cases accepted
  · next value =>
    have ran := write_accepted accepted
    have script := deleteRecordBody_script kind name live w ctx limits _ _ _ ran
    rcases deleteRecordBody_cases value ran with refused | ⟨_, answer, _, _, head, signed, stored⟩
    · cases refused
    · obtain rfl := Done.ok.inj answer
      have dead : (w.toInsert name (live + 1) ctx.actor).valueCt.isNone = true := by simp [RecordWrite.toInsert, value]
      have names : Names (.ifMatch live) (db.loadHead kind pk name) (live + 1) := ⟨head, rfl⟩
      refine ⟨signed, .of_stored lead (dead ▸ stored) (fun other differs => ?_) names⟩
      exact script.tables_same other (by simpa using differs)

end Accepted

end GalataVault.Backend

import GalataVault.Backend.Representation

/-!
# What the reads of a vault agree on

A listing joins heads with versions, a history sorts a name's versions, a rotating
client reads all of them at once. They are separate queries over two tables, and
where heads lead their versions they show the same rows.

The states in question are those of a server whose journal is replayed after a
restore: reached by live calls, and by replays of records that some critical
operation handed to a journal in such a state.
-/

namespace GalataVault.Backend

open Proto Relational Relational.Transaction

variable [Digests]

/-! ## Reads -/

/-- The listing of a version. -/
def VersionRow.listed (row : VersionRow) : HeadRow where
  nameHmac := row.nameHmac
  nameCt := row.nameCt
  version := row.version
  writtenAt := row.writtenAt
  size := (row.valueCt.map List.length).getD 0
  tombstone := row.tombstone
  generation := row.generation
  valueCtHash := valueHash row.valueCt
  sig := row.sig

/-- The reads of one kind of a vault agree: a full read has each version once found by
its name and number, a name's history is its part of it, the latest version is the
last of the history, and a listing shows the latest version of every name. -/
structure Agrees (db : Db) (kind : RecordKind) (pk : VaultPk) : Prop where
  all : ∀ row, row ∈ allRecordVersions pk kind db ↔ recordVersion pk kind row.nameHmac row.version db = some row
  once : (allRecordVersions pk kind db).Nodup
  history : ∀ name row, row ∈ recordVersions pk kind name db ↔ row ∈ allRecordVersions pk kind db ∧ row.nameHmac = name
  ascending : ∀ name, (recordVersions pk kind name db).Pairwise fun a b => a.version < b.version
  latest : ∀ name, latestRecord pk kind name db = (recordVersions pk kind name db).getLast?
  listed : ∀ cursor limit h, h ∈ listRecords pk kind cursor limit db →
    ∃ row, latestRecord pk kind h.nameHmac db = some row ∧ h = row.listed
  shown : ∀ cursor limit name row, latestRecord pk kind name db = some row →
    (∀ last, cursor = some last → name.raw.le last.raw = false) →
    (db.tables kind).heads.rows.length ≤ limit → row.listed ∈ listRecords pk kind cursor limit db

omit [Digests] in
/-- A version is looked up by its own name and number. -/
theorem recordVersion_iff {db : Db} {kind : RecordKind} {pk : VaultPk} {name : NameHmac} {version : Nat}
    {row : VersionRow} : recordVersion pk kind name version db = some row ↔
      ∃ v ∈ (db.tables kind).records.rows, v.vaultPk = pk ∧ v.row = row ∧ row.nameHmac = name ∧ row.version = version := by
  rw [recordVersion, Option.map_eq_some_iff]
  constructor
  · rintro ⟨v, found, rfl⟩
    obtain ⟨member, key⟩ := Table.find?_eq_some.mp found
    simp only [VersionCols.key, Prod.mk.injEq] at key
    exact ⟨v, member, key.1, rfl, key.2.1, key.2.2⟩
  · rintro ⟨v, member, rfl, rfl, rfl, rfl⟩
    exact ⟨v, Table.find?_eq_some.mpr ⟨member, rfl⟩, rfl⟩

omit [Digests] in
theorem allRecordVersions_mem {db : Db} {kind : RecordKind} {pk : VaultPk} {row : VersionRow} :
    row ∈ allRecordVersions pk kind db ↔ recordVersion pk kind row.nameHmac row.version db = some row := by
  rw [allRecordVersions, (List.perm_insertionSort _ _).mem_iff, recordVersion_iff, List.mem_map]
  constructor
  · rintro ⟨v, selected, rfl⟩
    obtain ⟨member, mine⟩ := List.mem_filter.mp selected
    exact ⟨v, member, of_decide_eq_true mine, rfl, rfl, rfl⟩
  · rintro ⟨v, member, mine, rfl, _, _⟩
    exact ⟨v, List.mem_filter.mpr ⟨member, decide_eq_true mine⟩, rfl⟩

omit [Digests] in
theorem recordVersions_mem {db : Db} {kind : RecordKind} {pk : VaultPk} {name : NameHmac} {row : VersionRow} :
    row ∈ recordVersions pk kind name db ↔ recordVersion pk kind name row.version db = some row := by
  rw [recordVersions, List.mem_map, recordVersion_iff]
  constructor
  · rintro ⟨v, listed, rfl⟩
    obtain ⟨member, mine, named⟩ := versionsOf_mem.mp listed
    exact ⟨v, member, mine, rfl, named, rfl⟩
  · rintro ⟨v, member, mine, rfl, named, _⟩
    exact ⟨v, versionsOf_mem.mpr ⟨member, mine, named⟩, rfl⟩

omit [Digests] in
/-- A name's versions are listed in ascending order: sorted, and no number twice. -/
theorem recordVersions_ascending (db : Db) (kind : RecordKind) (pk : VaultPk) (name : NameHmac) :
    (recordVersions pk kind name db).Pairwise fun a b => a.version < b.version := by
  have sorted : (db.versionsOf kind pk name).Pairwise fun a b => a.row.version ≤ b.row.version :=
    List.pairwise_insertionSort _ _
  have distinct := versionsOf_nodup db kind pk name
  rw [recordVersions, List.pairwise_map]
  refine (sorted.and distinct).imp_of_mem fun {a b} first second both => ?_
  obtain ⟨memberA, mineA, namedA⟩ := versionsOf_mem.mp first
  obtain ⟨memberB, mineB, namedB⟩ := versionsOf_mem.mp second
  refine Nat.lt_of_le_of_ne both.1 fun same => both.2 ?_
  have keys : a.key = b.key := by rw [VersionCols.key, VersionCols.key, mineA, mineB, namedA, namedB, same]
  exact List.inj_on_of_nodup_map (db.tables kind).records.distinct memberA memberB keys

omit [Digests] in
theorem latestRecord_last {db : Db} (lead : HeadsLead db) (kind : RecordKind) (pk : VaultPk) (name : NameHmac) :
    latestRecord pk kind name db = (recordVersions pk kind name db).getLast? := by
  cases loaded : db.loadHead kind pk name with
  | none =>
    have empty : recordVersions pk kind name db = [] := by
      rw [List.eq_nil_iff_forall_not_mem]
      intro row member
      obtain ⟨_, _, head, _⟩ := lead.largest kind pk name row.version row (recordVersions_mem.mp member)
      rw [loaded] at head
      cases head
    rw [latestRecord, loaded, empty]
    rfl
  | some head =>
    obtain ⟨top, tombstone⟩ := head
    obtain ⟨row, found, _⟩ := lead.leads kind pk name top tombstone loaded
    obtain ⟨_, _, _, _, _, number⟩ := recordVersion_iff.mp found
    have member : row ∈ recordVersions pk kind name db := recordVersions_mem.mpr (number ▸ found)
    rw [latestRecord, loaded]
    change recordVersion pk kind name top db = _
    cases last : (recordVersions pk kind name db).getLast? with
    | none =>
      rw [List.getLast?_eq_none_iff] at last
      rw [last] at member
      cases member
    | some final =>
      obtain ⟨before, split⟩ := List.getLast?_eq_some_iff.mp last
      have present : final ∈ recordVersions pk kind name db := by rw [split]; simp
      have stored := recordVersions_mem.mp present
      obtain ⟨_, _, again, below⟩ := lead.largest kind pk name final.version final stored
      rw [loaded, Option.some.injEq, Prod.mk.injEq] at again
      obtain ⟨rfl, _⟩ := again
      -- The head is not before the last version, and the last version is at most the head.
      have above : top ≤ final.version := by
        have ascending := recordVersions_ascending db kind pk name
        rw [split, List.pairwise_append] at ascending
        rw [split, List.mem_append, List.mem_singleton] at member
        rcases member with earlier | rfl
        · have less := ascending.2.2 row earlier final (by simp)
          omega
        · omega
      have same : final.version = top := by omega
      rw [← same]
      exact stored

theorem listRecords_mem {db : Db} (lead : HeadsLead db) (hashed : Hashed db) {kind : RecordKind} {pk : VaultPk}
    {cursor : Option NameHmac} {limit : Nat} {h : HeadRow} (member : h ∈ listRecords pk kind cursor limit db) :
    ∃ row, latestRecord pk kind h.nameHmac db = some row ∧ h = row.listed := by
  unfold listRecords at member
  have joined := (List.perm_insertionSort _ _).mem_iff.mp (List.mem_of_mem_take member)
  obtain ⟨head, selected, shown⟩ := List.mem_filterMap.mp joined
  obtain ⟨v, found, rfl⟩ := Option.map_eq_some_iff.mp shown
  obtain ⟨stored, mine⟩ := List.mem_filter.mp selected
  simp only [Bool.and_eq_true, decide_eq_true_eq] at mine
  obtain ⟨present, key⟩ := Table.find?_eq_some.mp found
  simp only [VersionCols.key, Prod.mk.injEq] at key
  have loaded : db.loadHead kind pk head.nameHmac = some (head.currentVersion, head.tombstone) := by
    have lookup : (db.tables kind).heads.find? (pk, head.nameHmac) = some head :=
      Table.find?_eq_some.mpr ⟨stored, by rw [HeadCols.key, mine.1]⟩
    rw [Db.loadHead, lookup]
    rfl
  have looked : recordVersion pk kind head.nameHmac head.currentVersion db = some v.row := by
    rw [recordVersion, found]
    rfl
  obtain ⟨row, again, flag⟩ := lead.leads kind pk head.nameHmac head.currentVersion head.tombstone loaded
  obtain rfl := Option.some.inj (looked.symm.trans again)
  refine ⟨v.row, ?_, ?_⟩
  · rw [latestRecord, loaded]
    exact looked
  · rw [VersionRow.listed, ← hashed kind v present, flag, key.2.1, key.2.2]

theorem listRecords_shows {db : Db} (hashed : Hashed db) {kind : RecordKind} {pk : VaultPk} {cursor : Option NameHmac}
    {limit : Nat} {name : NameHmac} {row : VersionRow} (lead : HeadsLead db)
    (latest : latestRecord pk kind name db = some row)
    (beyond : ∀ last, cursor = some last → name.raw.le last.raw = false)
    (room : (db.tables kind).heads.rows.length ≤ limit) : row.listed ∈ listRecords pk kind cursor limit db := by
  obtain ⟨⟨top, tombstone⟩, loaded, looked⟩ := Option.bind_eq_some_iff.mp latest
  obtain ⟨again, found, flag⟩ := lead.leads kind pk name top tombstone loaded
  obtain rfl := Option.some.inj (looked.symm.trans found)
  obtain ⟨head, lookup, same⟩ := Option.map_eq_some_iff.mp loaded
  obtain ⟨stored, key⟩ := Table.find?_eq_some.mp lookup
  simp only [HeadCols.key, Prod.mk.injEq] at key same
  obtain ⟨v, joined, rfl⟩ := Option.map_eq_some_iff.mp looked
  obtain ⟨present, keyV⟩ := Table.find?_eq_some.mp joined
  simp only [VersionCols.key, Prod.mk.injEq] at keyV
  unfold listRecords
  rw [List.take_of_length_le]
  · refine (List.perm_insertionSort _ _).mem_iff.mpr (List.mem_filterMap.mpr ⟨head, List.mem_filter.mpr ⟨stored, ?_⟩, ?_⟩)
    · cases cursor with
      | none => simp [key.1]
      | some last => simp [key.1, key.2, beyond last rfl]
    · rw [key.2, same.1, joined, Option.map_some, VersionRow.listed, ← hashed kind v present, flag, same.2, keyV.2.1,
        keyV.2.2]
  · rw [List.length_insertionSort]
    exact Nat.le_trans (List.length_filterMap_le _ _) (Nat.le_trans (List.length_filter_le _ _) room)

/-- Where heads lead and hashes fit, the reads agree. -/
theorem Agrees.of_heads {db : Db} (lead : HeadsLead db) (hashed : Hashed db) (kind : RecordKind) (pk : VaultPk) :
    Agrees db kind pk where
  all _ := allRecordVersions_mem
  once := by
    rw [allRecordVersions, (List.perm_insertionSort _ _).nodup_iff]
    refine List.Nodup.map_on ?_ ((List.Nodup.of_map _ (db.tables kind).records.distinct).filter _)
    intro a first b second same
    obtain ⟨memberA, mineA⟩ := List.mem_filter.mp first
    obtain ⟨memberB, mineB⟩ := List.mem_filter.mp second
    have keys : a.key = b.key := by
      rw [VersionCols.key, VersionCols.key, of_decide_eq_true mineA, of_decide_eq_true mineB, same]
    exact List.inj_on_of_nodup_map (db.tables kind).records.distinct memberA memberB keys
  history name row := by
    rw [recordVersions_mem, allRecordVersions_mem]
    constructor
    · intro found
      obtain ⟨_, _, _, _, rfl, _⟩ := recordVersion_iff.mp found
      exact ⟨found, rfl⟩
    · rintro ⟨found, rfl⟩
      exact found
  ascending := recordVersions_ascending db kind pk
  latest := latestRecord_last lead kind pk
  listed _ _ _ member := listRecords_mem lead hashed member
  shown _ _ _ _ latest beyond room := listRecords_shows hashed lead latest beyond room

/-! ## Reachable states -/

/-- A record that a critical operation hands to its journal in a state, whether or not
it then commits. -/
inductive Journaled (db : Db) : JournalRecord → Prop where
  | revoked {pk : VaultPk} {ids removed : List TokenId} {reported : Bool} {ctx : Ctx} {record : JournalRecord}
      {after : Db} (ran : (revokeTokensBody pk ids reported ctx).run db = .ok ((removed, record), after)) :
      Journaled db record
  | rotated {pk : VaultPk} {r : RotationRequest} {ctx : Ctx} {generation : Nat} {record : JournalRecord} {after : Db}
      (ran : (applyRotationBody pk r ctx).run db = .ok ((generation, record), after)) : Journaled db record
  | deleted {pk : VaultPk} {now : Int} {record : JournalRecord} {after : Db}
      (ran : (deleteVaultBody pk now).run db = .ok (((), record), after)) : Journaled db record

/-- The states that live calls and replays of journaled records reach, when every
applied batch is one of `names`. -/
inductive Reachable (names : RotationRequest → Prop) : Db → Prop where
  | empty : Reachable names Db.empty
  | called {σ : Type} {world : World σ} {call : Call σ} (reached : Reachable names world.db)
      (live : call.isReplay = false) (keeps : ∀ r, call.batch = some r → names r) :
      Reachable names (step world call).db
  | replayed {db source : Db} {record : JournalRecord} (disk : Except String Unit) (reached : Reachable names db)
      (origin : Reachable names source) (journaled : Journaled source record)
      (keeps : ∀ vaultId actor r, record.op = .rotate vaultId actor r → names r) :
      Reachable names (replay disk record db).2

/-- A run of live calls from a reachable state ends in one. -/
theorem Reachable.run {σ : Type} {names : RotationRequest → Prop} {world : World σ} (reached : Reachable names world.db)
    (calls : List (Call σ)) (live : ∀ call ∈ calls, call.isReplay = false ∧ ∀ r, call.batch = some r → names r) :
    Reachable names (run world calls).db := by
  induction calls generalizing world with
  | nil => exact reached
  | cons call calls inductionHypothesis =>
    obtain ⟨first, keeps⟩ := live call List.mem_cons_self
    have next : Reachable names (step world call).db := .called reached first keeps
    exact inductionHypothesis next fun other member => live other (List.mem_cons_of_mem _ member)

/-- What every such state keeps of the tables of its vaults. -/
structure Kept (db : Db) : Prop where
  homed : Homed db
  lead : HeadsLead db
  numbered : Numbered db
  dated : Dated db
  hashed : Hashed db

theorem Kept.step {σ : Type} {world : World σ} {call : Call σ} (kept : Kept world.db)
    (names : ∀ r, call.batch = some r → Together r ∧ Apart r)
    (whole : ∀ r, call.isReplay = true → call.batch = some r → ∀ kind, Whole (batchOf r kind)) :
    Kept (Backend.step world call).db where
  homed := (step_effect world call).homed kept.homed
  lead := step_headsLead world call kept.lead
  numbered := (step_change world call).numbered kept.numbered kept.lead names whole
  dated := (step_change world call).dated kept.dated kept.homed
  hashed := (step_effect world call).hashed kept.hashed

/-- A journaled batch was complete where it was journaled, so it is whole. -/
theorem Kept.whole {source : Db} {record : JournalRecord} (kept : Kept source) (journaled : Journaled source record)
    {vaultId : VaultId} {actor : Actor} {r : RotationRequest} (named : record.op = .rotate vaultId actor r)
    (together : Together r) (apart : Apart r) (kind : RecordKind) : Whole (batchOf r kind) := by
  cases journaled with
  | revoked ran =>
    obtain ⟨vault, deleted, audited, _, _, _, _, rfl, _⟩ := revokeTokensBody_ok ran
    cases named
  | rotated ran =>
    obtain ⟨vault, middle, _, checked, _, rfl, _⟩ := applyRotationBody_ok ran
    cases named
    exact kept.numbered.whole kind (checkRotation_complete checked kind) together apart
  | deleted ran =>
    obtain ⟨vault, _, rfl, _⟩ := deleteVaultBody_ok ran
    cases named

/-- The induction is on how the state was reached; a replay has one hypothesis for the
state it changes and one for the state its record was made in. -/
theorem Reachable.kept {db : Db} (reachable : Reachable (fun r => Together r ∧ Apart r) db) : Kept db := by
  induction reachable with
  | empty =>
    refine ⟨.initial, headsLead_empty, ⟨?_, ?_⟩, ⟨?_, ?_⟩, ?_⟩
    · rintro kind pk name version ⟨row, found⟩
      cases kind <;> cases found
    · intro kind pk name
      constructor
      rintro low ⟨row, found⟩
      cases kind <;> cases found
    · intro kind pk name version row v stored
      cases kind <;> cases stored
    · intro pk v found
      cases found
    · intro kind v member
      cases kind <;> cases member
  | called reached live keeps inductionHypothesis =>
    refine inductionHypothesis.step keeps fun r replays => ?_
    rw [live] at replays
    cases replays
  | @replayed db source record disk reached origin journaled keeps keptHere keptThere =>
    have batch : ∀ r, (Call.replay disk record : Call Unit).batch = some r →
        ∃ vaultId actor, record.op = .rotate vaultId actor r := by
      intro r asked
      cases named : record.op with
      | rotate vaultId actor request =>
        simp only [Call.batch, named, Option.some.injEq] at asked
        exact ⟨vaultId, actor, by rw [asked]⟩
      | revokeTokens | deleteVault => simp [Call.batch, named] at asked
    have next : Kept (Backend.step ⟨db, ()⟩ (.replay disk record)).db := by
      refine keptHere.step (fun r asked => ?_) fun r _ asked kind => ?_
      · obtain ⟨vaultId, actor, named⟩ := batch r asked
        exact keeps vaultId actor r named
      · obtain ⟨vaultId, actor, named⟩ := batch r asked
        obtain ⟨together, apart⟩ := keeps vaultId actor r named
        exact keptThere.whole journaled named together apart kind
    exact next

/-- In every reachable state whose rotations keep the versions of a name together and
different names apart: a head is its name's largest version and agrees with it on being
a tombstone, which is having no value; every version's name has a head, its versions
are an interval of positive numbers, it is of the vault's generation; the descriptors
are those of the generations up to that; and the reads agree. -/
theorem representation_of_reachable {db : Db} (reachable : Reachable (fun r => Together r ∧ Apart r) db) :
    HeadsLead db ∧
    (∀ kind pk name version row, recordVersion pk kind name version db = some row →
      (row.tombstone = true ↔ row.valueCt = none)) ∧
    Numbered db ∧ Dated db ∧ ∀ kind pk, Agrees db kind pk := by
  have kept := reachable.kept
  refine ⟨kept.lead, ?_, kept.numbered, kept.dated, fun kind pk => .of_heads kept.lead kept.hashed kind pk⟩
  intro kind pk name version row _
  rw [row.tombstone_eq, Option.isNone_iff_eq_none]

omit [Digests] in
/-- Two versions of one name are an interval before and after the name is rotated. -/
theorem representation_of_rotated_history :
    letI := checksum
    let calls : List (Call Unit) :=
      [.createVault (.ok ()) (.filled 7) 1, putFilled .ifNoneMatch 1, putFilled (.ifMatch 1) 2,
        .applyRotation (.ok ()) (fun _ _ => (.ok (), ())) 1 (filledRotation 3) ⟨.owner, 3⟩]
    Numbered (Backend.run ⟨Db.empty, ()⟩ calls).db := by
  let _ := checksum
  intro calls
  refine (representation_of_reachable (Reachable.empty.run calls ?_)).2.2.1
  intro call member
  simp only [calls, List.mem_cons, List.not_mem_nil, or_false] at member
  rcases member with rfl | rfl | rfl | rfl
  · exact ⟨rfl, fun r asked => by cases asked⟩
  · exact ⟨rfl, fun r asked => by cases asked⟩
  · exact ⟨rfl, fun r asked => by cases asked⟩
  · refine ⟨rfl, fun r asked => ?_⟩
    obtain rfl := Option.some.inj asked
    constructor <;> intro kind <;> cases kind <;> decide

/-! ## A rotation that joins two names -/

/-- A put under limits that retain one version. -/
def putNarrow (name : UInt8) (pre : Precondition) (version : Nat) : Call Unit :=
  .putRecord (.ok ()) 1 .secret ⟨.fill 32 name⟩ pre (.filled version 5) ⟨.owner, 2⟩ { Limits.default with maxVersions := 1 }

/-- A batch that gives version 1 of one name and version 3 of another one new name. -/
def joiningRotation : RotationRequest :=
  { filledRotation 5 with
    secrets := [(1, 1), (2, 3)].map fun entry =>
      { oldNameHmac := ⟨.fill 32 entry.1⟩, version := entry.2, nameHmac := ⟨.fill 32 9⟩, nameCt := ⟨[9]⟩,
        valueCt := some ⟨[9]⟩, writtenAt := 1, sig := ⟨.fill 64 9⟩ } }

omit [Digests] in
/-- The batch gives each old name one new name and the live path accepts it; the new
name then has a first and a third version and no second. -/
theorem joined_history_has_a_gap :
    letI := checksum
    ∃ db, Reachable Together db ∧ ¬ (db.numbers .secret 1 ⟨.fill 32 9⟩).OrdConnected := by
  let _ := checksum
  let calls : List (Call Unit) :=
    [.createVault (.ok ()) (.filled 7) 1, putNarrow 1 .ifNoneMatch 1, putNarrow 2 .ifNoneMatch 1,
      putNarrow 2 (.ifMatch 1) 2, putNarrow 2 (.ifMatch 2) 3,
      .applyRotation (.ok ()) (fun _ _ => (.ok (), ())) 1 joiningRotation ⟨.owner, 3⟩]
  have initial : Reachable Together (World.mk Db.empty ()).db := .empty
  refine ⟨_, initial.run calls ?_, ?_⟩
  · intro call member
    simp only [calls, List.mem_cons, List.not_mem_nil, or_false] at member
    rcases member with rfl | rfl | rfl | rfl | rfl | rfl
    · exact ⟨rfl, fun r asked => by cases asked⟩
    · exact ⟨rfl, fun r asked => by cases asked⟩
    · exact ⟨rfl, fun r asked => by cases asked⟩
    · exact ⟨rfl, fun r asked => by cases asked⟩
    · exact ⟨rfl, fun r asked => by cases asked⟩
    · refine ⟨rfl, fun r asked => ?_⟩
      obtain rfl := Option.some.inj asked
      intro kind
      cases kind <;> decide
  · intro connected
    have first : (recordVersion 1 .secret ⟨.fill 32 9⟩ 1 (Backend.run ⟨Db.empty, ()⟩ calls).db).isSome = true := by
      decide +kernel
    have third : (recordVersion 1 .secret ⟨.fill 32 9⟩ 3 (Backend.run ⟨Db.empty, ()⟩ calls).db).isSome = true := by
      decide +kernel
    have second : (recordVersion 1 .secret ⟨.fill 32 9⟩ 2 (Backend.run ⟨Db.empty, ()⟩ calls).db).isSome = false := by
      decide +kernel
    obtain ⟨row, found⟩ := connected.out (Option.isSome_iff_exists.mp first) (Option.isSome_iff_exists.mp third)
      ⟨show 1 ≤ 2 by omega, show 2 ≤ 3 by omega⟩
    rw [found] at second
    cases second

end GalataVault.Backend

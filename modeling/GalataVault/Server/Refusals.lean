import GalataVault.Backend.Writes
import GalataVault.Server.FileJournal

/-!
# Refused critical operations

A critical operation whose journal write or commit fails is answered with an
error, and its caller is told it was not applied. When the failure comes before
the journal file is renamed into place, that stays true: the journal holds nothing
the database has not applied, and a replay of it finds nothing to do.

When the directory sync fails, or the commit after it, the record is in the
journal although the operation was refused. Its sequence number is above the
database's, and the next replay applies it.
-/

namespace GalataVault.Server

open Proto Backend Relational Relational.Transaction

section

variable [Digests]

/-! ## Critical operations -/

/-- Whether a call is journaled before it commits. -/
def StoreCall.critical {β : Type} : StoreCall β → Bool
  | .revokeTokens .. | .applyRotation .. | .deleteVault .. => true
  | _ => false

/-- The record a critical body hands to the journal, and the database it then asks
SQLite to commit; nothing if the body fails before. -/
def handOver {α : Type} (body : Tx (α × JournalRecord)) (db : Db) : Option (JournalRecord × Db) :=
  (body.run db).toOption.map fun r => (r.1.2, r.2)

/-- What a call hands over. -/
def StoreCall.handsOver {β : Type} (db : Db) : StoreCall β → Option (JournalRecord × Db)
  | .revokeTokens pk ids reported ctx => handOver (revokeTokensBody pk ids reported ctx) db
  | .applyRotation pk r ctx => handOver (applyRotationBody pk r ctx) db
  | .deleteVault pk now => handOver (deleteVaultBody pk now) db
  | _ => none

/-- Whether a failure comes after the record is in place: at the sync of the
journal's directory, or at the commit that follows it. -/
def fails_late (world : World FileJournal) : ServerEvent → Bool
  | .replayJournal _ => false
  | .call call disk fault =>
    match call.handsOver world.db, fault with
    | some _, .syncDir _ => true
    | some (_, next), .none => decide (commit disk next ≠ .ok ())
    | _, _ => false

omit [Digests] in
theorem handOver_ran {α : Type} {body : Tx (α × JournalRecord)} {db next : Db} {record : JournalRecord}
    (handed : handOver body db = some (record, next)) : ∃ value, body.run db = .ok ((value, record), next) := by
  unfold handOver at handed
  cases ran : body.run db with
  | error failure =>
    rw [ran] at handed
    cases handed
  | ok result =>
    obtain ⟨⟨value, given⟩, after⟩ := result
    rw [ran] at handed
    cases handed
    exact ⟨value, rfl⟩

/-- A record handed over has the next sequence number, which is the one the database
would count as applied. -/
theorem StoreCall.handsOver_seq {β : Type} {call : StoreCall β} {db next : Db} {record : JournalRecord}
    (handed : call.handsOver db = some (record, next)) :
    record.seq = db.lastApplied + 1 ∧ next.lastApplied = record.seq := by
  cases call with
  | revokeTokens pk ids reported ctx =>
    obtain ⟨removed, ran⟩ := handOver_ran handed
    obtain ⟨vault, deleted, audited, _, deletes, _, audits, rfl, rfl⟩ := revokeTokensBody_ok ran
    have deletesTokens : Keeps (Script pk [.tokens]) (deleteTokens pk ids) := deleteTokens_script ids
    have auditsEach : Keeps (Script pk [.audit]) (removed.forM fun id =>
        appendAudit pk (event ctx.actor (revokeAction reported) none (some id) .ok) ctx.now) :=
      .forM Script.refl Script.trans _ fun id _ => appendAudit_script _ _
    have sameDeleted : deleted.lastApplied = db.lastApplied := (deletesTokens _ _ _ deletes).lastApplied_same
    have sameAudited : audited.lastApplied = deleted.lastApplied := (auditsEach _ _ _ audits).lastApplied_same
    exact ⟨by rw [sameAudited, sameDeleted], rfl⟩
  | applyRotation pk r ctx =>
    obtain ⟨generation, ran⟩ := handOver_ran handed
    obtain ⟨vault, middle, loaded, _, applied, rfl, rfl⟩ := applyRotationBody_ok ran
    have same : middle.lastApplied = db.lastApplied :=
      (applyBatch_script vault r ctx rfl _ _ _ applied).lastApplied_same (by simp [rotationTargets])
    exact ⟨by rw [same], rfl⟩
  | deleteVault pk now =>
    obtain ⟨value, ran⟩ := handOver_ran handed
    obtain ⟨vault, _, rfl, rfl⟩ := deleteVaultBody_ok ran
    exact ⟨rfl, rfl⟩
  | createVault | touch | registerToken | putRecord | deleteRecord | putChildren | record | spend => cases handed

/-- Whether a failure of a journal write, or of the commit after it, comes late for a
body. -/
def OnTime {α : Type} (disk : Except String Unit) (fault : Fault) (body : Tx (α × JournalRecord)) (db : Db) : Prop :=
  ∀ record next, handOver body db = some (record, next) →
    (∀ detail, fault ≠ .syncDir detail) ∧ (fault = .none → commit disk next = .ok ())

omit [Digests] in
/-- A critical write through the file journal that does not fail late changes
nothing and is refused, or is accepted, and the journal gains its record. -/
theorem writeCritical_put {α : Type} {disk : Except String Unit} {fault : Fault} {body : Tx (α × JournalRecord)}
    {db : Db} (journal : FileJournal) (onTime : OnTime disk fault body db) :
    (writeCritical disk (FileJournal.put fault) body db journal).2 = (db, journal) ∨
      ∃ value record next records, handOver body db = some (record, next) ∧
        journal.records.insert record = some records ∧
        writeCritical disk (FileJournal.put fault) body db journal = (.ok value, next, ⟨records⟩) := by
  unfold writeCritical
  split
  · exact .inl rfl
  · next value record next ran =>
    have handed : handOver body db = some (record, next) := by simp [handOver, ran, Except.toOption]
    obtain ⟨noSync, commits⟩ := onTime record next handed
    unfold FileJournal.put
    cases inserted : journal.records.insert record with
    | none => exact .inl rfl
    | some records =>
      cases fault with
      | write detail | sync detail | rename detail => exact .inl rfl
      | syncDir detail => exact absurd rfl (noSync detail)
      | none =>
        refine .inr ⟨value, record, next, records, handed, inserted, ?_⟩
        simp only [commits rfl]

/-- What a critical call that does not fail late leaves: the world as it was, or the
database it asked for, its record in the journal, and an answer. -/
inductive Settled {β : Type} (world : World FileJournal) (call : StoreCall β) (answer : Except StoreError β)
    (after : World FileJournal) : Prop where
  | unchanged (same : after = world)
  | applied (value : β) (record : JournalRecord) (next : Db) (records : Table JournalRecord.seq)
      (answered : answer = .ok value) (handed : call.handsOver world.db = some (record, next))
      (inserted : world.journal.records.insert record = some records) (left : after = ⟨next, ⟨records⟩⟩)

theorem critical_step {β : Type} {call : StoreCall β} {disk : Except String Unit} {fault : Fault}
    {world : World FileJournal} (critical : call.critical = true)
    (early : fails_late world (.call call disk fault) = false) :
    Settled world call (call.answer (journaled disk fault) world) (serverStep world (.call call disk fault)) := by
  have onTime (record : JournalRecord) (next : Db) (handed : call.handsOver world.db = some (record, next)) :
      (∀ detail, fault ≠ .syncDir detail) ∧ (fault = .none → commit disk next = .ok ()) := by
    simp only [fails_late, handed] at early
    constructor
    · rintro detail rfl
      cases early
    · rintro rfl
      simpa using early
  -- One argument for the three bodies: what `writeCritical` leaves is what the step leaves.
  have settle {α : Type} {body : Tx (α × JournalRecord)} {call : StoreCall α} {answer : Except StoreError α}
      {after : World FileJournal} (onTime : OnTime disk fault body world.db)
      (handsOver : call.handsOver world.db = handOver body world.db)
      (outcome : (answer, after.db, after.journal) =
        writeCritical disk (FileJournal.put fault) body world.db world.journal) : Settled world call answer after := by
    rcases writeCritical_put world.journal onTime
      with same | ⟨value, record, next, records, handed, inserted, left⟩
    · rw [← outcome, Prod.mk.injEq] at same
      obtain ⟨sameDb, sameJournal⟩ := same
      refine .unchanged ?_
      cases after
      cases world
      simp_all
    · rw [left, Prod.mk.injEq, Prod.mk.injEq] at outcome
      obtain ⟨answered, sameDb, sameJournal⟩ := outcome
      refine .applied value record next records answered (handsOver.trans handed) inserted ?_
      cases after
      simp_all
  cases call with
  | revokeTokens pk ids reported ctx => exact settle onTime rfl rfl
  | applyRotation pk r ctx => exact settle onTime rfl rfl
  | deleteVault pk now => exact settle onTime rfl rfl
  | createVault | touch | registerToken | putRecord | deleteRecord | putChildren | record | spend => cases critical

/-! ## Other operations -/

omit [Digests] in
theorem write_lastApplied {α : Type} {disk : Except String Unit} {body : Tx (Done α)} {db : Db}
    (keeps : ∀ done after, body.run db = .ok (done, after) → after.lastApplied = db.lastApplied) :
    (write disk body db).2.lastApplied = db.lastApplied := by
  rcases write_cases disk body db with ⟨_, outcome⟩ | ⟨done, after, ran, _, outcome⟩
  · rw [outcome]
  · rw [outcome]
    exact keeps done after ran

/-- A script that does not write the journal's state allocates no sequence number. -/
theorem write_script_lastApplied {α : Type} {pk : VaultPk} {targets : List Target} {disk : Except String Unit}
    {body : Tx (Done α)} {db : Db} (scripts : Keeps (Script pk targets) body)
    (off : .journalState ∉ targets := by simp) : (write disk body db).2.lastApplied = db.lastApplied :=
  write_lastApplied fun done after ran => (scripts db done after ran).lastApplied_same off

/-- A call that is not critical leaves the journal alone, and what the database
counts as applied. -/
theorem other_step {β : Type} {call : StoreCall β} (disk : Except String Unit) (fault : Fault)
    (world : World FileJournal) (other : call.critical = false) :
    (serverStep world (.call call disk fault)).journal = world.journal ∧
      (serverStep world (.call call disk fault)).db.lastApplied = world.db.lastApplied := by
  cases call with
  | revokeTokens | applyRotation | deleteVault => cases other
  | createVault v now =>
    refine ⟨rfl, write_lastApplied fun done after ran => ?_⟩
    rcases createVaultBody_cases ran with ⟨_, rfl⟩ | ⟨_, vaults, descriptors, e, _, _, _, _, _, audited⟩
    · rfl
    · have scripts : Keeps (Script world.db.nextPk [.audit]) (appendAudit world.db.nextPk e now) :=
        appendAudit_script e now
      exact (scripts _ _ _ audited).lastApplied_same
  | touch pk now =>
    refine ⟨rfl, ?_⟩
    change (Backend.touch disk pk now world.db).2.lastApplied = _
    unfold Backend.touch
    split
    · exact write_script_lastApplied (touchBody_script now)
    · rfl
  | registerToken pk t ctx limits => exact ⟨rfl, write_script_lastApplied (registerTokenBody_script t ctx limits)⟩
  | putRecord pk kind name pre w ctx limits =>
    refine ⟨rfl, ?_⟩
    change (Backend.putRecord disk pk kind name pre w ctx limits world.db).2.lastApplied = _
    unfold Backend.putRecord
    split
    · rfl
    · exact write_script_lastApplied (putRecordBody_script kind name pre w _ ctx limits)
  | deleteRecord pk kind name ifMatch w ctx limits =>
    refine ⟨rfl, ?_⟩
    change (Backend.deleteRecord disk pk kind name ifMatch w ctx limits world.db).2.lastApplied = _
    unfold Backend.deleteRecord
    split
    · rfl
    · exact write_script_lastApplied (deleteRecordBody_script kind name ifMatch w ctx limits)
  | putChildren pk pre blob ctx limits =>
    exact ⟨rfl, write_script_lastApplied (putChildrenBody_script pre blob ctx limits)⟩
  | record pk e now => exact ⟨rfl, write_script_lastApplied (recordBody_script e now)⟩
  | spend kind id expiresAt now =>
    refine ⟨rfl, write_lastApplied fun done after ran => ?_⟩
    obtain ⟨spent, rfl⟩ := spendBody_ok ran
    rfl

/-! ## Runs -/

/-- The journal holds nothing above what the database has applied. -/
def Current (world : World FileJournal) : Prop :=
  ∀ record ∈ world.journal.records.rows, record.seq ≤ world.db.lastApplied

omit [Digests] in
theorem Current.nothing_pending {world : World FileJournal} (current : Current world) :
    pending world.db world.journal = [] := by
  have none_above : world.journal.records.select (fun r => decide (world.db.lastApplied < r.seq)) = [] := by
    refine List.filter_eq_nil_iff.mpr fun record member => ?_
    simpa using current record member
  rw [pending, FileJournal.listAfter, none_above]
  rfl

/-- A step that does not fail late keeps the journal within what is applied. -/
theorem Current.step {world : World FileJournal} {event : ServerEvent} (current : Current world)
    (early : fails_late world event = false) : Current (serverStep world event) := by
  cases event with
  | replayJournal disk =>
    change ∀ record ∈ world.journal.records.rows, _
    rw [serverStep, replayJournal, current.nothing_pending]
    exact current
  | call call disk fault =>
    cases critical : call.critical with
    | false =>
      obtain ⟨sameJournal, sameApplied⟩ := other_step disk fault world critical
      rw [Current, sameJournal, sameApplied]
      exact current
    | true =>
      cases critical_step critical early with
      | unchanged same =>
        rw [same]
        exact current
      | applied value record next records answered handed inserted left =>
        rw [left]
        obtain ⟨allocated, applied⟩ := StoreCall.handsOver_seq handed
        intro old member
        change old.seq ≤ next.lastApplied
        rw [(Table.insert_eq_some.mp inserted).2, List.mem_append, List.mem_singleton] at member
        rcases member with earlier | rfl
        · have := current old earlier
          omega
        · omega

/-- What the caller of a critical operation is promised, at each event of a run: an
operation answered with an error has changed neither the database nor the journal,
and a replay finds nothing to apply and changes nothing. -/
def Stands (world : World FileJournal) : ServerEvent → Prop
  | .replayJournal disk =>
    pending world.db world.journal = [] ∧ serverStep world (.replayJournal disk) = world
  | .call call disk fault =>
    call.critical = true → (∃ failure, call.answer (journaled disk fault) world = .error failure) →
      serverStep world (.call call disk fault) = world

theorem Current.stands {world : World FileJournal} {event : ServerEvent} (current : Current world)
    (early : fails_late world event = false) : Stands world event := by
  cases event with
  | replayJournal disk =>
    refine ⟨current.nothing_pending, ?_⟩
    rw [serverStep, replayJournal, current.nothing_pending]
    rfl
  | call call disk fault =>
    rintro critical ⟨failure, refused⟩
    cases critical_step critical early with
    | unchanged same => exact same
    | applied value record next records answered =>
      rw [answered] at refused
      cases refused

/-- In a run of a server where no critical operation fails after its record is in
place, a refused operation stays refused: it changed nothing, and no replay of the
journal finds anything to apply. -/
theorem refusals_stand (events : List ServerEvent)
    (early : Machine.Throughout serverStep (fun world event => fails_late world event = false)
      ⟨.empty, .empty⟩ events) :
    Machine.Throughout serverStep Stands ⟨.empty, .empty⟩ events := by
  have initial : Current ⟨.empty, .empty⟩ := fun _ member => absurd member List.not_mem_nil
  exact (early.strengthen initial fun _ _ current => current.step).mono fun _ _ reached => reached.1.stands reached.2

end

/-! ## One vault, deleted or not -/

/-- A call that meets no failure of SQLite. -/
def ServerEvent.calls {β : Type} (call : StoreCall β) (fault : Fault := .none) : ServerEvent := .call call (.ok ()) fault

/-- The creation of the first vault, and a write of its only secret. -/
def creation : StoreCall VaultRow := .createVault (.filled 1) 1

def firstPut : StoreCall Nat :=
  .putRecord 1 .secret ⟨.fill 32 1⟩ .ifNoneMatch (.filled 1 1) ⟨.owner, 2⟩ .default

def deletion : StoreCall Unit := .deleteVault 1 2

/-- A deletion whose record could not be renamed into place, and the write after it,
survive every replay; a later deletion is not applied twice. -/
theorem refusals_stand_at_rename :
    let _ := checksum
    Machine.Throughout serverStep Stands ⟨.empty, .empty⟩
      [.calls creation, .calls deletion (.rename "I/O error"), .calls firstPut, .replayJournal fun _ => .ok (),
        .calls deletion, .replayJournal fun _ => .ok ()] :=
  let _ := checksum
  refusals_stand _ (by decide +kernel)

/-- A deletion is refused because the journal's directory could not be synced. Its
record stays, the vault takes a write, and the next replay deletes the vault with
that write in it. -/
theorem refused_deletion_is_replayed :
    let _ := checksum
    let created := serverStep ⟨.empty, .empty⟩ (.calls creation)
    let refused := serverStep created (.calls deletion (.syncDir "I/O error"))
    let written := serverStep refused (.calls firstPut)
    let replayed := serverStep written (.replayJournal fun _ => .ok ())
    deletion.answer (journaled (.ok ()) (.syncDir "I/O error")) created = .error (.journal "I/O error") ∧
      firstPut.answer (journaled (.ok ()) .none) refused = .ok 1 ∧
      (recordVersion 1 .secret ⟨.fill 32 1⟩ 1 written.db).isSome ∧
      replayed.db.vaults.rows = [] ∧ recordVersion 1 .secret ⟨.fill 32 1⟩ 1 replayed.db = none ∧
      ¬ Stands written (.replayJournal fun _ => .ok ()) := by
  intro _ created refused written replayed
  refine ⟨by decide +kernel, by decide +kernel, by decide +kernel, by decide +kernel, by decide +kernel, ?_⟩
  rintro ⟨nothing, _⟩
  exact absurd nothing (by decide +kernel)

end GalataVault.Server

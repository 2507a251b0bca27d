import GalataVault.Backend.Rotations

/-!
# What one call changes

One inversion of a step of the store: which branch it took, with everything that
branch checked and everything it left. An invariant of every run is then one case
for each kind of change, and no later proof takes an operation's body apart.

Changes that write no record, no token, no descriptor, no count of bytes and no
generation are one case: they may move a vault's activity, revision, children
record and log, and nothing else of it.
-/

namespace GalataVault.Backend

open Proto Relational Relational.Transaction

variable [Digests] {σ : Type}

/-- The limits a call is held to. -/
def Call.limits : Call σ → Option Limits
  | .registerToken _ _ _ _ limits | .putRecord _ _ _ _ _ _ _ limits | .deleteRecord _ _ _ _ _ _ _ limits
  | .putChildren _ _ _ _ _ limits => some limits
  | _ => none

/-- The batch a call applies, if it applies one. -/
def Call.batch : Call σ → Option RotationRequest
  | .applyRotation _ _ _ r _ => some r
  | .replay _ journaled =>
    match journaled.op with
    | .rotate _ _ r => some r
    | _ => none
  | _ => none

/-- The targets of a change to nothing but a vault's activity, revision, children
record, log and the journal's state. -/
abbrev minorTargets : List Target := [.vaults, .children, .audit, .journalState]

/-- The bytes a write adds. -/
def RecordWrite.size (w : RecordWrite) : Nat := w.nameCt.length + (w.valueCt.map List.length).getD 0

/-- What a write of a value passed: its size, room for a live name, and room in the
vault for what it leaves. -/
structure Fits (db : Db) (kind : RecordKind) (pk : VaultPk) (name : NameHmac) (value : List UInt8) (limits : Limits)
    (total : Nat) : Prop where
  small : value.length ≤ kind.maxValue limits
  room : ¬ (((db.loadHead kind pk name).map (·.2)).getD true ∧ kind.maxLive limits ≤ (db.liveHeads kind pk).length)
  total : total ≤ limits.maxVaultBytes

/-- What the vault counts after a write. -/
def totalAfter (db : Db) (kind : RecordKind) (vault : VaultRow) (name : NameHmac) (w : RecordWrite) (limits : Limits) :
    Nat :=
  vault.bytesUsed + w.size - freedBytes (prunable db kind vault.pk name (kind.maxVersions limits))

/-- The changes a call can make. -/
inductive Change (call : Call σ) (db : Db) : Db → Prop where
  | idle : Change call db db
  | minor {pk : VaultPk} {targets : List Target} {after : Db} (included : ∀ target ∈ targets, target ∈ minorTargets)
      (script : Script pk targets db after) : Change call db after
  | spent (table : Table SpentCols.key) : Change call db { db with spent := table }
  | created {v : NewVault} {now : Int} {vaults : Table VaultCols.pk} {descriptors : Table DescriptorCols.key}
      {e : AuditEvent} {after : Db} (fresh : ∀ old ∈ db.vaults.rows, old.vaultId ≠ v.vaultId)
      (inserted : db.vaults.insert (v.cols db.nextPk now) = some vaults)
      (described : db.descriptors.insert ⟨db.nextPk, 1, v.descriptor⟩ = some descriptors)
      (audited : (appendAudit db.nextPk e now).run { db with vaults := vaults, descriptors := descriptors } =
        .ok ((), after)) : Change call db after
  | registered {disk : Except String Unit} {pk : VaultPk} {vault : VaultRow} {t : NewToken} {ctx : Ctx}
      {limits : Limits} {tokens : Table TokenRow.tokenId} {after : Db}
      (asked : call = .registerToken disk pk t ctx limits)
      (loaded : db.loadVault pk = some vault) (current : t.generation = vault.generation)
      (room : (db.activeTokens pk ctx.now).length < limits.maxTokens)
      (inserted : db.tokens.insert (t.row pk ctx.now) = some tokens)
      (script : Script pk minorTargets { db with tokens := tokens } after) : Change call db after
  | revoked {pk : VaultPk} {gone : TokenRow → Bool} {after : Db} (mine : ∀ t, gone t = true → t.vaultPk = pk)
      (script : Script pk minorTargets { db with tokens := db.tokens.deleteWhere gone } after) :
      Change call db after
  | stored (writer : Actor) {kind : RecordKind} {vault : VaultRow} {name : NameHmac} {w : RecordWrite} {next : Nat}
      {limits : Limits} {after : Db} (limited : call.limits = some limits)
      (loaded : db.loadVault vault.pk = some vault) (current : w.generation = vault.generation)
      (assigned : next = db.headVersion kind vault.pk name + 1)
      (fits : ∀ value, w.valueCt = some value →
        Fits db kind vault.pk name value limits (totalAfter db kind vault name w limits))
      (live : w.valueCt = none → ∃ version, db.loadHead kind vault.pk name = some (version, false))
      (stored : Stored db after kind vault.pk (w.toInsert name next writer) w.valueCt.isNone
        (prunable db kind vault.pk name (kind.maxVersions limits)) (totalAfter db kind vault name w limits))
      (script : Script vault.pk [.records kind, .bytes, .audit] db after) : Change call db after
  | rotated {vault : VaultRow} {r : RotationRequest} {ctx : Ctx} {generation seq : Nat} {after : Db}
      (asked : call.batch = some r) (loaded : db.loadVault vault.pk = some vault)
      (current : vault.generation = r.fromGeneration)
      (checked : (∃ disk record, call = .replay disk record) ∨ checkRotation db vault r = .ok ())
      (applied : (applyBatch vault r ctx).run db = .ok (generation, after)) :
      Change call db { after with lastApplied := seq }
  | deleted (p : VaultCols → Bool) (seq : Nat) : Change call db { db.deleteVaults p with lastApplied := seq }

/-! ## Every step is a change -/

/-- A refusal is a minor change. -/
theorem Change.refused {call : Call σ} {pk : VaultPk} {e : AuditEvent} {now : Int} {db after : Db}
    (appended : (appendAudit pk e now).run db = .ok ((), after)) : Change call db after := by
  have audits : Keeps (Script pk [.audit]) (appendAudit pk e now) := appendAudit_script e now
  exact .minor (by simp) (audits _ _ _ appended)

theorem Change.of_script {α : Type} {call : Call σ} {pk : VaultPk} {targets : List Target} {body : Tx α}
    (scripts : Keeps (Script pk targets) body) (included : ∀ target ∈ targets, target ∈ minorTargets)
    {db after : Db} {value : α} (ran : body.run db = .ok (value, after)) : Change call db after :=
  .minor included (scripts _ _ _ ran)

/-- A write changes nothing, or what its body does. -/
theorem Change.of_write {α : Type} {call : Call σ} {disk : Except String Unit} {body : Tx (Done α)} {db : Db}
    (change : ∀ done after, body.run db = .ok (done, after) → Change call db after) :
    Change call db (write disk body db).2 := by
  rcases write_cases disk body db with ⟨_, outcome⟩ | ⟨done, after, ran, _, outcome⟩
  · rw [outcome]
    exact .idle
  · rw [outcome]
    exact change done after ran

theorem Change.of_writeCritical {α : Type} {call : Call σ} {disk : Except String Unit} {hook : CommitHook σ}
    {body : Tx (α × JournalRecord)} {db : Db} {journal : σ}
    (change : ∀ result after, body.run db = .ok (result, after) → Change call db after) :
    Change call db (writeCritical disk hook body db journal).2.1 := by
  rcases writeCritical_cases disk hook body db journal with ⟨_, _, outcome⟩ | ⟨_, _, after, ran, _, _, outcome⟩
  · rw [outcome]
    exact .idle
  · rw [outcome]
    exact change _ after ran

/-- Deleting tokens, raising the revision, auditing each and marking the record is the
deletion followed by a minor change. -/
theorem Change.of_revocation {call : Call σ} {pk : VaultPk} {ids removed : List TokenId} {db deleted after : Db}
    (deletes : (deleteTokens pk ids).run db = .ok (removed, deleted)) (script : Script pk minorTargets deleted after) :
    Change call db after := by
  obtain ⟨_, ran, _⟩ := deleteTokens_run pk ids db
  rw [ran, Except.ok.injEq, Prod.mk.injEq] at deletes
  obtain ⟨_, rfl⟩ := deletes
  refine .revoked ?_ script
  intro t gone
  simp only [Bool.and_eq_true, decide_eq_true_eq] at gone
  exact gone.1

omit [Digests] in
/-- A vault found by its id is the one its row number loads. -/
theorem Db.loadVault_of_id {db : Db} {id : VaultId} {vault : VaultRow} (found : db.loadVaultById id = some vault) :
    db.loadVault vault.pk = some vault ∧ vault.vaultId = id := by
  obtain ⟨v, first, joined⟩ := Option.bind_eq_some_iff.mp found
  have member := List.mem_of_find?_eq_some first
  have named : v.vaultId = id := by simpa using List.find?_some first
  have sameId : vault.vaultId = v.vaultId := by
    obtain ⟨_, _, rfl⟩ := Option.map_eq_some_iff.mp joined
    rfl
  refine ⟨?_, sameId.trans named⟩
  rw [Db.vaultRow_pk joined, Db.loadVault, Table.find?_eq_some.mpr ⟨member, rfl⟩]
  exact joined

omit [Digests] in
/-- What a precondition assigns is one more than the head version. -/
theorem nextVersion_head {db : Db} {kind : RecordKind} {pk : VaultPk} {name : NameHmac} {pre : Precondition}
    {next : Nat} (assigned : nextVersion pre (db.loadHead kind pk name) = some next) :
    next = db.headVersion kind pk name + 1 :=
  (nextVersion_names assigned).next

theorem put_change {call : Call σ} {pk : VaultPk} {kind : RecordKind} {name : NameHmac} {pre : Precondition}
    {w : RecordWrite} {valueCt : List UInt8} {ctx : Ctx} {limits : Limits} {db after : Db} {done : Done Nat}
    (limited : call.limits = some limits) (value : w.valueCt = some valueCt)
    (ran : (putRecordBody pk kind name pre w valueCt ctx limits).run db = .ok (done, after)) :
    Change call db after := by
  rcases putRecordBody_cases value ran with
    ⟨_, _, appended, _⟩ | ⟨vault, next, _, loaded, current, small, assigned, _, room, fits, stored⟩
  · exact .refused appended
  · obtain rfl := Db.loadVault_pk loaded
    have size : w.size = w.nameCt.length + valueCt.length := by simp [RecordWrite.size, value]
    have tombstone : w.valueCt.isNone = false := by simp [value]
    refine .stored ctx.actor limited loaded current (nextVersion_head assigned) ?_ ?_ ?_
      (putRecordBody_script kind name pre w valueCt ctx limits _ _ _ ran)
    · rintro given same
      obtain rfl := Option.some.inj (value.symm.trans same)
      refine ⟨small, room, ?_⟩
      rw [totalAfter, size]
      exact fits
    · intro absent
      rw [value] at absent
      cases absent
    · rw [totalAfter, size, tombstone]
      exact stored

theorem delete_change {call : Call σ} {pk : VaultPk} {kind : RecordKind} {name : NameHmac} {ifMatch : Nat}
    {w : RecordWrite} {ctx : Ctx} {limits : Limits} {db after : Db} {done : Done Nat}
    (limited : call.limits = some limits) (value : w.valueCt = none)
    (ran : (deleteRecordBody pk kind name ifMatch w ctx limits).run db = .ok (done, after)) : Change call db after := by
  rcases deleteRecordBody_cases value ran with ⟨_, _, appended, _⟩ | ⟨vault, _, loaded, current, head, _, stored⟩
  · exact .refused appended
  · obtain rfl := Db.loadVault_pk loaded
    have size : w.size = w.nameCt.length := by simp [RecordWrite.size, value]
    have tombstone : w.valueCt.isNone = true := by simp [value]
    have assigned : ifMatch + 1 = db.headVersion kind vault.pk name + 1 := by simp [Db.headVersion, head]
    refine .stored ctx.actor limited loaded current assigned ?_ (fun _ => ⟨ifMatch, head⟩) ?_
      (deleteRecordBody_script kind name ifMatch w ctx limits _ _ _ ran)
    · rintro given same
      rw [value] at same
      cases same
    · rw [totalAfter, size, tombstone]
      exact stored

theorem register_change {disk : Except String Unit} {pk : VaultPk} {t : NewToken} {ctx : Ctx} {limits : Limits}
    {db after : Db} {done : Done TokenRow} (ran : (registerTokenBody pk t ctx limits).run db = .ok (done, after)) :
    Change (.registerToken disk pk t ctx limits : Call σ) db after := by
  rcases registerTokenBody_cases ran with
    ⟨_, _, appended, _⟩ | ⟨vault, tokens, _, loaded, current, room, inserted, appended⟩
  · exact .refused appended
  · have audits : Keeps (Script pk minorTargets)
        (appendAudit pk (event ctx.actor .tokenMint none (some t.tokenId) .ok) ctx.now) := appendAudit_script _ _
    have raises : Keeps (Script pk minorTargets) (bumpRevision pk) := bumpRevision_script
    refine .registered rfl loaded current room inserted ?_
    exact Script.trans _ _ _ (raises _ () _ rfl) (audits _ _ _ appended)

theorem revoke_change {call : Call σ} {pk : VaultPk} {ids : List TokenId} {reported : Bool} {ctx : Ctx} {db after : Db}
    {result : List TokenId × JournalRecord}
    (ran : (revokeTokensBody pk ids reported ctx).run db = .ok (result, after)) : Change call db after := by
  obtain ⟨removed, record⟩ := result
  obtain ⟨vault, deleted, audited, _, deletes, _, audits, _, rfl⟩ := revokeTokensBody_ok ran
  have raises : Keeps (Script pk minorTargets) (bumpRevision pk) := bumpRevision_script
  have auditsEach : Keeps (Script pk minorTargets) (removed.forM fun id =>
      appendAudit pk (event ctx.actor (revokeAction reported) none (some id) .ok) ctx.now) :=
    .forM Script.refl Script.trans _ fun id _ => appendAudit_script _ _
  refine .of_revocation deletes (Script.trans _ _ _ (raises _ () _ rfl) ?_)
  exact Script.trans _ _ _ (auditsEach _ _ _ audits) (Stmt.setApplied _).script

theorem rotate_change {call : Call σ} {pk : VaultPk} {r : RotationRequest} {ctx : Ctx} {db after : Db}
    {result : Nat × JournalRecord} (asked : call.batch = some r)
    (ran : (applyRotationBody pk r ctx).run db = .ok (result, after)) : Change call db after := by
  obtain ⟨generation, record⟩ := result
  obtain ⟨vault, middle, loaded, checked, applied, _, rfl⟩ := applyRotationBody_ok ran
  obtain rfl := Db.loadVault_pk loaded
  exact .rotated asked loaded (checkRotation_current checked).1 (.inr checked) applied

theorem replay_change {disk : Except String Unit} {record : JournalRecord} {db after : Db} {done : Done Bool}
    (ran : (replayBody record).run db = .ok (done, after)) : Change (.replay disk record : Call σ) db after := by
  rcases replayBody_cases ran with ⟨_, rfl⟩ | ⟨_, applied, middle, replayed, rfl⟩
  · exact .idle
  · cases replayOp_ok replayed with
    | skipped =>
      have marks : Script 0 minorTargets db { db with lastApplied := record.seq } := (Stmt.setApplied _).script
      exact .minor (fun _ => id) marks
    | @revoked vault removed deleted audited after vaultId tokenIds actor reported named found deletes audits raised =>
      have auditsEach : Keeps (Script vault.pk minorTargets) (removed.forM fun id =>
          appendAudit vault.pk (event actor (revokeAction reported) none (some id) .ok) record.ts) :=
        .forM Script.refl Script.trans _ fun id _ => appendAudit_script _ _
      have raises : Keeps (Script vault.pk minorTargets) (bumpRevision vault.pk) := bumpRevision_script
      refine .of_revocation deletes (Script.trans _ _ _ (auditsEach _ _ _ audits) ?_)
      rw [raised]
      split
      · exact (Stmt.setApplied _).script
      · exact Script.trans _ _ _ (raises _ () _ rfl) (Stmt.setApplied _).script
    | rotated vaultId actor request named found current applied =>
      exact .rotated (by simp [Call.batch, named]) (Db.loadVault_of_id found).1 current (.inl ⟨disk, record, rfl⟩) applied
    | deleted vaultId named => exact .deleted _ _

/-- Every step of a run makes one of the listed changes. -/
theorem step_change (world : World σ) (call : Call σ) : Change call world.db (step world call).db := by
  cases call with
  | createVault disk v now =>
    refine .of_write fun done after ran => ?_
    rcases createVaultBody_cases ran with ⟨_, rfl⟩ | ⟨_, vaults, descriptors, e, _, _, fresh, inserted, described, audited⟩
    · exact .idle
    · exact .created fresh inserted described audited
  | touch disk pk now =>
    change Change _ world.db (touch disk pk now world.db).2
    unfold touch
    split
    · exact .of_write fun done after ran => .of_script (touchBody_script now) (by simp) ran
    · exact .idle
  | registerToken disk pk t ctx limits => exact .of_write fun done after ran => register_change ran
  | revokeTokens disk hook pk ids reported ctx => exact .of_writeCritical fun result after ran => revoke_change ran
  | putRecord disk pk kind name pre w ctx limits =>
    change Change _ world.db (putRecord disk pk kind name pre w ctx limits world.db).2
    unfold putRecord
    split
    · exact .idle
    · next valueCt value => exact .of_write fun done after ran => put_change rfl value ran
  | deleteRecord disk pk kind name ifMatch w ctx limits =>
    change Change _ world.db (deleteRecord disk pk kind name ifMatch w ctx limits world.db).2
    unfold deleteRecord
    split
    · exact .idle
    · next value => exact .of_write fun done after ran => delete_change rfl value ran
  | putChildren disk pk pre blob ctx limits =>
    exact .of_write fun done after ran => .of_script (putChildrenBody_script pre blob ctx limits) (by simp) ran
  | record disk pk e now => exact .of_write fun done after ran => .of_script (recordBody_script e now) (by simp) ran
  | applyRotation disk hook pk r ctx => exact .of_writeCritical fun result after ran => rotate_change rfl ran
  | deleteVault disk hook pk now =>
    refine .of_writeCritical fun result after ran => ?_
    obtain ⟨_, _, _, rfl⟩ := deleteVaultBody_ok ran
    exact .deleted _ _
  | spend disk kind id expiresAt now =>
    refine .of_write fun done after ran => ?_
    obtain ⟨table, rfl⟩ := spendBody_ok ran
    exact .spent table
  | replay disk record => exact .of_write fun done after ran => replay_change ran

end GalataVault.Backend

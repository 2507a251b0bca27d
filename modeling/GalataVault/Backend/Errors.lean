import GalataVault.Backend.Failures
import GalataVault.Backend.Runs

/-!
# What an error leaves behind

Every call of the store runs in one transaction. An error thrown in it rolls it back; a
refusal is answered with the transaction committed, and by then the body has written one
audit row and nothing else. Two refusals write no row: a creation that finds its vault
there, and a spending that finds its identifier spent, which by then has forgotten the
expired ones. The critical calls throw every error, and the hook runs before the commit.
-/

namespace GalataVault.Backend

open Proto Relational Relational.Transaction

/-- The error an outcome is, if it is one. -/
def failureOf {α : Type} : Except StoreError α → Option StoreError
  | .ok _ => none
  | .error failure => some failure

theorem failureOf_some {α : Type} {outcome : Except StoreError α} {failure : StoreError} :
    failureOf outcome = some failure ↔ outcome = .error failure := by
  cases outcome with
  | ok value => simp [failureOf]
  | error other => simp [failureOf]

/-- One row with result refused stands at the end of the vault's log, the vault's head
moved to it, and nothing else changed. -/
inductive OnlyRefusal (pk : VaultPk) (db : Db) : Db → Prop where
  | mk {v : VaultCols} {row : AuditRow} {audit : Table AuditCols.key} (found : db.vaults.find? pk = some v)
      (refused : row.result = .refused) (next : row.seq = v.auditSeq + 1)
      (inserted : db.audit.insert ⟨pk, row⟩ = some audit) :
      OnlyRefusal pk db
        ({ db with audit := audit }.updateVault pk fun v' => { v' with auditSeq := row.seq, auditHead := row.hash })

/-- The database without the identifiers that expired before a clock reading. -/
def Db.forgetExpired (db : Db) (now : Int) : Db :=
  { db with spent := db.spent.deleteWhere fun s => decide (s.expiresAt < now) }

/-- What an error may leave of the database it met: all of it, a refusal more, or, for a
spending, the expired identifiers less. -/
inductive LeavesOf {σ : Type} (call : Call σ) (db : Db) : Db → Prop where
  | unchanged : LeavesOf call db db
  | refused {pk : VaultPk} {after : Db} (named : call.reach.addressed pk) (only : OnlyRefusal pk db after) :
      LeavesOf call db after
  | expired {disk : Except String Unit} {kind : SpentKind} {id : List UInt8} {expiresAt now : Int}
      (spends : call = .spend disk kind id expiresAt now) : LeavesOf call db (db.forgetExpired now)

section

variable [Digests] {σ : Type}

/-- The error a call answers with in a world, if it does. -/
def stepFailure (world : World σ) : Call σ → Option StoreError
  | .createVault disk v now => failureOf (createVault disk v now world.db).1
  | .touch disk pk now => failureOf (touch disk pk now world.db).1
  | .registerToken disk pk t ctx limits => failureOf (registerToken disk pk t ctx limits world.db).1
  | .revokeTokens disk hook pk ids reported ctx =>
    failureOf (revokeTokens disk hook pk ids reported ctx world.db world.journal).1
  | .putRecord disk pk kind name pre w ctx limits => failureOf (putRecord disk pk kind name pre w ctx limits world.db).1
  | .deleteRecord disk pk kind name ifMatch w ctx limits =>
    failureOf (deleteRecord disk pk kind name ifMatch w ctx limits world.db).1
  | .putChildren disk pk pre blob ctx limits => failureOf (putChildren disk pk pre blob ctx limits world.db).1
  | .record disk pk e now => failureOf (record disk pk e now world.db).1
  | .applyRotation disk hook pk r ctx => failureOf (applyRotation disk hook pk r ctx world.db world.journal).1
  | .deleteVault disk hook pk now => failureOf (deleteVault disk hook pk now world.db world.journal).1
  | .spend disk kind id expiresAt now => failureOf (spend disk kind id expiresAt now world.db).1
  | .replay disk record => failureOf (replay disk record world.db).1

theorem Refused.only {α : Type} {pk : VaultPk} {now : Int} {db after : Db} {done : Done α}
    (refused : Refused pk now db done after) : OnlyRefusal pk db after := by
  obtain ⟨_, e, appended, result⟩ := refused
  obtain ⟨v, audit, found, inserted, rfl⟩ := appendAudit_ok appended
  exact .mk found result rfl inserted

/-! ## Bodies that refuse -/

omit [Digests] in
/-- What a write that failed left is the database it met, or what its body left with the
refusal it answered. -/
theorem write_leavesOf {α : Type} {call : Call σ} {disk : Except String Unit} {body : Tx (Done α)} {db : Db}
    {failure : StoreError} (failed : failureOf (write disk body db).1 = some failure)
    (refusal : ∀ after, body.run db = .ok (.refused failure, after) → LeavesOf call db after) :
    LeavesOf call db (write disk body db).2 := by
  obtain same | ran := write_refused (failureOf_some.mp failed)
  · rw [same]
    exact .unchanged
  · exact refusal _ ran

omit [Digests] in
theorem writeCritical_leavesOf {α : Type} {call : Call σ} {disk : Except String Unit} {hook : CommitHook σ}
    {body : Tx (α × JournalRecord)} {db : Db} {journal : σ} {failure : StoreError}
    (failed : failureOf (writeCritical disk hook body db journal).1 = some failure) :
    LeavesOf call db (writeCritical disk hook body db journal).2.1 := by
  rw [writeCritical_refused (failureOf_some.mp failed)]
  exact .unchanged

omit [Digests] in
/-- A spending is refused with the expired identifiers forgotten. -/
theorem spendBody_refused {kind : SpentKind} {id : List UInt8} {expiresAt now : Int} {db after : Db}
    {failure : StoreError} (ran : (spendBody kind id expiresAt now).run db = .ok (.refused failure, after)) :
    after = db.forgetExpired now := by
  simp only [spendBody, bind_ok, modify_ok, get_ok, Prod.mk.injEq] at ran
  obtain ⟨_, _, ⟨_, rfl⟩, _, _, ⟨rfl, rfl⟩, ran⟩ := ran
  split at ran
  · simp only [pure_ok, Prod.mk.injEq] at ran
    exact ran.2.symm
  · simp only [bind_ok, set_ok, pure_ok, Prod.mk.injEq] at ran
    obtain ⟨_, _, ⟨_, rfl⟩, done, _⟩ := ran
    cases done

/-- Replaying a record refuses nothing. -/
theorem replayBody_not_refused {record : JournalRecord} {db after : Db} {failure : StoreError} :
    (replayBody record).run db ≠ .ok (.refused failure, after) := by
  intro ran
  rw [replayBody, get_bind_ok] at ran
  split at ran
  · simp only [pure_ok, Prod.mk.injEq] at ran
    cases ran.1
  · simp only [bind_ok, modify_ok, pure_ok, Prod.mk.injEq] at ran
    obtain ⟨_, _, _, _, _, _, done, _⟩ := ran
    cases done

/-! ## Every call -/

/-- A call that answers with an error changed nothing, or appended one refused row to the
log of the vault it names, or, a spending, forgot expired identifiers. -/
theorem step_leavesOf (world : World σ) (call : Call σ) {failure : StoreError}
    (failed : stepFailure world call = some failure) : LeavesOf call world.db (step world call).db := by
  cases call with
  | createVault disk v now =>
    refine write_leavesOf failed fun after ran => ?_
    obtain ⟨_, rfl⟩ | ⟨_, _, _, _, accepted, _⟩ := createVaultBody_cases ran
    · exact .unchanged
    · cases accepted
  | touch disk pk now =>
    change failureOf (touch disk pk now world.db).1 = _ at failed
    change LeavesOf _ world.db (touch disk pk now world.db).2
    unfold touch at failed ⊢
    split at failed
    · next stale =>
      rw [if_pos stale]
      refine write_leavesOf failed fun after ran => ?_
      simp only [bind_ok, modify_ok, pure_ok, Prod.mk.injEq] at ran
      obtain ⟨_, _, _, done, _⟩ := ran
      cases done
    · cases failed
  | registerToken disk pk t ctx limits =>
    refine write_leavesOf failed fun after ran => ?_
    obtain refused | ⟨_, _, accepted, _⟩ := registerTokenBody_cases ran
    · exact .refused rfl refused.only
    · cases accepted
  | revokeTokens disk hook pk ids reported ctx => exact writeCritical_leavesOf failed
  | putRecord disk pk kind name pre w ctx limits =>
    change failureOf (putRecord disk pk kind name pre w ctx limits world.db).1 = _ at failed
    change LeavesOf _ world.db (putRecord disk pk kind name pre w ctx limits world.db).2
    unfold putRecord at failed ⊢
    split at failed
    · exact .unchanged
    · next valueCt value =>
      refine write_leavesOf failed fun after ran => ?_
      obtain refused | ⟨_, _, accepted, _⟩ := putRecordBody_cases value ran
      · exact .refused rfl refused.only
      · cases accepted
  | deleteRecord disk pk kind name ifMatch w ctx limits =>
    change failureOf (deleteRecord disk pk kind name ifMatch w ctx limits world.db).1 = _ at failed
    change LeavesOf _ world.db (deleteRecord disk pk kind name ifMatch w ctx limits world.db).2
    unfold deleteRecord at failed ⊢
    split at failed
    · exact .unchanged
    · next value =>
      refine write_leavesOf failed fun after ran => ?_
      obtain refused | ⟨_, accepted, _⟩ := deleteRecordBody_cases value ran
      · exact .refused rfl refused.only
      · cases accepted
  | putChildren disk pk pre blob ctx limits =>
    refine write_leavesOf failed fun after ran => ?_
    obtain refused | ⟨_, accepted, _⟩ := putChildrenBody_cases ran
    · exact .refused rfl refused.only
    · cases accepted
  | record disk pk e now =>
    refine write_leavesOf failed fun after ran => ?_
    rw [get_bind_ok] at ran
    split at ran
    · simp only [bind_ok, pure_ok, Prod.mk.injEq] at ran
      obtain ⟨_, _, _, done, _⟩ := ran
      cases done
    · simp only [throw_ok] at ran
  | applyRotation disk hook pk r ctx => exact writeCritical_leavesOf failed
  | deleteVault disk hook pk now => exact writeCritical_leavesOf failed
  | spend disk kind id expiresAt now =>
    refine write_leavesOf failed fun after ran => ?_
    rw [spendBody_refused ran]
    exact .expired rfl
  | replay disk record => exact write_leavesOf failed fun after ran => absurd ran replayBody_not_refused

end

/-- A put that names a version its vault does not have is refused. -/
theorem step_leavesOf_put :
    let _ := checksum
    let world : World Unit := step ⟨.empty, ()⟩ (.createVault (.ok ()) (.filled 1) 1)
    let call : Call Unit :=
      .putRecord (.ok ()) 1 .secret ⟨.fill 32 1⟩ (.ifMatch 5) (.filled 6 1) ⟨.owner, 2⟩ .default
    LeavesOf call world.db (step world call).db := by
  intro _ world call
  have failed : stepFailure world call = some (.preconditionFailed none) := by decide +kernel
  exact step_leavesOf world call failed

end GalataVault.Backend

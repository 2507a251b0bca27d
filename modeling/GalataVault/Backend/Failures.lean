import GalataVault.Backend.AuditLog
import GalataVault.Backend.Writes

/-!
# Refusals and failures

A write refuses by committing one audit row and nothing else; everything it fails
with is thrown, and rolls back. The two never share an error: what a body throws is
that something is missing, is there already, or is the database's own fault, so an
answer that names a precondition, a generation, a version or a quota was committed
with its row. The rotation is the exception. Its checks throw, and the one that finds
the vault changed leaves no row behind.
-/

namespace GalataVault.Backend

open Proto Relational Relational.Transaction

/-- Whether an error refuses a write for its precondition, its generation, its version
or a quota. -/
def StoreError.refuses : StoreError → Bool
  | .preconditionFailed _ | .versionMismatch _ _ | .staleGeneration | .conflict | .quota _ => true
  | _ => false

/-- An error that is not a refusal. -/
def Mishap (failure : StoreError) : Prop := failure.refuses = false

/-- One row with result refused was appended to the vault's log, and nothing but the
log and its end changed. -/
structure AppendsRefusal (pk : VaultPk) (db after : Db) : Prop where
  appended : ∃ row, row.result = .refused ∧ after.log pk = db.log pk ++ [row]
  others : ∀ other, other ≠ pk → after.log other = db.log other
  vaults : ∀ other v, db.vaults.find? other = some v → ∃ v', after.vaults.find? other = some v' ∧ SameButLog v v'
  rest : { after with vaults := db.vaults, audit := db.audit } = db

variable [Digests]

theorem appendsRefusal_of_append {pk : VaultPk} {e : AuditEvent} {now : Int} {db after : Db}
    (ran : (appendAudit pk e now).run db = .ok ((), after)) (refused : e.result = .refused) :
    AppendsRefusal pk db after := by
  have scripts : Keeps (Script pk [.audit]) (appendAudit pk e now) := appendAudit_script e now
  have script := scripts _ _ _ ran
  obtain ⟨v, audit, _, inserted, rfl⟩ := appendAudit_ok ran
  have log : ∀ other, ({ db with audit := audit } : Db).log other =
      db.log other ++ if pk = other then [.fromEvent (v.auditSeq + 1) now v.auditHead e] else [] := by
    intro other
    simp only [Db.log, Table.select_insert inserted, List.map_append]
    by_cases mine : pk = other
    · simp [mine]
    · simp [mine]
  constructor
  case appended =>
    exact ⟨_, refused, (log pk).trans (by rw [if_pos rfl])⟩
  case others =>
    intro other differs
    exact (log other).trans (by rw [if_neg (Ne.symm differs), List.append_nil])
  case vaults =>
    intro other v found
    exact script.sameButLog found
  case rest => rfl

theorem Refused.appends {α : Type} {pk : VaultPk} {now : Int} {db after : Db} {done : Done α}
    (refused : Refused pk now db done after) : AppendsRefusal pk db after := by
  obtain ⟨_, _, appended, result⟩ := refused
  exact appendsRefusal_of_append appended result

omit [Digests] in
/-- A row appended is a change. -/
theorem AppendsRefusal.changes {pk : VaultPk} {db after : Db} (appends : AppendsRefusal pk db after) : after ≠ db := by
  rintro rfl
  obtain ⟨row, _, grown⟩ := appends.appended
  have longer := congrArg List.length grown
  rw [List.length_append, List.length_singleton] at longer
  omega

/-! ## What a body throws -/

section Bodies

variable {pk : VaultPk}

theorem appendAudit_throws (e : AuditEvent) (now : Int) : Throws Mishap (appendAudit pk e now) := by
  refine .bind .get fun db => ?_
  split
  · exact .throw rfl
  · dsimp only
    split
    · exact .throw rfl
    · exact .set _

theorem refuse_throws {α : Type} (e : AuditEvent) (now : Int) (error : StoreError) :
    Throws Mishap (refuse pk e now error : Tx (Done α)) :=
  .bind (appendAudit_throws e now) fun _ => .pure _

theorem insertVersion_throws (kind : RecordKind) (v : Insert) : Throws Mishap (insertVersion kind pk v) := by
  refine .bind .get fun db => ?_
  split
  · exact .throw rfl
  · split
    · exact .set _
    · exact .throw rfl

omit [Digests] in
theorem setHead_throws (kind : RecordKind) (name : NameHmac) (version : Nat) (tombstone : Bool) :
    Throws Mishap (setHead kind pk name version tombstone) := by
  refine .bind .get fun db => ?_
  split
  · exact .set _
  · exact .throw rfl

theorem storeVersion_throws (kind : RecordKind) (v : Insert) (tombstone : Bool) (pruned : List (Nat × Nat)) (total : Nat)
    (e : AuditEvent) (now : Int) : Throws Mishap (storeVersion kind pk v tombstone pruned total e now) := by
  refine .bind (insertVersion_throws kind v) fun _ => ?_
  refine .bind (setHead_throws kind _ _ _) fun _ => ?_
  refine .bind (.forM _ fun _ => .modify _) fun _ => ?_
  exact .bind (.modify _) fun _ => appendAudit_throws e now

omit [Digests] in
theorem insertToken_throws (row : TokenRow) : Throws Mishap (insertToken row) := by
  refine .bind .get fun db => ?_
  split
  · exact .throw rfl
  · split
    · exact .set _
    · exact .throw rfl

omit [Digests] in
theorem setChildren_throws (blob : ChildrenBlob) : Throws Mishap (setChildren pk blob) := by
  refine .bind .get fun db => ?_
  split
  · exact .set _
  · exact .throw rfl

omit [Digests] in
theorem deleteTokens_throws (ids : List TokenId) : Throws Mishap (deleteTokens pk ids) := by
  induction ids with
  | nil => exact .pure _
  | cons id ids inductionHypothesis =>
    refine .bind .get fun db => ?_
    refine .bind (.set _) fun _ => ?_
    exact .bind inductionHypothesis fun _ => .pure _

omit [Digests] in
theorem journal_throws (op : JournalOp) (now : Int) : Throws Mishap (journal op now) :=
  .bind .get fun _ => .bind (.set _) fun _ => .pure _

theorem recordBody_throws (e : AuditEvent) (now : Int) :
    Throws Mishap (do
      let db ← get
      if db.hasVault pk then
        appendAudit pk e now
        pure (.ok ())
      else throw .notFound : Tx (Done Unit)) := by
  refine .bind .get fun db => ?_
  split
  · exact .bind (appendAudit_throws e now) fun _ => .pure _
  · exact .throw rfl

theorem registerTokenBody_throws (t : NewToken) (ctx : Ctx) (limits : Limits) :
    Throws Mishap (registerTokenBody pk t ctx limits) := by
  refine .bind .get fun db => ?_
  split
  · exact .throw rfl
  · dsimp only
    split
    · exact refuse_throws _ _ _
    · split
      · exact refuse_throws _ _ _
      · refine .bind (insertToken_throws _) fun _ => ?_
        refine .bind (.modify _) fun _ => ?_
        refine .bind (appendAudit_throws _ _) fun _ => ?_
        refine .bind .get fun after => ?_
        split
        · exact .throw rfl
        · exact .pure _

theorem putRecordBody_throws (kind : RecordKind) (name : NameHmac) (pre : Precondition) (w : RecordWrite)
    (valueCt : List UInt8) (ctx : Ctx) (limits : Limits) :
    Throws Mishap (putRecordBody pk kind name pre w valueCt ctx limits) := by
  refine .bind .get fun db => ?_
  split
  · exact .throw rfl
  · dsimp only
    -- Every branch but the last refuses.
    split
    · exact refuse_throws _ _ _
    · split
      · exact refuse_throws _ _ _
      · split
        · exact refuse_throws _ _ _
        · split
          · exact refuse_throws _ _ _
          · split
            · exact refuse_throws _ _ _
            · split
              · exact refuse_throws _ _ _
              · exact .bind (storeVersion_throws kind _ _ _ _ _ _) fun _ => .pure _

theorem deleteRecordBody_throws (kind : RecordKind) (name : NameHmac) (ifMatch : Nat) (w : RecordWrite) (ctx : Ctx)
    (limits : Limits) : Throws Mishap (deleteRecordBody pk kind name ifMatch w ctx limits) := by
  refine .bind .get fun db => ?_
  split
  · exact .throw rfl
  · dsimp only
    split
    · exact .throw rfl
    · exact .throw rfl
    · split
      · exact refuse_throws _ _ _
      · split
        · exact refuse_throws _ _ _
        · split
          · exact refuse_throws _ _ _
          · exact .bind (storeVersion_throws kind _ _ _ _ _ _) fun _ => .pure _

theorem putChildrenBody_throws (pre : Precondition) (blob : ChildrenBlob) (ctx : Ctx) (limits : Limits) :
    Throws Mishap (putChildrenBody pk pre blob ctx limits) := by
  refine .bind .get fun db => ?_
  split
  · exact .throw rfl
  · dsimp only
    split
    · exact refuse_throws _ _ _
    · split
      · exact refuse_throws _ _ _
      · split
        · exact refuse_throws _ _ _
        · exact .bind (setChildren_throws _) fun _ => .bind (appendAudit_throws _ _) fun _ => .pure _

theorem revokeTokensBody_throws (ids : List TokenId) (reported : Bool) (ctx : Ctx) :
    Throws Mishap (revokeTokensBody pk ids reported ctx) := by
  refine .bind .get fun db => ?_
  split
  · exact .throw rfl
  · refine .bind (deleteTokens_throws ids) fun removed => ?_
    split
    · exact .throw rfl
    · refine .bind (.modify _) fun _ => ?_
      refine .bind (.forM _ fun _ => appendAudit_throws _ _) fun _ => ?_
      exact .bind (journal_throws _ _) fun _ => .pure _

omit [Digests] in
theorem deleteVaultBody_throws (now : Int) : Throws Mishap (deleteVaultBody pk now) := by
  refine .bind .get fun db => ?_
  split
  · exact .throw rfl
  · refine .bind (.set _) fun _ => ?_
    exact .bind (journal_throws _ _) fun _ => .pure _

end Bodies

/-! ## What a refused write committed -/

section Writes

variable {α σ : Type} {disk : Except String Unit} {db : Db} {failure : StoreError}

omit [Digests] in
theorem commit_mishap {next : Db} (failed : commit disk next = .error failure) : Mishap failure := by
  unfold commit at failed
  split at failed
  · cases failed
    rfl
  · split at failed
    · cases failed
    · cases failed
      rfl

omit [Digests] in
/-- A write whose body throws mishaps only refuses by committing a refusal. -/
theorem write_refuses {body : Tx (Done α)} (throws : Throws Mishap body)
    (answer : (write disk body db).1 = .error failure) (refuses : failure.refuses = true) :
    body.run db = .ok (.refused failure, (write disk body db).2) := by
  have refusal : ¬ Mishap failure := fun mishap => Bool.false_ne_true (mishap.symm.trans refuses)
  unfold write at answer ⊢
  split at answer
  · next thrown failed =>
    cases answer
    exact absurd (throws _ _ failed) refusal
  · next done next ran =>
    split at answer
    · next thrown failed =>
      cases answer
      exact absurd (commit_mishap failed) refusal
    · next committed =>
      cases done with
      | ok value => cases answer
      | refused error =>
        cases answer
        simp only [ran]

omit [Digests] in
/-- A critical write whose body throws mishaps only never refuses. -/
theorem writeCritical_mishap {hook : CommitHook σ} {body : Tx (α × JournalRecord)} {journal : σ}
    (throws : Throws Mishap body) (answer : (writeCritical disk hook body db journal).1 = .error failure) :
    Mishap failure := by
  unfold writeCritical at answer
  split at answer
  · next thrown failed =>
    cases answer
    exact throws _ _ failed
  · split at answer
    · cases answer
      rfl
    · split at answer
      · next thrown failed =>
        cases answer
        exact commit_mishap failed
      · cases answer

variable {pk : VaultPk} {kind : RecordKind} {name : NameHmac} {w : RecordWrite} {ctx : Ctx} {limits : Limits}

theorem registerToken_refuses {t : NewToken} (answer : (registerToken disk pk t ctx limits db).1 = .error failure)
    (refuses : failure.refuses = true) : AppendsRefusal pk db (registerToken disk pk t ctx limits db).2 := by
  have ran := write_refuses (registerTokenBody_throws t ctx limits) answer refuses
  rcases registerTokenBody_cases ran with refused | ⟨_, _, accepted, _⟩
  · exact refused.appends
  · cases accepted

theorem putRecord_refuses {pre : Precondition}
    (answer : (putRecord disk pk kind name pre w ctx limits db).1 = .error failure) (refuses : failure.refuses = true) :
    AppendsRefusal pk db (putRecord disk pk kind name pre w ctx limits db).2 := by
  unfold putRecord at answer ⊢
  split at answer
  · cases answer
    cases refuses
  · next valueCt value =>
    have ran := write_refuses (putRecordBody_throws kind name pre w valueCt ctx limits) answer refuses
    rcases putRecordBody_cases value ran with refused | ⟨_, _, accepted, _⟩
    · exact refused.appends
    · cases accepted

theorem deleteRecord_refuses {ifMatch : Nat}
    (answer : (deleteRecord disk pk kind name ifMatch w ctx limits db).1 = .error failure)
    (refuses : failure.refuses = true) : AppendsRefusal pk db (deleteRecord disk pk kind name ifMatch w ctx limits db).2 := by
  unfold deleteRecord at answer ⊢
  split at answer
  · cases answer
    cases refuses
  · next value =>
    have ran := write_refuses (deleteRecordBody_throws kind name ifMatch w ctx limits) answer refuses
    rcases deleteRecordBody_cases value ran with refused | ⟨_, accepted, _⟩
    · exact refused.appends
    · cases accepted

theorem putChildren_refuses {pre : Precondition} {blob : ChildrenBlob}
    (answer : (putChildren disk pk pre blob ctx limits db).1 = .error failure) (refuses : failure.refuses = true) :
    AppendsRefusal pk db (putChildren disk pk pre blob ctx limits db).2 := by
  have ran := write_refuses (putChildrenBody_throws pre blob ctx limits) answer refuses
  rcases putChildrenBody_cases ran with refused | ⟨_, accepted, _⟩
  · exact refused.appends
  · cases accepted

theorem record_mishap {e : AuditEvent} {now : Int} (answer : (record disk pk e now db).1 = .error failure) :
    Mishap failure := by
  cases refuses : failure.refuses with
  | false => exact refuses
  | true =>
    have ran := write_refuses (recordBody_throws e now) answer refuses
    rw [get_bind_ok] at ran
    split at ran
    · simp only [bind_ok, pure_ok, Prod.mk.injEq] at ran
      obtain ⟨_, _, _, done, _⟩ := ran
      cases done
    · simp only [throw_ok] at ran

end Writes

/-! ## Rows written on their own -/

/-- The log of a vault that is there has room for its next number. -/
theorem LogInvariant.appends {db : Db} (invariant : LogInvariant db) {pk : VaultPk} {v : VaultCols}
    (found : db.vaults.find? pk = some v) (e : AuditEvent) (now : Int) :
    ∃ audit, db.audit.insert ⟨pk, .fromEvent (v.auditSeq + 1) now v.auditHead e⟩ = some audit := by
  cases inserted : db.audit.insert ⟨pk, .fromEvent (v.auditSeq + 1) now v.auditHead e⟩ with
  | some audit => exact ⟨audit, rfl⟩
  | none =>
    obtain ⟨old, taken⟩ := Table.insert_eq_none.mp inserted
    obtain ⟨member, keyed⟩ := Table.find?_eq_some.mp taken
    obtain ⟨mine, number⟩ : old.vaultPk = pk ∧ old.row.seq = v.auditSeq + 1 := Prod.mk.inj keyed
    have linked := invariant.chained.linked pk v found
    have ends : v.auditSeq = 0 + (db.log pk).length := linked.finish_seq
    have logged : old.row ∈ db.log pk := List.mem_map_of_mem (List.mem_filter.mpr ⟨member, by simpa using mine⟩)
    have numbered : old.row.seq ∈ (db.log pk).map auditFormat.seq := List.mem_map_of_mem logged
    rw [linked.seqs, List.mem_range'] at numbered
    obtain ⟨offset, below, place⟩ := numbered
    have origin : start.seq = 0 := rfl
    omega

/-- A row written on its own is appended whenever its vault is there, SQLite commits,
and the file has room for one more row. -/
theorem record_appends {db : Db} (invariant : LogInvariant db) (room : db.rowCount < maxRows) {pk : VaultPk}
    (present : db.hasVault pk = true) (e : AuditEvent) (now : Int) :
    (appendAudit pk e now).run db = .ok ((), (record (.ok ()) pk e now db).2) := by
  obtain ⟨v, found⟩ := Db.hasVault_iff.mp present
  obtain ⟨audit, inserted⟩ := invariant.appends found e now
  obtain ⟨after, ran, grown⟩ : ∃ after, (appendAudit pk e now).run db = .ok ((), after) ∧
      after.rowCount = db.rowCount + 1 := by
    refine ⟨{ db with audit := audit }.updateVault pk fun v' =>
      { v' with
        auditSeq := (AuditRow.fromEvent (v.auditSeq + 1) now v.auditHead e).seq
        auditHead := (AuditRow.fromEvent (v.auditSeq + 1) now v.auditHead e).hash }, ?_, ?_⟩
    · rw [appendAudit, get_bind_ok]
      simp only [found, inserted, set_ok]
    · have longer := (Table.insert_eq_some.mp inserted).2
      simp only [Db.rowCount, Db.updateVault, Table.updateWhere, List.length_map, longer, List.length_append,
        List.length_singleton]
      omega
  have committed : commit (.ok ()) after = .ok () := if_pos (by omega)
  have body : (do
      let db ← get
      if db.hasVault pk then
        appendAudit pk e now
        pure (.ok ())
      else throw .notFound : Tx (Done Unit)).run db = .ok (.ok (), after) := by
    rw [get_bind_ok, if_pos present, bind_ok]
    exact ⟨(), after, ran, rfl⟩
  unfold record write
  rw [body]
  simp only [committed]
  exact ran

end GalataVault.Backend

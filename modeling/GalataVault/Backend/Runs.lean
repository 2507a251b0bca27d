import GalataVault.Backend.Scripts
import GalataVault.Library.Machine

/-!
# Runs of the store

One writer connection behind a mutex serialises every write, so a run of the
store, under any number of clients, is a sequence of calls. A call carries
everything that is not in the database: its arguments, what SQLite answers to
its commit and, for a critical operation, the hook its journal record goes to.
Reads change nothing and need no step of their own.

Every step has one of a few effects, listed once: nothing, a script addressed to
one vault, a new vault, deleted vaults, or a change to the spent identifiers.
-/

namespace GalataVault.Backend

open Proto Relational Relational.Transaction

/-- One mutating call of the store, over a journal kept in `σ`. -/
inductive Call (σ : Type) where
  | createVault (disk : Except String Unit) (v : NewVault) (now : Int)
  | touch (disk : Except String Unit) (pk : VaultPk) (now : Int)
  | registerToken (disk : Except String Unit) (pk : VaultPk) (t : NewToken) (ctx : Ctx) (limits : Limits)
  | revokeTokens (disk : Except String Unit) (hook : CommitHook σ) (pk : VaultPk)
      (ids : List TokenId) (reported : Bool) (ctx : Ctx)
  | putRecord (disk : Except String Unit) (pk : VaultPk) (kind : RecordKind) (name : NameHmac)
      (pre : Precondition) (w : RecordWrite) (ctx : Ctx) (limits : Limits)
  | deleteRecord (disk : Except String Unit) (pk : VaultPk) (kind : RecordKind) (name : NameHmac)
      (ifMatch : Nat) (w : RecordWrite) (ctx : Ctx) (limits : Limits)
  | putChildren (disk : Except String Unit) (pk : VaultPk) (pre : Precondition) (blob : ChildrenBlob)
      (ctx : Ctx) (limits : Limits)
  | record (disk : Except String Unit) (pk : VaultPk) (e : AuditEvent) (now : Int)
  | applyRotation (disk : Except String Unit) (hook : CommitHook σ) (pk : VaultPk)
      (r : RotationRequest) (ctx : Ctx)
  | deleteVault (disk : Except String Unit) (hook : CommitHook σ) (pk : VaultPk) (now : Int)
  | spend (disk : Except String Unit) (kind : SpentKind) (id : List UInt8) (expiresAt now : Int)
  | replay (disk : Except String Unit) (record : JournalRecord)

/-- The database, and whatever the journal is kept in. -/
structure World (σ : Type) where
  db : Db
  journal : σ

section Steps

variable [Digests] {σ : Type}

/-- The world after one call, whether it succeeded or was refused. -/
def step (world : World σ) : Call σ → World σ
  | .createVault disk v now => { world with db := (createVault disk v now world.db).2 }
  | .touch disk pk now => { world with db := (touch disk pk now world.db).2 }
  | .registerToken disk pk t ctx limits =>
    { world with db := (registerToken disk pk t ctx limits world.db).2 }
  | .revokeTokens disk hook pk ids reported ctx =>
    let outcome := revokeTokens disk hook pk ids reported ctx world.db world.journal
    ⟨outcome.2.1, outcome.2.2⟩
  | .putRecord disk pk kind name pre w ctx limits =>
    { world with db := (putRecord disk pk kind name pre w ctx limits world.db).2 }
  | .deleteRecord disk pk kind name ifMatch w ctx limits =>
    { world with db := (deleteRecord disk pk kind name ifMatch w ctx limits world.db).2 }
  | .putChildren disk pk pre blob ctx limits =>
    { world with db := (putChildren disk pk pre blob ctx limits world.db).2 }
  | .record disk pk e now => { world with db := (record disk pk e now world.db).2 }
  | .applyRotation disk hook pk r ctx =>
    let outcome := applyRotation disk hook pk r ctx world.db world.journal
    ⟨outcome.2.1, outcome.2.2⟩
  | .deleteVault disk hook pk now =>
    let outcome := deleteVault disk hook pk now world.db world.journal
    ⟨outcome.2.1, outcome.2.2⟩
  | .spend disk kind id expiresAt now =>
    { world with db := (spend disk kind id expiresAt now world.db).2 }
  | .replay disk record => { world with db := (replay disk record world.db).2 }

/-- The world after a sequence of calls. -/
def run (world : World σ) (calls : List (Call σ)) : World σ := Machine.run step world calls

theorem run_append (world : World σ) (calls more : List (Call σ)) :
    run world (calls ++ more) = run (run world calls) more := Machine.run_append world calls more

/-- A property of the database that every step keeps holds after every run. -/
theorem run_induction {P : Db → Prop} {world : World σ} (initial : P world.db)
    (keeps : ∀ (world : World σ) call, P world.db → P (step world call).db) (calls : List (Call σ)) :
    P (run world calls).db := by
  induction calls generalizing world with
  | nil => exact initial
  | cons call calls inductionHypothesis => exact inductionHypothesis (keeps world call initial)

end Steps

/-! ## Effects -/

/-- What a call may write: the vaults it is addressed to, and the tables. -/
structure Reach where
  addressed : VaultPk → Prop
  targets : List Target

/-- The reach of a call that is addressed to one vault. -/
def Reach.at (pk : VaultPk) (targets : List Target) : Reach := ⟨(· = pk), targets⟩

/-- A replayed record names its vault by its id and may write any of its tables. -/
def Reach.replay : Reach := ⟨fun _ => True, .journalState :: rotationTargets⟩

def Call.reach {σ : Type} : Call σ → Reach
  | .createVault .. => ⟨fun _ => False, []⟩
  | .touch _ pk _ => .at pk [.vaults]
  | .registerToken _ pk .. => .at pk [.tokens, .vaults, .audit]
  | .revokeTokens _ _ pk .. => .at pk [.tokens, .vaults, .audit, .journalState]
  | .putRecord _ pk kind .. => .at pk [.records kind, .bytes, .audit]
  | .deleteRecord _ pk kind .. => .at pk [.records kind, .bytes, .audit]
  | .putChildren _ pk .. => .at pk [.children, .audit]
  | .record _ pk .. => .at pk [.audit]
  | .applyRotation _ _ pk .. => .at pk (.journalState :: rotationTargets)
  | .deleteVault _ _ pk _ => .at pk []
  | .spend .. => ⟨fun _ => False, []⟩
  | .replay .. => .replay

/-- What one call can do to the database: nothing, a script within its reach, a new
vault, deleting vaults it is addressed to, or a change to the spent identifiers. -/
inductive Effect [Digests] (reach : Reach) (db : Db) : Db → Prop where
  | none : Effect reach db db
  | script (pk : VaultPk) {after : Db} (mine : reach.addressed pk) (script : Script pk reach.targets db after) :
      Effect reach db after
  | created (v : NewVault) (now : Int) (vaults : Table VaultCols.pk)
      (descriptors : Table DescriptorCols.key) (e : AuditEvent) {after : Db}
      (alone : ∀ pk, ¬ reach.addressed pk)
      (fresh : ∀ old ∈ db.vaults.rows, old.vaultId ≠ v.vaultId)
      (inserted : db.vaults.insert (v.cols db.nextPk now) = some vaults)
      (described : db.descriptors.insert ⟨db.nextPk, 1, v.descriptor⟩ = some descriptors)
      (audited : (appendAudit db.nextPk e now).run
        { db with vaults := vaults, descriptors := descriptors } = .ok ((), after)) :
      Effect reach db after
  | deleted (p : VaultCols → Bool) (seq : Nat) (mine : ∀ v, p v = true → reach.addressed v.pk) :
      Effect reach db { db.deleteVaults p with lastApplied := seq }
  | spent (table : Table SpentCols.key) : Effect reach db { db with spent := table }

section Outcomes

variable {α σ : Type}

/-- A write fails and leaves the database as it was, or leaves it as its committed
body did. -/
theorem write_cases (disk : Except String Unit) (body : Tx (Done α)) (db : Db) :
    (∃ failure, write disk body db = (.error failure, db)) ∨
      ∃ done after, body.run db = .ok (done, after) ∧ after.rowCount ≤ maxRows ∧
        write disk body db = (done.answer, after) := by
  unfold write
  split
  · exact .inl ⟨_, rfl⟩
  · next done after ran =>
    unfold commit
    split
    · exact .inl ⟨_, rfl⟩
    · next committed =>
      split at committed
      · simp at committed
      · split at committed
        · next fits => exact .inr ⟨done, after, ran, fits, rfl⟩
        · simp at committed

/-- A critical write fails and leaves the database as it was, or leaves it as its
body did after the hook succeeded. -/
theorem writeCritical_cases (disk : Except String Unit) (hook : CommitHook σ)
    (body : Tx (α × JournalRecord)) (db : Db) (journal : σ) :
    (∃ failure left, writeCritical disk hook body db journal = (.error failure, db, left)) ∨
      ∃ value record after, body.run db = .ok ((value, record), after) ∧
        after.rowCount ≤ maxRows ∧ (hook record journal).1 = .ok () ∧
        writeCritical disk hook body db journal = (.ok value, after, (hook record journal).2) := by
  unfold writeCritical
  split
  · exact .inl ⟨_, _, rfl⟩
  · next value record after ran =>
    split
    · exact .inl ⟨_, _, rfl⟩
    · next left hooked =>
      unfold commit
      split
      · exact .inl ⟨_, _, rfl⟩
      · next committed =>
        split at committed
        · simp at committed
        · split at committed
          · next fits =>
            exact .inr ⟨value, record, after, ran, fits, by rw [hooked], by rw [hooked]⟩
          · simp at committed

/-- An accepted write ran its body to an answer, and the database is what the body
left. -/
theorem write_accepted {disk : Except String Unit} {body : Tx (Done α)} {db : Db} {value : α}
    (accepted : (write disk body db).1 = .ok value) :
    body.run db = .ok (.ok value, (write disk body db).2) := by
  rcases write_cases disk body db with ⟨_, outcome⟩ | ⟨done, after, ran, _, outcome⟩
  · rw [outcome] at accepted
    cases accepted
  · rw [outcome] at accepted ⊢
    cases done with
    | ok given =>
      obtain rfl := Except.ok.inj accepted
      exact ran
    | refused error => cases accepted

/-- A refused write changed nothing, or committed the refusal its body answered. -/
theorem write_refused {disk : Except String Unit} {body : Tx (Done α)} {db : Db} {failure : StoreError}
    (answer : (write disk body db).1 = .error failure) :
    (write disk body db).2 = db ∨ body.run db = .ok (.refused failure, (write disk body db).2) := by
  rcases write_cases disk body db with ⟨_, outcome⟩ | ⟨done, after, ran, _, outcome⟩
  · rw [outcome]
    exact .inl rfl
  · rw [outcome] at answer ⊢
    cases done with
    | ok value => cases answer
    | refused error =>
      obtain rfl := Except.error.inj answer
      exact .inr ran

theorem writeCritical_accepted {disk : Except String Unit} {hook : CommitHook σ}
    {body : Tx (α × JournalRecord)} {db : Db} {journal : σ} {value : α}
    (accepted : (writeCritical disk hook body db journal).1 = .ok value) :
    ∃ record, body.run db = .ok ((value, record), (writeCritical disk hook body db journal).2.1) := by
  rcases writeCritical_cases disk hook body db journal with ⟨_, _, outcome⟩ | ⟨given, record, after, ran, _, _, outcome⟩
  · rw [outcome] at accepted
    cases accepted
  · rw [outcome] at accepted ⊢
    obtain rfl := Except.ok.inj accepted
    exact ⟨record, ran⟩

theorem writeCritical_refused {disk : Except String Unit} {hook : CommitHook σ}
    {body : Tx (α × JournalRecord)} {db : Db} {journal : σ} {failure : StoreError}
    (answer : (writeCritical disk hook body db journal).1 = .error failure) :
    (writeCritical disk hook body db journal).2.1 = db := by
  rcases writeCritical_cases disk hook body db journal with ⟨_, _, outcome⟩ | ⟨_, _, _, _, _, _, outcome⟩
  · rw [outcome]
  · rw [outcome] at answer
    cases answer

end Outcomes

variable [Digests]

/-- What a step may leave: the database as it was, or an effect that fits the file. -/
def Leaves (reach : Reach) (db after : Db) : Prop :=
  after = db ∨ Effect reach db after ∧ after.rowCount ≤ maxRows

theorem write_leaves {α : Type} {reach : Reach} (disk : Except String Unit) (body : Tx (Done α)) (db : Db)
    (effect : ∀ done after, body.run db = .ok (done, after) → Effect reach db after) :
    Leaves reach db (write disk body db).2 := by
  rcases write_cases disk body db with ⟨_, outcome⟩ | ⟨done, after, ran, fits, outcome⟩
  · rw [outcome]
    exact .inl rfl
  · rw [outcome]
    exact .inr ⟨effect done after ran, fits⟩

theorem writeCritical_leaves {α σ : Type} {reach : Reach} (disk : Except String Unit) (hook : CommitHook σ)
    (body : Tx (α × JournalRecord)) (db : Db) (journal : σ)
    (effect : ∀ result after, body.run db = .ok (result, after) → Effect reach db after) :
    Leaves reach db (writeCritical disk hook body db journal).2.1 := by
  rcases writeCritical_cases disk hook body db journal with ⟨_, _, outcome⟩ | ⟨_, _, after, ran, fits, _, outcome⟩
  · rw [outcome]
    exact .inl rfl
  · rw [outcome]
    exact .inr ⟨effect _ after ran, fits⟩

/-- A creation is refused without a trace, or inserts the vault, its descriptor and
its first audit row. -/
theorem createVaultBody_cases {v : NewVault} {now : Int} {db after : Db} {done : Done VaultRow}
    (ran : (createVaultBody v now).run db = .ok (done, after)) :
    (done = .refused .exists ∧ after = db) ∨
      ∃ row vaults descriptors e, done = .ok row ∧ after.loadVault db.nextPk = some row ∧
        (∀ old ∈ db.vaults.rows, old.vaultId ≠ v.vaultId) ∧
        db.vaults.insert (v.cols db.nextPk now) = some vaults ∧
        db.descriptors.insert ⟨db.nextPk, 1, v.descriptor⟩ = some descriptors ∧
        (appendAudit db.nextPk e now).run { db with vaults := vaults, descriptors := descriptors } =
          .ok ((), after) := by
  rw [createVaultBody, get_bind_ok] at ran
  split at ran
  · simp only [pure_ok, Prod.mk.injEq] at ran
    exact .inl ⟨ran.1.symm, ran.2.symm⟩
  · next fresh =>
    dsimp only at ran
    split at ran
    · simp only [throw_ok] at ran
    · next vaults inserted =>
      split at ran
      · simp only [throw_ok] at ran
      · next descriptors described =>
        simp only [bind_ok, set_ok, get_ok, Prod.mk.injEq] at ran
        obtain ⟨_, _, ⟨_, rfl⟩, _, logged, audited, _, _, ⟨rfl, rfl⟩, loaded⟩ := ran
        split at loaded
        · simp only [throw_ok] at loaded
        · next row found =>
          simp only [pure_ok, Prod.mk.injEq] at loaded
          obtain ⟨rfl, rfl⟩ := loaded
          refine .inr ⟨row, vaults, descriptors, _, rfl, found, fun old member same => fresh ?_, inserted,
            described, audited⟩
          exact List.any_eq_true.mpr ⟨old, member, by simpa using same⟩

theorem createVaultBody_effect {reach : Reach} (alone : ∀ pk, ¬ reach.addressed pk) (v : NewVault) (now : Int)
    (db : Db) (done : Done VaultRow) (after : Db) (ran : (createVaultBody v now).run db = .ok (done, after)) :
    Effect reach db after := by
  rcases createVaultBody_cases ran with ⟨_, rfl⟩ | ⟨_, vaults, descriptors, e, _, _, fresh, inserted, described, audited⟩
  · exact .none
  · exact .created v now vaults descriptors e alone fresh inserted described audited

omit [Digests] in
/-- A deletion removes the vault and what belongs to it, and allocates the next
journal sequence. -/
theorem deleteVaultBody_ok {pk : VaultPk} {now : Int} {db after : Db} {value : Unit} {record : JournalRecord}
    (ran : (deleteVaultBody pk now).run db = .ok ((value, record), after)) :
    ∃ vault, db.loadVault pk = some vault ∧
      record = { seq := db.lastApplied + 1, ts := now, op := .deleteVault vault.vaultId } ∧
      after = { db.deleteVaults (fun v => v.pk = pk) with lastApplied := db.lastApplied + 1 } := by
  rw [deleteVaultBody, get_bind_ok] at ran
  split at ran
  · simp only [throw_ok] at ran
  · next vault loaded =>
    simp only [bind_ok, set_ok, pure_ok, Prod.mk.injEq] at ran
    obtain ⟨_, _, ⟨_, rfl⟩, _, _, journaled, ⟨_, rfl⟩, rfl⟩ := ran
    obtain ⟨rfl, rfl⟩ := journal_ok journaled
    exact ⟨vault, loaded, rfl, rfl⟩

theorem deleteVaultBody_effect (pk : VaultPk) (now : Int) (db : Db) (result : Unit × JournalRecord)
    (after : Db) (ran : (deleteVaultBody pk now).run db = .ok (result, after)) :
    Effect (.at pk []) db after := by
  obtain ⟨_, _, _, rfl⟩ := deleteVaultBody_ok ran
  exact .deleted _ _ fun v same => show v.pk = pk from of_decide_eq_true same

omit [Digests] in
/-- Spending an identifier changes the table of spent ones only. -/
theorem spendBody_ok {kind : SpentKind} {id : List UInt8} {expiresAt now : Int} {db after : Db}
    {done : Done Unit} (ran : (spendBody kind id expiresAt now).run db = .ok (done, after)) :
    ∃ spent, after = { db with spent := spent } := by
  simp only [spendBody, bind_ok, modify_ok, get_ok, Prod.mk.injEq] at ran
  obtain ⟨_, _, ⟨_, rfl⟩, _, _, ⟨rfl, rfl⟩, ran⟩ := ran
  split at ran
  · simp only [pure_ok, Prod.mk.injEq] at ran
    exact ⟨_, ran.2.symm⟩
  · simp only [bind_ok, set_ok, pure_ok, Prod.mk.injEq] at ran
    obtain ⟨_, _, ⟨_, rfl⟩, _, rfl⟩ := ran
    exact ⟨_, rfl⟩

theorem spendBody_effect {reach : Reach} (kind : SpentKind) (id : List UInt8) (expiresAt now : Int) (db : Db)
    (done : Done Unit) (after : Db) (ran : (spendBody kind id expiresAt now).run db = .ok (done, after)) :
    Effect reach db after := by
  obtain ⟨_, rfl⟩ := spendBody_ok ran
  exact .spent _

/-- Marking a record applied after a script is part of the script. -/
theorem Effect.mark_script {pk : VaultPk} {targets : List Target} {db after : Db}
    (included : ∀ target ∈ targets, target ∈ rotationTargets) (script : Script pk targets db after) (seq : Nat) :
    Effect .replay db { after with lastApplied := seq } := by
  refine .script pk trivial (Script.trans _ _ _ (script.widen fun target member => ?_) ((Stmt.setApplied seq).script (List.mem_cons_self ..)))
  exact List.mem_cons_of_mem _ (included target member)

theorem Effect.mark_only (db : Db) (seq : Nat) : Effect .replay db { db with lastApplied := seq } :=
  .script 0 trivial ((Stmt.setApplied seq).script (List.mem_cons_self ..))

/-- A record at or below the last applied one is skipped; any other is applied, and
marked applied with it. -/
theorem replayBody_cases {record : JournalRecord} {db after : Db} {done : Done Bool}
    (ran : (replayBody record).run db = .ok (done, after)) :
    (record.seq ≤ db.lastApplied ∧ after = db) ∨
      (db.lastApplied < record.seq ∧ ∃ applied middle, (replayOp record).run db = .ok (applied, middle) ∧
        after = { middle with lastApplied := record.seq }) := by
  rw [replayBody, get_bind_ok] at ran
  split at ran
  · next skipped =>
    simp only [pure_ok, Prod.mk.injEq] at ran
    exact .inl ⟨skipped, ran.2.symm⟩
  · next due =>
    simp only [bind_ok, modify_ok, pure_ok, Prod.mk.injEq] at ran
    obtain ⟨applied, middle, replayed, _, _, ⟨_, rfl⟩, _, rfl⟩ := ran
    exact .inr ⟨Nat.lt_of_not_le due, applied, middle, replayed, rfl⟩

/-- What replaying each kind of record does to a database: nothing, a script on the
tokens of a vault, a batch, or the deletion of a vault. -/
inductive Replayed (record : JournalRecord) (db : Db) : Db → Prop where
  | skipped : Replayed record db db
  | revoked {vault : VaultRow} {removed : List TokenId} {deleted audited after : Db} (vaultId : VaultId)
      (tokenIds : List TokenId) (actor : Actor) (reported : Bool)
      (named : record.op = .revokeTokens vaultId tokenIds actor reported)
      (found : db.loadVaultById vaultId = some vault)
      (deletes : (deleteTokens vault.pk tokenIds).run db = .ok (removed, deleted))
      (audits : (removed.forM fun id => appendAudit vault.pk
        (event actor (revokeAction reported) none (some id) .ok) record.ts).run deleted = .ok ((), audited))
      (raised : after = if removed = [] then audited
        else audited.updateVault vault.pk fun v => { v with revision := v.revision + 1 }) :
      Replayed record db after
  | rotated {vault : VaultRow} {generation : Nat} {after : Db} (vaultId : VaultId) (actor : Actor)
      (request : RotationRequest) (named : record.op = .rotate vaultId actor request)
      (found : db.loadVaultById vaultId = some vault) (current : vault.generation = request.fromGeneration)
      (applied : (applyBatch vault request { actor := actor, now := record.ts }).run db = .ok (generation, after)) :
      Replayed record db after
  | deleted (vaultId : VaultId) (named : record.op = .deleteVault vaultId) :
      Replayed record db (db.deleteVaults fun v => v.vaultId = vaultId)

theorem replayOp_ok {record : JournalRecord} {db after : Db} {applied : Bool}
    (ran : (replayOp record).run db = .ok (applied, after)) : Replayed record db after := by
  rw [replayOp, get_bind_ok] at ran
  split at ran
  · next vaultId tokenIds actor reported named =>
    split at ran
    · simp only [pure_ok, Prod.mk.injEq] at ran
      exact ran.2 ▸ .skipped
    · next vault found =>
      simp only [bind_ok] at ran
      obtain ⟨removed, deleted, deletes, _, audited, audits, ran⟩ := ran
      refine .revoked vaultId tokenIds actor reported named found deletes audits ?_
      split at ran
      · next none_removed =>
        simp only [pure_ok, Prod.mk.injEq] at ran
        rw [if_pos none_removed, ran.2]
      · next some_removed =>
        simp only [bumpRevision, bind_ok, modify_ok, pure_ok, Prod.mk.injEq] at ran
        obtain ⟨_, _, ⟨_, rfl⟩, _, rfl⟩ := ran
        rw [if_neg some_removed]
  · next vaultId actor request named =>
    split at ran
    · simp only [pure_ok, Prod.mk.injEq] at ran
      exact ran.2 ▸ .skipped
    · next vault found =>
      split at ran
      · next current =>
        simp only [bind_ok, pure_ok, Prod.mk.injEq] at ran
        obtain ⟨generation, _, rotated, _, rfl⟩ := ran
        rw [rotate, get_bind_ok, if_neg Bool.false_ne_true, if_neg (by omega)] at rotated
        exact .rotated vaultId actor request named found current rotated
      · simp only [pure_ok, Prod.mk.injEq] at ran
        exact ran.2 ▸ .skipped
  · next vaultId named =>
    simp only [bind_ok, set_ok, pure_ok, Prod.mk.injEq] at ran
    obtain ⟨_, _, ⟨_, rfl⟩, _, rfl⟩ := ran
    exact .deleted vaultId named

/-- A replayed revocation is a script on the vault's tokens, its row and its log. -/
theorem revoked_script {pk : VaultPk} {tokenIds removed : List TokenId} {actor : Actor} {reported : Bool} {now : Int}
    {db deleted audited after : Db} (deletes : (deleteTokens pk tokenIds).run db = .ok (removed, deleted))
    (audits : (removed.forM fun id =>
      appendAudit pk (event actor (revokeAction reported) none (some id) .ok) now).run deleted = .ok ((), audited))
    (raised : after = if removed = [] then audited
      else audited.updateVault pk fun v => { v with revision := v.revision + 1 }) :
    Script pk [.tokens, .vaults, .audit] db after := by
  have deletesTokens : Keeps (Script pk [.tokens, .vaults, .audit]) (deleteTokens pk tokenIds) :=
    deleteTokens_script tokenIds
  have auditsEach : Keeps (Script pk [.tokens, .vaults, .audit]) (removed.forM fun id =>
      appendAudit pk (event actor (revokeAction reported) none (some id) .ok) now) :=
    .forM Script.refl Script.trans _ fun id _ => appendAudit_script _ _
  have script := Script.trans _ _ _ (deletesTokens _ _ _ deletes) (auditsEach _ _ _ audits)
  rw [raised]
  split
  · exact script
  · exact Script.trans _ _ _ script (Stmt.updateVault _ {}).script

theorem replayBody_effect (record : JournalRecord) (db : Db) (done : Done Bool) (after : Db)
    (ran : (replayBody record).run db = .ok (done, after)) : Effect .replay db after := by
  rcases replayBody_cases ran with ⟨_, rfl⟩ | ⟨_, applied, middle, replayed, rfl⟩
  · exact .none
  · cases replayOp_ok replayed with
    | skipped => exact .mark_only _ _
    | revoked vaultId tokenIds actor reported named found deletes audits raised =>
      exact .mark_script (by simp) (revoked_script deletes audits raised) _
    | rotated vaultId actor request named found current applied =>
      exact .mark_script (fun _ => id) (applyBatch_script _ request _ rfl _ _ _ applied) _
    | deleted vaultId named => exact .deleted _ _ fun _ _ => trivial

/-- A body that commits only scripts has a script's effect. -/
theorem Effect.of_script {α : Type} {pk : VaultPk} {targets : List Target} {body : Tx α}
    (scripts : Keeps (Script pk targets) body)
    {db : Db} (value : α) (after : Db) (ran : body.run db = .ok (value, after)) :
    Effect (.at pk targets) db after :=
  .script pk rfl (scripts _ _ _ ran)

/-- Every step leaves the database as it was, or has one of the listed effects and
fits the file. -/
theorem step_leaves {σ : Type} (world : World σ) (call : Call σ) :
    Leaves call.reach world.db (step world call).db := by
  cases call with
  | createVault disk v now => exact write_leaves _ _ _ (createVaultBody_effect (fun _ => id) v now _)
  | touch disk pk now =>
    change Leaves (.at pk _) world.db (touch disk pk now world.db).2
    unfold touch
    split
    · exact write_leaves _ _ _ (Effect.of_script (touchBody_script now))
    · exact .inl rfl
  | registerToken disk pk t ctx limits =>
    exact write_leaves _ _ _ (Effect.of_script (registerTokenBody_script t ctx limits))
  | revokeTokens disk hook pk ids reported ctx =>
    exact writeCritical_leaves _ _ _ _ _ (Effect.of_script (revokeTokensBody_script ids reported ctx))
  | putRecord disk pk kind name pre w ctx limits =>
    change Leaves (.at pk _) world.db (putRecord disk pk kind name pre w ctx limits world.db).2
    unfold putRecord
    split
    · exact .inl rfl
    · exact write_leaves _ _ _ (Effect.of_script (putRecordBody_script kind name pre w _ ctx limits))
  | deleteRecord disk pk kind name ifMatch w ctx limits =>
    change Leaves (.at pk _) world.db (deleteRecord disk pk kind name ifMatch w ctx limits world.db).2
    unfold deleteRecord
    split
    · exact .inl rfl
    · exact write_leaves _ _ _ (Effect.of_script (deleteRecordBody_script kind name ifMatch w ctx limits))
  | putChildren disk pk pre blob ctx limits =>
    exact write_leaves _ _ _ (Effect.of_script (putChildrenBody_script pre blob ctx limits))
  | record disk pk e now => exact write_leaves _ _ _ (Effect.of_script (recordBody_script e now))
  | applyRotation disk hook pk r ctx =>
    exact writeCritical_leaves _ _ _ _ _ (Effect.of_script (applyRotationBody_script r ctx))
  | deleteVault disk hook pk now =>
    exact writeCritical_leaves _ _ _ _ _ (deleteVaultBody_effect pk now _)
  | spend disk kind id expiresAt now =>
    exact write_leaves _ _ _ (spendBody_effect kind id expiresAt now _)
  | replay disk record => exact write_leaves _ _ _ (replayBody_effect record _)

/-- Every step of a run has one of the listed effects. -/
theorem step_effect {σ : Type} (world : World σ) (call : Call σ) :
    Effect call.reach world.db (step world call).db := by
  rcases step_leaves world call with same | ⟨effect, _⟩
  · rw [same]
    exact .none
  · exact effect

/-- Every database a run reaches fits SQLite's largest file. -/
theorem step_rowCount {σ : Type} (world : World σ) (call : Call σ) (fits : world.db.rowCount ≤ maxRows) :
    (step world call).db.rowCount ≤ maxRows := by
  rcases step_leaves world call with same | ⟨_, fitsAfter⟩
  · rw [same]
    exact fits
  · exact fitsAfter

/-! ## A small store to run -/

/-- A digest that can be run by hand: every byte of it is the sum of the input's. -/
@[reducible] def checksum : Digests where
  sha256 input := ⟨.fill 32 input.sum⟩
  blake3DeriveKey _ input := ⟨.fill 32 input.sum⟩

/-- A creation request whose every field is filled with one byte. -/
def NewVault.filled (b : UInt8) : NewVault where
  vaultId := ⟨.fill 16 b⟩
  ownerSignPub := ⟨.fill 32 b⟩
  ownerBoxPub := ⟨.fill 32 b⟩
  descriptor := ⟨⟨[b]⟩, ⟨.fill 64 b⟩⟩
  ownerBundle := ⟨⟨[b]⟩, ⟨.fill 64 b⟩⟩

/-- A signed write whose name and value are one byte each. -/
def RecordWrite.filled (version : Nat) (b : UInt8) : RecordWrite where
  nameCt := [b]
  valueCt := some [b]
  generation := 1
  version := version
  writtenAt := 1
  sig := ⟨.fill 64 b⟩

end GalataVault.Backend

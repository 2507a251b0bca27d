import GalataVault.Backend.Writes

/-!
# Versions under concurrent writers

Writers name the version they replace, and the store assigns the next one. Since
runs are sequences of calls, what holds at the instant of one accepted call and
what later calls preserve together hold under every interleaving. Here is what
any call leaves of a name's head and of a vault's revision, and the consequences
over runs.

A rotation renames the records of a vault, so a name's versions are followed
between two rotations. Deleting a vault ends its history, and replay restores an
older one; neither takes part here.
-/

namespace GalataVault.Backend

open Proto Relational Relational.Transaction Machine

variable [Digests]

/-! ## Calls and their answers -/

section Calls

variable {σ : Type}

/-- The record version an accepted call creates. -/
def creates (world : World σ) : Call σ → Option (VaultPk × RecordKind × NameHmac × Nat)
  | .putRecord disk pk kind name pre w ctx limits =>
    (putRecord disk pk kind name pre w ctx limits world.db).1.toOption.map fun version =>
      (pk, kind, name, version)
  | .deleteRecord disk pk kind name ifMatch w ctx limits =>
    (deleteRecord disk pk kind name ifMatch w ctx limits world.db).1.toOption.map fun version =>
      (pk, kind, name, version)
  | _ => none

/-- The version of the children record an accepted call creates. -/
def createsChildren (world : World σ) : Call σ → Option (VaultPk × Nat)
  | .putChildren disk pk pre blob ctx limits =>
    (putChildren disk pk pre blob ctx limits world.db).1.toOption.map fun version => (pk, version)
  | _ => none

/-- Whether the call is an accepted rotation of the vault. -/
def rotates (world : World σ) (pk : VaultPk) : Call σ → Bool
  | .applyRotation disk hook other r ctx =>
    other = pk && (applyRotation disk hook other r ctx world.db world.journal).1.isOk
  | _ => false

/-- Whether the call is a successful put, delete, registration, revocation or
rotation on the vault. -/
def succeeds (world : World σ) (pk : VaultPk) : Call σ → Bool
  | .putRecord disk other kind name pre w ctx limits =>
    other = pk && (putRecord disk other kind name pre w ctx limits world.db).1.isOk
  | .deleteRecord disk other kind name ifMatch w ctx limits =>
    other = pk && (deleteRecord disk other kind name ifMatch w ctx limits world.db).1.isOk
  | .registerToken disk other t ctx limits =>
    other = pk && (registerToken disk other t ctx limits world.db).1.isOk
  | .revokeTokens disk hook other ids reported ctx =>
    other = pk && (revokeTokens disk hook other ids reported ctx world.db world.journal).1.isOk
  | call => rotates world pk call

/-- Replay restores an older history; it is not a client's call. -/
def Call.isReplay : Call σ → Bool
  | .replay .. => true
  | _ => false

end Calls

/-! ## What a call leaves of the heads -/

section Steps

variable {σ : Type}

/-- To a vault that stays, a call that may not write a kind's records leaves its heads
as they were. -/
theorem step_head_off (world : World σ) (call : Call σ) {pk : VaultPk} (kind : RecordKind) (name : NameHmac)
    (present : world.db.hasVault pk = true) (stays : (step world call).db.hasVault pk = true)
    (off : call.reach.addressed pk → .records kind ∉ call.reach.targets) :
    (step world call).db.loadHead kind pk name = world.db.loadHead kind pk name := by
  rcases (step_effect world call).own present stays with same | ⟨mine, script⟩
  · rw [Db.loadHead, Db.loadHead, (Db.find?_of_rows same).2.2.1]
  · rw [Db.loadHead, Db.loadHead, script.tables_same kind (off mine)]

/-- A call that creates one version moves that name's head to it, and no other. -/
theorem Creates.head_of {db after : Db} {other : RecordKind} {pk : VaultPk} {v : Insert}
    (made : Creates db after other pk v) (kind : RecordKind) (mine : VaultPk) (name : NameHmac) :
    (pk, other, v.name) = (mine, kind, name) ∧
        after.loadHead kind mine name = some (v.version, v.valueCt.isNone) ∨
      (pk, other, v.name) ≠ (mine, kind, name) ∧ after.loadHead kind mine name = db.loadHead kind mine name := by
  by_cases sameKind : kind = other
  · subst sameKind
    by_cases same : (mine, name) = (pk, v.name)
    · obtain ⟨rfl, rfl⟩ := Prod.mk.inj same
      exact .inl ⟨rfl, made.head⟩
    · refine .inr ⟨?_, made.heads mine name same⟩
      rintro hit
      simp only [Prod.mk.injEq, true_and] at hit
      exact same (by rw [hit.1, hit.2])
  · refine .inr ⟨fun hit => sameKind ?_, ?_⟩
    · exact (Prod.mk.inj (Prod.mk.inj hit).2).1.symm
    · rw [Db.loadHead, Db.loadHead, made.elsewhere kind sameKind]

/-- What a call did to one name's head: it created the next version, or left the head
where it was. -/
def HeadStep (world : World σ) (call : Call σ) (kind : RecordKind) (pk : VaultPk) (name : NameHmac) : Prop :=
  (creates world call = some (pk, kind, name, world.db.headVersion kind pk name + 1) ∧
      (step world call).db.headVersion kind pk name = world.db.headVersion kind pk name + 1) ∨
    ((∀ version, creates world call ≠ some (pk, kind, name, version)) ∧
      (step world call).db.headVersion kind pk name = world.db.headVersion kind pk name)

theorem HeadStep.of_same {world : World σ} {call : Call σ} {kind : RecordKind} {pk : VaultPk} {name : NameHmac}
    (idle : ∀ version, creates world call ≠ some (pk, kind, name, version))
    (same : (step world call).db.loadHead kind pk name = world.db.loadHead kind pk name) :
    HeadStep world call kind pk name :=
  .inr ⟨idle, by rw [Db.headVersion, same, Db.headVersion]⟩

theorem HeadStep.of_creates {world : World σ} {call : Call σ} {other : RecordKind} {owner : VaultPk} {v : Insert}
    (made : Creates world.db (step world call).db other owner v)
    (created : creates world call = some (owner, other, v.name, v.version))
    (next : v.version = world.db.headVersion other owner v.name + 1)
    (kind : RecordKind) (pk : VaultPk) (name : NameHmac) : HeadStep world call kind pk name := by
  rcases made.head_of kind pk name with ⟨same, head⟩ | ⟨differs, same⟩
  · simp only [Prod.mk.injEq] at same
    obtain ⟨rfl, rfl, rfl⟩ := same
    refine .inl ⟨by rw [created, next], ?_⟩
    rw [← next, Db.headVersion, head]
    rfl
  · refine .of_same (fun version hit => differs ?_) same
    rw [created, Option.some.injEq] at hit
    simp only [Prod.mk.injEq] at hit ⊢
    exact ⟨hit.1, hit.2.1, hit.2.2.1⟩

/-- Between two rotations of a vault that stays, every call takes a head step. -/
theorem step_head (world : World σ) (call : Call σ) {pk : VaultPk} (kind : RecordKind) (name : NameHmac)
    (present : world.db.hasVault pk = true) (stays : (step world call).db.hasVault pk = true)
    (client : call.isReplay = false) (unrotated : rotates world pk call = false) :
    HeadStep world call kind pk name := by
  have off := step_head_off world call kind name present stays
  cases call with
  | putRecord disk other k n pre w ctx limits =>
    cases answer : (putRecord disk other k n pre w ctx limits world.db).1 with
    | error failure =>
      refine .of_same (fun version => by simp [creates, answer, Except.toOption]) ?_
      change (putRecord disk other k n pre w ctx limits world.db).2.loadHead kind pk name = _
      rw [Db.loadHead, Db.loadHead, putRecord_refused answer kind]
    | ok version =>
      obtain ⟨names, made⟩ := putRecord_accepted answer
      refine .of_creates made ?_ names.next kind pk name
      simp [creates, answer, Except.toOption, RecordWrite.toInsert]
  | deleteRecord disk other k n ifMatch w ctx limits =>
    cases answer : (deleteRecord disk other k n ifMatch w ctx limits world.db).1 with
    | error failure =>
      refine .of_same (fun version => by simp [creates, answer, Except.toOption]) ?_
      change (deleteRecord disk other k n ifMatch w ctx limits world.db).2.loadHead kind pk name = _
      rw [Db.loadHead, Db.loadHead, deleteRecord_refused answer kind]
    | ok version =>
      obtain ⟨names, made⟩ := deleteRecord_accepted answer
      refine .of_creates made ?_ names.next kind pk name
      simp [creates, answer, Except.toOption, RecordWrite.toInsert]
  | applyRotation disk hook other r ctx =>
    refine .of_same (fun _ => (Option.some_ne_none _).symm) ?_
    by_cases mine : other = pk
    · subst mine
      simp only [rotates, decide_true, Bool.true_and] at unrotated
      cases answer : (applyRotation disk hook other r ctx world.db world.journal).1 with
      | ok generation => simp [answer, Except.isOk, Except.toBool] at unrotated
      | error failure => exact congrArg (Db.loadHead · kind other name) (writeCritical_refused answer)
    · exact off fun addressed => absurd (Eq.symm addressed) mine
  | replay => cases client
  | createVault | touch | registerToken | revokeTokens | putChildren | record | deleteVault | spend =>
    refine .of_same (fun _ => (Option.some_ne_none _).symm) (off fun _ => ?_)
    simp [Call.reach, Reach.at]

/-- What a call did to the children record: it created the next version, or left it. -/
def ChildrenStep (world : World σ) (call : Call σ) (pk : VaultPk) : Prop :=
  (createsChildren world call = some (pk, world.db.childrenVersion pk + 1) ∧
      (step world call).db.childrenVersion pk = world.db.childrenVersion pk + 1) ∨
    ((∀ version, createsChildren world call ≠ some (pk, version)) ∧
      (step world call).db.childrenVersion pk = world.db.childrenVersion pk)

/-- A rotation leaves the children record alone, so every client's call takes a step. -/
theorem step_children (world : World σ) (call : Call σ) {pk : VaultPk} (present : world.db.hasVault pk = true)
    (stays : (step world call).db.hasVault pk = true) : ChildrenStep world call pk := by
  have left : (step world call).db.children.find? pk = world.db.children.find? pk →
      (step world call).db.childrenVersion pk = world.db.childrenVersion pk :=
    fun same => by rw [Db.childrenVersion, Backend.children, same, Db.childrenVersion, Backend.children]
  have off : (call.reach.addressed pk → .children ∉ call.reach.targets) →
      (step world call).db.children.find? pk = world.db.children.find? pk := by
    intro off
    rcases (step_effect world call).own present stays with same | ⟨mine, script⟩
    · exact (Db.find?_of_rows same).2.1
    · rw [script.children_same (off mine)]
  cases call with
  | putChildren disk other pre blob ctx limits =>
    cases answer : (putChildren disk other pre blob ctx limits world.db).1 with
    | error failure =>
      refine .inr ⟨fun version => by simp [createsChildren, answer, Except.toOption], left ?_⟩
      exact congrArg (Table.find? · pk) (putChildren_refused answer)
    | ok version =>
      obtain ⟨names, _, written⟩ := putChildren_accepted answer
      by_cases mine : other = pk
      · subst mine
        refine .inl ⟨by simp [createsChildren, answer, Except.toOption, names.next], ?_⟩
        change (putChildren disk other pre blob ctx limits world.db).2.childrenVersion other = _
        rw [← names.next, Db.childrenVersion, written]
        rfl
      · refine .inr ⟨fun version hit => mine ?_, left (off fun addressed => absurd (Eq.symm addressed) mine)⟩
        simp only [createsChildren, answer, Except.toOption, Option.map_some, Option.some.injEq,
          Prod.mk.injEq] at hit
        exact hit.1
  | createVault | touch | registerToken | revokeTokens | putRecord | deleteRecord | record | applyRotation
  | deleteVault | spend | replay =>
    refine .inr ⟨fun _ => (Option.some_ne_none _).symm, left (off fun _ => ?_)⟩
    simp [Call.reach, Reach.at, Reach.replay]

/-! ## What a success leaves of the revision -/

omit [Digests] in
/-- The vault's revision has gone up. -/
def Raised (pk : VaultPk) (db after : Db) : Prop :=
  ∀ v, db.vaults.find? pk = some v → ∃ v', after.vaults.find? pk = some v' ∧ v.revision < v'.revision

omit [Digests] in
theorem Raised.before {pk : VaultPk} (a b c : Db) (later : VaultsLater a b) (raised : Raised pk b c) :
    Raised pk a c := by
  intro v found
  obtain ⟨v', found', earlier⟩ := later.find? found
  obtain ⟨v'', found'', above⟩ := raised v' found'
  exact ⟨v'', found'', Nat.lt_of_le_of_lt earlier.revision above⟩

omit [Digests] in
theorem Raised.after {pk : VaultPk} (a b c : Db) (raised : Raised pk a b) (later : VaultsLater b c) :
    Raised pk a c := by
  intro v found
  obtain ⟨v', found', above⟩ := raised v found
  obtain ⟨v'', found'', earlier⟩ := later.find? found'
  exact ⟨v'', found'', Nat.lt_of_lt_of_le above earlier.revision⟩

omit [Digests] in
/-- An update that raises the revision of the row it finds. -/
theorem Raised.of_updateVault {pk : VaultPk} {f : VaultCols → VaultCols} (keeps : ∀ v, (f v).pk = v.pk)
    (raises : ∀ v, v.revision < (f v).revision) (db : Db) : Raised pk db (db.updateVault pk f keeps) :=
  fun v found => ⟨f v, Db.updateVault_found found f keeps, raises v⟩

theorem Keeps.vaultsLater {α : Type} {pk : VaultPk} {targets : List Target} {body : Tx α}
    (scripts : Keeps (Script pk targets) body) : Keeps VaultsLater body :=
  scripts.mono fun _ _ => Script.vaultsLater

omit [Digests] in
theorem bumpRevision_raises (pk : VaultPk) : Keeps (Raised pk) (bumpRevision pk) :=
  .modify _ (Raised.of_updateVault (by intro v; rfl) fun v => Nat.lt_succ_self v.revision)

theorem registerTokenBody_raises {pk : VaultPk} {t : NewToken} {ctx : Ctx} {limits : Limits} {db after : Db}
    {row : TokenRow} (ran : (registerTokenBody pk t ctx limits).run db = .ok (.ok row, after)) :
    Raised pk db after := by
  rcases registerTokenBody_cases ran with refused | ⟨_, tokens, _, _, _, _, _, appended⟩
  · cases refused
  · have audits : Keeps (Script pk [.audit])
        (appendAudit pk (event ctx.actor .tokenMint none (some t.tokenId) .ok) ctx.now) := appendAudit_script _ _
    have raised : Raised pk { db with tokens := tokens }
        ({ db with tokens := tokens }.updateVault pk fun v => { v with revision := v.revision + 1 }) :=
      Raised.of_updateVault (by intro v; rfl) (fun v => Nat.lt_succ_self v.revision) _
    exact Raised.before db _ _ (.of_same rfl) (Raised.after _ _ _ raised (Keeps.vaultsLater audits _ _ _ appended))

theorem revokeTokensBody_raises (pk : VaultPk) (ids : List TokenId) (reported : Bool) (ctx : Ctx) :
    Keeps (Raised pk) (revokeTokensBody pk ids reported ctx) := by
  rintro db ⟨removed, record⟩ after ran
  obtain ⟨vault, deleted, audited, _, deletedRun, _, auditedRun, _, rfl⟩ := revokeTokensBody_ok ran
  have deletes : Keeps (Script pk [.tokens]) (deleteTokens pk ids) := deleteTokens_script ids
  have audits : Keeps (Script pk [.audit]) (removed.forM fun id =>
      appendAudit pk (event ctx.actor (revokeAction reported) none (some id) .ok) ctx.now) :=
    .forM Script.refl Script.trans _ fun id _ => appendAudit_script _ _
  have raised : Raised pk deleted (deleted.updateVault pk fun v => { v with revision := v.revision + 1 }) :=
    Raised.of_updateVault _ (fun v => Nat.lt_succ_self v.revision) deleted
  have done : Raised pk db audited := Raised.before _ _ _ (Keeps.vaultsLater deletes _ _ _ deletedRun)
    (Raised.after _ _ _ raised (Keeps.vaultsLater audits _ _ _ auditedRun))
  exact done

theorem applyBatch_raises (vault : VaultRow) (r : RotationRequest) (ctx : Ctx) :
    Keeps (Raised vault.pk) (applyBatch vault r ctx) := by
  have later {α : Type} {body : Tx α} (scripts : Keeps (Script vault.pk rotationTargets) body) :
      Keeps VaultsLater body := Keeps.vaultsLater scripts
  refine .seq Raised.before (later (.get Script.refl)) fun db => ?_
  refine .seq Raised.before (later (liftCheck_script _)) fun secretRows => ?_
  refine .seq Raised.before (later (liftCheck_script _)) fun configRows => ?_
  refine .seq Raised.before (later (replaceRecords_script _ _ _)) fun secretBytes => ?_
  refine .seq Raised.before (later (replaceRecords_script _ _ _)) fun configBytes => ?_
  refine .seq Raised.before (later (insertDescriptor_script _ _)) fun _ => ?_
  refine .seq Raised.before (later (deleteTokens_script _)) fun revoked => ?_
  refine .seq Raised.before (later (.forM Script.refl Script.trans _ fun t _ =>
    .modify _ fun _ => (Stmt.resealToken _ t).script)) fun _ => ?_
  refine .seq Raised.after (.modify _ (Raised.of_updateVault _ fun v => Nat.lt_succ_self v.revision)) fun _ => ?_
  refine later (.bind Script.trans (appendAudit_script _ _) fun _ => ?_)
  exact .bind Script.trans (.forM Script.refl Script.trans _ fun id _ => appendAudit_script _ _) fun _ =>
    .pure Script.refl _

theorem Stored.raised {db after : Db} {kind : RecordKind} {pk : VaultPk} {v : Insert} {tombstone : Bool}
    {pruned : List (Nat × Nat)} {total : Nat} (stored : Stored db after kind pk v tombstone pruned total) :
    Raised pk db after := by
  intro v found
  obtain ⟨row, row', foundRow, found', raised, _⟩ := stored.vault
  obtain rfl := Option.some.inj (found.symm.trans foundRow)
  exact ⟨row', found', by omega⟩

omit [Digests] in
theorem isOk_iff {ε α : Type} {answer : Except ε α} : answer.isOk = true ↔ ∃ value, answer = .ok value := by
  cases answer <;> simp [Except.isOk, Except.toBool]

/-- Every success raises the vault's revision. -/
theorem step_raises (world : World σ) (call : Call σ) {pk : VaultPk} (success : succeeds world pk call = true) :
    Raised pk world.db (step world call).db := by
  cases call with
  | putRecord disk other kind name pre w ctx limits =>
    simp only [succeeds, Bool.and_eq_true, decide_eq_true_eq, isOk_iff] at success
    obtain ⟨rfl, version, accepted⟩ := success
    change Raised other world.db (putRecord disk other kind name pre w ctx limits world.db).2
    unfold putRecord at accepted ⊢
    split at accepted
    · cases accepted
    · next valueCt value =>
      rcases putRecordBody_cases value (write_accepted accepted) with refused |
        ⟨_, _, _, _, _, _, _, _, _, _, stored⟩
      · cases refused
      · exact stored.raised
  | deleteRecord disk other kind name ifMatch w ctx limits =>
    simp only [succeeds, Bool.and_eq_true, decide_eq_true_eq, isOk_iff] at success
    obtain ⟨rfl, version, accepted⟩ := success
    change Raised other world.db (deleteRecord disk other kind name ifMatch w ctx limits world.db).2
    unfold deleteRecord at accepted ⊢
    split at accepted
    · cases accepted
    · next value =>
      rcases deleteRecordBody_cases value (write_accepted accepted) with refused |
        ⟨_, _, _, _, _, _, stored⟩
      · cases refused
      · exact stored.raised
  | registerToken disk other t ctx limits =>
    simp only [succeeds, Bool.and_eq_true, decide_eq_true_eq, isOk_iff] at success
    obtain ⟨rfl, row, accepted⟩ := success
    exact registerTokenBody_raises (write_accepted accepted)
  | revokeTokens disk hook other ids reported ctx =>
    simp only [succeeds, Bool.and_eq_true, decide_eq_true_eq, isOk_iff] at success
    obtain ⟨rfl, removed, accepted⟩ := success
    obtain ⟨record, ran⟩ := writeCritical_accepted accepted
    exact revokeTokensBody_raises other ids reported ctx _ _ _ ran
  | applyRotation disk hook other r ctx =>
    simp only [succeeds, rotates, Bool.and_eq_true, decide_eq_true_eq, isOk_iff] at success
    obtain ⟨rfl, generation, accepted⟩ := success
    obtain ⟨record, ran⟩ := writeCritical_accepted accepted
    obtain ⟨vault, middle, loaded, _, applied, _, outcome⟩ := applyRotationBody_ok ran
    obtain rfl := Db.loadVault_pk loaded
    have raised := applyBatch_raises vault r ctx _ _ _ applied
    intro v found
    obtain ⟨v', found', above⟩ := raised v found
    refine ⟨v', ?_, above⟩
    change (applyRotation disk hook vault.pk r ctx world.db world.journal).2.1.vaults.find? vault.pk = some v'
    rw [applyRotation, outcome]
    exact found'
  | createVault | touch | putChildren | record | deleteVault | spend | replay => cases success

/-! ## Runs -/

/-- The vault is there after the call. -/
def Stays (pk : VaultPk) (world : World σ) (call : Call σ) : Prop := (step world call).db.hasVault pk = true

/-- A client's call on a vault that stays, and not its rotation. -/
structure Undisturbed (pk : VaultPk) (world : World σ) (call : Call σ) : Prop where
  client : call.isReplay = false
  unrotated : rotates world pk call = false
  stays : Stays pk world call

/-- Between two rotations a head's version never falls. -/
theorem run_headVersion {world : World σ} {calls : List (Call σ)} {pk : VaultPk} (kind : RecordKind)
    (name : NameHmac) (present : world.db.hasVault pk = true)
    (between : Throughout step (Undisturbed pk) world calls) :
    world.db.headVersion kind pk name ≤ (run world calls).db.headVersion kind pk name := by
  have both := between.strengthen (I := fun world : World σ => world.db.hasVault pk = true) present
    fun _ _ _ undisturbed => undisturbed.stays
  refine both.relates (R := fun (world after : World σ) => world.db.headVersion kind pk name ≤ after.db.headVersion kind pk name)
    (fun _ => Nat.le_refl _) (fun _ _ _ => Nat.le_trans) ?_
  rintro world call ⟨present, undisturbed⟩
  rcases step_head world call kind name present undisturbed.stays undisturbed.client undisturbed.unrotated with
    ⟨_, next⟩ | ⟨_, same⟩
  · omega
  · omega

/-- The children record's version never falls while the vault stays. -/
theorem run_childrenVersion {world : World σ} {calls : List (Call σ)} {pk : VaultPk}
    (present : world.db.hasVault pk = true) (stays : Throughout step (Stays pk) world calls) :
    world.db.childrenVersion pk ≤ (run world calls).db.childrenVersion pk := by
  have both := stays.strengthen (I := fun world : World σ => world.db.hasVault pk = true) present fun _ _ _ stays => stays
  refine both.relates (R := fun (world after : World σ) => world.db.childrenVersion pk ≤ after.db.childrenVersion pk)
    (fun _ => Nat.le_refl _) (fun _ _ _ => Nat.le_trans) ?_
  rintro world call ⟨present, stays⟩
  rcases step_children world call present stays with ⟨_, next⟩ | ⟨_, same⟩
  · omega
  · omega

/-- While a vault stays its revision never falls, and it stands still only through
calls that did not succeed on it. -/
theorem run_revision {world : World σ} {calls : List (Call σ)} {pk : VaultPk} {v : VaultCols}
    (found : world.db.vaults.find? pk = some v) (stays : Throughout step (Stays pk) world calls) :
    ∃ v', (run world calls).db.vaults.find? pk = some v' ∧ v.revision ≤ v'.revision ∧
      (v'.revision = v.revision → Throughout step (fun world call => succeeds world pk call = false) world calls) := by
  induction calls generalizing world v with
  | nil => exact ⟨v, found, Nat.le_refl _, fun _ => trivial⟩
  | cons call calls inductionHypothesis =>
    obtain ⟨middle, foundMiddle, later⟩ := (step_effect world call).later found stays.1
    obtain ⟨v', found', above, still⟩ := inductionHypothesis foundMiddle stays.2
    refine ⟨v', found', Nat.le_trans later.revision above, fun same => ?_⟩
    have unmoved : middle.revision = v.revision := by
      have := later.revision
      omega
    refine ⟨?_, still (by omega)⟩
    by_contra success
    obtain ⟨raised, foundRaised, higher⟩ := step_raises world call (Bool.of_not_eq_false success) v found
    obtain rfl := Option.some.inj (foundRaised.symm.trans foundMiddle)
    omega

/-- A rotation built from the revision read in `world` is accepted only if nothing
succeeded on the vault in between. -/
theorem rotation_guard {world : World σ} {pk : VaultPk} {vault : VaultRow} {between : List (Call σ)}
    {disk : Except String Unit} {hook : CommitHook σ} {r : RotationRequest} {ctx : Ctx} {generation : Nat}
    (read : world.db.loadVault pk = some vault) (named : r.fromRevision = vault.revision)
    (stays : Throughout step (Stays pk) world between)
    (accepted : (applyRotation disk hook pk r ctx (run world between).db (run world between).journal).1 =
      .ok generation) :
    Throughout step (fun world call => succeeds world pk call = false) world between := by
  obtain ⟨v, found, _, _, revision, _⟩ := Db.loadVault_found read
  obtain ⟨v', found', _, still⟩ := run_revision found stays
  obtain ⟨record, ran⟩ := writeCritical_accepted accepted
  obtain ⟨vault', _, loaded, passed, _⟩ := applyRotationBody_ok ran
  obtain ⟨v'', found'', _, _, revision', _⟩ := Db.loadVault_found loaded
  obtain rfl := Option.some.inj (found''.symm.trans found')
  have current := (checkRotation_current passed).2
  exact still (by omega)

/-- Two accepted writes between two rotations create different versions of a name. -/
theorem versions_fresh {world : World σ} {pk : VaultPk} {kind : RecordKind} {name : NameHmac} {version : Nat}
    {first second : Call σ} {between : List (Call σ)} (present : world.db.hasVault pk = true)
    (undisturbed : Throughout step (Undisturbed pk) world (first :: (between ++ [second])))
    (created : creates world first = some (pk, kind, name, version)) :
    creates (run world (first :: between)) second ≠ some (pk, kind, name, version) := by
  intro again
  obtain ⟨here, rest⟩ := undisturbed
  obtain ⟨middle, last, _⟩ := throughout_append.mp rest
  have grown := run_headVersion kind name here.stays middle
  have presentLast : (run (step world first) between).db.hasVault pk = true :=
    middle.invariant (I := fun world : World σ => world.db.hasVault pk = true) here.stays
      fun _ _ _ undisturbed => undisturbed.stays
  rcases step_head world first kind name present here.stays here.client here.unrotated with
    ⟨next, moved⟩ | ⟨idle, _⟩
  · rcases step_head _ second kind name presentLast last.stays last.client last.unrotated with
      ⟨next', _⟩ | ⟨idle', _⟩
    · obtain rfl : world.db.headVersion kind pk name + 1 = version := by
        simpa using next.symm.trans created
      have same : (run (step world first) between).db.headVersion kind pk name + 1 =
          world.db.headVersion kind pk name + 1 := by
        simpa using next'.symm.trans again
      omega
    · exact idle' version again
  · exact idle version created

/-- The same of the children record, which a rotation leaves alone. -/
theorem children_fresh {world : World σ} {pk : VaultPk} {version : Nat} {first second : Call σ}
    {between : List (Call σ)} (present : world.db.hasVault pk = true)
    (stays : Throughout step (Stays pk) world (first :: (between ++ [second])))
    (created : createsChildren world first = some (pk, version)) :
    createsChildren (run world (first :: between)) second ≠ some (pk, version) := by
  intro again
  obtain ⟨here, rest⟩ := stays
  obtain ⟨middle, last, _⟩ := throughout_append.mp rest
  have grown := run_childrenVersion here middle
  have presentLast : (run (step world first) between).db.hasVault pk = true :=
    middle.invariant (I := fun world : World σ => world.db.hasVault pk = true) here fun _ _ _ stays => stays
  rcases step_children world first present here with ⟨next, moved⟩ | ⟨idle, _⟩
  · rcases step_children _ second presentLast last with ⟨next', _⟩ | ⟨idle', _⟩
    · obtain rfl : world.db.childrenVersion pk + 1 = version := by
        simpa using next.symm.trans created
      have same : (run (step world first) between).db.childrenVersion pk + 1 =
          world.db.childrenVersion pk + 1 := by
        simpa using next'.symm.trans again
      omega
    · exact idle' version again
  · exact idle version created

/-- No update is lost and no version reused. In any world, an accepted write creates
exactly the version after the one it named, which was the head in the state its
precondition asks for; from there on no client's call creates that version again
before a rotation; and a rotation is accepted only if nothing succeeded on the vault
since the revision it names was read. -/
theorem no_lost_update (world : World σ) (pk : VaultPk) :
    (∀ disk kind name pre w ctx limits version,
      (putRecord disk pk kind name pre w ctx limits world.db).1 = .ok version →
        Names pre (world.db.loadHead kind pk name) version ∧
          Creates world.db (putRecord disk pk kind name pre w ctx limits world.db).2 kind pk
            (w.toInsert name version ctx.actor)) ∧
    (∀ disk kind name ifMatch w ctx limits version,
      (deleteRecord disk pk kind name ifMatch w ctx limits world.db).1 = .ok version →
        Names (.ifMatch ifMatch) (world.db.loadHead kind pk name) version ∧
          Creates world.db (deleteRecord disk pk kind name ifMatch w ctx limits world.db).2 kind pk
            (w.toInsert name version ctx.actor)) ∧
    (∀ disk pre blob ctx limits version,
      (putChildren disk pk pre blob ctx limits world.db).1 = .ok version →
        NamesChildren pre ((children pk world.db).map (·.version)) version ∧ blob.version = version ∧
          children pk (putChildren disk pk pre blob ctx limits world.db).2 =
            some { blob with version := version }) ∧
    (∀ kind name version first between second, world.db.hasVault pk = true →
      Throughout step (Undisturbed pk) world (first :: (between ++ [second])) →
        creates world first = some (pk, kind, name, version) →
          creates (run world (first :: between)) second ≠ some (pk, kind, name, version)) ∧
    (∀ version first between second, world.db.hasVault pk = true →
      Throughout step (Stays pk) world (first :: (between ++ [second])) →
        createsChildren world first = some (pk, version) →
          createsChildren (run world (first :: between)) second ≠ some (pk, version)) ∧
    (∀ vault between disk hook r ctx generation, world.db.loadVault pk = some vault →
      r.fromRevision = vault.revision → Throughout step (Stays pk) world between →
        (applyRotation disk hook pk r ctx (run world between).db (run world between).journal).1 =
          .ok generation →
          Throughout step (fun world call => succeeds world pk call = false) world between) :=
  ⟨fun _ _ _ _ _ _ _ _ => putRecord_accepted, fun _ _ _ _ _ _ _ _ => deleteRecord_accepted,
    fun _ _ _ _ _ _ => putChildren_accepted, fun _ _ _ _ _ _ => versions_fresh,
    fun _ _ _ _ => children_fresh, fun _ _ _ _ _ _ _ => rotation_guard⟩

end Steps

/-! ## A small history -/

/-- A put of a one-byte secret under a one-byte name. -/
def putFilled (pre : Precondition) (version : Nat) : Call Unit :=
  .putRecord (.ok ()) 1 .secret ⟨.fill 32 1⟩ pre (.filled version 5) ⟨.owner, 2⟩ .default

/-- A batch that moves one secret of two versions to a new name. -/
def filledRotation (revision : Nat) : RotationRequest where
  fromGeneration := 1
  fromRevision := revision
  descriptor := ⟨⟨[9]⟩, ⟨.fill 64 9⟩⟩
  ownerBundle := ⟨⟨[9]⟩, ⟨.fill 64 9⟩⟩
  secrets := [1, 2].map fun version =>
    { oldNameHmac := ⟨.fill 32 1⟩, version := version, nameHmac := ⟨.fill 32 2⟩, nameCt := ⟨[9]⟩,
      valueCt := some ⟨[9]⟩, writtenAt := 1, sig := ⟨.fill 64 9⟩ }
  configs := []
  tokens := []
  revoke := []

omit [Digests] in
/-- A vault with two versions of a secret, a put that loses the race for version 2, and
the rotation built before that put was refused. -/
theorem no_lost_update_of_small_history :
    letI := checksum
    let created : World Unit := run ⟨Db.empty, ()⟩ [.createVault (.ok ()) (.filled 7) 1]
    let twice := run created [putFilled .ifNoneMatch 1, putFilled (.ifMatch 1) 2]
    creates (run created [putFilled .ifNoneMatch 1]) (putFilled (.ifMatch 1) 2) ≠
        some (1, .secret, ⟨.fill 32 1⟩, 1) ∧
      Throughout step (fun world call => succeeds world 1 call = false) twice [putFilled (.ifMatch 1) 2] := by
  let _ := checksum
  intro created twice
  have first := (no_lost_update created 1).2.2.2.1 .secret ⟨.fill 32 1⟩ 1 (putFilled .ifNoneMatch 1) []
    (putFilled (.ifMatch 1) 2) (by decide +kernel)
  have rotation := (no_lost_update twice 1).2.2.2.2.2
  have loaded : (twice.db.loadVault 1).isSome = true := by decide +kernel
  obtain ⟨vault, read⟩ := Option.isSome_iff_exists.mp loaded
  have revision : (twice.db.loadVault 1).map (·.revision) = some 3 := by decide +kernel
  rw [read, Option.map_some, Option.some.injEq] at revision
  have undisturbed : ∀ world call, (call : Call Unit).isReplay = false ∧ rotates world 1 call = false ∧
      (step world call).db.hasVault 1 = true → Undisturbed 1 world call :=
    fun _ _ ⟨client, unrotated, stays⟩ => ⟨client, unrotated, stays⟩
  refine ⟨first ⟨undisturbed _ _ (by decide +kernel), undisturbed _ _ (by decide +kernel), trivial⟩
    (by decide +kernel), ?_⟩
  exact rotation vault [putFilled (.ifMatch 1) 2] (.ok ()) (fun _ _ => (.ok (), ())) (filledRotation 3)
    ⟨.owner, 3⟩ 2 read revision.symm ⟨by unfold Stays; decide +kernel, trivial⟩ (by decide +kernel)

end GalataVault.Backend

import GalataVault.Backend.Frames

/-!
# Spent identifiers

Every spending first forgets the identifiers that expired before its own reading of
the clock, and then remembers its own, or refuses if it is remembered. No other call
touches the table. So an identifier that was spent is refused until some spending
reads a clock past its expiry.
-/

namespace GalataVault.Backend

open Proto Relational Relational.Transaction

section Others

variable [Digests] {σ : Type}

theorem Stmt.spent_same {pk : VaultPk} {target : Target} {db after : Db} (stmt : Stmt pk db target after) :
    after.spent = db.spent := by
  cases stmt with
  | insertVersion kind | setHead kind | deleteVersion kind | clearRecords kind => cases kind <;> rfl
  | _ => rfl

theorem Script.spent_same {pk : VaultPk} {targets : List Target} {db after : Db} (script : Script pk targets db after) :
    after.spent = db.spent :=
  script.same Db.spent fun _ _ _ _ stmt => stmt.spent_same

/-- Both databases remember the same identifiers. -/
def SameSpent (db after : Db) : Prop := after.spent = db.spent

omit [Digests] in
theorem SameSpent.refl (db : Db) : SameSpent db db := rfl

theorem createVaultBody_sameSpent (v : NewVault) (now : Int) : Keeps SameSpent (createVaultBody v now) := by
  intro db done after ran
  rcases createVaultBody_cases ran with ⟨_, rfl⟩ | ⟨_, vaults, descriptors, e, _, _, _, _, _, audited⟩
  · rfl
  · have scripts : Keeps (Script db.nextPk [.audit]) (appendAudit db.nextPk e now) := appendAudit_script e now
    exact (scripts _ _ _ audited).spent_same

theorem replayBody_sameSpent (record : JournalRecord) : Keeps SameSpent (replayBody record) := by
  intro db done after ran
  rcases replayBody_cases ran with ⟨_, rfl⟩ | ⟨_, applied, middle, replayed, rfl⟩
  · rfl
  · cases replayOp_ok replayed with
    | skipped => rfl
    | revoked vaultId tokenIds actor reported named found deletes audits raised =>
      exact (revoked_script deletes audits raised).spent_same
    | rotated vaultId actor request named found current applied =>
      exact (applyBatch_script _ request _ rfl _ _ _ applied).spent_same
    | deleted vaultId named => rfl

/-- Only a spending changes what is remembered as spent. -/
theorem step_spent_same (world : World σ) (call : Call σ)
    (other : ∀ disk kind id expiresAt now, call ≠ .spend disk kind id expiresAt now) :
    (step world call).db.spent = world.db.spent := by
  cases scripted : call.script with
  | some reach => exact (step_script world scripted).spent_same
  | none =>
    cases call with
    | touch | registerToken | revokeTokens | putRecord | deleteRecord | putChildren | record | applyRotation =>
      cases scripted
    | createVault disk v now => exact write_keeps SameSpent.refl (createVaultBody_sameSpent v now) disk world.db
    | deleteVault disk hook pk now =>
      refine writeCritical_keeps SameSpent.refl (fun db result after ran => ?_) disk hook world.db world.journal
      obtain ⟨_, _, _, rfl⟩ := deleteVaultBody_ok ran
      rfl
    | spend disk kind id expiresAt now => exact absurd rfl (other disk kind id expiresAt now)
    | replay disk record => exact write_keeps SameSpent.refl (replayBody_sameSpent record) disk world.db

end Others

/-! ## Spending -/

/-- The table a spending starts from: what expired before its reading of the clock is
forgotten. -/
def Db.unexpired (db : Db) (now : Int) : Table SpentCols.key :=
  db.spent.deleteWhere fun s => decide (s.expiresAt < now)

theorem spendBody_cases {kind : SpentKind} {id : List UInt8} {expiresAt now : Int} {db after : Db} {done : Done Unit}
    (ran : (spendBody kind id expiresAt now).run db = .ok (done, after)) :
    (done = .refused .spent ∧ after.spent = db.unexpired now) ∨
      (done = .ok () ∧ (db.unexpired now).insert ⟨kind, id, expiresAt⟩ = some after.spent) := by
  simp only [spendBody, bind_ok, modify_ok, get_ok, Prod.mk.injEq] at ran
  obtain ⟨_, _, ⟨_, rfl⟩, _, _, ⟨rfl, rfl⟩, ran⟩ := ran
  split at ran
  · simp only [pure_ok, Prod.mk.injEq] at ran
    obtain ⟨rfl, rfl⟩ := ran
    exact .inl ⟨rfl, rfl⟩
  · next spent inserted =>
    simp only [bind_ok, set_ok, pure_ok, Prod.mk.injEq] at ran
    obtain ⟨_, _, ⟨_, rfl⟩, rfl, rfl⟩ := ran
    exact .inr ⟨rfl, inserted⟩

/-- What is remembered survives every spending whose clock is not past its expiry. -/
theorem spend_keeps {disk : Except String Unit} {kind : SpentKind} {id : List UInt8} {expiresAt now : Int} {db : Db}
    {key : SpentKind × List UInt8} {row : SpentCols} (found : db.spent.find? key = some row)
    (unexpired : now ≤ row.expiresAt) : (spend disk kind id expiresAt now db).2.spent.find? key = some row := by
  have kept : (db.unexpired now).find? key = some row := by
    rw [Db.unexpired, Table.find?_deleteWhere, found, Option.filter_some, if_pos]
    simp only [Bool.not_eq_eq_eq_not, Bool.not_true, decide_eq_false_iff_not]
    omega
  unfold spend
  rcases write_cases disk (spendBody kind id expiresAt now) db with ⟨_, outcome⟩ | ⟨done, after, ran, _, outcome⟩
  · rw [outcome]
    exact found
  · rw [outcome]
    rcases spendBody_cases ran with ⟨_, same⟩ | ⟨_, inserted⟩
    · rw [same]
      exact kept
    · rw [Table.find?_insert inserted]
      split
      · next same =>
        obtain ⟨member, keyed⟩ := Table.find?_eq_some.mp kept
        exact absurd (keyed.trans same.symm) ((Table.insert_eq_some.mp inserted).1 row member)
      · exact kept

/-- An accepted spending is remembered with its expiry, and whatever was remembered
under its identifier had expired before its clock. -/
theorem spend_accepted {disk : Except String Unit} {kind : SpentKind} {id : List UInt8} {expiresAt now : Int} {db : Db}
    {value : Unit} (accepted : (spend disk kind id expiresAt now db).1 = .ok value) :
    (spend disk kind id expiresAt now db).2.spent.find? (kind, id) = some ⟨kind, id, expiresAt⟩ ∧
      ∀ row, db.spent.find? (kind, id) = some row → row.expiresAt < now := by
  have ran := write_accepted accepted
  rcases spendBody_cases ran with ⟨refused, _⟩ | ⟨_, inserted⟩
  · cases refused
  · constructor
    · change (write disk (spendBody kind id expiresAt now) db).2.spent.find? _ = _
      exact (Table.find?_insert inserted (kind, id)).trans (if_pos rfl)
    · intro row found
      by_contra current
      have kept : (db.unexpired now).find? (kind, id) = some row := by
        rw [Db.unexpired, Table.find?_deleteWhere, found, Option.filter_some, if_pos]
        simpa using current
      obtain ⟨member, keyed⟩ := Table.find?_eq_some.mp kept
      exact (Table.insert_eq_some.mp inserted).1 row member keyed

end GalataVault.Backend

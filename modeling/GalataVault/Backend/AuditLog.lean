import GalataVault.Backend.Frames
import GalataVault.Proto.Verification

/-!
# The audit log of every run

A vault's stored rows are a linked log from the genesis to the head stored in
the vault's row. Appending a row moves both together, in one transaction; no
other statement touches either. So a log that was served at some point of a run
is a prefix of every later one, for as long as the vault stays.

The invariant is about stored rows and says nothing of what a server serves. The
verifier's 64-bit counter enters once, through the largest file SQLite writes.
-/

namespace GalataVault.Backend

open Proto Relational Relational.Transaction HashChain

/-- A vault's audit rows in the order they were appended. -/
def Db.log (db : Db) (pk : VaultPk) : List AuditRow :=
  (db.audit.select fun a => a.vaultPk = pk).map (·.row)

/-- The stored end of a vault's log. -/
def VaultCols.mark (v : VaultCols) : Mark Hash32 := ⟨v.auditSeq, v.auditHead⟩

variable [Digests]

/-- Every vault of `db` is still there under the same id, its log has grown by
linked rows to its new head, and no other log changed. -/
structure Continues (db after : Db) : Prop where
  present : ∀ pk v, db.vaults.find? pk = some v → ∃ v' more,
    after.vaults.find? pk = some v' ∧ v'.vaultId = v.vaultId ∧
      after.log pk = db.log pk ++ more ∧ Linked auditFormat v.mark more v'.mark
  absent : ∀ pk, db.vaults.find? pk = none →
    after.vaults.find? pk = none ∧ after.log pk = db.log pk

theorem Continues.refl (db : Db) : Continues db db where
  present _ v found := ⟨v, [], found, rfl, (List.append_nil _).symm, .nil _⟩
  absent _ missing := ⟨missing, rfl⟩

theorem Continues.trans {a b c : Db} (first : Continues a b) (second : Continues b c) :
    Continues a c where
  present pk v found := by
    obtain ⟨v', more, found', same', grown', linked'⟩ := first.present pk v found
    obtain ⟨v'', rest, found'', same'', grown'', linked''⟩ := second.present pk v' found'
    exact ⟨v'', more ++ rest, found'', same''.trans same',
      by rw [grown'', grown', List.append_assoc], linked'.append linked''⟩
  absent pk missing := by
    obtain ⟨missing', same'⟩ := first.absent pk missing
    obtain ⟨missing'', same''⟩ := second.absent pk missing'
    exact ⟨missing'', same''.trans same'⟩

/-- Changing neither the vaults nor the audit table changes no log. -/
theorem Continues.of_same {db after : Db} (vaults : after.vaults = db.vaults)
    (audit : after.audit = db.audit) : Continues db after where
  present pk v found :=
    ⟨v, [], vaults ▸ found, rfl, by simp [Db.log, audit], .nil _⟩
  absent pk missing := ⟨vaults ▸ missing, by simp [Db.log, audit]⟩

/-- An update that keeps a vault's identity and audit head changes no log. -/
theorem Continues.of_updateVault (db : Db) (pk : VaultPk) {f : VaultCols → VaultCols}
    (identity : KeepsIdentity f) : Continues db (db.updateVault pk f identity.pk) where
  present other v found := by
    refine ⟨Table.rewrite (fun v => v.pk = pk) f v, [], ?_, ?_, (List.append_nil _).symm, ?_⟩
    · simp only [Db.updateVault, Table.find?_updateWhere, found, Option.map_some]
    · unfold Table.rewrite
      split
      · exact identity.vaultId v
      · rfl
    · have same : (Table.rewrite (fun v => v.pk = pk) f v).mark = v.mark := by
        unfold Table.rewrite
        split
        · simp only [VaultCols.mark, identity.auditSeq, identity.auditHead]
        · rfl
      rw [same]
      exact .nil _
  absent other missing := by
    refine ⟨?_, rfl⟩
    simp only [Db.updateVault, Table.find?_updateWhere, missing, Option.map_none]

/-- Appending a row moves the vault's log and its head together. -/
theorem Continues.of_append (db : Db) {pk : VaultPk} {v : VaultCols} (e : AuditEvent) (now : Int)
    {audit : Table AuditCols.key} (found : db.vaults.find? pk = some v)
    (inserted : db.audit.insert ⟨pk, .fromEvent (v.auditSeq + 1) now v.auditHead e⟩ = some audit) :
    Continues db ({ db with audit := audit }.updateVault pk fun v' =>
      { v' with
        auditSeq := (AuditRow.fromEvent (v.auditSeq + 1) now v.auditHead e).seq
        auditHead := (AuditRow.fromEvent (v.auditSeq + 1) now v.auditHead e).hash }) where
  present other w otherFound := by
    simp only [Db.updateVault, Table.find?_updateWhere, otherFound, Option.map_some, Db.log,
      Table.select_insert inserted, List.map_append]
    by_cases mine : other = pk
    · subst mine
      obtain rfl : v = w := Option.some.inj (found.symm.trans otherFound)
      have same : v.pk = other := (Table.find?_eq_some.mp found).2
      refine ⟨_, _, rfl, ?_, rfl, ?_⟩
      · simp [Table.rewrite, same]
      · simp only [decide_true, List.filter_cons_of_pos, List.filter_nil, List.map_cons, List.map_nil,
          Table.rewrite, same, if_true]
        exact fromEvent_linked v.mark now e
    · have differs : w.pk ≠ pk := fun same => mine ((Table.find?_eq_some.mp otherFound).2.symm.trans same)
      refine ⟨w, [], ?_, rfl, ?_, .nil _⟩
      · simp [Table.rewrite, differs]
      · simp [Ne.symm mine]
  absent other missing := by
    have mine : pk ≠ other := by
      rintro rfl
      rw [found] at missing
      exact Option.some_ne_none _ missing
    simp only [Db.updateVault, Table.find?_updateWhere, missing, Option.map_none, Db.log,
      Table.select_insert inserted, List.map_append]
    simp [mine]

theorem Stmt.continues {pk : VaultPk} {target : Target} {db after : Db} (stmt : Stmt pk db target after) :
    Continues db after := by
  cases stmt with
  | appendAudit v e now audit present inserted => exact .of_append db e now present inserted
  | updateVault f keeps | countBytes f keeps => exact .of_updateVault db pk keeps.toKeepsIdentity
  | rotateVault f keeps => exact .of_updateVault db pk keeps
  | insertVersion | setHead | deleteVersion | clearRecords =>
    exact .of_same (Db.withTables_vaults _ _ _) (Db.withTables_audit _ _ _)
  | insertToken | deleteToken | resealToken | insertDescriptor | setChildren | setApplied =>
    exact .of_same rfl rfl

/-- A script continues every log. -/
theorem Script.continues {pk : VaultPk} {targets : List Target} {db after : Db}
    (script : Script pk targets db after) :
    Continues db after := by
  induction script with
  | refl => exact .refl db
  | tail _ last inductionHypothesis =>
    obtain ⟨_, _, stmt⟩ := last
    exact inductionHypothesis.trans stmt.continues

/-! ## The invariant of every run -/

/-- Every vault's log is linked from the genesis to its stored head, and only
vaults have logs. -/
structure Chained (db : Db) : Prop where
  linked : ∀ pk v, db.vaults.find? pk = some v → Linked auditFormat start (db.log pk) v.mark
  orphan : ∀ pk, db.vaults.find? pk = none → db.log pk = []

theorem Chained.continues {db after : Db} (chained : Chained db) (continued : Continues db after) :
    Chained after where
  linked pk v found := by
    cases before : db.vaults.find? pk with
    | none =>
      obtain ⟨missing, _⟩ := continued.absent pk before
      rw [missing] at found
      exact absurd found.symm (Option.some_ne_none _)
    | some old =>
      obtain ⟨v', more, found', _, grown, linked⟩ := continued.present pk old before
      obtain rfl : v' = v := Option.some.inj (found'.symm.trans found)
      rw [grown]
      exact (chained.linked pk old before).append linked
  orphan pk missing := by
    cases before : db.vaults.find? pk with
    | none =>
      rw [(continued.absent pk before).2]
      exact chained.orphan pk before
    | some old =>
      obtain ⟨v', _, found', _⟩ := continued.present pk old before
      rw [found'] at missing
      exact absurd missing (Option.some_ne_none _)

omit [Digests] in
/-- Deleting vaults keeps the logs of the others whole and leaves none behind. -/
theorem Db.deleteVaults_log (db : Db) (p : VaultCols → Bool) (pk : VaultPk) :
    (db.deleteVaults p).log pk =
      if (db.vaults.select p).any (fun v => v.pk = pk) then [] else db.log pk := by
  simp only [Db.log, Db.deleteVaults, Table.select_deleteWhere]
  split
  · next gone =>
    rw [List.map_eq_nil_iff, List.filter_eq_nil_iff]
    intro a member
    have mine : a.vaultPk = pk := by simpa [Table.select] using (List.mem_filter.mp member).2
    simp [mine, gone]
  · next kept =>
    congr 1
    rw [List.filter_eq_self]
    intro a member
    have mine : a.vaultPk = pk := by simpa [Table.select] using (List.mem_filter.mp member).2
    simp [mine, kept]

theorem Chained.deleteVaults {db : Db} (chained : Chained db) (p : VaultCols → Bool) :
    Chained (db.deleteVaults p) where
  linked pk v found := by
    change (db.vaults.deleteWhere p).find? pk = some v at found
    rw [Table.find?_deleteWhere, Option.filter_eq_some_iff] at found
    obtain ⟨before, kept⟩ := found
    rw [Db.deleteVaults_log, if_neg]
    · exact chained.linked pk v before
    · intro gone
      obtain ⟨w, selected, same⟩ := List.any_eq_true.mp gone
      obtain ⟨member, hit⟩ := List.mem_filter.mp selected
      obtain rfl : v = w := Option.some.inj (before.symm.trans
        (Table.find?_eq_some.mpr ⟨member, by simpa using same⟩))
      simp [hit] at kept
  orphan pk missing := by
    change (db.vaults.deleteWhere p).find? pk = none at missing
    rw [Table.find?_deleteWhere, Option.filter_eq_none_iff] at missing
    rw [Db.deleteVaults_log]
    split
    · rfl
    · next kept =>
      cases before : db.vaults.find? pk with
      | none => exact chained.orphan pk before
      | some v =>
        obtain ⟨member, same⟩ := Table.find?_eq_some.mp before
        have hit : p v = true := by simpa using missing v before
        exact absurd (List.any_eq_true.mpr ⟨v, List.mem_filter.mpr ⟨member, hit⟩, by simp [same]⟩) kept

/-- A new vault's log starts at the genesis: its row number had no rows. -/
theorem Chained.insertVault {db : Db} (chained : Chained db) (v : NewVault) (now : Int)
    {vaults : Table VaultCols.pk} {descriptors : Table DescriptorCols.key}
    (inserted : db.vaults.insert (v.cols db.nextPk now) = some vaults) :
    Chained { db with vaults := vaults, descriptors := descriptors } where
  linked pk w found := by
    change vaults.find? pk = some w at found
    rw [Table.find?_insert inserted] at found
    split at found
    · next mine =>
      obtain rfl := Option.some.inj found
      change Linked auditFormat start (db.log pk) start
      rw [chained.orphan pk (by rw [← mine]; exact db.nextPk_fresh)]
      exact .nil _
    · exact chained.linked pk w found
  orphan pk missing := by
    change vaults.find? pk = none at missing
    rw [Table.find?_insert inserted] at missing
    split at missing
    · exact absurd missing (Option.some_ne_none _)
    · exact chained.orphan pk missing

/-- What holds of the audit logs of every database a run reaches. -/
structure LogInvariant (db : Db) : Prop where
  chained : Chained db
  positive : ∀ pk v, db.vaults.find? pk = some v → 0 < v.auditSeq

/-- A vault that stays keeps its id, and its log grows by linked rows. -/
def Grows (pk : VaultPk) (db after : Db) : Prop :=
  ∀ v v', db.vaults.find? pk = some v → after.vaults.find? pk = some v' →
    v'.vaultId = v.vaultId ∧ ∃ more, after.log pk = db.log pk ++ more ∧ Linked auditFormat v.mark more v'.mark

theorem Continues.grows {db after : Db} (continued : Continues db after) (pk : VaultPk) :
    Grows pk db after := by
  intro v v' found found'
  obtain ⟨w, more, foundAfter, same, grown, linked⟩ := continued.present pk v found
  obtain rfl : w = v' := Option.some.inj (foundAfter.symm.trans found')
  exact ⟨same, more, grown, linked⟩

theorem Continues.positive {db after : Db} (continued : Continues db after)
    (positive : ∀ pk v, db.vaults.find? pk = some v → 0 < v.auditSeq) :
    ∀ pk v, after.vaults.find? pk = some v → 0 < v.auditSeq := by
  intro pk v found
  cases before : db.vaults.find? pk with
  | none =>
    rw [(continued.absent pk before).1] at found
    exact absurd found.symm (Option.some_ne_none _)
  | some old =>
    obtain ⟨_, more, _, linked⟩ := continued.grows pk old v before found
    have ends : v.auditSeq = old.auditSeq + more.length := linked.finish_seq
    have started := positive pk old before
    omega

/-- A vault whose log was appended to has a head. -/
theorem appendAudit_positive {pk : VaultPk} {e : AuditEvent} {now : Int} {db after : Db} {value : Unit}
    (committed : (appendAudit pk e now).run db = .ok (value, after)) {v : VaultCols}
    (found : after.vaults.find? pk = some v) : 0 < v.auditSeq := by
  obtain ⟨w, audit, before, _, rfl⟩ := appendAudit_ok committed
  simp only [Db.updateVault, Table.find?_updateWhere, before, Option.map_some, Option.some.injEq] at found
  have same : w.pk = pk := (Table.find?_eq_some.mp before).2
  rw [← found]
  simp [Table.rewrite, same, AuditRow.fromEvent, AuditRow.stored]

/-- Every effect keeps the invariant, and lets the log of a vault that stays only
grow. Proof: a script continues every log; a new vault starts its own at a number
that had none and leaves the others alone; a deletion takes whole logs away. -/
theorem Effect.log {reach : Reach} {db after : Db} (effect : Effect reach db after) (invariant : LogInvariant db) :
    LogInvariant after ∧ ∀ pk, Grows pk db after := by
  cases effect with
  | none => exact ⟨invariant, (Continues.refl db).grows⟩
  | script pk mine script =>
    have continued := script.continues
    exact ⟨⟨invariant.chained.continues continued, continued.positive invariant.positive⟩, continued.grows⟩
  | spent table =>
    have continued : Continues db { db with spent := table } := .of_same rfl rfl
    exact ⟨⟨invariant.chained.continues continued, continued.positive invariant.positive⟩, continued.grows⟩
  | deleted p seq mine =>
    have survives : ∀ pk v, (db.deleteVaults p).vaults.find? pk = some v → db.vaults.find? pk = some v := by
      intro pk v found
      change (db.vaults.deleteWhere p).find? pk = some v at found
      rw [Table.find?_deleteWhere, Option.filter_eq_some_iff] at found
      exact found.1
    have chained := invariant.chained.deleteVaults p
    refine ⟨⟨⟨chained.linked, chained.orphan⟩, fun pk v found => invariant.positive pk v (survives pk v found)⟩, ?_⟩
    intro pk v v' found found'
    obtain rfl : v = v' := Option.some.inj (found.symm.trans (survives pk v' found'))
    have linked := chained.linked pk v found'
    refine ⟨rfl, [], ?_, .nil _⟩
    change (db.deleteVaults p).log pk = db.log pk ++ []
    rw [Db.deleteVaults_log] at linked ⊢
    split
    · next gone =>
      rw [if_pos gone] at linked
      have ends : v.auditSeq = 0 + 0 := linked.finish_seq
      have started := invariant.positive pk v found
      omega
    · rw [List.append_nil]
  | created v now vaults descriptors e _ fresh inserted described audited =>
    have scripts : Keeps (Script db.nextPk [.audit]) (appendAudit db.nextPk e now) :=
      appendAudit_script e now
    have continued := (scripts _ _ _ audited).continues
    have others : ∀ pk, pk ≠ db.nextPk → vaults.find? pk = db.vaults.find? pk := by
      intro pk differs
      rw [Table.find?_insert inserted, if_neg (fun same => differs same.symm)]
    refine ⟨⟨(invariant.chained.insertVault v now inserted).continues continued, ?_⟩, ?_⟩
    · intro pk x foundAfter
      by_cases mine : pk = db.nextPk
      · subst mine
        exact appendAudit_positive audited foundAfter
      · cases before : db.vaults.find? pk with
        | none =>
          have missing := (continued.absent pk ((others pk mine).trans before)).1
          rw [missing] at foundAfter
          exact absurd foundAfter.symm (Option.some_ne_none _)
        | some old =>
          obtain ⟨_, more, _, linked⟩ :=
            continued.grows pk old x ((others pk mine).trans before) foundAfter
          have ends : x.auditSeq = old.auditSeq + more.length := linked.finish_seq
          have started := invariant.positive pk old before
          omega
    · intro pk old x before foundAfter
      have mine : pk ≠ db.nextPk := by
        rintro rfl
        rw [db.nextPk_fresh] at before
        exact absurd before.symm (Option.some_ne_none _)
      exact continued.grows pk old x ((others pk mine).trans before) foundAfter

section Runs

variable {σ : Type}

theorem LogInvariant.initial : LogInvariant Db.empty where
  chained := ⟨fun _ _ found => (Option.some_ne_none _ found.symm).elim, fun _ _ => rfl⟩
  positive _ _ found := by cases found

theorem run_log (journal : σ) (calls : List (Call σ)) :
    LogInvariant (run ⟨Db.empty, journal⟩ calls).db :=
  run_induction (P := LogInvariant) .initial
    (fun world call invariant => ((step_effect world call).log invariant).1) calls

theorem run_fits (journal : σ) (calls : List (Call σ)) :
    (run ⟨Db.empty, journal⟩ calls).db.rowCount ≤ maxRows :=
  run_induction (P := fun db => db.rowCount ≤ maxRows) (Nat.zero_le _) step_rowCount calls

/-- The log of a vault that stays through a run only grows. Proof: induction on
the calls; the vault is there after each of them, so each step's growth applies. -/
theorem run_grows {world : World σ} (invariant : LogInvariant world.db) {pk : VaultPk}
    (calls : List (Call σ))
    (stays : ∀ part rest, calls = part ++ rest → (run world part).db.hasVault pk = true) :
    Grows pk world.db (run world calls).db := by
  induction calls generalizing world with
  | nil => exact (Continues.refl _).grows pk
  | cons call calls inductionHypothesis =>
    have effect := (step_effect world call).log invariant
    have later := inductionHypothesis effect.1
      (fun part rest split => stays (call :: part) rest (by rw [split, List.cons_append]))
    intro v v' found found'
    have middle : (step world call).db.hasVault pk = true := stays [call] calls rfl
    obtain ⟨w, foundMiddle⟩ := Option.isSome_iff_exists.mp middle
    obtain ⟨same, more, grown, linked⟩ := effect.2 pk v w found foundMiddle
    obtain ⟨same', rest, grown', linked'⟩ := later w v' foundMiddle found'
    refine ⟨same'.trans same, more ++ rest, ?_, linked.append linked'⟩
    exact grown'.trans (by rw [grown, List.append_assoc])

end Runs

/-! ## Served rows -/

omit [Digests] in
theorem Db.log_length_le (db : Db) (pk : VaultPk) : (db.log pk).length ≤ db.rowCount := by
  have selected : (db.log pk).length ≤ db.audit.rows.length := by
    rw [Db.log, List.length_map]
    exact List.length_filter_le _ _
  unfold Db.rowCount
  omega

/-- A vault has no more rows than the database. -/
theorem LogInvariant.seq_le {db : Db} (invariant : LogInvariant db) (fits : db.rowCount ≤ maxRows)
    {pk : VaultPk} {v : VaultCols} (found : db.vaults.find? pk = some v) : v.mark.seq ≤ maxRows := by
  have ends : v.mark.seq = 0 + (db.log pk).length := (invariant.chained.linked pk v found).finish_seq
  have stored := db.log_length_le pk
  omega

/-- A stored head is far below the end of the verifier's counter. -/
theorem LogInvariant.bounded {db : Db} (invariant : LogInvariant db) (fits : db.rowCount ≤ maxRows)
    {pk : VaultPk} {v : VaultCols} (found : db.vaults.find? pk = some v) : v.mark.seq ≤ u64Max := by
  have stored := invariant.seq_le fits found
  have room : maxRows ≤ u64Max := by decide
  omega

omit [Digests] in
/-- Rows numbered in order are what a query ordered by number returns. -/
theorem Db.auditOf_eq_log {db : Db} {pk : VaultPk} {first : Nat}
    (numbered : (db.log pk).map (·.seq) = List.range' first (db.log pk).length) :
    db.auditOf pk = db.log pk := by
  have sorted : (db.log pk).Pairwise fun a b => a.seq ≤ b.seq := by
    have increasing : ((db.log pk).map (·.seq)).Pairwise (· ≤ ·) := by
      rw [numbered]
      exact (List.pairwise_lt_range' (s := first)).imp Nat.le_of_lt
    exact List.pairwise_map.mp increasing
  exact List.Pairwise.insertionSort_eq sorted

/-- In a reachable database a vault's rows are served in the order they were
appended. -/
theorem LogInvariant.served {db : Db} (invariant : LogInvariant db) (pk : VaultPk) :
    db.auditOf pk = db.log pk := by
  cases found : db.vaults.find? pk with
  | none =>
    have none : db.log pk = [] := invariant.chained.orphan pk found
    have numbered : (db.log pk).map (·.seq) = List.range' 0 (db.log pk).length := by rw [none]; rfl
    exact Db.auditOf_eq_log numbered
  | some v => exact Db.auditOf_eq_log (invariant.chained.linked pk v found).seqs

/-- The rows a later reader asks for, after the head an earlier one kept, are the
rows appended since. -/
theorem LogInvariant.after_head {db : Db} (invariant : LogInvariant db) {pk : VaultPk}
    {earlier more : List AuditRow} {middle finish : Mark Hash32} (grown : db.log pk = earlier ++ more)
    (before : Linked auditFormat start earlier middle) (since : Linked auditFormat middle more finish) :
    (db.auditOf pk).filter (fun r => decide (middle.seq < r.seq)) = more := by
  have ends : middle.seq = 0 + earlier.length := before.finish_seq
  have old : earlier.filter (fun r => decide (middle.seq < r.seq)) = [] := by
    rw [List.filter_eq_nil_iff]
    intro r member
    have numbered : r.seq ∈ earlier.map auditFormat.seq := List.mem_map_of_mem member
    rw [before.seqs, List.mem_range'] at numbered
    obtain ⟨offset, below, number⟩ := numbered
    have origin : start.seq = 0 := rfl
    simp only [decide_eq_true_eq]
    omega
  have new : more.filter (fun r => decide (middle.seq < r.seq)) = more := by
    rw [List.filter_eq_self]
    intro r member
    have numbered : r.seq ∈ more.map auditFormat.seq := List.mem_map_of_mem member
    rw [since.seqs, List.mem_range'] at numbered
    obtain ⟨offset, below, number⟩ := numbered
    simp only [decide_eq_true_eq]
    omega
  rw [invariant.served, grown, List.filter_append, old, new, List.nil_append]

/-- The audit chain of every run.

For every vault of a reached database, the stored rows are numbered from 1 to its
stored sequence number and verify from the genesis to its stored head. For every
earlier point of the run at which the vault was there, and from which on it was
never deleted, its rows then are a prefix of its rows now, and the rows after its
head then verify from that head to the head now. -/
theorem audit_chain_of_run {σ : Type} (journal : σ) (calls more : List (Call σ)) (pk : VaultPk)
    (v : VaultCols) (found : (run ⟨Db.empty, journal⟩ (calls ++ more)).db.vaults.find? pk = some v) :
    let earlier := (run ⟨Db.empty, journal⟩ calls).db
    let later := (run ⟨Db.empty, journal⟩ (calls ++ more)).db
    (later.auditOf pk).map (·.seq) = List.range' 1 v.auditSeq ∧
      verifyChain none (later.auditOf pk) = .ok (some ⟨v.auditSeq, v.auditHead⟩) ∧
      ∀ v₀, earlier.vaults.find? pk = some v₀ →
        (∀ part rest, more = part ++ rest →
          (run ⟨Db.empty, journal⟩ (calls ++ part)).db.hasVault pk = true) →
        v₀.vaultId = v.vaultId ∧ earlier.auditOf pk <+: later.auditOf pk ∧
          ∀ limit, v.auditSeq - v₀.auditSeq ≤ limit →
            let page := auditAfter pk v₀.auditSeq limit later
            verifyRows (some ⟨v₀.auditSeq, v₀.auditHead⟩) page.1 page.2 none =
              .ok { head := some ⟨v.auditSeq, v.auditHead⟩, rows := v.auditSeq - v₀.auditSeq,
                    unverifiable := none } := by
  intro earlier later
  have invariant : LogInvariant later := run_log journal (calls ++ more)
  have linked := invariant.chained.linked pk v found
  have bounded := invariant.bounded (run_fits journal (calls ++ more)) found
  have length : v.auditSeq = 0 + (later.log pk).length := linked.finish_seq
  have positive := invariant.positive pk v found
  refine ⟨?_, ?_, ?_⟩
  · rw [invariant.served, length, Nat.zero_add]
    exact linked.seqs
  · rw [invariant.served, verifyChain_linked linked bounded]
    simp only [headAt, VaultCols.mark, positive, if_true]
  · intro v₀ found₀ stays
    have invariant₀ : LogInvariant earlier := run_log journal calls
    have linked₀ := invariant₀.chained.linked pk v₀ found₀
    have grows : Grows pk earlier later := by
      change Grows pk _ (run _ (calls ++ more)).db
      rw [run_append]
      exact run_grows invariant₀ more fun part rest split => by
        rw [← run_append]
        exact stays part rest split
    obtain ⟨same, since, grown, continued⟩ := grows v₀ v found₀ found
    have sinceLength : v.auditSeq = v₀.auditSeq + since.length := continued.finish_seq
    refine ⟨same.symm, ?_, ?_⟩
    · rw [invariant.served, invariant₀.served, grown]
      exact List.prefix_append _ _
    · intro limit enough
      have small : v₀.auditSeq < 2 ^ 63 := by
        have stored : v.auditSeq ≤ maxRows := invariant.seq_le (run_fits journal (calls ++ more)) found
        have room : maxRows < 2 ^ 63 := by decide
        omega
      have rows : (auditAfter pk v₀.auditSeq limit later).1 = since := by
        have selected : (later.auditOf pk).filter (fun r => decide (v₀.auditSeq < r.seq)) = since :=
          invariant.after_head grown linked₀ continued
        simp only [auditAfter_of_holds small, selected]
        exact List.take_of_length_le (by omega)
      have head : (auditAfter pk v₀.auditSeq limit later).2 = some ⟨v.auditSeq, v.auditHead⟩ := by
        have foundLater : later.vaults.find? pk = some v := found
        simp only [auditAfter, Db.auditHeadOf, foundLater, Option.bind_some, positive, if_true]
      have verified := verifyRows_continues continued bounded
      have counted : since.length = v.auditSeq - v₀.auditSeq := by omega
      simp only [rows, head]
      rw [← counted]
      exact verified

/-- The calls of a small run: a vault is created, then a record is put in it. -/
def createThenPut : Call Unit × Call Unit :=
  (.createVault (.ok ()) (.filled 7) 1,
    .putRecord (.ok ()) 1 .secret ⟨.fill 32 1⟩ .ifNoneMatch (.filled 1 5) ⟨.owner, 2⟩ .default)

omit [Digests] in
/-- In it, the reader that kept the head of the creation verifies the row of the
put. -/
theorem audit_chain_of_first_put :
    letI := checksum
    let created := (run ⟨Db.empty, ()⟩ [createThenPut.1]).db
    let written := (run ⟨Db.empty, ()⟩ [createThenPut.1, createThenPut.2]).db
    ∃ v₀ v, created.vaults.find? 1 = some v₀ ∧ written.vaults.find? 1 = some v ∧
      verifyRows (some ⟨v₀.auditSeq, v₀.auditHead⟩) (auditAfter 1 v₀.auditSeq 2 written).1
        (auditAfter 1 v₀.auditSeq 2 written).2 none =
          .ok { head := some ⟨v.auditSeq, v.auditHead⟩, rows := v.auditSeq - v₀.auditSeq,
                unverifiable := none } := by
  let _ := checksum
  intro created written
  have before : created.hasVault 1 = true := by decide +kernel
  have after : written.hasVault 1 = true := by decide +kernel
  have rows : (written.vaults.find? 1).map (·.auditSeq) = some 2 := by decide +kernel
  obtain ⟨v₀, found₀⟩ := Option.isSome_iff_exists.mp before
  obtain ⟨v, found⟩ := Option.isSome_iff_exists.mp after
  have two : v.auditSeq = 2 := by simpa [found] using rows
  have chain := (audit_chain_of_run () [createThenPut.1] [createThenPut.2] 1 v found).2.2 v₀ found₀
  refine ⟨v₀, v, found₀, found, (chain ?_).2.2 2 (by omega)⟩
  intro part rest split
  match part, split with
  | [], _ => exact before
  | [_], split =>
    obtain rfl := (List.cons.inj split).1
    exact after
  | _ :: _ :: _, split => simp at split

end GalataVault.Backend

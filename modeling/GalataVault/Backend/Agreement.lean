import GalataVault.Backend.Frames

/-!
# What an operation depends on

An operation addressed to a vault depends on that vault's rows, on the journal's
counter, and on which token ids are taken: run on two databases that agree on
those, it is refused alike or commits the same answer, and the databases agree
again. Rows of other vaults decide nothing it answers.

A token's id is unique across vaults, so a registration learns whether an id is
taken; nothing else crosses from one vault to another.
-/

namespace GalataVault.Backend

open Proto Relational Relational.Transaction

/-- Two databases with the same rows of one vault, the same journal counter and the
same token ids taken. -/
structure SameFor (pk : VaultPk) (left right : Db) : Prop where
  vaults : left.vaults.select (fun v => v.pk = pk) = right.vaults.select fun v => v.pk = pk
  descriptors :
    left.descriptors.select (fun d => d.vaultPk = pk) = right.descriptors.select fun d => d.vaultPk = pk
  tokens : left.tokens.select (fun t => t.vaultPk = pk) = right.tokens.select fun t => t.vaultPk = pk
  records : ∀ kind, (left.tables kind).records.select (fun v => v.vaultPk = pk) =
    (right.tables kind).records.select fun v => v.vaultPk = pk
  heads : ∀ kind, (left.tables kind).heads.select (fun h => h.vaultPk = pk) =
    (right.tables kind).heads.select fun h => h.vaultPk = pk
  children : left.children.select (fun c => c.vaultPk = pk) = right.children.select fun c => c.vaultPk = pk
  audit : left.audit.select (fun a => a.vaultPk = pk) = right.audit.select fun a => a.vaultPk = pk
  tokenIds : ∀ id, (left.tokens.find? id).isSome = (right.tokens.find? id).isSome
  lastApplied : left.lastApplied = right.lastApplied

/-- Databases agree on a vault when they agree on its rows and on what all vaults
share. -/
theorem SameFor.of_rows {pk : VaultPk} {left right : Db}
    (rows : left.rowsWhere (fun q => q = pk) = right.rowsWhere fun q => q = pk)
    (tokenIds : ∀ id, (left.tokens.find? id).isSome = (right.tokens.find? id).isSome)
    (lastApplied : left.lastApplied = right.lastApplied) : SameFor pk left right where
  vaults := congrArg Rows.vaults rows
  descriptors := congrArg Rows.descriptors rows
  tokens := congrArg Rows.tokens rows
  records kind := by
    cases kind
    · exact congrArg Rows.secrets rows
    · exact congrArg Rows.configs rows
  heads kind := by
    cases kind
    · exact congrArg Rows.secretHeads rows
    · exact congrArg Rows.configHeads rows
  children := congrArg Rows.children rows
  audit := congrArg Rows.audit rows
  tokenIds := tokenIds
  lastApplied := lastApplied

namespace SameFor

variable {pk : VaultPk} {left right : Db} (same : SameFor pk left right)
include same

/-! ## Queries -/

theorem findVault : left.vaults.find? pk = right.vaults.find? pk :=
  Table.find?_eq_of_select same.vaults fun _ hit => decide_eq_true hit

theorem hasVault : left.hasVault pk = right.hasVault pk := by
  rw [Db.hasVault, Db.hasVault, same.findVault]

theorem findDescriptor (generation : Nat) :
    left.descriptors.find? (pk, generation) = right.descriptors.find? (pk, generation) :=
  Table.find?_eq_of_select same.descriptors fun _ hit => decide_eq_true (congrArg Prod.fst hit)

theorem loadVault : left.loadVault pk = right.loadVault pk := by
  rw [Db.loadVault, Db.loadVault, same.findVault]
  cases found : right.vaults.find? pk with
  | none => rfl
  | some v =>
    have mine : v.pk = pk := (Table.find?_eq_some.mp found).2
    simp only [Option.bind_some, Db.vaultRow, mine, same.findDescriptor]

theorem findHead (kind : RecordKind) (name : NameHmac) :
    (left.tables kind).heads.find? (pk, name) = (right.tables kind).heads.find? (pk, name) :=
  Table.find?_eq_of_select (same.heads kind) fun _ hit => decide_eq_true (congrArg Prod.fst hit)

theorem loadHead (kind : RecordKind) (name : NameHmac) : left.loadHead kind pk name = right.loadHead kind pk name := by
  rw [Db.loadHead, Db.loadHead, same.findHead]

theorem findRecord (kind : RecordKind) (name : NameHmac) (version : Nat) :
    (left.tables kind).records.find? (pk, name, version) = (right.tables kind).records.find? (pk, name, version) :=
  Table.find?_eq_of_select (same.records kind) fun _ hit => decide_eq_true (congrArg Prod.fst hit)

theorem liveHeads (kind : RecordKind) : left.liveHeads kind pk = right.liveHeads kind pk := by
  rw [Db.liveHeads, Db.liveHeads, Table.select_and, Table.select_and, same.heads]

theorem versionsOf (kind : RecordKind) (name : NameHmac) :
    left.versionsOf kind pk name = right.versionsOf kind pk name := by
  rw [Db.versionsOf, Db.versionsOf, Table.select_and, Table.select_and, same.records]

theorem versionsIn (kind : RecordKind) : left.versionsIn kind pk = right.versionsIn kind pk := same.records kind

theorem versionMeta (kind : RecordKind) : versionMeta left kind pk = versionMeta right kind pk := by
  rw [Backend.versionMeta, Backend.versionMeta, same.versionsIn]

theorem prunable (kind : RecordKind) (name : NameHmac) (keep : Nat) :
    prunable left kind pk name keep = prunable right kind pk name keep := by
  rw [Backend.prunable, Backend.prunable, same.versionsOf]

theorem activeTokens (now : Int) : left.activeTokens pk now = right.activeTokens pk now := by
  rw [Db.activeTokens, Db.activeTokens, Table.select_and, Table.select_and, same.tokens]

theorem tokensOf : left.tokensOf pk = right.tokensOf pk := by
  rw [Db.tokensOf, Db.tokensOf, same.tokens]

theorem childrenOf : Backend.children pk left = Backend.children pk right := by
  rw [Backend.children, Backend.children,
    Table.find?_eq_of_select same.children fun _ hit => decide_eq_true hit]

theorem descriptorsOf (after : Nat) : Backend.descriptors pk after left = Backend.descriptors pk after right := by
  rw [Backend.descriptors, Backend.descriptors, Table.select_and, Table.select_and, same.descriptors]

theorem recordVersion (kind : RecordKind) (name : NameHmac) (version : Nat) :
    recordVersion pk kind name version left = recordVersion pk kind name version right := by
  rw [Backend.recordVersion, Backend.recordVersion, same.findRecord]

theorem latestRecord (kind : RecordKind) (name : NameHmac) :
    latestRecord pk kind name left = latestRecord pk kind name right := by
  simp only [Backend.latestRecord, same.loadHead, same.recordVersion]

theorem recordVersions (kind : RecordKind) (name : NameHmac) :
    recordVersions pk kind name left = recordVersions pk kind name right := by
  rw [Backend.recordVersions, Backend.recordVersions, same.versionsOf]

theorem auditAfter (after limit : Nat) : auditAfter pk after limit left = auditAfter pk after limit right := by
  simp only [Backend.auditAfter, Db.auditOf, Db.auditHeadOf, same.audit, same.findVault]

theorem listRecords (kind : RecordKind) (after : Option NameHmac) (limit : Nat) :
    listRecords pk kind after limit left = listRecords pk kind after limit right := by
  simp only [Backend.listRecords, Table.select_and, same.heads, same.findRecord]

/-! ## Statements -/

/-- The vault's row updated alike. -/
theorem updateVault {f : VaultCols → VaultCols} (keeps : ∀ v, (f v).pk = v.pk) :
    SameFor pk (left.updateVault pk f keeps) (right.updateVault pk f keeps) := by
  have stays : ∀ v : VaultCols, decide ((f v).pk = pk) = decide (v.pk = pk) := fun v => by rw [keeps v]
  exact { same with
    vaults := by
      simp only [Db.updateVault]
      rw [Table.select_updateWhere _ _ _ _ stays, Table.select_updateWhere _ _ _ _ stays, same.vaults]
    records := fun kind => by
      rw [Db.tables_updateVault, Db.tables_updateVault]
      exact same.records kind
    heads := fun kind => by
      rw [Db.tables_updateVault, Db.tables_updateVault]
      exact same.heads kind }

/-- One kind's tables replaced alike. -/
theorem withTables (kind : RecordKind) {first second : RecordTables}
    (records : first.records.select (fun v => v.vaultPk = pk) = second.records.select fun v => v.vaultPk = pk)
    (heads : first.heads.select (fun h => h.vaultPk = pk) = second.heads.select fun h => h.vaultPk = pk) :
    SameFor pk (left.withTables kind first) (right.withTables kind second) := by
  have replaced : ∀ other, ((left.withTables kind first).tables other).records.select (fun v => v.vaultPk = pk) =
      ((right.withTables kind second).tables other).records.select (fun v => v.vaultPk = pk) ∧
      ((left.withTables kind first).tables other).heads.select (fun h => h.vaultPk = pk) =
      ((right.withTables kind second).tables other).heads.select (fun h => h.vaultPk = pk) := by
    intro other
    by_cases mine : other = kind
    · subst mine
      simp only [Db.tables_withTables_same]
      exact ⟨records, heads⟩
    · simp only [Db.tables_withTables_other _ mine]
      exact ⟨same.records other, same.heads other⟩
  have tables := fun other => (replaced other).1
  have headed := fun other => (replaced other).2
  cases kind <;> exact { same with records := tables, heads := headed }

end SameFor

/-- An insertion into tables that agree on a selection and on whether the key is
taken is refused in both, or leaves tables that agree again. -/
theorem insert_alike {ρ κ : Type} {key : ρ → κ} [DecidableEq κ] {left right : Table key} {q : ρ → Bool}
    (same : left.select q = right.select q) (row : ρ)
    (taken : (left.find? (key row)).isSome = (right.find? (key row)).isSome) :
    (left.insert row = none ∧ right.insert row = none) ∨
      ∃ newLeft newRight, left.insert row = some newLeft ∧ right.insert row = some newRight ∧
        newLeft.select q = newRight.select q := by
  cases inserted : left.insert row with
  | none =>
    obtain ⟨old, found⟩ := Table.insert_eq_none.mp inserted
    rw [found, Option.isSome_some] at taken
    obtain ⟨other, found⟩ := Option.isSome_iff_exists.mp taken.symm
    exact .inl ⟨rfl, Table.insert_eq_none.mpr ⟨other, found⟩⟩
  | some newLeft =>
    cases insertedRight : right.insert row with
    | none =>
      obtain ⟨old, found⟩ := Table.insert_eq_none.mp insertedRight
      rw [found, Option.isSome_some] at taken
      obtain ⟨other, found⟩ := Option.isSome_iff_exists.mp taken
      rw [Table.insert_eq_none.mpr ⟨other, found⟩] at inserted
      cases inserted
    | some newRight =>
      refine .inr ⟨newLeft, newRight, rfl, rfl, ?_⟩
      rw [Table.select_insert inserted, Table.select_insert insertedRight, same]

section Statements

variable [Digests] {pk : VaultPk} {left right : Db} (same : SameFor pk left right)
include same

theorem appendAudit_alike (e : AuditEvent) (now : Int) :
    Alike (SameFor pk) ((appendAudit pk e now).run left) ((appendAudit pk e now).run right) := by
  refine .get_bind ?_
  rw [same.findVault]
  cases right.vaults.find? pk with
  | none => exact .throw _
  | some v =>
    dsimp only
    have taken := congrArg Option.isSome <| Table.find?_eq_of_select same.audit
      (k := (pk, v.auditSeq + 1)) fun _ hit => decide_eq_true (congrArg Prod.fst hit)
    rcases insert_alike same.audit ⟨pk, AuditRow.fromEvent (v.auditSeq + 1) now v.auditHead e⟩ taken with
      ⟨first, second⟩ | ⟨newLeft, newRight, first, second, selected⟩
    · rw [first, second]
      exact .throw _
    · rw [first, second]
      have inserted : SameFor pk { left with audit := newLeft } { right with audit := newRight } :=
        { same with audit := selected, records := same.records, heads := same.heads }
      exact .set (inserted.updateVault _)

theorem refuse_alike {α : Type} (e : AuditEvent) (now : Int) (error : StoreError) :
    Alike (SameFor pk) ((refuse pk e now error : Tx (Done α)).run left) ((refuse pk e now error : Tx (Done α)).run right) :=
  .bind (appendAudit_alike same e now) fun _ _ _ related => .pure _ related

omit [Digests] in
theorem bumpRevision_alike :
    Alike (SameFor pk) ((bumpRevision pk).run left) ((bumpRevision pk).run right) :=
  .modify (same.updateVault _)

omit [Digests] in
theorem journal_alike (op : JournalOp) (now : Int) :
    Alike (SameFor pk) ((journal op now).run left) ((journal op now).run right) := by
  refine .get_bind ?_
  rw [same.lastApplied]
  refine .bind (.set ?_) fun _ _ _ related => .pure _ related
  exact { same with lastApplied := rfl, records := same.records, heads := same.heads }

theorem insertVersion_alike (kind : RecordKind) (v : Insert) :
    Alike (SameFor pk) ((insertVersion kind pk v).run left) ((insertVersion kind pk v).run right) := by
  refine .get_bind ?_
  have taken := congrArg Option.isSome (same.findRecord kind v.name v.version)
  rcases insert_alike (same.records kind) (v.cols pk) taken with
    ⟨first, second⟩ | ⟨newLeft, newRight, first, second, selected⟩
  · rw [first, second]
    exact .throw _
  · rw [first, second, same.hasVault]
    dsimp only
    split
    · exact .set (same.withTables kind selected (same.heads kind))
    · exact .throw _

omit [Digests] in
theorem setHead_alike (kind : RecordKind) (name : NameHmac) (version : Nat) (tombstone : Bool) :
    Alike (SameFor pk) ((setHead kind pk name version tombstone).run left)
      ((setHead kind pk name version tombstone).run right) := by
  refine .get_bind ?_
  rw [same.hasVault]
  split
  · refine .set (same.withTables kind (same.records kind) ?_)
    have inside : ∀ old : HeadCols, old.key = HeadCols.key ⟨pk, name, version, tombstone⟩ →
        decide (old.vaultPk = pk) = true := fun old hit => decide_eq_true (congrArg Prod.fst hit)
    rw [Table.select_upsert _ inside, Table.select_upsert _ inside, same.heads,
      show HeadCols.key ⟨pk, name, version, tombstone⟩ = (pk, name) from rfl, same.findHead]
  · exact .throw _

omit [Digests] in
theorem deleteVersions_alike (kind : RecordKind) (name : NameHmac) (versions : List (Nat × Nat)) :
    Alike (SameFor pk) ((deleteVersions kind pk name versions).run left)
      ((deleteVersions kind pk name versions).run right) := by
  refine .forM versions (fun v left right same => .modify ?_) same
  refine same.withTables kind ?_ (same.heads kind)
  rw [Table.select_deleteWhere, Table.select_deleteWhere, same.records]

theorem storeVersion_alike (kind : RecordKind) (v : Insert) (tombstone : Bool) (pruned : List (Nat × Nat))
    (total : Nat) (e : AuditEvent) (now : Int) :
    Alike (SameFor pk) ((storeVersion kind pk v tombstone pruned total e now).run left)
      ((storeVersion kind pk v tombstone pruned total e now).run right) :=
  .bind (insertVersion_alike same kind v) fun _ _ _ same =>
    .bind (setHead_alike same kind v.name v.version tombstone) fun _ _ _ same =>
      .bind (deleteVersions_alike same kind v.name pruned) fun _ _ _ same =>
        .bind (.modify (same.updateVault _)) fun _ _ _ same => appendAudit_alike same e now

omit [Digests] in
/-- The tokens of one vault deleted alike. -/
theorem SameFor.deleteTokensWhere {p : TokenRow → Bool} (mine : ∀ t, p t = true → t.vaultPk = pk) :
    SameFor pk { left with tokens := left.tokens.deleteWhere p } { right with tokens := right.tokens.deleteWhere p } := by
  have selected : ∀ id, (left.tokens.find? id).filter (fun t => decide (t.vaultPk = pk)) =
      (right.tokens.find? id).filter fun t => decide (t.vaultPk = pk) := by
    intro id
    have keyed : ∀ table : Table TokenRow.tokenId, (table.find? id).filter (fun t => decide (t.vaultPk = pk)) =
        ((table.select fun t => t.vaultPk = pk).find? fun t => t.tokenId = id) := by
      intro table
      cases found : table.find? id with
      | none =>
        rw [Option.filter_none, eq_comm, List.find?_eq_none]
        intro t member
        simpa using Table.find?_eq_none.mp found t (List.mem_of_mem_filter member)
      | some t =>
        obtain ⟨member, named⟩ := Table.find?_eq_some.mp found
        have only : ∀ other ∈ table.select (fun t => decide (t.vaultPk = pk)), other.tokenId = id → other = t :=
          fun other inside hit => Option.some.inj
            ((Table.find?_eq_some.mpr ⟨List.mem_of_mem_filter inside, hit⟩).symm.trans found)
        rw [Option.filter_some]
        split
        · next owned =>
          cases lookup : (table.select fun t => decide (t.vaultPk = pk)).find? fun t => decide (t.tokenId = id) with
          | none =>
            have absent := List.find?_eq_none.mp lookup t (List.mem_filter.mpr ⟨member, owned⟩)
            simp [named] at absent
          | some other =>
            rw [only other (List.mem_of_find?_eq_some lookup) (by simpa using List.find?_some lookup)]
        · next foreign =>
          rw [eq_comm, List.find?_eq_none]
          intro other inside hit
          rw [only other inside (of_decide_eq_true hit)] at inside
          exact foreign (List.mem_filter.mp inside).2
    rw [keyed, keyed, same.tokens]
  exact { same with
    tokens := by
      simp only [Table.select_deleteWhere, same.tokens]
    records := same.records
    heads := same.heads
    tokenIds := by
      intro id
      simp only [Table.find?_deleteWhere]
      have taken := same.tokenIds id
      have owned := selected id
      cases foundLeft : left.tokens.find? id with
      | none =>
        rw [foundLeft] at taken
        cases foundRight : right.tokens.find? id with
        | none => rfl
        | some t => simp [foundRight] at taken
      | some s =>
        cases foundRight : right.tokens.find? id with
        | none => simp [foundLeft, foundRight] at taken
        | some t =>
          rw [foundLeft, foundRight] at owned
          simp only [Option.filter_some] at owned ⊢
          by_cases inside : s.vaultPk = pk
          · by_cases other : t.vaultPk = pk
            · simp only [inside, other, decide_true, if_true, Option.some.injEq] at owned
              rw [owned]
            · simp [inside, other] at owned
          · have outside : t.vaultPk ≠ pk := by
              intro other
              simp [inside, other] at owned
            have keptLeft : p s = false := by
              by_contra hit
              exact inside (mine s (by simpa using hit))
            have keptRight : p t = false := by
              by_contra hit
              exact outside (mine t (by simpa using hit))
            simp [keptLeft, keptRight] }

omit [Digests] in
theorem deleteTokens_alike (ids : List TokenId) :
    Alike (SameFor pk) ((deleteTokens pk ids).run left) ((deleteTokens pk ids).run right) := by
  induction ids generalizing left right with
  | nil => exact .pure _ same
  | cons id ids inductionHypothesis =>
    refine .get_bind ?_
    dsimp only
    rw [Table.select_and, Table.select_and, same.tokens]
    refine .bind (.set (same.deleteTokensWhere ?_)) fun _ _ _ same =>
      .bind (inductionHypothesis same) fun _ _ _ same => .pure _ same
    intro t hit
    simp only [Bool.and_eq_true, decide_eq_true_eq] at hit
    exact hit.1

omit [Digests] in
theorem insertToken_alike (row : TokenRow) (mine : row.vaultPk = pk) :
    Alike (SameFor pk) ((insertToken row).run left) ((insertToken row).run right) := by
  refine .get_bind ?_
  rcases insert_alike same.tokens row (same.tokenIds row.tokenId) with
    ⟨first, second⟩ | ⟨newLeft, newRight, first, second, selected⟩
  · rw [first, second]
    exact .throw _
  · rw [first, second, mine, same.hasVault]
    dsimp only
    split
    · refine .set { same with tokens := selected, records := same.records, heads := same.heads, tokenIds := ?_ }
      intro id
      simp only [Table.find?_insert first, Table.find?_insert second]
      split
      · rfl
      · exact same.tokenIds id
    · exact .throw _

omit [Digests] in
theorem insertDescriptor_alike (generation : Nat) (d : SignedDescriptor) :
    Alike (SameFor pk) ((insertDescriptor ⟨pk, generation, d⟩).run left)
      ((insertDescriptor ⟨pk, generation, d⟩).run right) := by
  refine .get_bind ?_
  rcases insert_alike same.descriptors ⟨pk, generation, d⟩ (congrArg Option.isSome (same.findDescriptor generation)) with
    ⟨first, second⟩ | ⟨newLeft, newRight, first, second, selected⟩
  · rw [first, second]
    exact .pure _ same
  · rw [first, second, same.hasVault]
    dsimp only
    split
    · exact .set { same with descriptors := selected, records := same.records, heads := same.heads }
    · exact .throw _

omit [Digests] in
theorem SameFor.resealToken (generation : Nat) (t : ResealedBundle) :
    SameFor pk (left.resealToken pk generation t) (right.resealToken pk generation t) :=
  { same with
    tokens := by
      have selected (tokens : Table TokenRow.tokenId) := Table.select_updateWhere tokens
        (fun row => row.vaultPk = pk && row.tokenId = t.tokenId)
        (fun row => { row with bundle := t.bundle, generation := generation }) (fun _ => rfl)
        (q := fun t => decide (t.vaultPk = pk)) fun _ => rfl
      exact (selected _).trans ((congrArg _ same.tokens).trans (selected _).symm)
    records := same.records
    heads := same.heads
    tokenIds := fun id => by
      simp only [Db.resealToken, Table.find?_updateWhere, Option.isSome_map]
      exact same.tokenIds id }

theorem insertRewritten_alike (kind : RecordKind) (generation : Nat) (rows : List Rewritten) (heads : HeadMap)
    (bytes : Nat) :
    Alike (SameFor pk) ((insertRewritten kind pk generation heads bytes rows).run left)
      ((insertRewritten kind pk generation heads bytes rows).run right) := by
  induction rows generalizing left right heads bytes with
  | nil => exact .pure _ same
  | cons row rows inductionHypothesis =>
    exact .bind (insertVersion_alike same kind _) fun _ _ _ same => inductionHypothesis same _ _

theorem replaceRecords_alike (kind : RecordKind) (generation : Nat) (rows : List Rewritten) :
    Alike (SameFor pk) ((replaceRecords kind pk generation rows).run left)
      ((replaceRecords kind pk generation rows).run right) := by
  have cleared : SameFor pk (left.clearRecords kind pk) (right.clearRecords kind pk) := by
    refine same.withTables kind ?_ ?_
    · rw [Table.select_deleteWhere, Table.select_deleteWhere, same.records]
    · rw [Table.select_deleteWhere, Table.select_deleteWhere, same.heads]
  refine .bind (.modify cleared) fun _ _ _ same =>
    .bind (insertRewritten_alike same kind generation rows [] 0) fun collected _ _ same => ?_
  refine .bind (.forM collected.1 (fun h _ _ same => ?_) same) fun _ _ _ same => .pure _ same
  exact setHead_alike same kind h.1 h.2.1 h.2.2

omit [Digests] same in
theorem liftCheck_alike {α : Type} (same : SameFor pk left right) (check : Except StoreError α) :
    Alike (SameFor pk) ((liftCheck check).run left) ((liftCheck check).run right) := by
  cases check with
  | ok value => exact .pure _ same
  | error failure => exact .throw _

theorem applyBatch_alike {vault : VaultRow} (mine : vault.pk = pk) (r : RotationRequest) (ctx : Ctx) :
    Alike (SameFor pk) ((applyBatch vault r ctx).run left) ((applyBatch vault r ctx).run right) := by
  refine .get_bind ?_
  subst mine
  dsimp only
  rw [same.versionMeta, same.versionMeta]
  refine .bind (liftCheck_alike same _) fun secrets _ _ same => .bind (liftCheck_alike same _) fun configs _ _ same =>
    .bind (replaceRecords_alike same .secret _ _) fun _ _ _ same =>
    .bind (replaceRecords_alike same .config _ _) fun _ _ _ same =>
    .bind (insertDescriptor_alike same _ _) fun _ _ _ same =>
    .bind (deleteTokens_alike same _) fun revoked _ _ same => ?_
  refine .bind (.forM r.tokens (fun t _ _ same => .modify (same.resealToken _ t)) same) fun _ _ _ same =>
    .bind (.modify (same.updateVault _)) fun _ _ _ same =>
    .bind (appendAudit_alike same _ _) fun _ _ _ same => ?_
  exact .bind (.forM revoked (fun id _ _ same => appendAudit_alike same _ _) same) fun _ _ _ same => .pure _ same

theorem rotate_alike {vault : VaultRow} (mine : vault.pk = pk) (r : RotationRequest) (ctx : Ctx) (strict : Bool) :
    Alike (SameFor pk) ((rotate vault r ctx strict).run left) ((rotate vault r ctx strict).run right) := by
  refine .get_bind ?_
  have checked : checkRotation left vault r = checkRotation right vault r := by
    subst mine
    simp only [checkRotation, same.versionMeta, same.tokensOf]
  rw [checked]
  split
  · exact .bind (liftCheck_alike same _) fun _ _ _ same => applyBatch_alike same mine r ctx
  · split
    · exact .pure _ same
    · exact applyBatch_alike same mine r ctx

end Statements

/-! ## Bodies -/

section Bodies

variable [Digests] {pk : VaultPk} {left right : Db} (same : SameFor pk left right)
include same

theorem registerTokenBody_alike (t : NewToken) (ctx : Ctx) (limits : Limits) :
    Alike (SameFor pk) ((registerTokenBody pk t ctx limits).run left) ((registerTokenBody pk t ctx limits).run right) := by
  refine .get_bind ?_
  rw [same.loadVault, same.activeTokens]
  split
  · exact .throw _
  · next vault loaded =>
    dsimp only
    split
    · exact refuse_alike same _ _ _
    · split
      · exact refuse_alike same _ _ _
      · -- The row read back at the end is the one inserted, in both.
        let Read := fun left right : Db =>
          SameFor pk left right ∧ left.tokens.find? t.tokenId = right.tokens.find? t.tokenId
        have inserted : Alike Read ((insertToken (t.row pk ctx.now)).run left)
            ((insertToken (t.row pk ctx.now)).run right) := by
          refine (insertToken_alike same (t.row pk ctx.now) rfl).strengthen fun _ after other ran ranOther same => ?_
          have found : ∀ {db after : Db} {value : Unit}, (insertToken (t.row pk ctx.now)).run db = .ok (value, after) →
              after.tokens.find? t.tokenId = some (t.row pk ctx.now) := by
            intro db after value ran
            obtain ⟨tokens, inserted, _, rfl⟩ := insertToken_ok ran
            exact (Table.find?_insert inserted _).trans (if_pos rfl)
          exact ⟨same, (found ran).trans (found ranOther).symm⟩
        refine .bind inserted fun _ _ _ read => .bind (.modify (R := Read) ⟨read.1.updateVault _, read.2⟩) fun _ _ _ read => ?_
        refine .bind ((appendAudit_alike read.1 _ _).strengthen (S := Read) fun _ _ _ ran ranOther same => ?_)
          fun _ left right read => .get_bind ?_
        · have audits : Keeps (Script pk [.audit])
              (appendAudit pk (event ctx.actor .tokenMint none (some t.tokenId) .ok) ctx.now) :=
            appendAudit_script _ _
          refine ⟨same, ?_⟩
          rw [Script.tokens_same (audits _ _ _ ran), Script.tokens_same (audits _ _ _ ranOther)]
          exact read.2
        · rw [read.2]
          split
          · exact .throw _
          · exact .pure _ read.1

theorem revokeTokensBody_alike (ids : List TokenId) (reported : Bool) (ctx : Ctx) :
    Alike (SameFor pk) ((revokeTokensBody pk ids reported ctx).run left)
      ((revokeTokensBody pk ids reported ctx).run right) := by
  refine .get_bind ?_
  rw [same.loadVault]
  split
  · exact .throw _
  · refine .bind (deleteTokens_alike same ids) fun removed _ _ same => ?_
    split
    · exact .throw _
    · refine .bind (bumpRevision_alike same) fun _ _ _ same =>
        .bind (.forM removed (fun id _ _ same => appendAudit_alike same _ _) same) fun _ _ _ same =>
        .bind (journal_alike same _ _) fun _ _ _ same => .pure _ same

theorem putRecordBody_alike (kind : RecordKind) (name : NameHmac) (pre : Precondition) (w : RecordWrite)
    (valueCt : List UInt8) (ctx : Ctx) (limits : Limits) :
    Alike (SameFor pk) ((putRecordBody pk kind name pre w valueCt ctx limits).run left)
      ((putRecordBody pk kind name pre w valueCt ctx limits).run right) := by
  refine .get_bind ?_
  dsimp only
  rw [same.loadVault, same.loadHead, same.liveHeads, same.prunable]
  repeat' split
  · exact .throw _
  · exact refuse_alike same _ _ _
  · exact refuse_alike same _ _ _
  · exact refuse_alike same _ _ _
  · exact refuse_alike same _ _ _
  · exact refuse_alike same _ _ _
  · exact refuse_alike same _ _ _
  · exact .bind (storeVersion_alike same _ _ _ _ _ _ _) fun _ _ _ same => .pure _ same

theorem deleteRecordBody_alike (kind : RecordKind) (name : NameHmac) (ifMatch : Nat) (w : RecordWrite) (ctx : Ctx)
    (limits : Limits) :
    Alike (SameFor pk) ((deleteRecordBody pk kind name ifMatch w ctx limits).run left)
      ((deleteRecordBody pk kind name ifMatch w ctx limits).run right) := by
  refine .get_bind ?_
  dsimp only
  rw [same.loadVault, same.loadHead, same.prunable]
  repeat' split
  · exact .throw _
  · exact .throw _
  · exact .throw _
  · exact refuse_alike same _ _ _
  · exact refuse_alike same _ _ _
  · exact refuse_alike same _ _ _
  · exact .bind (storeVersion_alike same _ _ _ _ _ _ _) fun _ _ _ same => .pure _ same

theorem putChildrenBody_alike (pre : Precondition) (blob : ChildrenBlob) (ctx : Ctx) (limits : Limits) :
    Alike (SameFor pk) ((putChildrenBody pk pre blob ctx limits).run left)
      ((putChildrenBody pk pre blob ctx limits).run right) := by
  refine .get_bind ?_
  dsimp only
  rw [same.loadVault, same.childrenOf]
  repeat' split
  · exact .throw _
  · exact refuse_alike same _ _ _
  · exact refuse_alike same _ _ _
  · exact refuse_alike same _ _ _
  · refine .bind (.get_bind ?_) fun _ _ _ same => .bind (appendAudit_alike same _ _) fun _ _ _ same => .pure _ same
    rw [same.hasVault]
    split
    · refine .set { same with children := ?_, records := same.records, heads := same.heads }
      have inside : ∀ old : ChildrenCols, old.vaultPk = pk → decide (old.vaultPk = pk) = true :=
        fun old hit => decide_eq_true hit
      have found := Table.find?_eq_of_select same.children inside
      rw [Table.select_upsert _ inside, Table.select_upsert _ inside, same.children]
      simp only [found]
    · exact .throw _

theorem applyRotationBody_alike (r : RotationRequest) (ctx : Ctx) :
    Alike (SameFor pk) ((applyRotationBody pk r ctx).run left) ((applyRotationBody pk r ctx).run right) := by
  refine .get_bind ?_
  rw [same.loadVault]
  split
  · exact .throw _
  · next vault loaded =>
    refine .bind (rotate_alike same (Db.loadVault_pk loaded) r ctx true) fun _ _ _ same =>
      .bind (journal_alike same _ _) fun _ _ _ same => .pure _ same

omit [Digests] in
/-- The vault deleted alike, with what belongs to it. -/
theorem SameFor.deleteVault :
    SameFor pk (left.deleteVaults fun v => v.pk = pk) (right.deleteVaults fun v => v.pk = pk) := by
  unfold Db.deleteVaults
  rw [same.vaults]
  have owned : ∀ q, ((right.vaults.select fun v => decide (v.pk = pk)).any fun v => decide (v.pk = q)) = true → q = pk := by
    intro q hit
    obtain ⟨v, member, named⟩ := List.any_eq_true.mp hit
    rw [← of_decide_eq_true named, of_decide_eq_true (List.mem_filter.mp member).2]
  have tokens := same.deleteTokensWhere fun t hit => owned t.vaultPk hit
  exact
    { vaults := by simp only [Table.select_deleteWhere, same.vaults]
      descriptors := by simp only [Table.select_deleteWhere, same.descriptors]
      tokens := tokens.tokens
      records := by
        rintro (_ | _)
        · simpa only [Db.tables, Table.select_deleteWhere] using congrArg _ (same.records .secret)
        · simpa only [Db.tables, Table.select_deleteWhere] using congrArg _ (same.records .config)
      heads := by
        rintro (_ | _)
        · simpa only [Db.tables, Table.select_deleteWhere] using congrArg _ (same.heads .secret)
        · simpa only [Db.tables, Table.select_deleteWhere] using congrArg _ (same.heads .config)
      children := by simp only [Table.select_deleteWhere, same.children]
      audit := by simp only [Table.select_deleteWhere, same.audit]
      tokenIds := tokens.tokenIds
      lastApplied := same.lastApplied }

omit [Digests] in
/-- Deleting the vault leaves neither database a row of it. -/
theorem deleteVaultBody_alike (now : Int) :
    Alike (SameFor pk) ((deleteVaultBody pk now).run left) ((deleteVaultBody pk now).run right) := by
  refine .get_bind ?_
  rw [same.loadVault]
  split
  · exact .throw _
  · refine .bind (.set same.deleteVault) fun _ _ _ same => .bind (journal_alike same _ _) fun _ _ _ same => .pure _ same

end Bodies

/-! ## Answers -/

/-- SQLite's answer to a commit that does not fit the file. -/
def diskFull : StoreError := .database "database or disk is full"

/-- The same answer, or the file is full in one of the two. -/
def SameAnswer {α : Type} (left right : Except StoreError α) : Prop :=
  left = right ∨ left = .error diskFull ∨ right = .error diskFull

theorem commit_cases (disk : Except String Unit) (next : Db) :
    (∃ detail, ∀ other, commit disk other = .error (.database detail)) ∨ commit disk next = .ok () ∨
      commit disk next = .error diskFull := by
  cases disk with
  | error detail => exact .inl ⟨detail, fun _ => rfl⟩
  | ok _ =>
    by_cases fits : next.rowCount ≤ maxRows
    · exact .inr (.inl (if_pos fits))
    · exact .inr (.inr (if_neg fits))

theorem write_sameAnswer {α : Type} {R : Db → Db → Prop} {body : Tx (Done α)} {left right : Db}
    (disk : Except String Unit) (alike : Alike R (body.run left) (body.run right)) :
    SameAnswer (write disk body left).1 (write disk body right).1 := by
  unfold write
  revert alike
  generalize body.run left = one
  generalize body.run right = two
  intro alike
  cases alike with
  | failed failure => exact .inl rfl
  | committed done related =>
    next after other =>
    rcases commit_cases disk after with ⟨detail, every⟩ | first | full
    · exact .inl (by simp only [every])
    · rcases commit_cases disk other with ⟨detail, every⟩ | second | full
      · exact .inl (by simp only [every])
      · exact .inl (by simp only [first, second])
      · exact .inr (.inr (by simp only [full]))
    · exact .inr (.inl (by simp only [full]))

theorem writeCritical_sameAnswer {α σ : Type} {R : Db → Db → Prop} {body : Tx (α × JournalRecord)} {left right : Db}
    (disk : Except String Unit) (hook : CommitHook σ) (journal : σ) (alike : Alike R (body.run left) (body.run right)) :
    SameAnswer (writeCritical disk hook body left journal).1 (writeCritical disk hook body right journal).1 := by
  unfold writeCritical
  revert alike
  generalize body.run left = one
  generalize body.run right = two
  intro alike
  cases alike with
  | failed failure => exact .inl rfl
  | committed result related =>
    next after other =>
    obtain ⟨value, record⟩ := result
    dsimp only
    split
    · exact .inl rfl
    · rcases commit_cases disk after with ⟨detail, every⟩ | first | full
      · exact .inl (by simp only [every])
      · rcases commit_cases disk other with ⟨detail, every⟩ | second | full
        · exact .inl (by simp only [every])
        · exact .inl (by simp only [first, second])
        · exact .inr (.inr (by simp only [full]))
      · exact .inr (.inl (by simp only [full]))

end GalataVault.Backend

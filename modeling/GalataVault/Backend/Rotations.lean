import GalataVault.Backend.Writes

/-!
# What a rotation writes

The body of a rotation, live or replayed, as one description of the database it
leaves: every record table of the vault is the batch, every head is the largest
version the batch has for its name, the surviving tokens carry their new bundles,
and one row of the vault is rewritten. Loops of the source are described by what
they leave, each by an induction over its list.

Heads are collected in a map while the records are inserted. Its order does not
matter, since a name occurs in it once.
-/

namespace GalataVault.Backend

open Proto Relational Relational.Transaction

/-! ## Heads of a batch -/

/-- A map of heads leads the rows it was collected from: one entry for each name,
the largest version of it. -/
structure Leads (rows : List Rewritten) (heads : HeadMap) : Prop where
  distinct : (heads.map (·.1)).Nodup
  leading : ∀ h ∈ heads, ∃ r ∈ rows, r.name = h.1 ∧ r.version = h.2.1 ∧ r.valueCt.isNone = h.2.2 ∧
    ∀ other ∈ rows, other.name = h.1 → other.version ≤ h.2.1
  covers : ∀ r ∈ rows, r.name ∈ heads.map (·.1)

theorem Leads.noteHead {rows : List Rewritten} {heads : HeadMap} (leads : Leads rows heads) (r : Rewritten) :
    Leads (rows ++ [r]) (noteHead heads r) := by
  unfold Backend.noteHead
  split
  · next known =>
    have names : (heads.map fun h => if h.1 = r.name ∧ h.2.1 ≤ r.version then
        (r.name, r.version, r.valueCt.isNone) else h).map (·.1) = heads.map (·.1) := by
      rw [List.map_map]
      refine List.map_congr_left fun h _ => ?_
      by_cases moves : h.1 = r.name ∧ h.2.1 ≤ r.version
      · simp [moves]
      · simp [moves]
    refine ⟨names ▸ leads.distinct, ?_, ?_⟩
    · intro h' member
      obtain ⟨h, entry, rfl⟩ := List.mem_map.mp member
      obtain ⟨r₀, old, name, version, tombstone, largest⟩ := leads.leading h entry
      by_cases moves : h.1 = r.name ∧ h.2.1 ≤ r.version
      · simp only [moves, and_self, if_true]
        refine ⟨r, by simp, rfl, rfl, rfl, fun other present same => ?_⟩
        rcases List.mem_append.mp present with present | present
        · exact Nat.le_trans (largest other present (same.trans moves.1.symm)) moves.2
        · rw [List.mem_singleton.mp present]
      · simp only [moves, if_false]
        refine ⟨r₀, by simp [old], name, version, tombstone, fun other present same => ?_⟩
        rcases List.mem_append.mp present with present | present
        · exact largest other present same
        · rw [List.mem_singleton.mp present] at same ⊢
          by_contra above
          exact moves ⟨same.symm, by omega⟩
    · intro other present
      rw [names]
      rcases List.mem_append.mp present with present | present
      · exact leads.covers other present
      · rw [List.mem_singleton.mp present]
        obtain ⟨h, member, same⟩ := List.any_eq_true.mp known
        exact List.mem_map.mpr ⟨h, member, of_decide_eq_true same⟩
  · next unknown =>
    have absent : ∀ h ∈ heads, h.1 ≠ r.name := fun h member same =>
      unknown (List.any_eq_true.mpr ⟨h, member, decide_eq_true same⟩)
    refine ⟨?_, ?_, ?_⟩
    · rw [List.map_append, List.nodup_append]
      refine ⟨leads.distinct, by simp, ?_⟩
      rintro _ old _ new rfl
      obtain ⟨h, member, same⟩ := List.mem_map.mp old
      exact absent h member (same.trans (by simpa using new))
    · intro h member
      rcases List.mem_append.mp member with member | member
      · obtain ⟨r₀, old, name, version, tombstone, largest⟩ := leads.leading h member
        refine ⟨r₀, by simp [old], name, version, tombstone, fun other present same => ?_⟩
        rcases List.mem_append.mp present with present | present
        · exact largest other present same
        · rw [List.mem_singleton.mp present] at same
          exact absurd same.symm (absent h member)
      · rw [List.mem_singleton.mp member]
        refine ⟨r, by simp, rfl, rfl, rfl, fun other present same => ?_⟩
        rcases List.mem_append.mp present with present | present
        · obtain ⟨h, old, name⟩ := List.mem_map.mp (leads.covers other present)
          exact absurd (name.trans same) (absent h old)
        · rw [List.mem_singleton.mp present]
    · intro other present
      rw [List.map_append, List.mem_append]
      rcases List.mem_append.mp present with present | present
      · exact .inl (leads.covers other present)
      · rw [List.mem_singleton.mp present]
        exact .inr (by simp)

/-- The map collected over a whole batch leads it; the induction is on the rows from
the last one. -/
theorem leads_batch (rows : List Rewritten) : Leads rows (rows.foldl noteHead []) := by
  induction rows using List.reverseRecOn with
  | nil => exact ⟨List.nodup_nil, by simp, by simp⟩
  | append_singleton rows r inductionHypothesis =>
    rw [List.foldl_append]
    exact inductionHypothesis.noteHead r

/-! ## Replaced records -/

/-- The version a rewritten row inserts. -/
def Rewritten.toInsert (r : Rewritten) (generation : Nat) : Insert where
  name := r.name
  version := r.version
  nameCt := r.nameCt
  valueCt := r.valueCt
  generation := generation
  writtenAt := r.writtenAt
  writtenBy := r.writtenBy
  sig := r.sig

/-- The bytes a rewritten row counts for. -/
def Rewritten.size (r : Rewritten) : Nat := r.nameCt.length + (r.valueCt.map List.length).getD 0

section Replace

variable [Digests] {kind : RecordKind} {pk : VaultPk} {generation : Nat}

theorem insertRewritten_ok {heads : HeadMap} {bytes : Nat} {rows : List Rewritten} {db after : Db}
    {result : HeadMap × Nat}
    (ran : (insertRewritten kind pk generation heads bytes rows).run db = .ok (result, after)) :
    ∃ records, after = db.withTables kind { db.tables kind with records := records } ∧
      records.rows = (db.tables kind).records.rows ++ rows.map (fun r => (r.toInsert generation).cols pk) ∧
      result = (rows.foldl noteHead heads, bytes + (rows.map Rewritten.size).sum) := by
  induction rows generalizing heads bytes db with
  | nil =>
    simp only [insertRewritten, pure_ok, Prod.mk.injEq] at ran
    obtain ⟨rfl, rfl⟩ := ran
    refine ⟨(db.tables kind).records, ?_, by simp, by simp⟩
    cases kind <;> rfl
  | cons r rows inductionHypothesis =>
    simp only [insertRewritten, bind_ok] at ran
    obtain ⟨_, _, inserted, rest⟩ := ran
    obtain ⟨records, insertion, _, rfl⟩ := insertVersion_ok inserted
    obtain ⟨records', rfl, grown, rfl⟩ := inductionHypothesis rest
    refine ⟨records', by simp, ?_, ?_⟩
    · rw [grown, Db.tables_withTables_same, (Table.insert_eq_some.mp insertion).2]
      simp [Rewritten.toInsert]
    · rw [List.foldl_cons, List.map_cons, List.sum_cons]
      simp only [Rewritten.size, Prod.mk.injEq, true_and]
      omega

omit [Digests] in
/-- Setting heads of distinct names sets each of them, and no other. -/
theorem setHeads_ok {heads : HeadMap} {db after : Db} {value : Unit} (distinct : (heads.map (·.1)).Nodup)
    (ran : (heads.forM fun h => setHead kind pk h.1 h.2.1 h.2.2).run db = .ok (value, after)) :
    ∃ table, after = db.withTables kind { db.tables kind with heads := table } ∧
      (∀ h ∈ heads, table.find? (pk, h.1) = some ⟨pk, h.1, h.2.1, h.2.2⟩) ∧
      ∀ key, (∀ h ∈ heads, (pk, h.1) ≠ key) → table.find? key = (db.tables kind).heads.find? key := by
  induction heads generalizing db with
  | nil =>
    simp only [List.forM, pure_ok, Prod.mk.injEq] at ran
    obtain ⟨_, rfl⟩ := ran
    refine ⟨(db.tables kind).heads, ?_, by simp, fun _ _ => rfl⟩
    cases kind <;> rfl
  | cons h heads inductionHypothesis =>
    obtain ⟨apart, distinct⟩ := List.nodup_cons.mp distinct
    simp only [List.forM, bind_ok] at ran
    obtain ⟨_, _, first, rest⟩ := ran
    obtain ⟨_, rfl⟩ := setHead_ok first
    obtain ⟨table, rfl, set, kept⟩ := inductionHypothesis distinct rest
    simp only [Db.tables_withTables_same] at kept
    refine ⟨table, by simp, ?_, ?_⟩
    · intro other member
      rcases List.mem_cons.mp member with rfl | member
      · rw [kept, Table.find?_upsert, if_pos (by rfl)]
        intro later present same
        refine apart (List.mem_map.mpr ⟨later, present, (Prod.mk.inj same).2⟩)
      · exact set other member
    · intro key off
      rw [kept key fun other member => off other (List.mem_cons_of_mem _ member), Table.find?_upsert]
      exact if_neg (off h (List.mem_cons_self ..))

/-- One kind's records of a vault are the batch's, with the heads that lead it, and
those of other vaults are as they were. -/
structure Replaced (db after : Db) (kind : RecordKind) (pk : VaultPk) (generation : Nat)
    (rows : List Rewritten) : Prop where
  records : (after.tables kind).records.rows =
    (db.tables kind).records.rows.filter (fun v => !decide (v.vaultPk = pk)) ++
      rows.map fun r => (r.toInsert generation).cols pk
  others : ∀ other name, other ≠ pk →
    (after.tables kind).heads.find? (other, name) = (db.tables kind).heads.find? (other, name)
  led : ∀ name h, (after.tables kind).heads.find? (pk, name) = some h →
    ∃ r ∈ rows, r.name = name ∧ h = ⟨pk, name, r.version, r.valueCt.isNone⟩ ∧
      ∀ other ∈ rows, other.name = name → other.version ≤ r.version
  covered : ∀ r ∈ rows, ((after.tables kind).heads.find? (pk, r.name)).isSome = true

theorem Replaced.of_tables {db db' after after' : Db} {rows : List Rewritten}
    (replaced : Replaced db after kind pk generation rows) (before : db'.tables kind = db.tables kind)
    (later : after'.tables kind = after.tables kind) : Replaced db' after' kind pk generation rows where
  records := by rw [later, before, replaced.records]
  others := by rw [later, before]; exact replaced.others
  led := by rw [later]; exact replaced.led
  covered := by rw [later]; exact replaced.covered

theorem replaceRecords_ok {rows : List Rewritten} {db after : Db} {bytes : Nat}
    (ran : (replaceRecords kind pk generation rows).run db = .ok (bytes, after)) :
    Replaced db after kind pk generation rows ∧ bytes = (rows.map Rewritten.size).sum := by
  simp only [replaceRecords, bind_ok, modify_ok, pure_ok, Prod.mk.injEq] at ran
  obtain ⟨_, _, ⟨_, rfl⟩, _, _, inserted, _, _, headsRun, rfl, rfl⟩ := ran
  obtain ⟨records, rfl, grown, rfl⟩ := insertRewritten_ok inserted
  have leads := leads_batch rows
  obtain ⟨table, rfl, set, kept⟩ := setHeads_ok leads.distinct headsRun
  simp only [Db.tables_withTables_same, Db.clearRecords] at grown kept
  refine ⟨⟨?_, ?_, ?_, ?_⟩, by simp⟩
  · simpa [Db.clearRecords, Table.deleteWhere] using grown
  · intro other name apart
    simp only [Db.clearRecords, Db.tables_withTables_same]
    rw [kept (other, name) fun h _ same => apart (Prod.mk.inj same).1.symm, Table.find?_deleteWhere]
    cases found : (db.tables kind).heads.find? (other, name) with
    | none => rfl
    | some h =>
      have owner : h.vaultPk = other := congrArg Prod.fst (Table.find?_eq_some.mp found).2
      simp [owner, apart]
  · intro name h found
    simp only [Db.tables_withTables_same] at found
    by_cases known : name ∈ (rows.foldl noteHead []).map (·.1)
    · obtain ⟨entry, member, rfl⟩ := List.mem_map.mp known
      obtain rfl := Option.some.inj ((set entry member).symm.trans found)
      obtain ⟨r, present, same, version, tombstone, largest⟩ := leads.leading entry member
      refine ⟨r, present, same, by rw [version, tombstone], fun other present same => ?_⟩
      rw [version]
      exact largest other present same
    · rw [kept (pk, name) fun entry member same =>
        known (List.mem_map.mpr ⟨entry, member, (Prod.mk.inj same).2⟩)] at found
      obtain ⟨member, key⟩ := Table.find?_eq_some.mp found
      have mine : h.vaultPk = pk := congrArg Prod.fst key
      have gone := (List.mem_filter.mp member).2
      simp [mine] at gone
  · intro r present
    simp only [Db.tables_withTables_same]
    obtain ⟨entry, member, same⟩ := List.mem_map.mp (leads.covers r present)
    rw [← same, set entry member]
    rfl

end Replace

/-! ## Tokens -/

/-- Deleting tokens one by one deletes those of the vault that are named, and reports
the named ones it found. -/
theorem deleteTokens_run (pk : VaultPk) (ids : List TokenId) (db : Db) :
    ∃ removed, (deleteTokens pk ids).run db = .ok (removed, { db with
        tokens := db.tokens.deleteWhere fun t => t.vaultPk = pk && ids.contains t.tokenId }) ∧
      ∀ id, id ∈ removed ↔ id ∈ ids ∧ ∃ t, db.tokens.find? id = some t ∧ t.vaultPk = pk := by
  induction ids generalizing db with
  | nil =>
    refine ⟨[], ?_, by simp⟩
    have same : db.tokens.deleteWhere (fun t => t.vaultPk = pk && [].contains t.tokenId) = db.tokens :=
      Table.ext (List.filter_eq_self.mpr fun _ _ => by simp)
    rw [same]
    rfl
  | cons id ids inductionHypothesis =>
    let mine := fun t : TokenRow => t.vaultPk = pk && t.tokenId = id
    obtain ⟨removed, ran, reported⟩ := inductionHypothesis { db with tokens := db.tokens.deleteWhere mine }
    have joined : (db.tokens.deleteWhere mine).deleteWhere
          (fun t => t.vaultPk = pk && ids.contains t.tokenId) =
        db.tokens.deleteWhere fun t => t.vaultPk = pk && (id :: ids).contains t.tokenId := by
      rw [Table.deleteWhere_deleteWhere]
      congr 1
      funext t
      simp only [mine, List.contains_cons]
      by_cases owner : t.vaultPk = pk <;> by_cases same : t.tokenId = id <;> simp [owner, same]
    refine ⟨if (db.tokens.select mine).length = 1 then id :: removed else removed, ?_, ?_⟩
    · change (deleteTokens pk ids >>= fun removed => pure
        (if (db.tokens.select mine).length = 1 then id :: removed else removed)).run
          { db with tokens := db.tokens.deleteWhere mine } = _
      rw [StateT.run_bind, ran]
      simp only [joined]
      rfl
    · intro other
      have single : (db.tokens.select mine).length = 1 ↔ ∃ t, db.tokens.find? id = some t ∧ t.vaultPk = pk := by
        have keyed : ∀ t : TokenRow, mine t = true → t.tokenId = id := fun t hit => by simp_all [mine]
        rw [Table.select_of_key db.tokens keyed]
        cases found : db.tokens.find? id with
        | none => simp
        | some t =>
          have named : t.tokenId = id := (Table.find?_eq_some.mp found).2
          by_cases owner : t.vaultPk = pk <;> simp [mine, owner, named]
      have left : (∃ t, (db.tokens.deleteWhere mine).find? other = some t ∧ t.vaultPk = pk) ↔
          other ≠ id ∧ ∃ t, db.tokens.find? other = some t ∧ t.vaultPk = pk := by
        rw [Table.find?_deleteWhere]
        cases found : db.tokens.find? other with
        | none => simp
        | some t =>
          have named : t.tokenId = other := (Table.find?_eq_some.mp found).2
          by_cases owner : t.vaultPk = pk <;> by_cases same : other = id <;> simp [mine, owner, named, same]
      have later := (reported other).trans (and_congr_right fun _ => left)
      by_cases same : other = id
      · subst same
        by_cases present : ∃ t, db.tokens.find? other = some t ∧ t.vaultPk = pk
        · simp [single.mpr present, present]
        · have apart : (db.tokens.select mine).length ≠ 1 := fun one => present (single.mp one)
          simp [apart, later, present]
      · split
        · simp [later, same]
        · simp [later, same]

/-- The row of a token once the bundles of a batch have been set. -/
def resealed (pk : VaultPk) (generation : Nat) (bundles : List ResealedBundle) (row : TokenRow) : TokenRow :=
  bundles.foldl (fun row t => if row.vaultPk = pk ∧ row.tokenId = t.tokenId then
    { row with bundle := t.bundle, generation := generation } else row) row

/-- Resealing changes a token's bundle and its generation, and nothing else. -/
theorem resealed_frame (pk : VaultPk) (generation : Nat) (bundles : List ResealedBundle) (row : TokenRow) :
    ∃ bundle sealedFor, resealed pk generation bundles row =
      { row with bundle := bundle, generation := sealedFor } := by
  induction bundles generalizing row with
  | nil => exact ⟨row.bundle, row.generation, rfl⟩
  | cons t bundles inductionHypothesis =>
    rw [resealed, List.foldl_cons]
    split
    · exact inductionHypothesis { row with bundle := t.bundle, generation := generation }
    · exact inductionHypothesis row

/-- Setting the bundles of a batch one by one reseals every row. -/
theorem resealTokens_run (pk : VaultPk) (generation : Nat) (bundles : List ResealedBundle) (db : Db) :
    ∃ tokens, (bundles.forM fun t => modify fun db => db.resealToken pk generation t : Tx Unit).run db =
        .ok ((), { db with tokens := tokens }) ∧
      tokens.rows = db.tokens.rows.map (resealed pk generation bundles) := by
  induction bundles generalizing db with
  | nil => exact ⟨db.tokens, rfl, (List.map_id _).symm⟩
  | cons t bundles inductionHypothesis =>
    obtain ⟨tokens, ran, rows⟩ := inductionHypothesis (db.resealToken pk generation t)
    refine ⟨tokens, ran, ?_⟩
    rw [rows]
    simp only [Db.resealToken, Table.updateWhere, List.map_map]
    refine List.map_congr_left fun row _ => ?_
    simp only [Function.comp_apply, resealed, List.foldl_cons, Table.rewrite, Bool.and_eq_true, decide_eq_true_eq]

/-! ## Batches -/

/-- The row a batch entry becomes: its writer is the stored one. -/
def rewrittenRow (stored : Meta) (ctx : Ctx) (s : RotatedVersion) : Rewritten where
  name := s.nameHmac
  version := s.version
  nameCt := s.nameCt.bytes
  valueCt := s.valueCt.map (·.bytes)
  writtenAt := s.writtenAt
  writtenBy := ((stored.lookup (oldKey s)).map (·.writtenBy)).getD ctx.actor
  sig := s.sig

/-- The bytes a batch entry counts for. -/
def rotatedSize (s : RotatedVersion) : Nat := s.nameCt.bytes.length + (s.valueCt.map (·.bytes.length)).getD 0

theorem rewritten_ok {batch : List RotatedVersion} {stored : Meta} {ctx : Ctx} {rows : List Rewritten}
    (passed : rewritten batch stored ctx = .ok rows) :
    (batch.map newKey).toFinset.card = batch.length ∧ rows = batch.map (rewrittenRow stored ctx) := by
  unfold rewritten at passed
  split at passed
  · cases passed
  · next distinct => exact ⟨not_not.mp distinct, (Except.ok.inj passed).symm⟩

theorem rewritten_size (stored : Meta) (ctx : Ctx) (batch : List RotatedVersion) :
    ((batch.map (rewrittenRow stored ctx)).map Rewritten.size).sum = (batch.map rotatedSize).sum := by
  rw [List.map_map]
  congr 1
  refine List.map_congr_left fun s _ => ?_
  cases value : s.valueCt <;> simp [Rewritten.size, rewrittenRow, rotatedSize, value]

section Batch

variable [Digests]

/-- One kind of an applied batch: its entries, each under its new name, replace the
records of the vault. -/
structure Rekinded (kind : RecordKind) (pk : VaultPk) (batch : List RotatedVersion) (generation : Nat) (ctx : Ctx)
    (db after : Db) : Prop where
  distinct : (batch.map newKey).toFinset.card = batch.length
  replaced : Replaced db after kind pk generation (batch.map (rewrittenRow (versionMeta db kind pk) ctx))

/-- What an applied batch leaves. -/
structure Applied (pk : VaultPk) (r : RotationRequest) (ctx : Ctx) (db after : Db) : Prop where
  secrets : Rekinded .secret pk r.secrets (r.fromGeneration + 1) ctx db after
  configs : Rekinded .config pk r.configs (r.fromGeneration + 1) ctx db after
  descriptors : (after.descriptors = db.descriptors ∧
      ∃ old, db.descriptors.find? (pk, r.fromGeneration + 1) = some old) ∨
    db.descriptors.insert ⟨pk, r.fromGeneration + 1, r.descriptor⟩ = some after.descriptors
  tokens : after.tokens.rows = (db.tokens.rows.filter fun t =>
    !(decide (t.vaultPk = pk) && r.revoke.contains t.tokenId)).map (resealed pk (r.fromGeneration + 1) r.tokens)
  vault : ∀ v, db.vaults.find? pk = some v → ∃ v', after.vaults.find? pk = some v' ∧
    SameButLog { v with
      generation := r.fromGeneration + 1
      ownerBundle := r.ownerBundle
      bytesUsed := (r.secrets.map rotatedSize).sum + (r.configs.map rotatedSize).sum
      revision := v.revision + 1 } v'
  lastApplied : after.lastApplied = db.lastApplied

theorem applyBatch_ok {vault : VaultRow} {r : RotationRequest} {ctx : Ctx} {db after : Db} {generation : Nat}
    (ran : (applyBatch vault r ctx).run db = .ok (generation, after)) :
    generation = r.fromGeneration + 1 ∧ Applied vault.pk r ctx db after := by
  rw [applyBatch, get_bind_ok] at ran
  simp only [bind_ok] at ran
  obtain ⟨secretRows, _, secretCheck, configRows, _, configCheck, secretBytes, one, secretRun, configBytes, two,
    configRun, _, three, described, revoked, four, deleted, _, five, resealRun, _, six, updated, _, seven, audited,
    _, eight, auditedEach, ran⟩ := ran
  obtain ⟨secretPassed, rfl⟩ := liftCheck_ok secretCheck
  obtain ⟨configPassed, rfl⟩ := liftCheck_ok configCheck
  obtain ⟨secretDistinct, rfl⟩ := rewritten_ok secretPassed
  obtain ⟨configDistinct, rfl⟩ := rewritten_ok configPassed
  obtain ⟨secretReplaced, rfl⟩ := replaceRecords_ok secretRun
  obtain ⟨configReplaced, rfl⟩ := replaceRecords_ok configRun
  simp only [modify_ok, pure_ok, Prod.mk.injEq] at updated ran
  obtain ⟨rfl, ends⟩ := ran
  obtain rfl := ends.symm
  obtain ⟨_, rfl⟩ := updated
  -- Each later part leaves alone what the earlier ones wrote.
  have replaces {kind : RecordKind} {rows : List Rewritten} : Keeps (Script vault.pk [.records kind])
      (replaceRecords kind vault.pk (r.fromGeneration + 1) rows) := replaceRecords_script _ _ _
  have describes : Keeps (Script vault.pk [.descriptors])
      (insertDescriptor ⟨vault.pk, r.fromGeneration + 1, r.descriptor⟩) := insertDescriptor_script _ _
  have deletes : Keeps (Script vault.pk [.tokens]) (deleteTokens vault.pk r.revoke) := deleteTokens_script _
  have audits (e : AuditEvent) : Keeps (Script vault.pk [.audit]) (appendAudit vault.pk e ctx.now) :=
    appendAudit_script e ctx.now
  have auditsEach : Keeps (Script vault.pk [.audit]) (revoked.forM fun id =>
      appendAudit vault.pk (event ctx.actor .tokenRevoke none (some id) .ok) ctx.now) :=
    .forM Script.refl Script.trans _ fun _ _ => audits _
  have first := replaces _ _ _ secretRun
  have second := replaces _ _ _ configRun
  have third := describes _ _ _ described
  have fourth := deletes _ _ _ deleted
  have last := Script.trans _ _ _ (audits _ _ _ _ audited) (auditsEach _ _ _ auditedEach)
  obtain ⟨tokens, reseals, tokenRows⟩ := resealTokens_run vault.pk (r.fromGeneration + 1) r.tokens four
  rw [reseals, Except.ok.injEq, Prod.mk.injEq] at resealRun
  obtain ⟨_, rfl⟩ := resealRun
  have tables : ∀ kind, after.tables kind = two.tables kind := by
    intro kind
    have updatedTables := Db.tables_updateVault { four with tokens := tokens } vault.pk
    rw [last.tables_same kind, updatedTables]
    change four.tables kind = _
    rw [fourth.tables_same kind, third.tables_same kind]
  refine ⟨rfl, ⟨secretDistinct, ?_⟩, ⟨configDistinct, ?_⟩, ?_, ?_, ?_, ?_⟩
  · exact secretReplaced.of_tables rfl (by rw [tables, second.tables_same .secret])
  · exact configReplaced.of_tables (first.tables_same .config).symm (tables .config)
  · have kept : two.descriptors = db.descriptors := by rw [second.descriptors_same, first.descriptors_same]
    have later : after.descriptors = three.descriptors := by
      rw [last.descriptors_same]
      exact fourth.descriptors_same
    rw [later, ← kept]
    rcases insertDescriptor_ok described with ⟨rfl, taken⟩ | ⟨descriptors, inserted, _, rfl⟩
    · exact .inl ⟨rfl, taken⟩
    · exact .inr inserted
  · have kept : three.tokens = db.tokens := by
      rw [third.tokens_same, second.tokens_same, first.tokens_same]
    obtain ⟨_, deletesRun, _⟩ := deleteTokens_run vault.pk r.revoke three
    rw [deletesRun, Except.ok.injEq, Prod.mk.injEq] at deleted
    obtain ⟨_, rfl⟩ := deleted
    rw [last.tokens_same]
    change tokens.rows = _
    rw [tokenRows, kept]
    rfl
  · intro v found
    have kept : four.vaults = db.vaults := by
      rw [fourth.vaults_same, third.vaults_same, second.vaults_same, first.vaults_same]
    have foundFour : ({ four with tokens := tokens } : Db).vaults.find? vault.pk = some v := kept ▸ found
    obtain ⟨v', found', same⟩ := last.sameButLog (Db.updateVault_found foundFour _ _)
    rw [rewritten_size, rewritten_size] at same
    exact ⟨v', found', same⟩
  · rw [last.lastApplied_same]
    change four.lastApplied = db.lastApplied
    rw [fourth.lastApplied_same, third.lastApplied_same, second.lastApplied_same, first.lastApplied_same]

end Batch

end GalataVault.Backend

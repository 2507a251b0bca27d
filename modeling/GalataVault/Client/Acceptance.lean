import GalataVault.Backend.Completion
import GalataVault.Client.AllowLists
import GalataVault.Server.Isolation

/-!
# Client and server agree on a rotation

The owner reads a vault and builds a batch; the server checks the batch and applies it.
The two are separate code. Here they meet: of a vault whose records its own writers
wrote, the batch the client builds passes every check the server makes as long as the
vault has not moved, and every version it leaves opens under the new keys to what it was.
-/

namespace GalataVault.Client

open Proto Backend Server Relational Relational.Transaction Interaction

/-! ## What the owner reads -/

/-- A stored version as the server serves it. -/
def servedVersion (v : VersionCols) : SecretVersion where
  nameHmac := v.row.nameHmac
  version := v.row.version
  nameCt := ⟨v.row.nameCt⟩
  valueCt := v.row.valueCt.map (⟨·⟩)
  generation := v.row.generation
  writtenAt := v.row.writtenAt
  tombstone := v.row.tombstone
  sig := v.row.sig

/-- A token as the owner sees it listed: its scope may be one this client does not
know. -/
structure Lists (row : TokenRow) (t : ListedToken) : Prop where
  same : t.tokenId = row.tokenId
  box : t.boxPub = row.boxPub
  scope : t.scope = .known row.scope ∨ ∃ name, t.scope = .unknown name

/-- A database holds a vault as its owner has read it: at the revision of the status,
with the tokens listed and exactly the versions given. -/
structure Holds [Crypto] [Digests] (owner : OwnerKeys) (status : RotationStatus) (tokens : List ListedToken)
    (d : Descriptor) (given : RecordCode → List SecretVersion) (vault : VaultRow) (db : Db) : Prop where
  stored : ∃ row, db.loadVault vault.pk = some row ∧ row.generation = status.generation ∧ row.revision = status.revision
  sound : Sound vault.pk db
  listed : List.Forall₂ Lists (db.tokensOf vault.pk) tokens
  versions : ∀ kind, (given (wire kind)).Perm ((db.versionsIn kind vault.pk).map servedVersion)

/-! ## Lists -/

theorem forall₂_map {α β γ : Type} {R : α → β → Prop} {f : α → γ} {g : β → γ} {l : List α} {m : List β}
    (related : List.Forall₂ R l m) (agree : ∀ a b, R a b → g b = f a) : m.map g = l.map f := by
  induction related with
  | nil => rfl
  | cons head _ inductionHypothesis => rw [List.map_cons, List.map_cons, agree _ _ head, inductionHypothesis]

theorem lookup_of_nodup {κ α : Type} [BEq κ] [LawfulBEq κ] {l : List (κ × α)} (distinct : (l.map (·.1)).Nodup) {k : κ}
    {a : α} (member : (k, a) ∈ l) : l.lookup k = some a := by
  induction l with
  | nil => cases member
  | cons entry l inductionHypothesis =>
    obtain ⟨k', a'⟩ := entry
    rw [List.map_cons, List.nodup_cons] at distinct
    rcases List.mem_cons.mp member with same | later
    · obtain ⟨rfl, rfl⟩ := Prod.mk.inj same
      rw [List.lookup_cons_self]
    · have apart : k ≠ k' := by
        rintro rfl
        exact distinct.1 (List.mem_map.mpr ⟨(k, a), later, rfl⟩)
      rw [List.lookup_cons, beq_false_of_ne apart]
      exact inductionHypothesis distinct.2 later

/-- A vault's versions have distinct names and numbers. -/
theorem versionMeta_distinct (db : Db) (kind : RecordKind) (pk : VaultPk) :
    ((Backend.versionMeta db kind pk).map (·.1)).Nodup := by
  have keys : ((db.versionsIn kind pk).map VersionCols.key).Nodup :=
    (db.tables kind).records.distinct.sublist (List.filter_sublist.map _)
  rw [Backend.versionMeta, List.map_map]
  refine List.Nodup.of_map (fun key : NameHmac × Nat => (pk, key.1, key.2)) ?_
  rw [List.map_map]
  convert keys using 1
  refine List.map_congr_left fun v member => ?_
  have mine := of_decide_eq_true (List.mem_filter.mp member).2
  simp [VersionCols.key, mine]

section

variable [Crypto] [Digests] [Ed25519] {owner : OwnerKeys} {status : RotationStatus} {tokens : List ListedToken}
  {d : Descriptor} {current : FullBundle} {given : RecordCode → List SecretVersion} {revoke : List TokenId} {now : Int}
  {rotation : Rotation} {vault : VaultRow} {db : Db}

/-- The two kinds of a built batch as one statement. -/
theorem Built.batch (built : Built owner status tokens d current given revoke now rotation) (kind : RecordKind) :
    List.Forall₂ (Carried d rotation.newDescriptor current rotation.newBundle (wire kind)) (given (wire kind))
      (batchOf rotation.request kind) := by
  cases kind with
  | secret => exact built.secrets
  | config => exact built.configs

/-- The entry of a batch names the version it replaces. -/
theorem Carried.oldKey_eq {d' : Descriptor} {next : FullBundle} {kind : RecordCode} {v : SecretVersion}
    {s : RotatedVersion} (carried : Carried d d' current next kind v s) : oldKey s = (v.nameHmac, v.version) := by
  obtain ⟨_, _, _, _, _, _, _, rfl, _⟩ := carried.carried
  rfl

/-- An entry of a batch, with the stored version it carries over. -/
theorem entry_stored (built : Built owner status tokens d current given revoke now rotation)
    (holds : Holds owner status tokens d given vault db) (kind : RecordKind) :
    ∀ s ∈ batchOf rotation.request kind, ∃ v ∈ db.versionsIn kind vault.pk,
      Carried d rotation.newDescriptor current rotation.newBundle (wire kind) (servedVersion v) s := by
  intro s member
  obtain ⟨v, present, carried⟩ := forall₂_right (built.batch kind) s member
  obtain ⟨stored, found, rfl⟩ := List.mem_map.mp ((holds.versions kind).mem_iff.mp present)
  exact ⟨stored, found, carried⟩

/-- An entry keeps what a rotation may not change about its stored version. -/
theorem entry_kept (built : Built owner status tokens d current given revoke now rotation)
    (holds : Holds owner status tokens d given vault db) (kind : RecordKind) {s : RotatedVersion}
    (member : s ∈ batchOf rotation.request kind) :
    ∃ v ∈ db.versionsIn kind vault.pk,
      (Backend.versionMeta db kind vault.pk).lookup (oldKey s) = some v.row.unchanging ∧
        s.valueCt.isNone = v.row.tombstone ∧ s.writtenAt = v.row.writtenAt := by
  obtain ⟨v, present, carried⟩ := entry_stored built holds kind s member
  have found : (Backend.versionMeta db kind vault.pk).lookup (v.row.nameHmac, v.row.version) = some v.row.unchanging :=
    lookup_of_nodup (versionMeta_distinct db kind vault.pk) (List.mem_map.mpr ⟨v, present, rfl⟩)
  refine ⟨v, present, ?_, ?_, ?_⟩
  · rw [carried.oldKey_eq]
    exact found
  · obtain ⟨r, rec, _, _, _, value, _, rfl, sealed⟩ := carried.carried
    rw [rotatedVersion, Option.isNone_map, sealed.tombstone, value, servedVersion, Option.isNone_map, v.row.tombstone_eq]
  · obtain ⟨_, _, _, _, _, _, _, rfl, _⟩ := carried.carried
    rfl

/-- The old keys of a batch are those of the vault's versions, each once. -/
theorem oldKeys_perm (built : Built owner status tokens d current given revoke now rotation)
    (holds : Holds owner status tokens d given vault db) (kind : RecordKind) :
    ((batchOf rotation.request kind).map oldKey).Perm ((Backend.versionMeta db kind vault.pk).map (·.1)) := by
  have carried : (batchOf rotation.request kind).map oldKey =
      (given (wire kind)).map fun v => (v.nameHmac, v.version) :=
    forall₂_map (built.batch kind) fun v s carried => carried.oldKey_eq
  rw [carried, Backend.versionMeta, List.map_map]
  have served := (holds.versions kind).map fun v : SecretVersion => (v.nameHmac, v.version)
  rw [List.map_map] at served
  exact served

theorem checkComplete_built (built : Built owner status tokens d current given revoke now rotation)
    (holds : Holds owner status tokens d given vault db) (kind : RecordKind) :
    checkComplete (batchOf rotation.request kind) (Backend.versionMeta db kind vault.pk) = .ok () := by
  have keys := oldKeys_perm built holds kind
  have once : ((batchOf rotation.request kind).map oldKey).Nodup :=
    keys.nodup_iff.mpr (versionMeta_distinct db kind vault.pk)
  have card : ((batchOf rotation.request kind).map oldKey).toFinset.card = (batchOf rotation.request kind).length := by
    rw [List.toFinset_card_of_nodup once, List.length_map]
  have same := List.toFinset_eq_of_perm _ _ keys
  have tombstones : ¬ (batchOf rotation.request kind).any (fun s => ((Backend.versionMeta db kind vault.pk).lookup
      (oldKey s)).map (·.tombstone) != some s.valueCt.isNone) := by
    simp only [List.any_eq_true, not_exists, not_and, bne_iff_ne, ne_eq, not_not]
    intro s member
    obtain ⟨v, _, found, tombstone, _⟩ := entry_kept built holds kind member
    rw [found, tombstone]
    rfl
  have times : ¬ (batchOf rotation.request kind).any (fun s => ((Backend.versionMeta db kind vault.pk).lookup
      (oldKey s)).map (·.writtenAt) != some s.writtenAt) := by
    simp only [List.any_eq_true, not_exists, not_and, bne_iff_ne, ne_eq, not_not]
    intro s member
    obtain ⟨v, _, found, _, time⟩ := entry_kept built holds kind member
    rw [found, time]
    rfl
  unfold checkComplete
  dsimp only
  rw [if_neg (by rw [card, same]; simp), if_neg tombstones, if_neg times]

/-- No index of the new key is shared by two names of the given versions. -/
def Separates (d : Descriptor) (current : FullBundle) (key : NameKey) (given : RecordCode → List SecretVersion) : Prop :=
  ∀ kind, ∀ v ∈ given kind, ∀ w ∈ given kind, ∀ r r', openRecord d current kind v = .ok r →
    openRecord d current kind w = .ok r' → key.index kind r.name = key.index kind r'.name → r.name = r'.name

/-- No two versions get one new name and number. -/
theorem newKeys_nodup (built : Built owner status tokens d current given revoke now rotation)
    (holds : Holds owner status tokens d given vault db)
    (separates : Separates d current rotation.newBundle.nameKey given) (kind : RecordKind) :
    ((batchOf rotation.request kind).map newKey).Nodup := by
  have once : ((batchOf rotation.request kind).map oldKey).Nodup :=
    (oldKeys_perm built holds kind).nodup_iff.mpr (versionMeta_distinct db kind vault.pk)
  refine List.Nodup.map_on ?_ (List.Nodup.of_map oldKey once)
  intro s member s' member' same
  obtain ⟨v, present, carried⟩ := forall₂_right (built.batch kind) s member
  obtain ⟨v', present', carried'⟩ := forall₂_right (built.batch kind) s' member'
  refine List.inj_on_of_nodup_map once member member' ?_
  rw [carried.oldKey_eq, carried'.oldKey_eq]
  obtain ⟨r, rec, opened, _, _, _, indexed, rfl, sealed⟩ := carried.carried
  obtain ⟨r', rec', opened', _, _, _, indexed', rfl, sealed'⟩ := carried'.carried
  obtain ⟨name, version⟩ := Prod.mk.inj same
  have names : r.name = r'.name := by
    apply separates (wire kind) v present v' present' r r' opened opened'
    rw [← sealed.indexed, ← sealed'.indexed]
    exact name
  rw [indexed, indexed', names, show v.version = v'.version from version]

omit [Ed25519] in
theorem holds_tokenIds (holds : Holds owner status tokens d given vault db) :
    tokens.map (·.tokenId) = (db.tokensOf vault.pk).map (·.tokenId) :=
  forall₂_map holds.listed fun _ _ lists => lists.same

omit [Crypto] [Digests] [Ed25519] in
theorem tokensOf_distinct (db : Db) (pk : VaultPk) : ((db.tokensOf pk).map (·.tokenId)).Nodup := by
  have ids : ((db.tokens.select fun t => t.vaultPk = pk).map (·.tokenId)).Nodup :=
    db.tokens.distinct.sublist (List.filter_sublist.map _)
  exact ((List.perm_insertionSort _ _).map _).nodup_iff.mpr ids

/-- The batch passes every check of the store, at an unchanged revision. -/
theorem checkRotation_built (built : Built owner status tokens d current given revoke now rotation)
    (holds : Holds owner status tokens d given vault db) (listed : ∀ id ∈ revoke, ∃ t ∈ tokens, t.tokenId = id)
    {row : VaultRow} (loaded : db.loadVault vault.pk = some row) (generation : row.generation = status.generation)
    (revision : row.revision = status.revision) : checkRotation db row rotation.request = .ok () := by
  have same := holds_tokenIds holds
  have survivors : rotation.request.tokens.map (·.tokenId) =
      (tokens.filter fun t => t.tokenId ∉ revoke).map (·.tokenId) :=
    forall₂_map built.resealed fun _ _ resealed => resealed.same
  have distinct : (tokens.map (·.tokenId)).Nodup := same ▸ tokensOf_distinct db vault.pk
  have each : (rotation.request.tokens.map (·.tokenId)).Nodup := by
    rw [survivors]
    exact distinct.sublist (List.filter_sublist.map _)
  have mine : row.pk = vault.pk := Db.loadVault_pk loaded
  have secrets : checkComplete rotation.request.secrets (Backend.versionMeta db .secret vault.pk) = .ok () :=
    checkComplete_built built holds .secret
  have configs : checkComplete rotation.request.configs (Backend.versionMeta db .config vault.pk) = .ok () :=
    checkComplete_built built holds .config
  have inside : rotation.request.revoke.toFinset ⊆ ((db.tokensOf vault.pk).map (·.tokenId)).toFinset := by
    intro id member
    rw [built.revokes, List.mem_toFinset] at member
    obtain ⟨t, present, rfl⟩ := listed id member
    rw [List.mem_toFinset, ← same]
    exact List.mem_map_of_mem present
  have covers : (rotation.request.tokens.map (·.tokenId)).toFinset =
      ((db.tokensOf vault.pk).map (·.tokenId)).toFinset \ rotation.request.revoke.toFinset := by
    ext id
    rw [survivors, ← same, built.revokes]
    simp only [List.mem_toFinset, List.mem_map, List.mem_filter, decide_eq_true_eq, Finset.mem_sdiff]
    constructor
    · rintro ⟨t, ⟨present, survives⟩, rfl⟩
      exact ⟨⟨t, present, rfl⟩, survives⟩
    · rintro ⟨⟨t, present, rfl⟩, survives⟩
      exact ⟨t, ⟨present, survives⟩, rfl⟩
  unfold checkRotation
  rw [if_neg (by rw [generation, revision, built.fromGeneration, built.fromRevision]; simp), mine, secrets]
  change (checkComplete rotation.request.configs _ >>= _) = _
  rw [configs]
  change (if _ then _ else _) = _
  rw [if_neg (not_not.mpr inside)]
  change (if _ then _ else _) = _
  rw [if_neg]
  · rfl
  · rw [covers, ← covers, List.toFinset_card_of_nodup each, List.length_map]
    simp

/-! ## What the rotation leaves -/

/-- A version, and the version it was carried over to: both open, to the same name,
format, value, number and write time. -/
def Reopens (d d' : Descriptor) (current next : FullBundle) (kind : RecordKind) (v v' : VersionCols) : Prop :=
  v'.row.version = v.row.version ∧ v'.row.writtenAt = v.row.writtenAt ∧ v'.row.tombstone = v.row.tombstone ∧
    ∃ r, openRecord d current (wire kind) (servedVersion v) = .ok r ∧
      openRecord d' next (wire kind) (servedVersion v') = .ok r

theorem Carried.reopens {d' : Descriptor} {next : FullBundle} {kind : RecordKind} {v : VersionCols} {s : RotatedVersion}
    (carried : Carried d d' current next (wire kind) (servedVersion v) s) (stored : Meta) (ctx : Ctx) (pk : VaultPk) :
    Reopens d d' current next kind v (((rewrittenRow stored ctx s).toInsert d'.generation).cols pk) := by
  obtain ⟨r, rec, opened, version, time, value, _, rfl, sealed⟩ := carried.carried
  have served : servedVersion (((rewrittenRow stored ctx (rotatedVersion (servedVersion v) rec)).toInsert
      d'.generation).cols pk) = rec.served := by
    obtain ⟨kind', nameHmac, nameCt, valueCt, generation, version', writtenAt', sig⟩ := rec
    have numbered : version' = r.version := sealed.numbered
    have written : writtenAt' = r.writtenAt := sealed.written
    have generated : generation = d'.generation := sealed.current
    subst numbered written generated
    rw [version, time]
    cases valueCt <;> rfl
  refine ⟨rfl, rfl, ?_, r, opened, by rw [served]; exact sealed.opens⟩
  change ((rec.valueCt.map _).map _).isNone = _
  rw [Option.isNone_map, Option.isNone_map, sealed.tombstone, value, servedVersion, Option.isNone_map, v.row.tombstone_eq]

omit [Crypto] [Ed25519] in
/-- The versions of a kind after a batch are its entries. -/
theorem Replaced.versionsIn {kind : RecordKind} {pk : VaultPk} {generation : Nat} {rows : List Rewritten} {after : Db}
    (replaced : Replaced db after kind pk generation rows) :
    after.versionsIn kind pk = rows.map fun r => (r.toInsert generation).cols pk := by
  have gone : ((db.tables kind).records.rows.filter fun v => !decide (v.vaultPk = pk)).filter
      (fun v => decide (v.vaultPk = pk)) = [] := by
    rw [List.filter_filter, List.filter_eq_nil_iff]
    intro v _
    simp
  have kept : (rows.map fun r => (r.toInsert generation).cols pk).filter (fun v => decide (v.vaultPk = pk)) =
      rows.map fun r => (r.toInsert generation).cols pk := by
    rw [List.filter_eq_self]
    intro v member
    obtain ⟨r, _, rfl⟩ := List.mem_map.mp member
    exact decide_eq_true rfl
  rw [Db.versionsIn, Table.select, replaced.records, List.filter_append, gone, kept, List.nil_append]

/-- A vault after a rotation: every version it had was carried over, and it has no
other. -/
structure CarriedOver (d d' : Descriptor) (current next : FullBundle) (pk : VaultPk) (before after : Db) : Prop where
  every : ∀ kind, ∀ v ∈ before.versionsIn kind pk, ∃ v' ∈ after.versionsIn kind pk, Reopens d d' current next kind v v'
  only : ∀ kind, ∀ v' ∈ after.versionsIn kind pk, ∃ v ∈ before.versionsIn kind pk, Reopens d d' current next kind v v'

theorem applied_carriesOver (built : Built owner status tokens d current given revoke now rotation)
    (holds : Holds owner status tokens d given vault db) {ctx : Ctx} {generation : Nat} {record : JournalRecord}
    {after : Db} (ran : (applyRotationBody vault.pk rotation.request ctx).run db = .ok ((generation, record), after)) :
    CarriedOver d rotation.newDescriptor current rotation.newBundle vault.pk db after := by
  obtain ⟨row, middle, loaded, _, applied, _, rfl⟩ := applyRotationBody_ok ran
  have mine : row.pk = vault.pk := Db.loadVault_pk loaded
  have next : rotation.newDescriptor.generation = rotation.request.fromGeneration + 1 := by
    rw [built.descriptor, built.fromGeneration]
    exact built.generation
  have left (kind : RecordKind) : ({ middle with lastApplied := middle.lastApplied + 1 } : Db).versionsIn kind vault.pk =
      ((batchOf rotation.request kind).map (rewrittenRow (Backend.versionMeta db kind vault.pk) ctx)).map fun r =>
        (r.toInsert rotation.newDescriptor.generation).cols vault.pk := by
    have replaced := ((applyBatch_ok applied).2.rekinded kind).replaced
    rw [mine, ← next] at replaced
    have same : ({ middle with lastApplied := middle.lastApplied + 1 } : Db).versionsIn kind vault.pk =
        middle.versionsIn kind vault.pk := by cases kind <;> rfl
    rw [same, Replaced.versionsIn replaced]
  constructor
  · intro kind v member
    have present : servedVersion v ∈ given (wire kind) :=
      (holds.versions kind).mem_iff.mpr (List.mem_map_of_mem member)
    obtain ⟨s, inBatch, carried⟩ := forall₂_left (built.batch kind) _ present
    refine ⟨_, ?_, carried.reopens (Backend.versionMeta db kind vault.pk) ctx vault.pk⟩
    rw [left kind, List.map_map]
    exact List.mem_map_of_mem inBatch
  · intro kind v' member
    rw [left kind, List.map_map] at member
    obtain ⟨s, inBatch, rfl⟩ := List.mem_map.mp member
    obtain ⟨v, present, carried⟩ := entry_stored built holds kind s inBatch
    exact ⟨v, present, carried.reopens _ ctx vault.pk⟩

/-- The store applies the batch of a vault that has not moved. -/
theorem built_applies (built : Built owner status tokens d current given revoke now rotation)
    (holds : Holds owner status tokens d given vault db) (listed : ∀ id ∈ revoke, ∃ t ∈ tokens, t.tokenId = id)
    (separates : Separates d current rotation.newBundle.nameKey given) (ctx : Ctx) :
    ∃ record after, (applyRotationBody vault.pk rotation.request ctx).run db =
        .ok ((status.generation + 1, record), after) ∧
      CarriedOver d rotation.newDescriptor current rotation.newBundle vault.pk db after := by
  obtain ⟨row, loaded, generation, revision⟩ := holds.stored
  have checked := checkRotation_built built holds listed loaded generation revision
  obtain ⟨record, after, ran⟩ := applyRotationBody_commits holds.sound loaded checked
    (newKeys_nodup built holds separates .secret) (newKeys_nodup built holds separates .config) ctx
  have carried := applied_carriesOver built holds ran
  rw [built.fromGeneration] at ran
  exact ⟨record, after, ran, carried⟩

/-! ## The request -/

/-- The vault as the server authenticated its owner against it: the one the owner's keys
and the descriptor are of, at the revision of the status. -/
structure Known (owner : OwnerKeys) (status : RotationStatus) (d : Descriptor) (vault : VaultRow) : Prop where
  vaultId : vault.vaultId = owner.vaultId
  ownerSignPub : vault.ownerSignPub = owner.signPub
  generation : vault.generation = status.generation
  revision : vault.revision = status.revision
  decodes : vault.descriptor.decodeUnverified = .ok d
  names : d.vaultId = owner.vaultId
  described : d.generation = status.generation

omit [Crypto] [Digests] [Ed25519] in
theorem forM_ok {ε α : Type} {f : α → Except ε Unit} {l : List α} (each : ∀ a ∈ l, f a = .ok ()) : l.forM f = .ok () := by
  induction l with
  | nil => rfl
  | cons a l inductionHypothesis =>
    change (f a >>= fun _ => l.forM f) = _
    rw [each a List.mem_cons_self]
    exact inductionHypothesis fun b member => each b (List.mem_cons_of_mem _ member)

/-- The new descriptor is the owner's, and follows the current one. -/
theorem descriptor_accepted (correct : Correct) (built : Built owner status tokens d current given revoke now rotation)
    (known : Known owner status d vault) (below : status.generation + 1 < 2 ^ 32) (low : -2 ^ 63 ≤ now)
    (high : now < 2 ^ 63) :
    rotation.request.descriptor.verifyFor vault.vaultId vault.ownerSignPub = .ok rotation.newDescriptor ∧
      rotation.newDescriptor.follows d = true := by
  have generation : rotation.newDescriptor.generation = status.generation + 1 := by
    rw [built.descriptor]
    exact built.generation
  have mine : rotation.newDescriptor.vaultId = owner.vaultId := by rw [built.descriptor]; rfl
  have created : rotation.newDescriptor.createdAt = now := by rw [built.descriptor]; rfl
  constructor
  · rw [built.signed, known.vaultId, known.ownerSignPub]
    exact verifyFor_signDescriptor correct owner mine (by omega) (by omega) (by omega)
  · have linked : rotation.newDescriptor.prevHash = d.hash := by rw [built.descriptor]; rfl
    have follows : rotation.newDescriptor.checkFollows d = .ok () := by
      rw [Descriptor.checkFollows, if_neg (by rw [mine, known.names]; simp),
        if_neg (by rw [generation, known.described]; omega), if_neg (not_not.mpr linked)]
    rw [Descriptor.follows, follows]
    rfl

/-- Every record of the batch is signed by the new generation's writer for its kind, and
every value is age ciphertext. -/
theorem records_accepted (built : Built owner status tokens d current given revoke now rotation) (kind : RecordKind) :
    verifyVersions owner.vaultId (status.generation + 1) kind (Client.writerPub rotation.newDescriptor (wire kind))
        (batchOf rotation.request kind) = .ok () ∧
      ∀ s ∈ batchOf rotation.request kind, ∀ value ∈ s.valueCt, ageHeader <+: value.bytes := by
  have generation : rotation.newDescriptor.generation = status.generation + 1 := by
    rw [built.descriptor]
    exact built.generation
  have mine : rotation.newDescriptor.vaultId = owner.vaultId := by rw [built.descriptor]; rfl
  constructor
  · refine forM_ok fun s member => ?_
    obtain ⟨v, _, carried⟩ := forall₂_right (built.batch kind) s member
    obtain ⟨r, rec, _, version, time, _, _, rfl, sealed⟩ := carried.carried
    have verifies := sealed.verifies
    rw [sealed.numbered, sealed.written, version, time, mine, generation] at verifies
    have value : ((rotatedVersion v rec).valueCt.map (·.bytes)) = rec.valueCt := by
      rw [rotatedVersion]
      cases rec.valueCt <;> rfl
    rw [value]
    exact verifies
  · intro s member value present
    obtain ⟨v, _, carried⟩ := forall₂_right (built.batch kind) s member
    obtain ⟨r, rec, _, _, _, _, _, rfl, sealed⟩ := carried.carried
    rw [rotatedVersion, Option.mem_map] at present
    obtain ⟨ct, inside, rfl⟩ := present
    exact sealed.age ct inside

/-- Every bundle of the batch is the owner's, for the token's stored scope. -/
theorem resealed_accepted (built : Built owner status tokens d current given revoke now rotation)
    (holds : Holds owner status tokens d given vault db) (known : Known owner status d vault) :
    verifyResealed vault (status.generation + 1) (db.tokensOf vault.pk) rotation.request.tokens = .ok () := by
  refine forM_ok fun b member => ?_
  obtain ⟨t, survivor, resealed⟩ := forall₂_right built.resealed b member
  obtain ⟨row, stored, lists⟩ := forall₂_right holds.listed t (List.mem_filter.mp survivor).1
  obtain ⟨scope, knows, verifies⟩ := resealed.verifies
  have scopeSame : row.scope = scope := by
    rcases lists.scope with same | ⟨name, unknown⟩
    · exact TokenScope.known.inj (same.symm.trans knows)
    · rw [knows] at unknown
      cases unknown
  have found : (db.tokensOf vault.pk).find? (fun row => row.tokenId = b.tokenId) = some row := by
    cases first : (db.tokensOf vault.pk).find? (fun row => row.tokenId = b.tokenId) with
    | none => exact absurd (decide_eq_true (lists.same.symm.trans resealed.same.symm)) (List.find?_eq_none.mp first row stored)
    | some other =>
      have named : other.tokenId = b.tokenId := by simpa using List.find?_some first
      rw [List.inj_on_of_nodup_map (tokensOf_distinct db vault.pk) (List.mem_of_find?_eq_some first) stored
        (named.trans (resealed.same.trans lists.same))]
  rw [found]
  dsimp only
  rw [known.ownerSignPub, known.vaultId, resealed.same, scopeSame, verifies]
  rfl

/-- What the handler of a rotation answers when its store call is answered so. -/
def answered : Except StoreError Nat → Except CoreError CoreResponse
  | .ok generation => .ok (.json 200 (.rotation generation))
  | .error failure => .error (.ofStore failure)

/-- An operation of the request meets the vault as its owner has read it, and a disk that
reads. -/
structure Meets {σ : Type} (owner : OwnerKeys) (status : RotationStatus) (tokens : List ListedToken) (d : Descriptor)
    (given : RecordCode → List SecretVersion) (vault : VaultRow) (env : Env σ) (world : World σ) : Prop where
  disk : env.disk = .ok ()
  holds : Holds owner status tokens d given vault world.db

/-- The handler's checks done, what is left of it. -/
theorem rotate_eq [Bodies] (correct : Correct) (built : Built owner status tokens d current given revoke now rotation)
    (known : Known owner status d vault) (below : status.generation + 1 < 2 ^ 32) (low : -2 ^ 63 ≤ now)
    (high : now < 2 ^ 63) (expiresAt : Option Int) {body : List UInt8}
    (parsed : Bodies.rotation body = .ok rotation.request) :
    Server.rotate ⟨vault, .owner, expiresAt⟩ body = (do
      let tokens ← Handler.read (Db.tokensOf · vault.pk)
      Handler.check (verifyResealed vault (status.generation + 1) tokens rotation.request.tokens)
      let now ← Handler.now
      let generation ← Handler.store (.applyRotation vault.pk rotation.request ⟨.owner, now⟩)
      pure (.json 200 (.rotation generation))) := by
  obtain ⟨verified, follows⟩ := descriptor_accepted correct built known below low high
  have generation : rotation.newDescriptor.generation = status.generation + 1 := by
    rw [built.descriptor]
    exact built.generation
  obtain ⟨secrets, secretsAge⟩ := records_accepted built .secret
  obtain ⟨configs, configsAge⟩ := records_accepted built .config
  have age : ¬ (rotation.request.secrets ++ rotation.request.configs).any
      (fun s => (s.valueCt.map fun v => !decide (ageHeader <+: v.bytes)).getD false) := by
    simp only [List.any_eq_true, not_exists, not_and, Bool.not_eq_true]
    intro s member
    cases value : s.valueCt with
    | none => rfl
    | some ct =>
      have starts : ageHeader <+: ct.bytes := by
        rcases List.mem_append.mp member with inSecrets | inConfigs
        · exact secretsAge s inSecrets ct value
        · exact configsAge s inConfigs ct value
      simp [starts]
  have current' : (⟨vault, .owner, expiresAt⟩ : Caller).descriptor = .ok d := by
    rw [Caller.descriptor, known.decodes]
    rfl
  have keys : rotation.newDescriptor.secretWriterPub = Client.writerPub rotation.newDescriptor .secret := rfl
  have keys' : rotation.newDescriptor.configWriterPub = Client.writerPub rotation.newDescriptor .config := rfl
  unfold Server.rotate
  rw [show require ⟨vault, .owner, expiresAt⟩ .owner .vaultRotate none = pure () from rfl,
    show json (Bodies.rotation body) "rotation batch" = pure rotation.request by rw [parsed]; rfl]
  change (if _ then _ else _) = _
  rw [if_neg age]
  dsimp only
  rw [if_neg (by rw [known.generation, known.revision, built.fromGeneration, built.fromRevision]; simp), current']
  change (Handler.integrity _ >>= _) = _
  rw [verified]
  change (if _ then _ else _) = _
  rw [if_neg (not_not.mpr follows), generation, known.vaultId]
  have first : Handler.integrity (verifyVersions owner.vaultId (status.generation + 1) .secret
      rotation.newDescriptor.secretWriterPub rotation.request.secrets) = pure () := congrArg Handler.integrity secrets
  have second : Handler.integrity (verifyVersions owner.vaultId (status.generation + 1) .config
      rotation.newDescriptor.configWriterPub rotation.request.configs) = pure () := congrArg Handler.integrity configs
  have third : Handler.integrity (rotation.request.ownerBundle.verify vault.ownerSignPub owner.vaultId ownerTokenId
      ownerScopeCode (status.generation + 1)) = pure () := by
    rw [known.ownerSignPub]
    exact congrArg Handler.integrity built.ownerBundle
  rw [first]
  change (Handler.integrity _ >>= _) = _
  rw [second]
  change (Handler.integrity _ >>= _) = _
  rw [third]
  rfl

/-- Served by a vault that has not moved, the request goes through every check of the
handler to the store, and is answered as the store answers. -/
theorem rotate_answered [Bodies] {σ : Type} (correct : Correct)
    (built : Built owner status tokens d current given revoke now rotation) (known : Known owner status d vault)
    (below : status.generation + 1 < 2 ^ 32) (low : -2 ^ 63 ≤ now) (high : now < 2 ^ 63) (expiresAt : Option Int)
    {body : List UInt8} (parsed : Bodies.rotation body = .ok rotation.request) {moments : List (Moment (World σ))}
    {result : Except CoreError CoreResponse}
    (executes : Executes (fun _ => perform) (Meets owner status tokens d given vault)
      (Server.rotate ⟨vault, .owner, expiresAt⟩ body) moments result) :
    ∃ (env : Env σ) (world : World σ) (ctx : Ctx), Meets owner status tokens d given vault env world ∧
      result = answered (applyRotation env.disk env.hook vault.pk rotation.request ctx world.db world.journal).1 := by
  rw [rotate_eq correct built known below low high expiresAt parsed] at executes
  change Executes _ _ (.perform (Op.read fun db => db.tokensOf vault.pk) _) _ _ at executes
  cases executes with
  | perform _ _ env world moments _ met goes =>
    have answer : (perform env (Op.read fun db => db.tokensOf vault.pk) world).1 = .ok (world.db.tokensOf vault.pk) := by
      simp only [perform, met.disk]
      rfl
    rw [answer] at goes
    change Executes _ _ (Handler.check (verifyResealed vault (status.generation + 1) (world.db.tokensOf vault.pk)
      rotation.request.tokens) >>= _) _ _ at goes
    rw [resealed_accepted built met.holds known] at goes
    change Executes _ _ (.perform Op.now _) _ _ at goes
    cases goes with
    | perform _ _ env world moments _ met goes =>
      change Executes _ _ (.perform (Op.write (.applyRotation vault.pk rotation.request _)) _) _ _ at goes
      cases goes with
      | perform _ _ env' world moments _ met goes =>
        refine ⟨env', world, ⟨.owner, env.now⟩, met, ?_⟩
        change Executes _ _ (Handler.orError (applyRotation env'.disk env'.hook vault.pk rotation.request
          ⟨.owner, env.now⟩ world.db world.journal).1 >>= _) _ _ at goes
        cases answer : (applyRotation env'.disk env'.hook vault.pk rotation.request ⟨.owner, env.now⟩ world.db
          world.journal).1 with
        | ok generation =>
          rw [answer] at goes
          cases goes
          rfl
        | error failure =>
          rw [answer] at goes
          cases goes
          rfl

/-- What the owner brings to a rotation: the current keys, every version as its writers
wrote it, tokens to keep whose scopes it knows, tokens to revoke that are listed, and a
fresh name key that gives no two of the names one index. -/
structure Rotatable (status : RotationStatus) (tokens : List ListedToken) (d : Descriptor) (current : FullBundle)
    (given : RecordCode → List SecretVersion) (revoke : List TokenId) (now : Int) (draws : Draws) : Prop where
  held : current.generation = status.generation
  names : current.Names d
  below : status.generation + 1 < 2 ^ 32
  low : -2 ^ 63 ≤ now
  high : now < 2 ^ 63
  visible : status.tokens = some tokens
  scopes : ∀ t ∈ tokens, t.tokenId ∉ revoke → t.scope.isKnown = true
  revokes : ∀ id ∈ revoke, ∃ t ∈ tokens, t.tokenId = id
  written : ∀ kind, ∀ v ∈ given kind, Written d current kind v
  separates : Separates d current ⟨draws.keys.nameKey⟩ given

omit [Crypto] [Digests] [Ed25519] in
/-- A critical operation whose body commits is accepted unless its hook or the commit
fails. -/
theorem writeCritical_accepts {α σ : Type} {disk : Except String Unit} {hook : CommitHook σ}
    {body : Tx (α × JournalRecord)} {journal : σ} {value : α} {record : JournalRecord} {after : Db}
    (ran : body.run db = .ok ((value, record), after)) (hooked : (hook record journal).1 = .ok ())
    (commits : commit disk after = .ok ()) :
    (writeCritical disk hook body db journal).1 = .ok value ∧ (writeCritical disk hook body db journal).2.1 = after := by
  obtain ⟨outcome, left⟩ : ∃ outcome, hook record journal = outcome := ⟨_, rfl⟩
  obtain ⟨answer, next⟩ := outcome
  rw [left] at hooked
  obtain rfl : answer = .ok () := hooked
  unfold writeCritical
  rw [ran]
  dsimp only
  rw [left]
  dsimp only
  rw [commits]
  exact ⟨rfl, rfl⟩

end

/-- Client and server agree on a rotation. Of a vault whose records its writers wrote, a
batch is built; served by the vault as its owner read it, the request passes every check
of the handler and of the store, which then leaves every version opening under the new
keys to what it was. And a version that does not verify and open is in no batch. -/
theorem rotation_agreed [Crypto] [Digests] [Ed25519] [Bodies] {σ : Type} (correct : Correct) (owner : OwnerKeys)
    (status : RotationStatus) (tokens : List ListedToken) (d : Descriptor) (current : FullBundle)
    (given : RecordCode → List SecretVersion) (revoke : List TokenId) (now : Int) (draws : Draws) (vault : VaultRow) :
    (Known owner status d vault → Rotatable status tokens d current given revoke now draws →
      ∃ rotation, buildRotation owner status d current (given .secret) (given .config) revoke now draws = .ok rotation ∧
        (∀ db, Holds owner status tokens d given vault db → ∀ ctx, ∃ record after,
          (applyRotationBody vault.pk rotation.request ctx).run db = .ok ((status.generation + 1, record), after) ∧
            CarriedOver d rotation.newDescriptor current rotation.newBundle vault.pk db after) ∧
        ∀ (expiresAt : Option Int) (body : List UInt8) (moments : List (Moment (World σ)))
          (result : Except CoreError CoreResponse), Bodies.rotation body = .ok rotation.request →
          Executes (fun _ => perform) (Meets owner status tokens d given vault)
            (Server.rotate ⟨vault, .owner, expiresAt⟩ body) moments result →
          ∃ (env : Env σ) (world : World σ) (ctx : Ctx) (record : JournalRecord) (after : Db),
            Meets owner status tokens d given vault env world ∧
            (applyRotationBody vault.pk rotation.request ctx).run world.db = .ok ((status.generation + 1, record), after) ∧
            result = answered (applyRotation env.disk env.hook vault.pk rotation.request ctx world.db world.journal).1 ∧
            ((env.hook record world.journal).1 = .ok () → commit env.disk after = .ok () →
              result = .ok (.json 200 (.rotation (status.generation + 1))) ∧
              (applyRotation env.disk env.hook vault.pk rotation.request ctx world.db world.journal).2.1 = after)) ∧
      ∀ kind, ∀ v ∈ given kind, (∀ r, openRecord d current kind v ≠ .ok r) →
        ∀ rotation, buildRotation owner status d current (given .secret) (given .config) revoke now draws ≠ .ok rotation := by
  constructor
  · intro known rotatable
    have described : d.generation = status.generation := known.described
    obtain ⟨rotation, buildsOk, built⟩ := buildRotation_of_written correct owner status tokens d current given revoke now
      draws rotatable.held described rotatable.below rotatable.names rotatable.visible rotatable.scopes rotatable.revokes
      rotatable.written
    have separates : Separates d current rotation.newBundle.nameKey given := by
      rw [(buildRotation_ok buildsOk).1]
      exact rotatable.separates
    refine ⟨rotation, buildsOk, fun db holds ctx => built_applies built holds rotatable.revokes separates ctx, ?_⟩
    intro expiresAt body moments result parsed executes
    obtain ⟨env, world, ctx, met, same⟩ := rotate_answered correct built known rotatable.below rotatable.low rotatable.high
      expiresAt parsed executes
    obtain ⟨record, after, ran, _⟩ := built_applies built met.holds rotatable.revokes separates ctx
    refine ⟨env, world, ctx, record, after, met, ran, same, fun hooked commits => ?_⟩
    obtain ⟨accepted, left⟩ := writeCritical_accepts ran hooked commits
    refine ⟨?_, left⟩
    rw [same, applyRotation, accepted]
    rfl
  · intro kind v member closed rotation built
    obtain ⟨secrets, configs⟩ := opens_of_built built
    obtain ⟨r, opened⟩ : ∃ r, openRecord d current kind v = .ok r := by
      cases kind with
      | secret => exact secrets v member
      | config => exact configs v member
    exact closed r opened

theorem plain_correct : @Correct plain plainVerify := by
  let _ := plain
  let _ := plainVerify
  constructor
  · intro seed message
    exact decide_eq_true rfl
  · intro key nonce aad message ct encrypted
    exact (show some message = some ct from encrypted).symm
  · intro key nonce aad message ct _ key' nonce' aad'
    exact ⟨message, rfl⟩
  · intro draw recipient message _
    exact ⟨message, rfl⟩
  · exact fun _ => rfl
  · exact fun _ => rfl
  · intro draw secret message
    exact ⟨_, rfl, List.prefix_append _ _, congrArg some List.drop_left⟩

/-! ## A vault with one secret -/

/-- The secret "A" with one byte of value. -/
def oneSecret : OpenedRecord := ⟨"A", 1, 4, none, some [7]⟩

def oneWritten : WrittenRecord :=
  let _ := plain
  let _ := checksum
  ((listedBundle.writer listedDescriptor .secret).write ⟨.fill 24 1, .fill 32 1⟩ .secret oneSecret).toOption.get
    (by decide +kernel)

/-- The vault of the owner's keys, and the secret in it. -/
def oneSecretDb : Db :=
  let _ := plain
  let _ := checksum
  (Backend.run (⟨Db.empty, ()⟩ : World Unit)
    [.createVault (.ok ())
        { vaultId := listedOwner.vaultId, ownerSignPub := listedOwner.signPub, ownerBoxPub := listedOwner.boxPub,
          descriptor := listedOwner.signDescriptor listedDescriptor, ownerBundle := ⟨⟨[1]⟩, ⟨.fill 64 1⟩⟩ } 1,
      .putRecord (.ok ()) 1 .secret oneWritten.nameHmac .ifNoneMatch
        { nameCt := oneWritten.nameCt, valueCt := oneWritten.valueCt, generation := 1, version := 1,
          writtenAt := oneWritten.writtenAt, sig := oneWritten.sig } ⟨.owner, 4⟩ .default]).db

/-- What the owner is given of it. -/
def oneGiven : RecordCode → List SecretVersion
  | .secret => [oneWritten.served]
  | .config => []

def oneStatus : RotationStatus := ⟨1, 2, some []⟩

theorem oneGiven_written :
    letI := plain
    letI := checksum
    ∀ kind, ∀ v ∈ oneGiven kind, Written listedDescriptor listedBundle kind v := by
  let _ := plain
  let _ := checksum
  intro kind v member
  cases kind with
  | secret =>
    obtain rfl := List.mem_singleton.mp member
    refine ⟨⟨.fill 24 1, .fill 32 1⟩, oneSecret, oneWritten, ⟨by decide, by decide, by decide, rfl⟩, by decide +kernel, rfl⟩
  | config => cases member

theorem oneSecret_holds :
    letI := plain
    letI := checksum
    ∃ vault, Known listedOwner oneStatus listedDescriptor vault ∧ vault.pk = 1 ∧
      Holds listedOwner oneStatus [] listedDescriptor oneGiven vault oneSecretDb := by
  let _ := plain
  let _ := checksum
  have present : (oneSecretDb.loadVault 1).isSome = true := by decide +kernel
  obtain ⟨vault, loaded⟩ := Option.isSome_iff_exists.mp present
  have number : vault.pk = 1 := Db.loadVault_pk loaded
  have seen : (oneSecretDb.loadVault 1).map (fun v => (v.vaultId, v.ownerSignPub, v.generation, v.revision, v.descriptor)) =
      some (listedOwner.vaultId, listedOwner.signPub, 1, 2, listedOwner.signDescriptor listedDescriptor) := by
    decide +kernel
  rw [loaded, Option.map_some, Option.some.injEq] at seen
  simp only [Prod.mk.injEq] at seen
  obtain ⟨vaultId, ownerSignPub, generation, revision, descriptor⟩ := seen
  refine ⟨vault, ⟨vaultId, ownerSignPub, generation, revision, ?_, rfl, rfl⟩, number, ?_⟩
  · rw [descriptor]
    exact decode_encode _ (by decide) (by decide) (by decide)
  · constructor
    case stored => exact ⟨vault, by rw [number]; exact loaded, generation, revision⟩
    case sound =>
      rw [number]
      exact ⟨by decide +kernel, (run_log () _).chained⟩
    case listed =>
      have none : oneSecretDb.tokensOf 1 = [] := by decide +kernel
      rw [number, none]
      exact .nil
    case versions =>
      intro kind
      rw [number]
      have same : oneGiven (wire kind) = (oneSecretDb.versionsIn kind 1).map servedVersion := by
        cases kind <;> decide +kernel
      rw [same]

/-- The rotation of the vault with one secret. -/
theorem one_secret_rotated :
    letI := plain
    letI := checksum
    letI := plainVerify
    ∃ rotation, buildRotation listedOwner oneStatus listedDescriptor listedBundle (oneGiven .secret) (oneGiven .config) []
        5 (.filled 2) = .ok rotation ∧
      ∃ record after, (applyRotationBody 1 rotation.request ⟨.owner, 9⟩).run oneSecretDb = .ok ((2, record), after) ∧
        CarriedOver listedDescriptor rotation.newDescriptor listedBundle rotation.newBundle 1 oneSecretDb after := by
  let _ := plain
  let _ := checksum
  let _ := plainVerify
  obtain ⟨vault, known, number, holds⟩ := oneSecret_holds
  have rotatable : Rotatable oneStatus [] listedDescriptor listedBundle oneGiven [] 5 (.filled 2) := by
    refine ⟨rfl, ⟨rfl, rfl, rfl, rfl⟩, by decide, by decide, by decide, rfl, ?_, ?_, oneGiven_written, ?_⟩
    · intro t member
      cases member
    · intro id member
      cases member
    · intro kind v member w member' r r' opened opened' _
      cases kind with
      | secret =>
        obtain rfl := List.mem_singleton.mp member
        obtain rfl := List.mem_singleton.mp member'
        rw [Except.ok.inj (opened.symm.trans opened')]
      | config => cases member
  obtain ⟨rotation, built, applies, _⟩ := (@rotation_agreed plain checksum plainVerify oneByte Unit plain_correct listedOwner
    oneStatus [] listedDescriptor listedBundle oneGiven [] 5 (.filled 2) vault).1 known rotatable
  refine ⟨rotation, built, ?_⟩
  rw [← number]
  exact applies oneSecretDb holds ⟨.owner, 9⟩

/-- The vault of a token whose scope the client does not know is not rotated, and no
descriptor follows one of the last generation. -/
theorem rotations_refused :
    letI := plain
    letI := checksum
    letI := plainVerify
    let before := (Backend.run ⟨Db.empty, ()⟩ (listedCalls listedBundle.nameKey)).db
    (∃ row t, before.tokensOf 1 = [row] ∧ Lists row t ∧
      buildRotation listedOwner ⟨1, 2, some [t]⟩ listedDescriptor listedBundle [] [] [] 5 (.filled 2) =
        .error (.unsupportedByClient t.tokenId "future")) ∧
      ∀ next last : Descriptor, last.generation + 1 = 2 ^ 32 → next.follows last = false := by
  let _ := plain
  let _ := checksum
  let _ := plainVerify
  intro before
  constructor
  · have count : (before.tokensOf 1).length = 1 := by decide +kernel
    obtain ⟨row, listed⟩ := List.length_eq_one_iff.mp count
    exact ⟨row, ⟨row.tokenId, .unknown "future", row.boxPub⟩, listed, ⟨rfl, rfl, .inr ⟨_, rfl⟩⟩, rfl⟩
  · intro next last ends
    have full : next.generation ≠ last.generation + 1 ∨ 2 ^ 32 ≤ last.generation + 1 := .inr (by omega)
    rw [Descriptor.follows, Descriptor.checkFollows]
    by_cases vault : next.vaultId = last.vaultId
    · rw [if_neg (not_not.mpr vault), if_pos full]
      rfl
    · rw [if_pos vault]
      rfl

end GalataVault.Client

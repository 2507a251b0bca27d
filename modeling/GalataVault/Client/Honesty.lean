import GalataVault.Client.Batches
import GalataVault.Client.Threads

/-!
# What an honest server answers

A vault goes through generations, each with keys of its own and a descriptor that names
them and the descriptor before. An honest server is at one of them at a time, and
answers with its descriptor, with bundles of its keys, with the descriptors up to it and
with records its writers wrote.

What a handle verifies of such an answer it finds as it should be, if its view is of
the generation the server is at; and otherwise it finds that its view is stale. Neither
accuses the server.
-/

namespace GalataVault.Client

open Proto Interaction Relational
open Server (VaultStatus VersionMeta)

/-! ## The generations of a vault -/

/-- A vault's owner, and the keys of its generations and when they began, those to come
included. -/
structure Lineage where
  owner : OwnerKeys
  keys : Nat → FullBundle
  createdAt : Nat → Int
  numbered : ∀ generation, (keys generation).generation = generation
  low : ∀ generation, -2 ^ 63 ≤ createdAt generation
  high : ∀ generation, createdAt generation < 2 ^ 63

/-- A generation a vault can be at. -/
structure Counted (generation : Nat) : Prop where
  positive : 1 ≤ generation
  below : generation < 2 ^ 32

section

variable [Crypto] [Digests]

namespace Lineage

/-- The descriptor of each generation. -/
def descriptor (lineage : Lineage) : Nat → Descriptor
  | 0 => (lineage.keys 0).descriptor lineage.owner.vaultId ⟨.fill 32 0⟩ (lineage.createdAt 0)
  | 1 => (lineage.keys 1).descriptor lineage.owner.vaultId ⟨.fill 32 0⟩ (lineage.createdAt 1)
  | generation + 2 =>
    (lineage.keys (generation + 2)).descriptor lineage.owner.vaultId (lineage.descriptor (generation + 1)).hash
      (lineage.createdAt (generation + 2))

/-- The descriptor as the owner signed it. -/
def signed (lineage : Lineage) (generation : Nat) : SignedDescriptor :=
  lineage.owner.signDescriptor (lineage.descriptor generation)

variable (lineage : Lineage) (g : Nat)

theorem descriptor_is : ∃ prevHash, lineage.descriptor g =
    (lineage.keys g).descriptor lineage.owner.vaultId prevHash (lineage.createdAt g) := by
  match g with
  | 0 => exact ⟨_, rfl⟩
  | 1 => exact ⟨_, rfl⟩
  | _ + 2 => exact ⟨_, rfl⟩

@[simp] theorem descriptor_generation : (lineage.descriptor g).generation = g := by
  obtain ⟨_, same⟩ := lineage.descriptor_is g
  rw [same]
  exact lineage.numbered g

@[simp] theorem descriptor_vaultId : (lineage.descriptor g).vaultId = lineage.owner.vaultId := by
  obtain ⟨_, same⟩ := lineage.descriptor_is g
  rw [same]
  rfl

theorem names : (lineage.keys g).Names (lineage.descriptor g) := by
  obtain ⟨_, same⟩ := lineage.descriptor_is g
  rw [same]
  exact FullBundle.names_descriptor _ _ _ _

/-- Each descriptor after the first names the one before. -/
theorem linked {g : Nat} (positive : 1 ≤ g) : (lineage.descriptor (g + 1)).prevHash = (lineage.descriptor g).hash := by
  obtain ⟨before, rfl⟩ : ∃ before, g = before + 1 := ⟨g - 1, by omega⟩
  rfl

variable {g}

theorem decodes (below : g < 2 ^ 32) : (lineage.signed g).decodeUnverified = .ok (lineage.descriptor g) := by
  obtain ⟨_, same⟩ := lineage.descriptor_is g
  apply decode_encode
  · rw [descriptor_generation]
    exact below
  · rw [same]
    exact lineage.low g
  · rw [same]
    exact lineage.high g

variable [Ed25519]

theorem verifies (correct : Correct) (below : g < 2 ^ 32) :
    (lineage.signed g).verifyFor lineage.owner.vaultId lineage.owner.signPub = .ok (lineage.descriptor g) := by
  obtain ⟨_, same⟩ := lineage.descriptor_is g
  apply verifyFor_signDescriptor correct
  · exact lineage.descriptor_vaultId g
  · rw [descriptor_generation]
    exact below
  · rw [same]
    exact lineage.low g
  · rw [same]
    exact lineage.high g

end Lineage

/-- The view is of a generation, with the keys of some scope. -/
def Lineage.Sees (lineage : Lineage) (g : Nat) (v : View) : Prop :=
  v.descriptor = lineage.descriptor g ∧ ∃ scope, v.bundle = Bundle.forScope (lineage.keys g) scope

/-- The handle is on the vault. -/
structure Lineage.Serves (lineage : Lineage) (handle : Handle) : Prop where
  vaultId : handle.vaultId = lineage.owner.vaultId
  ownerSignPub : handle.ownerSignPub = lineage.owner.signPub
  owner : ∀ owner, handle.holder = .owner owner → owner = lineage.owner
  token : ∀ token, handle.holder = .token token → token.vaultId = lineage.owner.vaultId

/-! ## What it answers with -/

/-- A record as it is listed. -/
def SecretVersion.listed (v : SecretVersion) (size : Nat) : SecretListItem where
  nameHmac := v.nameHmac
  nameCt := v.nameCt
  version := v.version
  writtenAt := v.writtenAt
  size := size
  tombstone := v.tombstone
  generation := v.generation
  valueCtHash := Digests.sha256 ((v.valueCt.map (·.bytes)).getD [])
  sig := v.sig

/-- A record as an entry of its history. -/
def SecretVersion.entry (v : SecretVersion) (writtenBy : Actor) (size : Nat) : VersionMeta where
  version := v.version
  writtenAt := v.writtenAt
  writtenBy := writtenBy
  size := size
  tombstone := v.tombstone
  generation := v.generation
  valueCtHash := Digests.sha256 ((v.valueCt.map (·.bytes)).getD [])
  nameCtHash := Digests.sha256 v.nameCt.bytes
  sig := v.sig

/-- What the server answers at a generation: refusals apart, the vault as it is there, and
records that the generation's writers wrote. -/
structure Truthful (handle : Handle) (lineage : Lineage) (now : Nat) (answers : Answers) : Prop where
  status : ∀ s, answers.status = .ok s → s.vaultId = lineage.owner.vaultId ∧ s.ownerSignPub = lineage.owner.signPub ∧
    s.ownerBoxPub = lineage.owner.boxPub ∧ s.generation = now ∧ s.descriptor = lineage.signed now ∧
    ∀ signed, s.ownerBundle = some signed → ∃ draw, sealOwnerBundle lineage.owner draw (lineage.keys now) = .ok signed
  tokenSelf : ∀ me, answers.tokenSelf = .ok me → me.vaultId = lineage.owner.vaultId ∧
    me.ownerSignPub = lineage.owner.signPub ∧ me.descriptor = lineage.signed now ∧
    ∀ token, handle.holder = .token token → me.tokenId = token.id ∧ ∀ scope, me.scope = .known scope →
      ∃ draw, sealForScope lineage.owner draw token.boxPub token.id scope (lineage.keys now) = .ok me.bundle
  descriptors : ∀ after list, answers.descriptors after = .ok list →
    list = (List.range' (after + 1) (now - after)).map lineage.signed
  list : ∀ kind after page, answers.list kind after = .ok page → ∀ item ∈ page.items, ∃ v size,
    Written (lineage.descriptor now) (lineage.keys now) kind v ∧ item = v.listed size
  versions : ∀ kind index list, answers.versions kind index = .ok list → ∀ m ∈ list, ∃ v writtenBy size,
    Written (lineage.descriptor now) (lineage.keys now) kind v ∧ v.nameHmac = index ∧ m = v.entry writtenBy size
  record : ∀ kind index version v, answers.record kind index version = .ok v →
    Written (lineage.descriptor now) (lineage.keys now) kind v ∧ v.nameHmac = index ∧
      ∀ wanted, version = some wanted → v.version = wanted
  write : ∀ written pre version, answers.write written pre = .ok version → version = written.version

end

/-! ## What a handle finds -/

section

variable [Crypto] [Digests] [Ed25519] {lineage : Lineage} {g now : Nat}

/-- A check that does not accuse the server: it passes, or finds something else. -/
def Fine {α : Type} (result : Except Error α) : Prop := ∀ e, result = .error e → e.accuses = false

omit [Crypto] [Digests] [Ed25519] in
theorem Fine.ok {α : Type} (value : α) : Fine (.ok value) := fun _ impossible => by cases impossible

/-- What is found of something of one generation under the keys of another: that the
generation moved; and under its own, nothing amiss. -/
structure Told {α : Type} (now g : Nat) (result : Except Error α) : Prop where
  current : now = g → ∃ value, result = .ok value
  moved : now ≠ g → result = .error .staleGeneration

omit [Crypto] [Digests] [Ed25519] in
theorem Told.fine {α : Type} {now g : Nat} {result : Except Error α} (told : Told now g result) : Fine result := by
  by_cases current : now = g
  · obtain ⟨value, passed⟩ := told.current current
    rw [passed]
    exact Fine.ok value
  · rw [told.moved current]
    intro e same
    obtain rfl := Except.error.inj same
    rfl

/-- What was written at a generation is sealed as it should be. -/
theorem sealed_of_written (correct : Correct) (counted : Counted now) {kind : RecordCode} {v : SecretVersion}
    (written : Written (lineage.descriptor now) (lineage.keys now) kind v) :
    ∃ r rec, v = rec.served ∧ Sealed (lineage.descriptor now) (lineage.keys now) kind r rec := by
  obtain ⟨draw, r, rec, fits, wrote, served⟩ := written
  refine ⟨r, rec, served, sealed_of_write correct fits wrote (lineage.names now) ?_⟩
  rw [Lineage.descriptor_generation]
  exact counted.below

omit [Ed25519] in
/-- The generation of a record is checked first. -/
theorem checkGeneration_lineage (generation : Nat) : checkGeneration (lineage.descriptor g) generation =
    if generation ≠ g then .error (.staleGeneration g generation) else .ok () := by
  unfold checkGeneration
  rw [Lineage.descriptor_generation]

omit [Ed25519] in
/-- A verification under the keys of another generation ends before anything is verified. -/
theorem stale_moved {α : Type} (rest : Unit → Except SealError α) {generation : Nat} (moved : generation ≠ g) :
    (checkGeneration (lineage.descriptor g) generation >>= rest).mapError Error.sealing = .error Error.staleGeneration := by
  rw [checkGeneration_lineage, if_pos moved]
  rfl

theorem verifyVersion_told (correct : Correct) (counted : Counted now) {kind : RecordCode} {v : SecretVersion}
    (written : Written (lineage.descriptor now) (lineage.keys now) kind v) :
    Told now g ((verifyVersion (lineage.descriptor g) kind v).mapError .sealing) := by
  obtain ⟨r, rec, rfl, sealed⟩ := sealed_of_written correct counted written
  have generation : rec.generation = now := by rw [sealed.current, Lineage.descriptor_generation]
  constructor
  · rintro rfl
    rw [verifyVersion_served sealed.current sealed.verifies]
    exact ⟨(), rfl⟩
  · intro moved
    exact stale_moved _ fun same => moved (generation.symm.trans same)

omit [Crypto] [Digests] [Ed25519] in
theorem served_value (rec : WrittenRecord) : (rec.served.valueCt.map (·.bytes)) = rec.valueCt := by
  cases value : rec.valueCt <;> simp [WrittenRecord.served, value]

/-- The hashes of a record that was written are signed. -/
theorem hashes_verify {kind : RecordCode} {r : OpenedRecord} {rec : WrittenRecord}
    (sealed : Sealed (lineage.descriptor g) (lineage.keys g) kind r rec) :
    RecordContext.verify
      { vaultId := (lineage.descriptor g).vaultId, generation := rec.served.generation, kind := kind,
        nameIndex := rec.served.nameHmac, version := rec.served.version, writtenAt := rec.served.writtenAt,
        tombstone := rec.served.tombstone,
        valueCtHash := Digests.sha256 ((rec.served.valueCt.map (·.bytes)).getD []),
        nameCtHash := Digests.sha256 rec.served.nameCt.bytes }
      (writerPub (lineage.descriptor g) kind) rec.served.sig = .ok () := by
  rw [served_value, show rec.served.generation = (lineage.descriptor g).generation from sealed.current]
  exact sealed.verifies

theorem verifyListed_told (correct : Correct) (counted : Counted now) {kind : RecordCode} {v : SecretVersion}
    (written : Written (lineage.descriptor now) (lineage.keys now) kind v) (size : Nat) :
    Told now g ((verifyListed (lineage.descriptor g) kind (v.listed size)).mapError .sealing) := by
  obtain ⟨r, rec, rfl, sealed⟩ := sealed_of_written correct counted written
  have generation : rec.generation = now := by rw [sealed.current, Lineage.descriptor_generation]
  constructor
  · rintro rfl
    have passes : verifyListed (lineage.descriptor now) kind (rec.served.listed size) = .ok () := by
      rw [verifyListed, checkGeneration_lineage,
        if_neg (not_not.mpr (show (rec.served.listed size).generation = now from generation))]
      exact (outcome_mapError_ok _ _ _).mpr (hashes_verify sealed)
    rw [passes]
    exact ⟨(), rfl⟩
  · intro moved
    exact stale_moved _ fun same => moved (generation.symm.trans same)

theorem verifyMeta_told (correct : Correct) (counted : Counted now) {kind : RecordCode} {v : SecretVersion}
    (written : Written (lineage.descriptor now) (lineage.keys now) kind v) (writtenBy : Actor) (size : Nat) :
    Told now g ((verifyMeta (lineage.descriptor g) kind v.nameHmac (v.entry writtenBy size)).mapError .sealing) := by
  obtain ⟨r, rec, rfl, sealed⟩ := sealed_of_written correct counted written
  have generation : rec.generation = now := by rw [sealed.current, Lineage.descriptor_generation]
  constructor
  · rintro rfl
    have passes : verifyMeta (lineage.descriptor now) kind rec.served.nameHmac (rec.served.entry writtenBy size) =
        .ok () := by
      rw [verifyMeta, checkGeneration_lineage,
        if_neg (not_not.mpr (show (rec.served.entry writtenBy size).generation = now from generation))]
      exact (outcome_mapError_ok _ _ _).mpr (hashes_verify sealed)
    rw [passes]
    exact ⟨(), rfl⟩
  · intro moved
    exact stale_moved _ fun same => moved (generation.symm.trans same)

omit [Crypto] [Digests] [Ed25519] in
/-- The keys of a scope's bundle are those of the generation. -/
theorem forScope_nameKey (full : FullBundle) (scope : Scope) : (Bundle.forScope full scope).nameKey = full.nameKey := by
  cases scope <;> rfl

omit [Crypto] [Digests] [Ed25519] in
theorem forScope_vaultSecret {full : FullBundle} {scope : Scope} {secret : VaultSecret}
    (held : (Bundle.forScope full scope).vaultSecret = some secret) : secret = full.vaultSecret := by
  cases scope <;> cases held <;> rfl

omit [Crypto] [Digests] [Ed25519] in
theorem forScope_configSecret {full : FullBundle} {scope : Scope} {secret : ConfigSecret}
    (held : (Bundle.forScope full scope).configSecret = some secret) : secret = full.configSecret := by
  cases scope <;> cases held <;> rfl

/-- The name of a listed record is opened with the keys of its generation. -/
theorem openName_written (correct : Correct) (counted : Counted now) {kind : RecordCode} {v : SecretVersion}
    (written : Written (lineage.descriptor now) (lineage.keys now) kind v) :
    ∃ name, openName (lineage.descriptor now) (lineage.keys now).nameKey kind v.nameHmac v.nameCt.bytes = .ok name := by
  obtain ⟨r, rec, rfl, sealed⟩ := sealed_of_written correct counted written
  have opens := sealed.opens
  cases kind with
  | secret =>
    obtain ⟨_, _, opens⟩ := except_bind_ok opens
    obtain ⟨name, named, _⟩ := except_bind_ok opens
    exact ⟨name, named⟩
  | config =>
    obtain ⟨_, _, opens⟩ := except_bind_ok opens
    obtain ⟨name, named, _⟩ := except_bind_ok opens
    exact ⟨name, named⟩

/-- A record is opened with the keys of its generation, its value if it has one. -/
theorem openRecord_written (correct : Correct) (counted : Counted now) {kind : RecordCode} {v : SecretVersion}
    (written : Written (lineage.descriptor now) (lineage.keys now) kind v) :
    ∃ r, openRecord (lineage.descriptor now) (lineage.keys now) kind v = .ok r ∧ r.Fits kind ∧
      r.value.isNone = v.valueCt.isNone := by
  obtain ⟨draw, r, rec, fits, wrote, rfl⟩ := written
  have below : (lineage.descriptor now).generation < 2 ^ 32 := by
    rw [Lineage.descriptor_generation]
    exact counted.below
  have sealed := sealed_of_write correct fits wrote (lineage.names now) below
  refine ⟨r, sealed.opens, fits, ?_⟩
  rw [← sealed.tombstone]
  cases value : rec.valueCt <;> simp [WrittenRecord.served, value]

theorem openRecord_told (correct : Correct) (counted : Counted now) {kind : RecordCode} {v : SecretVersion}
    (written : Written (lineage.descriptor now) (lineage.keys now) kind v) :
    Told now g ((openRecord (lineage.descriptor g) (lineage.keys g) kind v).mapError .sealing) := by
  constructor
  · rintro rfl
    obtain ⟨r, opens, _⟩ := openRecord_written correct counted written
    rw [opens]
    exact ⟨r, rfl⟩
  · intro moved
    obtain ⟨r, rec, rfl, sealed⟩ := sealed_of_written correct counted written
    have generation : rec.served.generation ≠ g := by
      rw [show rec.served.generation = _ from sealed.current, Lineage.descriptor_generation]
      exact moved
    have stale : verifyVersion (lineage.descriptor g) kind rec.served = .error (.staleGeneration g rec.served.generation) := by
      rw [verifyVersion, checkGeneration_lineage, if_pos generation]
      rfl
    cases kind with
    | secret =>
      rw [openRecord, openSecret, stale]
      rfl
    | config =>
      rw [openRecord, openConfigRecord, stale]
      rfl

omit [Ed25519] in
/-- The keys of a scope's bundle are those the generation's descriptor names. -/
theorem forScope_isFor (scope : Scope) :
    (Bundle.forScope (lineage.keys g) scope).isFor (lineage.descriptor g) = true := by
  have names := lineage.names g
  have vault := names.vault
  have config := names.config
  have secretWriter := names.secretWriter
  have configWriter := names.configWriter
  have generation : (Bundle.forScope (lineage.keys g) scope).generation = (lineage.descriptor g).generation := by
    rw [forScope_generation, lineage.numbered, Lineage.descriptor_generation]
  unfold Bundle.isFor
  rw [generation, vault, config, secretWriter, configWriter]
  cases scope <;>
    simp [Bundle.forScope, Bundle.vaultSecret, Bundle.configSecret, Bundle.secretWriter, Bundle.configWriter]

omit [Ed25519] in
/-- An honest server's descriptors after a generation lead to any generation up to its
own. -/
theorem followChain_honest {p reached : Nat} (positive : 1 ≤ p) (pinned : p ≤ reached) (upTo : reached ≤ now) :
    Handle.followChain (lineage.descriptor reached) (.of (lineage.descriptor p))
        ((List.range' (p + 1) (now - p)).map lineage.descriptor) = .ok (.of (lineage.descriptor reached)) := by
  obtain ⟨steps, rfl⟩ : ∃ steps, now = p + steps := ⟨now - p, by omega⟩
  rw [Nat.add_sub_cancel_left]
  induction steps generalizing p with
  | zero =>
    obtain rfl : p = reached := by omega
    rfl
  | succ steps inductionHypothesis =>
    rw [List.range'_succ, List.map_cons, Handle.followChain, Lineage.descriptor_generation, Lineage.descriptor_generation]
    by_cases here : reached = p
    · subst here
      rw [if_pos (Nat.lt_succ_self _)]
    · rw [if_neg (by omega), if_neg]
      · exact inductionHypothesis (by omega) (by omega) (by omega)
      · rintro (skips | breaks)
        · exact skips (by rw [DescriptorPin.of, Lineage.descriptor_generation])
        · exact breaks (lineage.linked positive)

variable [Unsealing]

/-- What the owner is answered: the view of the server's generation. -/
theorem ownerView_honest (correct : Correct) (ideal : Ideal) {handle : Handle} {answers : Answers}
    (truthful : Truthful handle lineage now answers) (counted : Counted now) {s : VaultStatus}
    (answered : answers.status = .ok s) :
    Fine (ownerView lineage.owner s) ∧ ∀ v, ownerView lineage.owner s = .ok v → lineage.Sees now v := by
  obtain ⟨vaultId, signPub, boxPub, generation, descriptor, bundle⟩ := truthful.status s answered
  unfold ownerView
  rw [vaultId, signPub, boxPub, descriptor, generation, lineage.verifies correct counted.below]
  simp only [ne_eq, not_true_eq_false, if_false, Lineage.descriptor_generation]
  cases given : s.ownerBundle with
  | none =>
    constructor
    · intro e same
      obtain rfl := Except.error.inj same
      rfl
    · intro v impossible
      cases impossible
  | some signed =>
    obtain ⟨draw, sealedBundle⟩ := bundle signed given
    have opened := openOwnBundle_sealOwnerBundle ideal sealedBundle
    rw [lineage.numbered] at opened
    simp only [opened]
    have fits : (Bundle.full (lineage.keys now)).isFor (lineage.descriptor now) = true := forScope_isFor .admin
    simp only [fits, not_true_eq_false, if_false]
    refine ⟨Fine.ok _, fun v same => ?_⟩
    obtain rfl := Except.ok.inj same
    exact ⟨rfl, .admin, rfl⟩

/-- What a token is answered. -/
theorem tokenView_honest (correct : Correct) (ideal : Ideal) {handle : Handle} {answers : Answers}
    (truthful : Truthful handle lineage now answers) (counted : Counted now) {token : TokenKeys} {me : TokenSelf}
    (mine : token.vaultId = lineage.owner.vaultId) (holds : handle.holder = .token token)
    (answered : answers.tokenSelf = .ok me) :
    Fine (tokenView token me) ∧ ∀ v signPub, tokenView token me = .ok (v, signPub) →
      lineage.Sees now v ∧ signPub = lineage.owner.signPub := by
  obtain ⟨vaultId, signPub, descriptor, forToken⟩ := truthful.tokenSelf me answered
  obtain ⟨tokenId, bundle⟩ := forToken token holds
  unfold tokenView
  rw [vaultId, tokenId, signPub, descriptor, mine, lineage.verifies correct counted.below]
  simp only [ne_eq, not_true_eq_false, if_false, Lineage.descriptor_generation]
  cases known : me.scope with
  | unknown code =>
    constructor
    · intro e same
      obtain rfl := Except.error.inj same
      rfl
    · intro v signPub impossible
      cases impossible
  | known scope =>
    obtain ⟨draw, sealedBundle⟩ := bundle scope known
    have opened := openBundle_sealForScope ideal mine sealedBundle
    rw [lineage.numbered] at opened
    simp only [opened, forScope_isFor, not_true_eq_false, if_false]
    refine ⟨Fine.ok _, fun v signPub same => ?_⟩
    cases same
    exact ⟨⟨rfl, scope, rfl⟩, rfl⟩

end

end GalataVault.Client

import GalataVault.Client.Rotation
import GalataVault.Library.Transaction
import GalataVault.Proto.Decoding

/-!
# What a writer writes, a reader opens

A record sealed and signed under a descriptor verifies and opens again with the keys
the descriptor names: to the same name, format and value, under the same version and
write time. And what one writer could seal, another can.
-/

namespace GalataVault.Client

open Proto Relational

/-- What the libraries do, on every input a client gives them. -/
structure Correct [Crypto] [Ed25519] : Prop where
  signs : ∀ seed message, Ed25519.verifyStrict (Crypto.verifyingKey seed) message (Crypto.sign seed message) = true
  decrypts : ∀ key nonce aad message ct, Crypto.aeadEncrypt key nonce aad message = some ct →
    Crypto.aeadDecrypt key nonce aad ct = some message
  /-- Whether a message is too long for the cipher is the same under every key. -/
  encrypts : ∀ key nonce aad message ct, Crypto.aeadEncrypt key nonce aad message = some ct →
    ∀ key nonce aad, ∃ ct, Crypto.aeadEncrypt key nonce aad message = some ct
  boxes : ∀ draw recipient message, message.length < 2 ^ 32 → ∃ ct, Crypto.sealBox draw recipient message = some ct
  recipient : ∀ secret, Crypto.ageRecipient (Crypto.x25519Public secret) = true
  identity : ∀ secret, Crypto.ageIdentity secret = true
  ages : ∀ draw secret message, ∃ ct, Crypto.ageEncrypt draw (Crypto.x25519Public secret) message = .ok ct ∧
    utf8 "age-encryption.org/v1\n" <+: ct ∧ Crypto.ageDecrypt secret ct = some message

theorem fixedBytes_ext {n : Nat} {a b : FixedBytes n} (same : a.bytes = b.bytes) : a = b := by
  cases a
  cases b
  simpa using same

/-! ## Envelopes -/

/-- The numbers of a context fit their fields. -/
structure EnvelopeContext.Fits (ctx : EnvelopeContext) : Prop where
  generation : ctx.generation < 2 ^ 32
  version : ctx.version < 2 ^ 64
  low : -2 ^ 63 ≤ ctx.writtenAt
  high : ctx.writtenAt < 2 ^ 63

theorem field_of_take {bytes : List UInt8} {start width : Nat} {chunk : FixedBytes width}
    (taken : Proto.take bytes start width = .ok chunk) : field bytes start width = .ok chunk := by
  unfold Proto.take at taken
  unfold field
  dsimp only at taken ⊢
  split at taken
  · next long =>
    rw [dif_pos long]
    exact congrArg _ (Except.ok.inj taken)
  · cases taken

/-- The fields of an envelope after its kind and format. -/
def envelopeFields (ctx : EnvelopeContext) (name : String) (body : List UInt8) : List UInt8 :=
  ctx.vaultId.raw.bytes ++ beBytes 4 ctx.generation ++ beBytes 8 ctx.version ++ beBytesI64 ctx.writtenAt ++
    beBytes 2 (utf8 name).length ++ utf8 name ++ body

theorem decodeFields_envelopeFields (kind : RecordCode) (format : Option ConfigFormat) {ctx : EnvelopeContext}
    (fits : ctx.Fits) (name : String) (body : List UInt8) (short : (utf8 name).length ≤ maxNameLen) :
    decodeFields kind format (envelopeFields ctx name body) = .ok ⟨kind, format, ctx, name, body⟩ := by
  have small : maxNameLen < 2 ^ 16 := by decide
  obtain ⟨generation, generationBytes⟩ : ∃ f : FixedBytes 4, f.bytes = beBytes 4 ctx.generation :=
    ⟨⟨_, beBytes_length 4 _⟩, rfl⟩
  obtain ⟨version, versionBytes⟩ : ∃ f : FixedBytes 8, f.bytes = beBytes 8 ctx.version :=
    ⟨⟨_, beBytes_length 8 _⟩, rfl⟩
  obtain ⟨time, timeBytes⟩ : ∃ f : FixedBytes 8, f.bytes = beBytesI64 ctx.writtenAt :=
    ⟨⟨_, beBytes_length 8 _⟩, rfl⟩
  obtain ⟨size, sizeBytes⟩ : ∃ f : FixedBytes 2, f.bytes = beBytes 2 (utf8 name).length :=
    ⟨⟨_, beBytes_length 2 _⟩, rfl⟩
  have first : beNat generation.bytes = ctx.generation := by
    rw [generationBytes, beNat_beBytes_of_lt (by have := fits.generation; omega)]
  have second : beNat version.bytes = ctx.version := by
    rw [versionBytes, beNat_beBytes_of_lt (by have := fits.version; omega)]
  have third : beI64 time.bytes = ctx.writtenAt := by rw [timeBytes, beI64_beBytesI64 fits.low fits.high]
  have fourth : beNat size.bytes = (utf8 name).length := by
    rw [sizeBytes, beNat_beBytes_of_lt (by omega)]
  have laid : envelopeFields ctx name body = ctx.vaultId.raw.bytes ++ (generation.bytes ++ (version.bytes ++
      (time.bytes ++ (size.bytes ++ (utf8 name ++ body))))) := by
    simp [envelopeFields, generationBytes, versionBytes, timeBytes, sizeBytes]
  have read (width : Nat) (chunk : FixedBytes width) (start : Nat)
      (taken : Proto.take (envelopeFields ctx name body) start width = .ok chunk) :
      field (envelopeFields ctx name body) start width = .ok chunk := field_of_take taken
  have readVault := read 16 ctx.vaultId.raw 0 (by rw [laid]; exact take_here _ _)
  have readGeneration := read 4 generation 16 (by rw [laid]; simp [take_skip, take_here])
  have readVersion := read 8 version 20 (by rw [laid]; simp [take_skip, take_here])
  have readTime := read 8 time 28 (by rw [laid]; simp [take_skip, take_here])
  have readSize := read 2 size 36 (by rw [laid]; simp [take_skip, take_here])
  have fixed : (envelopeFields ctx name body).drop 38 = utf8 name ++ body := by
    rw [laid]
    simp [List.drop_append, List.drop_eq_nil_of_le]
  have long : (envelopeFields ctx name body).length = 38 + (utf8 name).length + body.length := by
    rw [laid]
    simp
    omega
  unfold decodeFields
  rw [if_neg (by omega), readVault, readGeneration, readVersion, readTime, readSize]
  simp only [bind, Except.bind, first, second, third, fourth]
  rw [if_neg (by omega), if_neg (by omega), fixed, List.take_left' rfl, fromUTF8?_utf8, ← List.drop_drop, fixed,
    List.drop_left' rfl]
  rfl

/-- A kind's format byte is there exactly for configs. -/
theorem decodeEnvelope_encodeEnvelope {kind : RecordCode} {format : Option ConfigFormat} {ctx : EnvelopeContext}
    (fits : ctx.Fits) {name : String} {body bytes : List UInt8} (formatted : format.isSome = decide (kind = .config))
    (encoded : encodeEnvelope kind format ctx name body = .ok bytes) :
    decodeEnvelope bytes = .ok ⟨kind, format, ctx, name, body⟩ := by
  unfold encodeEnvelope at encoded
  split at encoded
  · cases encoded
  · next long =>
    have read := fun kind format => decodeFields_envelopeFields kind format fits name body (not_lt.mp long)
    have laid : bytes = envelopeVersion :: kind.code :: ((format.map (·.code)).toList ++ envelopeFields ctx name body) := by
      rw [← Except.ok.inj encoded]
      simp [envelopeFields]
    subst laid
    cases kind with
    | secret =>
      obtain rfl : format = none := by simpa using formatted
      exact read .secret none
    | config =>
      obtain ⟨f, rfl⟩ := Option.isSome_iff_exists.mp (formatted.trans (decide_eq_true rfl))
      cases f with
      | toml => exact read .config (some .toml)
      | json => exact read .config (some .json)
      | yaml => exact read .config (some .yaml)
      | text => exact read .config (some .text)

/-- Whether an envelope can be encoded does not depend on where it belongs. -/
theorem encodeEnvelope_again {kind : RecordCode} {format : Option ConfigFormat} {ctx : EnvelopeContext} {name : String}
    {body bytes : List UInt8} (encoded : encodeEnvelope kind format ctx name body = .ok bytes)
    (other : EnvelopeContext) : ∃ bytes, encodeEnvelope kind format other name body = .ok bytes := by
  unfold encodeEnvelope at encoded
  split at encoded
  · cases encoded
  · next short =>
    exact ⟨_, if_neg short⟩

section

variable [Crypto] [Ed25519] (correct : Correct)
include correct

theorem sealEnvelope_opens (draw secret : FixedBytes 32) (envelope : List UInt8) :
    ∃ ct, sealEnvelope draw (Crypto.x25519Public secret) envelope = .ok ct ∧ utf8 "age-encryption.org/v1\n" <+: ct ∧
      decryptEnvelope secret ct = decodeEnvelope envelope := by
  obtain ⟨ct, encrypted, starts, decrypted⟩ := correct.ages draw secret envelope
  refine ⟨ct, ?_, starts, ?_⟩
  · unfold sealEnvelope
    rw [if_neg (by simp [correct.recipient]), encrypted]
    rfl
  · unfold decryptEnvelope
    rw [if_neg (not_not.mpr starts), if_neg (by simp [correct.identity]), decrypted]

end

theorem checkBindings_same (decoded : Decoded) :
    checkBindings decoded decoded.kind decoded.ctx decoded.name = .ok () := by
  simp [checkBindings]

/-! ## Values and documents -/

section

variable [Crypto] [Ed25519] (correct : Correct)
include correct

/-- A value that was sealed once can be sealed for any place, and opens there. -/
theorem sealValue_opens {draw : FixedBytes 32} {pub : Key32} {ctx : EnvelopeContext} {name : String}
    {value ct : List UInt8} (sealed : sealValue draw pub ctx name value = .ok ct) (draw' : FixedBytes 32)
    (secret : VaultSecret) {ctx' : EnvelopeContext} (fits : ctx'.Fits) :
    ∃ ct', sealValue draw' secret.publicKey ctx' name value = .ok ct' ∧
      utf8 "age-encryption.org/v1\n" <+: ct' ∧ openValue secret ctx' name ct' = .ok value := by
  simp only [sealValue, outcome_bind_ok] at sealed
  obtain ⟨_, encoded, _⟩ := sealed
  obtain ⟨envelope, encoded'⟩ := encodeEnvelope_again encoded ctx'
  obtain ⟨ct', given, starts, opened⟩ := sealEnvelope_opens correct draw' secret.raw envelope
  refine ⟨ct', ?_, starts, ?_⟩
  · rw [sealValue, encoded']
    exact given
  · rw [openValue, opened, decodeEnvelope_encodeEnvelope fits rfl encoded']
    have same := checkBindings_same ⟨.secret, none, ctx', name, value⟩
    change (checkBindings _ _ _ _ >>= _) = _
    rw [same]
    rfl

/-- A document that was sealed once can be sealed for any place, and opens there. -/
theorem sealConfig_opens {draw : FixedBytes 32} {pub : Key32} {ctx : EnvelopeContext} {name : String}
    {format : ConfigFormat} {body ct : List UInt8} (sealed : sealConfig draw pub ctx name format body = .ok ct)
    (draw' : FixedBytes 32) (secret : ConfigSecret) {ctx' : EnvelopeContext} (fits : ctx'.Fits) :
    ∃ ct', sealConfig draw' secret.publicKey ctx' name format body = .ok ct' ∧
      utf8 "age-encryption.org/v1\n" <+: ct' ∧ openConfig secret ctx' name ct' = .ok (format, body) := by
  simp only [sealConfig, outcome_bind_ok] at sealed
  obtain ⟨_, encoded, _⟩ := sealed
  obtain ⟨envelope, encoded'⟩ := encodeEnvelope_again encoded ctx'
  obtain ⟨ct', given, starts, opened⟩ := sealEnvelope_opens correct draw' secret.raw envelope
  refine ⟨ct', ?_, starts, ?_⟩
  · rw [sealConfig, encoded']
    exact given
  · rw [openConfig, opened, decodeEnvelope_encodeEnvelope fits rfl encoded']
    have same := checkBindings_same ⟨.config, some format, ctx', name, body⟩
    change (checkBindings _ _ _ _ >>= _) = _
    rw [same]
    rfl

/-- A name that was encrypted once can be encrypted under any key, and opens there under
its index. -/
theorem encryptName_opens {key : NameKey} {nonce : FixedBytes 24} {ctx : NameContext} {name : String} {ct : List UInt8}
    (encrypted : key.encryptName nonce ctx name = .ok ct) (key' : NameKey) (nonce' : FixedBytes 24) (ctx' : NameContext) :
    ∃ ct', key'.encryptName nonce' ctx' name = .ok ct' ∧
      key'.openName ctx' (key'.index ctx'.kind name) ct' = .ok name := by
  unfold NameKey.encryptName at encrypted
  split at encrypted
  · cases encrypted
  · next inner message =>
    obtain ⟨inner', message'⟩ := correct.encrypts _ _ _ _ _ message key'.cipher nonce' ctx'.aad
    refine ⟨nonce'.bytes ++ inner', ?_, ?_⟩
    · rw [NameKey.encryptName, message']
    · have front : (nonce'.bytes ++ inner').take NameKey.nonceLen = nonce'.bytes := List.take_left' nonce'.size
      have back : (nonce'.bytes ++ inner').drop NameKey.nonceLen = inner' := List.drop_left' nonce'.size
      have decrypted : key'.decryptName ctx' (nonce'.bytes ++ inner') = .ok name := by
        have long : ((nonce'.bytes ++ inner').take NameKey.nonceLen).length = NameKey.nonceLen := by
          rw [front]
          exact nonce'.size
        have chunk : (⟨_, long⟩ : FixedBytes 24) = nonce' := fixedBytes_ext front
        rw [NameKey.decryptName, dif_pos long, chunk, back, correct.decrypts _ _ _ _ _ message']
        simp only [fromUTF8?_utf8]
      rw [NameKey.openName, decrypted]
      simp

end

/-! ## Descriptors -/

/-- What an owner signed of its own vault verifies from the pinned id. -/
theorem verifyFor_signDescriptor [Crypto] [Digests] [Ed25519] (correct : Correct) (owner : OwnerKeys) {d : Descriptor}
    (mine : d.vaultId = owner.vaultId) (generation : d.generation < 2 ^ 32) (low : -2 ^ 63 ≤ d.createdAt)
    (high : d.createdAt < 2 ^ 63) : (owner.signDescriptor d).verifyFor owner.vaultId owner.signPub = .ok d := by
  have verified : (owner.signDescriptor d).verify owner.signPub = .ok d := by
    rw [SignedDescriptor.verify]
    change (Descriptor.decode d.encode >>= _) = _
    rw [decode_encode d generation low high]
    change (verifyEd25519 owner.signPub d.signingInput _ _ >>= _) = _
    rw [verifyEd25519, show Ed25519.verifyStrict owner.signPub d.signingInput (owner.signDescriptor d).sig = true from
      correct.signs _ _]
    rfl
  rw [SignedDescriptor.verifyFor, if_neg (show ¬ VaultId.fromOwnerSignPub owner.signPub ≠ owner.vaultId from
    not_not.mpr rfl), verified]
  change (if _ then _ else _) = _
  rw [if_neg (not_not.mpr mine)]
  rfl

/-! ## Records -/

/-- The keys of a bundle are those a descriptor names. -/
structure FullBundle.Names [Crypto] (bundle : FullBundle) (d : Descriptor) : Prop where
  vault : d.vaultPub = bundle.vaultSecret.publicKey
  config : d.configPub = bundle.configSecret.publicKey
  secretWriter : d.secretWriterPub = bundle.secretWriter.publicKey
  configWriter : d.configWriterPub = bundle.configWriter.publicKey

theorem FullBundle.names_descriptor [Crypto] (bundle : FullBundle) (vaultId : VaultId) (prevHash : Hash32)
    (createdAt : Int) : bundle.Names (bundle.descriptor vaultId prevHash createdAt) :=
  ⟨rfl, rfl, rfl, rfl⟩

def FullBundle.writerKey (bundle : FullBundle) : RecordCode → WriterKey
  | .secret => bundle.secretWriter
  | .config => bundle.configWriter

/-- The writer of a kind's records under a descriptor. -/
def FullBundle.writer (bundle : FullBundle) (d : Descriptor) (kind : RecordCode) : Writer :=
  ⟨d, bundle.nameKey, bundle.writerKey kind⟩

theorem FullBundle.Names.writer [Crypto] {bundle : FullBundle} {d : Descriptor} (names : bundle.Names d)
    (kind : RecordCode) : writerPub d kind = (bundle.writerKey kind).publicKey := by
  cases kind with
  | secret => exact names.secretWriter
  | config => exact names.configWriter

/-- A record is one a kind can have, and its numbers fit their fields. -/
structure OpenedRecord.Fits (kind : RecordCode) (r : OpenedRecord) : Prop where
  version : r.version < 2 ^ 64
  low : -2 ^ 63 ≤ r.writtenAt
  high : r.writtenAt < 2 ^ 63
  /-- A format is there for the value of a config. -/
  format : r.format.isSome = (decide (kind = .config) && r.value.isSome)

/-- A record as the server serves what a writer sent. -/
def WrittenRecord.served (rec : WrittenRecord) : SecretVersion where
  nameHmac := rec.nameHmac
  version := rec.version
  nameCt := ⟨rec.nameCt⟩
  valueCt := rec.valueCt.map (⟨·⟩)
  generation := rec.generation
  writtenAt := rec.writtenAt
  tombstone := rec.valueCt.isNone
  sig := rec.sig

section

variable [Crypto] [Digests]

/-- Write a record of either kind: its value, or a tombstone. -/
def Writer.write (w : Writer) (draw : Draw) (kind : RecordCode) (r : OpenedRecord) : Except SealError WrittenRecord :=
  match kind, r.value, r.format with
  | .secret, some value, _ => w.secret draw r.name value r.version r.writtenAt
  | .config, some body, some format => w.config draw r.name format body r.version r.writtenAt
  | kind, _, _ => w.tombstone draw kind r.name r.version r.writtenAt

variable [Ed25519]

/-- Verify and open a record of either kind with a generation's keys. -/
def openRecord (d : Descriptor) (bundle : FullBundle) : RecordCode → SecretVersion → Except SealError OpenedRecord
  | .secret, v => openSecret d bundle.nameKey bundle.vaultSecret v
  | .config, v => openConfigRecord d bundle.nameKey bundle.configSecret v

/-- A written record is what it should be under a descriptor. -/
structure Sealed (d : Descriptor) (bundle : FullBundle) (kind : RecordCode) (r : OpenedRecord) (rec : WrittenRecord) :
    Prop where
  opens : openRecord d bundle kind rec.served = .ok r
  indexed : rec.nameHmac = bundle.nameKey.index kind r.name
  numbered : rec.version = r.version
  written : rec.writtenAt = r.writtenAt
  tombstone : rec.valueCt.isNone = r.value.isNone
  age : ∀ ct ∈ rec.valueCt, utf8 "age-encryption.org/v1\n" <+: ct
  verifies : (RecordContext.ofCiphertexts d.vaultId d.generation kind rec.nameHmac rec.version rec.writtenAt rec.nameCt
    rec.valueCt).verify (writerPub d kind) rec.sig = .ok ()
  current : rec.generation = d.generation

variable {w : Writer} {draw : Draw} {kind : RecordCode} {bundle : FullBundle} {d : Descriptor}

omit [Digests] [Ed25519] in
theorem writer_check (names : bundle.Names d) : (bundle.writer d kind).check kind = .ok () :=
  if_neg (not_not.mpr (names.writer kind).symm)

/-- A record finished once can be finished by any writer, with any value: its signature
verifies and its name opens. -/
theorem finish_again (correct : Correct) {name : String} {valueCt : Option (List UInt8)} {version : Nat}
    {writtenAt : Int} {rec : WrittenRecord} (finished : w.finish draw kind name valueCt version writtenAt = .ok rec)
    (names : bundle.Names d) (draw' : Draw) (valueCt' : Option (List UInt8)) :
    ∃ rec', (bundle.writer d kind).finish draw' kind name valueCt' version writtenAt = .ok rec' ∧
      rec'.nameHmac = bundle.nameKey.index kind name ∧ rec'.version = version ∧ rec'.writtenAt = writtenAt ∧
      rec'.generation = d.generation ∧ rec'.valueCt = valueCt' ∧
      (RecordContext.ofCiphertexts d.vaultId d.generation kind rec'.nameHmac rec'.version rec'.writtenAt rec'.nameCt
        rec'.valueCt).verify (writerPub d kind) rec'.sig = .ok () ∧
      openName d bundle.nameKey kind rec'.nameHmac rec'.nameCt = .ok name := by
  simp only [Writer.finish, outcome_bind_ok, outcome_mapError_ok, outcome_pure_ok] at finished
  obtain ⟨ct, encrypted, rfl⟩ := finished
  obtain ⟨ct', again, opened⟩ := encryptName_opens correct encrypted bundle.nameKey draw'.nonce
    ((bundle.writer d kind).nameCtx kind)
  let ctx := RecordContext.ofCiphertexts d.vaultId d.generation kind (bundle.nameKey.index kind name) version writtenAt
    ct' valueCt'
  refine ⟨⟨kind, bundle.nameKey.index kind name, ct', valueCt', d.generation, version, writtenAt,
    (bundle.writerKey kind).sign ctx⟩, ?_, rfl, rfl, rfl, rfl, rfl, ?_, ?_⟩
  · have same : (bundle.writer d kind).nameKey.encryptName draw'.nonce ((bundle.writer d kind).nameCtx kind) name =
        .ok ct' := again
    rw [Writer.finish, same]
    rfl
  · rw [names.writer kind]
    exact if_pos (correct.signs _ _)
  · rw [openName]
    exact (outcome_mapError_ok _ _ _).mpr opened

omit [Crypto] in
/-- The signature and the flag of a served record. -/
theorem verifyVersion_served {rec : WrittenRecord} (current : rec.generation = d.generation)
    (verifies : (RecordContext.ofCiphertexts d.vaultId d.generation kind rec.nameHmac rec.version rec.writtenAt
      rec.nameCt rec.valueCt).verify (writerPub d kind) rec.sig = .ok ()) :
    verifyVersion d kind rec.served = .ok () := by
  have generation : checkGeneration d rec.served.generation = .ok () := if_neg (not_not.mpr current)
  have value : (rec.served.valueCt.map (·.bytes)) = rec.valueCt := by
    cases value : rec.valueCt <;> simp [WrittenRecord.served, value]
  have flag : rec.served.tombstone = rec.served.valueCt.isNone := by simp [WrittenRecord.served]
  rw [verifyVersion, generation]
  change (if _ then _ else _) = _
  rw [if_neg (not_not.mpr flag), value]
  refine (outcome_mapError_ok _ _ _).mpr ?_
  rw [show rec.served.generation = d.generation from current]
  exact verifies

theorem openSecret_opens {v : SecretVersion} {nameKey : NameKey} {secret : VaultSecret} {name : String}
    (value : Option (List UInt8)) (verified : verifyVersion d .secret v = .ok ())
    (named : openName d nameKey .secret v.nameHmac v.nameCt.bytes = .ok name)
    (opens : (v.valueCt.mapM fun ct => openValue secret (envelopeCtx d v) name ct.bytes) = .ok value) :
    openSecret d nameKey secret v = .ok ⟨name, v.version, v.writtenAt, none, value⟩ := by
  rw [openSecret, verified]
  change (openName d nameKey .secret v.nameHmac v.nameCt.bytes >>= _) = _
  rw [named]
  change ((v.valueCt.mapM fun ct => openValue secret (envelopeCtx d v) name ct.bytes) >>= _) = _
  rw [opens]
  rfl

theorem openConfigRecord_opens {v : SecretVersion} {nameKey : NameKey} {secret : ConfigSecret} {name : String}
    (value : Option (ConfigFormat × List UInt8)) (verified : verifyVersion d .config v = .ok ())
    (named : openName d nameKey .config v.nameHmac v.nameCt.bytes = .ok name)
    (opens : (v.valueCt.mapM fun ct => openConfig secret (envelopeCtx d v) name ct.bytes) = .ok value) :
    openConfigRecord d nameKey secret v = .ok ⟨name, v.version, v.writtenAt, value.map (·.1), value.map (·.2)⟩ := by
  rw [openConfigRecord, verified]
  change (openName d nameKey .config v.nameHmac v.nameCt.bytes >>= _) = _
  rw [named]
  change ((v.valueCt.mapM fun ct => openConfig secret (envelopeCtx d v) name ct.bytes) >>= _) = _
  rw [opens]
  rfl

/-- A record that one writer wrote, any writer can write under its own descriptor, and
it opens there. One case for each thing a record can be. -/
theorem write_again (correct : Correct) {r : OpenedRecord} {rec : WrittenRecord} (fits : r.Fits kind)
    (wrote : w.write draw kind r = .ok rec) (names : bundle.Names d) (generation : d.generation < 2 ^ 32) (draw' : Draw) :
    ∃ rec', (bundle.writer d kind).write draw' kind r = .ok rec' ∧ Sealed d bundle kind r rec' := by
  obtain ⟨name, version, writtenAt, format, value⟩ := r
  have fitsCtx : (⟨d.vaultId, d.generation, version, writtenAt⟩ : EnvelopeContext).Fits :=
    ⟨generation, fits.version, fits.low, fits.high⟩
  have formatted := fits.format
  have checked : (bundle.writer d kind).check kind = .ok () := writer_check names
  have place {rec' : WrittenRecord} (current : rec'.generation = d.generation) (numbered : rec'.version = version)
      (written : rec'.writtenAt = writtenAt) :
      envelopeCtx d rec'.served = ⟨d.vaultId, d.generation, version, writtenAt⟩ := by
    rw [← current, ← numbered, ← written]
    rfl
  cases value with
  | none =>
    obtain rfl : format = none := by simpa using formatted
    have wrote : w.tombstone draw kind name version writtenAt = .ok rec := by cases kind <;> exact wrote
    simp only [Writer.tombstone, outcome_bind_ok] at wrote
    obtain ⟨_, _, finished⟩ := wrote
    obtain ⟨rec', again, indexed, numbered, written, current, noValue, verifies, opened⟩ :=
      finish_again correct finished names draw' none
    have verified := verifyVersion_served current verifies
    have absent : rec'.served.valueCt = none := by rw [WrittenRecord.served, noValue]; rfl
    refine ⟨rec', ?_, ?_, indexed, numbered, written, by simp [noValue], by simp [noValue], verifies, current⟩
    · have wrote' : (bundle.writer d kind).tombstone draw' kind name version writtenAt = .ok rec' := by
        rw [Writer.tombstone, checked]
        exact again
      cases kind <;> exact wrote'
    · subst numbered written
      cases kind with
      | secret => exact openSecret_opens none verified opened (by rw [absent]; rfl)
      | config => exact openConfigRecord_opens none verified opened (by rw [absent]; rfl)
  | some value =>
    cases kind with
    | secret =>
      obtain rfl : format = none := by simpa using formatted
      change w.secret draw name value version writtenAt = .ok rec at wrote
      simp only [Writer.secret, outcome_bind_ok] at wrote
      obtain ⟨_, _, ct, sealed, finished⟩ := wrote
      obtain ⟨ct', sealed', starts, opens⟩ := sealValue_opens correct sealed draw'.age bundle.vaultSecret fitsCtx
      obtain ⟨rec', again, indexed, numbered, written, current, hasValue, verifies, opened⟩ :=
        finish_again correct finished names draw' (some ct')
      have present : rec'.served.valueCt = some ⟨ct'⟩ := by rw [WrittenRecord.served, hasValue]; rfl
      refine ⟨rec', ?_, ?_, indexed, numbered, written, by simp [hasValue], by simpa [hasValue] using starts, verifies,
        current⟩
      · change (bundle.writer d .secret).secret draw' name value version writtenAt = .ok rec'
        rw [Writer.secret, checked]
        change (sealValue draw'.age d.vaultPub ⟨d.vaultId, d.generation, version, writtenAt⟩ name value >>= _) = _
        rw [names.vault, sealed']
        exact again
      · have opened' := openSecret_opens (some value) (verifyVersion_served current verifies) opened (by
          rw [present, place current numbered written]
          change some <$> openValue _ _ _ _ = _
          rw [opens]
          rfl)
        rw [← numbered, ← written]
        exact opened'
    | config =>
      obtain ⟨f, rfl⟩ := Option.isSome_iff_exists.mp (show format.isSome = true from formatted)
      change w.config draw name f value version writtenAt = .ok rec at wrote
      simp only [Writer.config, outcome_bind_ok] at wrote
      obtain ⟨_, _, ct, sealed, finished⟩ := wrote
      obtain ⟨ct', sealed', starts, opens⟩ := sealConfig_opens correct sealed draw'.age bundle.configSecret fitsCtx
      obtain ⟨rec', again, indexed, numbered, written, current, hasValue, verifies, opened⟩ :=
        finish_again correct finished names draw' (some ct')
      have present : rec'.served.valueCt = some ⟨ct'⟩ := by rw [WrittenRecord.served, hasValue]; rfl
      refine ⟨rec', ?_, ?_, indexed, numbered, written, by simp [hasValue], by simpa [hasValue] using starts, verifies,
        current⟩
      · change (bundle.writer d .config).config draw' name f value version writtenAt = .ok rec'
        rw [Writer.config, checked]
        change (sealConfig draw'.age d.configPub ⟨d.vaultId, d.generation, version, writtenAt⟩ name f value >>= _) = _
        rw [names.config, sealed']
        exact again
      · have opened' := openConfigRecord_opens (some (f, value)) (verifyVersion_served current verifies) opened (by
          rw [present, place current numbered written]
          change some <$> openConfig _ _ _ _ = _
          rw [opens]
          rfl)
        rw [← numbered, ← written]
        exact opened'

/-- What a descriptor's own writer wrote is sealed as it should be. -/
theorem sealed_of_write (correct : Correct) {r : OpenedRecord} {rec : WrittenRecord} (fits : r.Fits kind)
    (wrote : (bundle.writer d kind).write draw kind r = .ok rec) (names : bundle.Names d)
    (generation : d.generation < 2 ^ 32) : Sealed d bundle kind r rec := by
  obtain ⟨rec', again, sealed⟩ := write_again correct fits wrote names generation draw
  obtain rfl := Except.ok.inj (wrote.symm.trans again)
  exact sealed

end

end GalataVault.Client

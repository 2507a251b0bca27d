import GalataVault.Client.Envelope

/-!
# Signed records

The one place a record is sealed and signed, and the one place it is verified and
opened. A writer seals the value to the descriptor's key, encrypts the name under the
name key and signs the record context. A reader verifies the signature first, and then
checks every binding of what it decrypts.
-/

namespace GalataVault.Client

open Proto

/-- A record ready to send; no value is a tombstone. -/
structure WrittenRecord where
  kind : RecordCode
  nameHmac : NameHmac
  nameCt : List UInt8
  valueCt : Option (List UInt8)
  generation : Nat
  version : Nat
  writtenAt : Int
  sig : Sig64
deriving DecidableEq

/-- A version as the server serves it. The tombstone flag is the server's word. -/
structure SecretVersion where
  nameHmac : NameHmac
  version : Nat
  nameCt : B64
  valueCt : Option B64
  generation : Nat
  writtenAt : Int
  tombstone : Bool
  sig : Sig64
deriving DecidableEq

/-- What is drawn for one record: a nonce for its name, and what age draws. -/
structure Draw where
  nonce : FixedBytes 24
  age : FixedBytes 32
deriving DecidableEq

/-- What a writer needs: the verified descriptor, the generation's name key, and the
writer key for the kind. -/
structure Writer where
  descriptor : Descriptor
  nameKey : NameKey
  writer : WriterKey
deriving DecidableEq

/-- The key that verifies a kind's records in a generation. -/
def writerPub (descriptor : Descriptor) : RecordCode → Key32
  | .secret => descriptor.secretWriterPub
  | .config => descriptor.configWriterPub

section

variable [Crypto] [Digests]

namespace Writer

def check (w : Writer) (kind : RecordCode) : Except SealError Unit :=
  if w.writer.publicKey ≠ writerPub w.descriptor kind then .error (.integrity (.keyMismatch "writer key")) else .ok ()

def nameCtx (w : Writer) (kind : RecordCode) : NameContext := ⟨w.descriptor.vaultId, w.descriptor.generation, kind⟩

def envelopeCtx (w : Writer) (version : Nat) (writtenAt : Int) : EnvelopeContext :=
  ⟨w.descriptor.vaultId, w.descriptor.generation, version, writtenAt⟩

def finish (w : Writer) (draw : Draw) (kind : RecordCode) (name : String) (valueCt : Option (List UInt8))
    (version : Nat) (writtenAt : Int) : Except SealError WrittenRecord := do
  let nameHmac := w.nameKey.index kind name
  let nameCt ← (w.nameKey.encryptName draw.nonce (w.nameCtx kind) name).mapError .key
  let ctx := RecordContext.ofCiphertexts w.descriptor.vaultId w.descriptor.generation kind nameHmac version
    writtenAt nameCt valueCt
  pure
    { kind := kind, nameHmac := nameHmac, nameCt := nameCt, valueCt := valueCt,
      generation := w.descriptor.generation, version := version, writtenAt := writtenAt, sig := w.writer.sign ctx }

/-- Seal and sign a secret as `version`. -/
def secret (w : Writer) (draw : Draw) (name : String) (value : List UInt8) (version : Nat) (writtenAt : Int) :
    Except SealError WrittenRecord := do
  w.check .secret
  let ct ← sealValue draw.age w.descriptor.vaultPub (w.envelopeCtx version writtenAt) name value
  w.finish draw .secret name (some ct) version writtenAt

/-- Seal and sign a config document as `version`. -/
def config (w : Writer) (draw : Draw) (name : String) (format : ConfigFormat) (body : List UInt8) (version : Nat)
    (writtenAt : Int) : Except SealError WrittenRecord := do
  w.check .config
  let ct ← sealConfig draw.age w.descriptor.configPub (w.envelopeCtx version writtenAt) name format body
  w.finish draw .config name (some ct) version writtenAt

/-- Sign a tombstone as `version`. -/
def tombstone (w : Writer) (draw : Draw) (kind : RecordCode) (name : String) (version : Nat) (writtenAt : Int) :
    Except SealError WrittenRecord := do
  w.check kind
  w.finish draw kind name none version writtenAt

end Writer

def checkGeneration (descriptor : Descriptor) (generation : Nat) : Except SealError Unit :=
  if generation ≠ descriptor.generation then .error (.staleGeneration descriptor.generation generation) else .ok ()

/-- Verify a full record's signature against the descriptor, without decrypting. -/
def verifyVersion [Ed25519] (descriptor : Descriptor) (kind : RecordCode) (v : SecretVersion) :
    Except SealError Unit := do
  checkGeneration descriptor v.generation
  if v.tombstone ≠ v.valueCt.isNone then throw (.integrity (.bindingMismatch "tombstone flag"))
  else
    ((RecordContext.ofCiphertexts descriptor.vaultId v.generation kind v.nameHmac v.version v.writtenAt
      v.nameCt.bytes (v.valueCt.map (·.bytes))).verify (writerPub descriptor kind) v.sig).mapError .integrity

/-- A verified, opened record; no value is a tombstone. -/
structure OpenedRecord where
  name : String
  version : Nat
  writtenAt : Int
  format : Option ConfigFormat
  value : Option (List UInt8)
deriving DecidableEq

/-- Decrypt a verified record's name and check it against its index. -/
def openName (descriptor : Descriptor) (nameKey : NameKey) (kind : RecordCode) (nameHmac : NameHmac)
    (nameCt : List UInt8) : Except SealError String :=
  (nameKey.openName ⟨descriptor.vaultId, descriptor.generation, kind⟩ nameHmac nameCt).mapError .key

def envelopeCtx (descriptor : Descriptor) (v : SecretVersion) : EnvelopeContext :=
  ⟨descriptor.vaultId, v.generation, v.version, v.writtenAt⟩

variable [Ed25519]

/-- Verify and open a secret record. -/
def openSecret (descriptor : Descriptor) (nameKey : NameKey) (vaultSecret : VaultSecret) (v : SecretVersion) :
    Except SealError OpenedRecord := do
  verifyVersion descriptor .secret v
  let name ← openName descriptor nameKey .secret v.nameHmac v.nameCt.bytes
  let value ← v.valueCt.mapM fun ct => openValue vaultSecret (envelopeCtx descriptor v) name ct.bytes
  pure { name := name, version := v.version, writtenAt := v.writtenAt, format := none, value := value }

/-- Verify and open a config record. -/
def openConfigRecord (descriptor : Descriptor) (nameKey : NameKey) (configSecret : ConfigSecret)
    (v : SecretVersion) : Except SealError OpenedRecord := do
  verifyVersion descriptor .config v
  let name ← openName descriptor nameKey .config v.nameHmac v.nameCt.bytes
  let opened ← v.valueCt.mapM fun ct => openConfig configSecret (envelopeCtx descriptor v) name ct.bytes
  pure
    { name := name, version := v.version, writtenAt := v.writtenAt, format := opened.map (·.1),
      value := opened.map (·.2) }

end

end GalataVault.Client

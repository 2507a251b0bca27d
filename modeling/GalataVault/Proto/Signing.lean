import GalataVault.Proto.Api

/-!
# What signatures cover

Every signed object of the protocol has one signing input: a label, a zero byte
and the object's fields, fixed-width except at most the last. The server checks
descriptors, bundles, records, children records and leak reports against these
bytes before it stores or acts on any of them.

Ed25519 itself is a parameter. A public key that is no curve point and a
signature that does not verify are the same refusal in the source, so one
predicate stands for both.
-/

namespace GalataVault.Proto

/-- Strict Ed25519 verification of a signature over a message. -/
class Ed25519 where
  verifyStrict : Key32 → List UInt8 → Sig64 → Bool

/-- Integrity failures a client or server detects. -/
inductive IntegrityError where
  | badSignature (what : String)
  | keyMismatch (what : String)
  | bindingMismatch (what : String)
  | versionRollback (known got : Nat)
  | generationRollback (known got : Nat)
  | malformed (what : String)
deriving DecidableEq

/-- The text of an integrity failure. -/
def IntegrityError.message : IntegrityError → String
  | badSignature what => s!"the {what} signature does not verify"
  | keyMismatch what => s!"the {what} does not match the pinned vault"
  | bindingMismatch what => s!"the {what} does not match what was signed"
  | versionRollback known got =>
    s!"version rollback: this client saw version {known}, the server now shows {got}"
  | generationRollback known got =>
    s!"generation rollback: this client saw generation {known}, the server now shows {got}"
  | malformed what => s!"the {what} is malformed"

/-- The one verification every signature goes through; `what` names the object in
the error. -/
def verifyEd25519 [Ed25519] (pub : Key32) (message : List UInt8) (sig : Sig64) (what : String) :
    Except IntegrityError Unit :=
  if Ed25519.verifyStrict pub message sig then .ok () else .error (.badSignature what)

/-! ## Frames -/

namespace Label

def vaultId : String := "gv/v1/vault-id"
def descriptor : String := "gv/v1/descriptor"
def bundle : String := "gv/v1/bundle"
def record : String := "gv/v1/record"
def children : String := "gv/v1/children"
def report : String := "gv/v1/report"
def sig : String := "gv/v1/sig"

end Label

/-- The bytes of a text in UTF-8. -/
def utf8 (text : String) : List UInt8 := text.toUTF8.toList

/-- `label ‖ 0x00 ‖ part₀ ‖ part₁ ‖ …`. -/
def frame (label : String) (parts : List (List UInt8)) : List UInt8 := utf8 label ++ 0 :: parts.flatten

/-- The first sixteen bytes of a digest. -/
def Hash32.first16 (h : Hash32) : FixedBytes 16 :=
  ⟨h.raw.bytes.take 16, by rw [List.length_take, h.raw.size]; rfl⟩

def VaultId.fromOwnerSignPub [Digests] (ownerSignPub : Key32) : VaultId :=
  ⟨(Digests.sha256 (frame Label.vaultId [ownerSignPub.raw.bytes])).first16⟩

/-! ## Descriptors -/

def descriptorVersion : UInt8 := 1

/-- Bytes in an encoded descriptor. -/
def descriptorLen : Nat := 1 + 16 + 4 + 32 * 4 + 32 + 8

/-- The owner's signed statement of every public key a vault generation uses. -/
structure Descriptor where
  vaultId : VaultId
  generation : Nat
  /-- Secret records are sealed to this. -/
  vaultPub : Key32
  /-- Config records are sealed to this. -/
  configPub : Key32
  /-- Verifies secret records. -/
  secretWriterPub : Key32
  /-- Verifies config records. -/
  configWriterPub : Key32
  /-- SHA-256 of the previous generation's descriptor; zeros at generation 1. -/
  prevHash : Hash32
  createdAt : Int
deriving DecidableEq

/-- The number `bytes` spell, most significant first. -/
def beNat (bytes : List UInt8) : Nat := bytes.foldl (fun n b => n * 256 + b.toNat) 0

/-- The signed 64-bit integer eight bytes spell in two's complement. -/
def beI64 (bytes : List UInt8) : Int :=
  let n := beNat bytes
  if n < 2 ^ 63 then n else (n : Int) - 2 ^ 64

/-- `width` bytes of `bytes` from `at`, if there are that many. -/
def take (bytes : List UInt8) (start width : Nat) : Except IntegrityError (FixedBytes width) :=
  let chunk := (bytes.drop start).take width
  if long : chunk.length = width then .ok ⟨chunk, long⟩ else .error (.malformed "descriptor length")

namespace Descriptor

def encode (d : Descriptor) : List UInt8 :=
  descriptorVersion :: d.vaultId.raw.bytes ++ beBytes 4 d.generation ++ d.vaultPub.raw.bytes ++
    d.configPub.raw.bytes ++ d.secretWriterPub.raw.bytes ++ d.configWriterPub.raw.bytes ++
    d.prevHash.raw.bytes ++ beBytesI64 d.createdAt

/-- Decode a descriptor. The version byte is checked before the length. -/
def decode (bytes : List UInt8) : Except IntegrityError Descriptor := do
  match bytes.head? with
  | none => throw (.malformed "descriptor length")
  | some version =>
    if version ≠ descriptorVersion then throw (.malformed "descriptor version")
    else if bytes.length ≠ descriptorLen then throw (.malformed "descriptor length")
    else
      let vaultId ← take bytes 1 16
      let generation ← take bytes 17 4
      let vaultPub ← take bytes 21 32
      let configPub ← take bytes 53 32
      let secretWriterPub ← take bytes 85 32
      let configWriterPub ← take bytes 117 32
      let prevHash ← take bytes 149 32
      let createdAt ← take bytes 181 8
      pure
        { vaultId := ⟨vaultId⟩
          generation := beNat generation.bytes
          vaultPub := ⟨vaultPub⟩
          configPub := ⟨configPub⟩
          secretWriterPub := ⟨secretWriterPub⟩
          configWriterPub := ⟨configWriterPub⟩
          prevHash := ⟨prevHash⟩
          createdAt := beI64 createdAt.bytes }

/-- What the next generation's `prevHash` names. -/
def hash [Digests] (d : Descriptor) : Hash32 := Digests.sha256 d.encode

def signingInput (d : Descriptor) : List UInt8 := frame Label.descriptor [d.encode]

/-- Refuse a descriptor that is not the generation directly after `prev`, naming
what does not follow. A generation is a `u32`. -/
def checkFollows [Digests] (d prev : Descriptor) : Except IntegrityError Unit :=
  if d.vaultId ≠ prev.vaultId then .error (.bindingMismatch "descriptor's vault id")
  else if d.generation ≠ prev.generation + 1 ∨ 2 ^ 32 ≤ prev.generation + 1 then
    .error (.bindingMismatch "descriptor's generation")
  else if d.prevHash ≠ prev.hash then .error (.bindingMismatch "previous descriptor hash")
  else .ok ()

def follows [Digests] (d prev : Descriptor) : Bool := (d.checkFollows prev).toOption.isSome

/-- Whether the descriptor can be a vault's first generation. -/
def isFirst (d : Descriptor) : Bool := d.generation = 1 && d.prevHash = ⟨.fill 32 0⟩

end Descriptor

namespace SignedDescriptor

def decodeUnverified (d : SignedDescriptor) : Except IntegrityError Descriptor :=
  Descriptor.decode d.descriptor.bytes

/-- Verify the owner's signature and decode. -/
def verify [Ed25519] (d : SignedDescriptor) (ownerSignPub : Key32) : Except IntegrityError Descriptor := do
  let descriptor ← Descriptor.decode d.descriptor.bytes
  verifyEd25519 ownerSignPub descriptor.signingInput d.sig "descriptor"
  pure descriptor

/-- Verify for a pinned vault: the owner key hashes to the pinned id, the signature
verifies, and the descriptor names that vault. -/
def verifyFor [Digests] [Ed25519] (d : SignedDescriptor) (vaultId : VaultId) (ownerSignPub : Key32) :
    Except IntegrityError Descriptor := do
  if VaultId.fromOwnerSignPub ownerSignPub ≠ vaultId then throw (.keyMismatch "owner signing key")
  else
    let descriptor ← d.verify ownerSignPub
    if descriptor.vaultId ≠ vaultId then throw (.keyMismatch "descriptor's vault id")
    else pure descriptor

end SignedDescriptor

/-! ## Records -/

/-- Which records a signature is for, and the byte every binding uses for it. -/
inductive RecordCode where
  | secret
  | config
deriving DecidableEq

def RecordCode.code : RecordCode → UInt8
  | secret => 1
  | config => 2

/-- Everything a record signature binds. -/
structure RecordContext where
  vaultId : VaultId
  generation : Nat
  kind : RecordCode
  nameIndex : NameHmac
  version : Nat
  writtenAt : Int
  tombstone : Bool
  valueCtHash : Hash32
  nameCtHash : Hash32
deriving DecidableEq

namespace RecordContext

/-- A context from the ciphertexts themselves; no value is a tombstone, which signs
the hash of an empty value. -/
def ofCiphertexts [Digests] (vaultId : VaultId) (generation : Nat) (kind : RecordCode) (nameIndex : NameHmac)
    (version : Nat) (writtenAt : Int) (nameCt : List UInt8) (valueCt : Option (List UInt8)) :
    RecordContext where
  vaultId := vaultId
  generation := generation
  kind := kind
  nameIndex := nameIndex
  version := version
  writtenAt := writtenAt
  tombstone := valueCt.isNone
  valueCtHash := Digests.sha256 (valueCt.getD [])
  nameCtHash := Digests.sha256 nameCt

def signingInput (c : RecordContext) : List UInt8 :=
  frame Label.record
    [c.vaultId.raw.bytes, beBytes 4 c.generation, [c.kind.code], c.nameIndex.raw.bytes, beBytes 8 c.version,
      beBytesI64 c.writtenAt, [if c.tombstone then 1 else 0], c.valueCtHash.raw.bytes, c.nameCtHash.raw.bytes]

def verify [Ed25519] (c : RecordContext) (writerPub : Key32) (sig : Sig64) : Except IntegrityError Unit :=
  verifyEd25519 writerPub c.signingInput sig "record"

end RecordContext

/-! ## Bundles, children records and reports -/

/-- The byte a bundle signature binds for its scope. Zero is the owner's own bundle. -/
def Scope.code : Scope → UInt8
  | metadata => 1
  | append => 2
  | read => 3
  | admin => 4
  | config => 5
  | configWrite => 6

/-- The token id of the owner's own bundle. -/
def ownerTokenId : TokenId := ⟨.fill 16 0⟩

/-- The scope byte of the owner's own bundle. -/
def ownerScopeCode : UInt8 := 0

def bundleSigningInput [Digests] (vaultId : VaultId) (tokenId : TokenId) (scopeCode : UInt8) (generation : Nat)
    (sealedBytes : List UInt8) : List UInt8 :=
  frame Label.bundle
    [vaultId.raw.bytes, tokenId.raw.bytes, [scopeCode], beBytes 4 generation,
      (Digests.sha256 sealedBytes).raw.bytes]

/-- Check the owner's signature of a bundle for this binding. -/
def SignedBundle.verify [Digests] [Ed25519] (b : SignedBundle) (ownerSignPub : Key32) (vaultId : VaultId)
    (tokenId : TokenId) (scopeCode : UInt8) (generation : Nat) : Except IntegrityError Unit :=
  verifyEd25519 ownerSignPub (bundleSigningInput vaultId tokenId scopeCode generation b.sealed.bytes) b.sig "bundle"

def childrenSigningInput [Digests] (vaultId : VaultId) (version : Nat) (ct : List UInt8) : List UInt8 :=
  frame Label.children [vaultId.raw.bytes, beBytes 8 version, (Digests.sha256 ct).raw.bytes]

/-- Check the owner's signature of a children record. -/
def ChildrenBlob.verify [Digests] [Ed25519] (b : ChildrenBlob) (vaultId : VaultId) (ownerSignPub : Key32) :
    Except IntegrityError Unit :=
  verifyEd25519 ownerSignPub (childrenSigningInput vaultId b.version b.ct.bytes) b.sig "children record"

/-- What a holder signs to report a token as leaked. -/
def reportSigningInput (tokenId : TokenId) (ts : Int) : List UInt8 :=
  frame Label.report [tokenId.raw.bytes, beBytesI64 ts]

end GalataVault.Proto

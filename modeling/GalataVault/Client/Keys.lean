import GalataVault.Proto.Signing

/-!
# Keys of a client

The name key that indexes and encrypts record names, the writer keys that sign
records, and the bundles that hand a generation's keys to the owner and to tokens.

What third-party libraries compute is a parameter: key derivation, the keyed hash,
the ciphers and the signatures. So is randomness: a function that draws random bytes
takes what it drew as an argument.
-/

namespace GalataVault.Client

open Proto

/-- What the client's cryptographic libraries compute. -/
class Crypto where
  /-- HKDF-SHA256 under the one salt, to 32 bytes. -/
  derive32 : (ikm info : List UInt8) → FixedBytes 32
  hmacSha256 : (key : FixedBytes 32) → (message : List UInt8) → FixedBytes 32
  /-- XChaCha20-Poly1305; it refuses only a message too long for it. -/
  aeadEncrypt : (key : FixedBytes 32) → (nonce : FixedBytes 24) → (aad message : List UInt8) → Option (List UInt8)
  aeadDecrypt : (key : FixedBytes 32) → (nonce : FixedBytes 24) → (aad ct : List UInt8) → Option (List UInt8)
  /-- The Ed25519 public key of a seed. -/
  verifyingKey : FixedBytes 32 → Key32
  sign : (seed : FixedBytes 32) → (message : List UInt8) → Sig64
  x25519Public : FixedBytes 32 → Key32
  /-- A sealed box for a public key, with what was drawn for it. -/
  sealBox : (draw : FixedBytes 32) → Key32 → List UInt8 → Option (List UInt8)
  /-- Whether age takes 32 bytes as a recipient's public key. -/
  ageRecipient : Key32 → Bool
  ageEncrypt : (draw : FixedBytes 32) → (recipient : Key32) → List UInt8 → Except String (List UInt8)
  /-- Whether age takes 32 bytes as an identity. -/
  ageIdentity : FixedBytes 32 → Bool
  ageDecrypt : (identity : FixedBytes 32) → List UInt8 → Option (List UInt8)

/-! ## Errors -/

inductive KeyError where
  | integrity (failure : IntegrityError)
  | unsealFailed
  | unknownVersion (version : UInt8)
  | unknownKind (kind : UInt8)
  | badLength (kind : String) (length : Nat)
  | truncated
  | binding (what : String)
  | kind (expected found : String)
  | nameDecrypt
  | nameMismatch
  | encrypt (what : String)
deriving DecidableEq

/-! ## Name keys -/

namespace Label

def nameIndex : String := "gv/v1/name-index"
def nameEnc : String := "gv/v1/name-enc"
def nameAad : String := "gv/v1/name"

end Label

/-- `label ‖ 0x00 ‖ data`. -/
def info (label : String) (data : List UInt8) : List UInt8 := frame label [data]

/-- Where a name ciphertext belongs. -/
structure NameContext where
  vaultId : VaultId
  generation : Nat
  kind : RecordCode
deriving DecidableEq

def NameContext.aad (c : NameContext) : List UInt8 :=
  frame Label.nameAad [c.vaultId.raw.bytes, beBytes 4 c.generation, [c.kind.code]]

structure NameKey where
  raw : FixedBytes 32
deriving DecidableEq

namespace NameKey

def nonceLen : Nat := 24

variable [Crypto]

/-- A record's index in its kind's domain. -/
def index (key : NameKey) (kind : RecordCode) (name : String) : NameHmac :=
  ⟨Crypto.hmacSha256 (Crypto.derive32 key.raw.bytes (info Label.nameIndex [])) (kind.code :: utf8 name)⟩

def cipher (key : NameKey) : FixedBytes 32 := Crypto.derive32 key.raw.bytes (info Label.nameEnc [])

def encryptName (key : NameKey) (nonce : FixedBytes 24) (ctx : NameContext) (name : String) :
    Except KeyError (List UInt8) :=
  match Crypto.aeadEncrypt key.cipher nonce ctx.aad (utf8 name) with
  | none => .error (.encrypt "a record name")
  | some ct => .ok (nonce.bytes ++ ct)

def decryptName (key : NameKey) (ctx : NameContext) (sealedName : List UInt8) : Except KeyError String :=
  if long : (sealedName.take nonceLen).length = nonceLen then
    match Crypto.aeadDecrypt key.cipher ⟨sealedName.take nonceLen, long⟩ ctx.aad (sealedName.drop nonceLen) with
    | none => .error .nameDecrypt
    | some plain =>
      match String.fromUTF8? ⟨plain.toArray⟩ with
      | none => .error .nameDecrypt
      | some name => .ok name
  else .error .nameDecrypt

/-- Decrypt a name and check it against the index it was listed under. -/
def openName (key : NameKey) (ctx : NameContext) (index : NameHmac) (sealedName : List UInt8) :
    Except KeyError String :=
  match key.decryptName ctx sealedName with
  | .error failure => .error failure
  | .ok name => if key.index ctx.kind name ≠ index then .error .nameMismatch else .ok name

end NameKey

/-! ## Writer keys and secrets -/

/-- One Ed25519 key for each generation and kind of record. -/
structure WriterKey where
  seed : FixedBytes 32
deriving DecidableEq

/-- What the generation's descriptor names. -/
def WriterKey.publicKey [Crypto] (key : WriterKey) : Key32 := Crypto.verifyingKey key.seed

/-- Sign a record's context. -/
def WriterKey.sign [Crypto] (key : WriterKey) (ctx : RecordContext) : Sig64 := Crypto.sign key.seed ctx.signingInput

/-- What opens a generation's secrets. -/
structure VaultSecret where
  raw : FixedBytes 32
deriving DecidableEq

/-- What opens a generation's configs: a type of its own, so that a config bundle
cannot be given a vault secret. -/
structure ConfigSecret where
  raw : FixedBytes 32
deriving DecidableEq

def VaultSecret.publicKey [Crypto] (secret : VaultSecret) : Key32 := Crypto.x25519Public secret.raw

def ConfigSecret.publicKey [Crypto] (secret : ConfigSecret) : Key32 := Crypto.x25519Public secret.raw

/-! ## Bundles -/

/-- Every key of a generation: what the owner and `admin` tokens hold. -/
structure FullBundle where
  generation : Nat
  nameKey : NameKey
  vaultSecret : VaultSecret
  configSecret : ConfigSecret
  secretWriter : WriterKey
  configWriter : WriterKey
deriving DecidableEq

/-- The random bytes of a new generation's keys. -/
structure FreshKeys where
  nameKey : FixedBytes 32
  vaultSecret : FixedBytes 32
  configSecret : FixedBytes 32
  secretWriter : FixedBytes 32
  configWriter : FixedBytes 32
deriving DecidableEq

namespace FullBundle

/-- A new generation: every key fresh. -/
def generate (fresh : FreshKeys) (generation : Nat) : FullBundle where
  generation := generation
  nameKey := ⟨fresh.nameKey⟩
  vaultSecret := ⟨fresh.vaultSecret⟩
  configSecret := ⟨fresh.configSecret⟩
  secretWriter := ⟨fresh.secretWriter⟩
  configWriter := ⟨fresh.configWriter⟩

/-- This generation's descriptor, for the owner to sign. -/
def descriptor [Crypto] (bundle : FullBundle) (vaultId : VaultId) (prevHash : Hash32) (createdAt : Int) :
    Descriptor where
  vaultId := vaultId
  generation := bundle.generation
  vaultPub := bundle.vaultSecret.publicKey
  configPub := bundle.configSecret.publicKey
  secretWriterPub := bundle.secretWriter.publicKey
  configWriterPub := bundle.configWriter.publicKey
  prevHash := prevHash
  createdAt := createdAt

/-- The keys a bundle for a scope holds, after the name key, and the byte of its kind. -/
def forScope (bundle : FullBundle) : Scope → UInt8 × List (FixedBytes 32)
  | .metadata => (1, [])
  | .append => (2, [bundle.secretWriter.seed, bundle.configWriter.seed])
  | .config => (3, [bundle.configSecret.raw])
  | .configWrite => (4, [bundle.configSecret.raw, bundle.configWriter.seed])
  | .read => (5, [bundle.vaultSecret.raw, bundle.configSecret.raw])
  | .admin =>
    (6, [bundle.vaultSecret.raw, bundle.configSecret.raw, bundle.secretWriter.seed, bundle.configWriter.seed])

/-- `version ‖ kind ‖ vault id ‖ token id ‖ generation ‖ keys`. -/
def encodeFor (bundle : FullBundle) (scope : Scope) (vaultId : VaultId) (tokenId : TokenId) : List UInt8 :=
  let held := bundle.forScope scope
  [2, held.1] ++ vaultId.raw.bytes ++ tokenId.raw.bytes ++ beBytes 4 bundle.generation ++
    ((bundle.nameKey.raw :: held.2).map (·.bytes)).flatten

end FullBundle

/-- A node's owner keys. -/
structure OwnerKeys where
  signing : FixedBytes 32
  boxing : FixedBytes 32
deriving DecidableEq

namespace OwnerKeys

variable [Crypto]

def signPub (owner : OwnerKeys) : Key32 := Crypto.verifyingKey owner.signing

def boxPub (owner : OwnerKeys) : Key32 := Crypto.x25519Public owner.boxing

variable [Digests]

def vaultId (owner : OwnerKeys) : VaultId := VaultId.fromOwnerSignPub owner.signPub

/-- Sign a generation descriptor. The source asserts that it names this vault. -/
def signDescriptor (owner : OwnerKeys) (d : Descriptor) : SignedDescriptor :=
  ⟨⟨d.encode⟩, Crypto.sign owner.signing d.signingInput⟩

/-- Sign a sealed bundle's binding. -/
def signBundle (owner : OwnerKeys) (tokenId : TokenId) (scopeCode : UInt8) (generation : Nat)
    (sealedBytes : List UInt8) : Sig64 :=
  Crypto.sign owner.signing (bundleSigningInput owner.vaultId tokenId scopeCode generation sealedBytes)

end OwnerKeys

section Sealing

variable [Crypto] [Digests]

def sealBytes (draw : FixedBytes 32) (recipient : Key32) (plaintext : List UInt8) : Except KeyError (List UInt8) :=
  match Crypto.sealBox draw recipient plaintext with
  | none => .error (.encrypt "a sealed box")
  | some sealedBytes => .ok sealedBytes

/-- The one way to mint a token's bundle: the scope decides the kind, and the owner
signs the binding. -/
def sealForScope (owner : OwnerKeys) (draw : FixedBytes 32) (holderBoxPub : Key32) (tokenId : TokenId)
    (scope : Scope) (full : FullBundle) : Except KeyError SignedBundle := do
  let sealedBytes ← sealBytes draw holderBoxPub (full.encodeFor scope owner.vaultId tokenId)
  pure ⟨⟨sealedBytes⟩, owner.signBundle tokenId scope.code full.generation sealedBytes⟩

/-- The owner's own bundle: every key, sealed to the owner box key. -/
def sealOwnerBundle (owner : OwnerKeys) (draw : FixedBytes 32) (full : FullBundle) : Except KeyError SignedBundle := do
  let sealedBytes ← sealBytes draw owner.boxPub (full.encodeFor .admin owner.vaultId ownerTokenId)
  pure ⟨⟨sealedBytes⟩, owner.signBundle ownerTokenId ownerScopeCode full.generation sealedBytes⟩

end Sealing

end GalataVault.Client

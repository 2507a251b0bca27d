import GalataVault.Client.Keys

/-!
# Envelopes

Secret values and config documents are sealed with age inside an envelope that binds
what the record's signature binds: a reader that decrypts checks the kind, the vault,
the generation, the version, the write time and the name.
-/

namespace GalataVault.Client

open Proto

def envelopeVersion : UInt8 := 3

def maxNameLen : Nat := 256

/-- Why an envelope's plaintext does not decode. -/
inductive EnvelopeFault where
  | unknownVersion (version : UInt8)
  | unknownKind (kind : UInt8)
  | unknownFormat (format : UInt8)
  | truncated
  | nameTooLong (length : Nat)
  | nameNotUtf8
deriving DecidableEq

inductive SealError where
  | notAge
  | decrypt
  | envelope (fault : EnvelopeFault)
  | nameMismatch
  | binding (what : String)
  | nameTooLong
  | badPublicKey
  | encrypt (why : String)
  | key (failure : KeyError)
  | integrity (failure : IntegrityError)
  | staleGeneration (bundle vault : Nat)
  | tokensNotVisible
  | unknownToken (id : TokenId)
  | kindMismatch (expected found : RecordCode)
  /-- A token scope this client does not know. -/
  | unsupportedByClient (token : TokenId) (scope : String)
deriving DecidableEq

/-- A config's declared format. -/
inductive ConfigFormat where
  | toml
  | json
  | yaml
  | text
deriving DecidableEq

namespace ConfigFormat

def code : ConfigFormat → UInt8
  | toml => 1
  | json => 2
  | yaml => 3
  | text => 4

def all : List ConfigFormat := [toml, json, yaml, text]

def fromCode (c : UInt8) : Option ConfigFormat := all.find? fun f => f.code = c

end ConfigFormat

/-- What an envelope binds besides its kind and name. -/
structure EnvelopeContext where
  vaultId : VaultId
  generation : Nat
  version : Nat
  writtenAt : Int
deriving DecidableEq

/-- A decoded envelope, before its bindings are checked. -/
structure Decoded where
  kind : RecordCode
  format : Option ConfigFormat
  ctx : EnvelopeContext
  name : String
  body : List UInt8
deriving DecidableEq

def encodeEnvelope (kind : RecordCode) (format : Option ConfigFormat) (ctx : EnvelopeContext) (name : String)
    (body : List UInt8) : Except SealError (List UInt8) :=
  if maxNameLen < (utf8 name).length then .error .nameTooLong
  else .ok
    ([envelopeVersion, kind.code] ++ (format.map (·.code)).toList ++ ctx.vaultId.raw.bytes ++
      beBytes 4 ctx.generation ++ beBytes 8 ctx.version ++ beBytesI64 ctx.writtenAt ++
      beBytes 2 (utf8 name).length ++ utf8 name ++ body)

def RecordCode.fromCode (c : UInt8) : Option RecordCode :=
  [RecordCode.secret, .config].find? fun kind => kind.code = c

/-- The bytes of one field, or a truncation. -/
def field (bytes : List UInt8) (start width : Nat) : Except SealError (FixedBytes width) :=
  let chunk := (bytes.drop start).take width
  if long : chunk.length = width then .ok ⟨chunk, long⟩ else .error (.envelope .truncated)

/-- The fields after the kind and the format. -/
def decodeFields (kind : RecordCode) (format : Option ConfigFormat) (rest : List UInt8) : Except SealError Decoded := do
  let fixed := 38
  if rest.length < fixed then throw (.envelope .truncated)
  else
    let vaultId ← field rest 0 16
    let generation ← field rest 16 4
    let version ← field rest 20 8
    let writtenAt ← field rest 28 8
    let nameField ← field rest 36 2
    let nameLen := beNat nameField.bytes
    if maxNameLen < nameLen then throw (.envelope (.nameTooLong nameLen))
    else if rest.length < fixed + nameLen then throw (.envelope .truncated)
    else
      match String.fromUTF8? ⟨((rest.drop fixed).take nameLen).toArray⟩ with
      | none => throw (.envelope .nameNotUtf8)
      | some name =>
        pure
          { kind := kind
            format := format
            ctx :=
              { vaultId := ⟨vaultId⟩, generation := beNat generation.bytes, version := beNat version.bytes,
                writtenAt := beI64 writtenAt.bytes }
            name := name
            body := rest.drop (fixed + nameLen) }

/-- Decode an envelope's plaintext. The version byte is checked first. -/
def decodeEnvelope (bytes : List UInt8) : Except SealError Decoded :=
  match bytes with
  | [] => .error (.envelope .truncated)
  | version :: bytes =>
    if version ≠ envelopeVersion then .error (.envelope (.unknownVersion version))
    else
      match bytes with
      | [] => .error (.envelope .truncated)
      | kindCode :: bytes =>
        match RecordCode.fromCode kindCode with
        | none => .error (.envelope (.unknownKind kindCode))
        | some .secret => decodeFields .secret none bytes
        | some .config =>
          match bytes with
          | [] => .error (.envelope .truncated)
          | code :: rest =>
            match ConfigFormat.fromCode code with
            | none => .error (.envelope (.unknownFormat code))
            | some format => decodeFields .config (some format) rest

/-- Check every binding of a decoded envelope. -/
def checkBindings (decoded : Decoded) (kind : RecordCode) (ctx : EnvelopeContext) (name : String) :
    Except SealError Unit :=
  if decoded.kind ≠ kind then .error (.kindMismatch kind decoded.kind)
  else if decoded.ctx.vaultId ≠ ctx.vaultId then .error (.binding "vault id")
  else if decoded.ctx.generation ≠ ctx.generation then .error (.binding "generation")
  else if decoded.ctx.version ≠ ctx.version then .error (.binding "version")
  else if decoded.ctx.writtenAt ≠ ctx.writtenAt then .error (.binding "write time")
  else if decoded.name ≠ name then .error .nameMismatch
  else .ok ()

section

variable [Crypto]

def decryptEnvelope (secret : FixedBytes 32) (valueCt : List UInt8) : Except SealError Decoded :=
  if ¬ utf8 "age-encryption.org/v1\n" <+: valueCt then .error .notAge
  else if Crypto.ageIdentity secret = false then .error .decrypt
  else
    match Crypto.ageDecrypt secret valueCt with
    | none => .error .decrypt
    | some plain => decodeEnvelope plain

/-- Encrypt an envelope to a descriptor's key. -/
def sealEnvelope (draw : FixedBytes 32) (recipient : Key32) (envelope : List UInt8) : Except SealError (List UInt8) :=
  if Crypto.ageRecipient recipient = false then .error .badPublicKey
  else (Crypto.ageEncrypt draw recipient envelope).mapError .encrypt

/-- Encrypt a secret value to a descriptor's `vault_pub`. -/
def sealValue (draw : FixedBytes 32) (vaultPub : Key32) (ctx : EnvelopeContext) (name : String) (value : List UInt8) :
    Except SealError (List UInt8) := do
  let envelope ← encodeEnvelope .secret none ctx name value
  sealEnvelope draw vaultPub envelope

/-- Encrypt a config document to a descriptor's `config_pub`. -/
def sealConfig (draw : FixedBytes 32) (configPub : Key32) (ctx : EnvelopeContext) (name : String)
    (format : ConfigFormat) (body : List UInt8) : Except SealError (List UInt8) := do
  let envelope ← encodeEnvelope .config (some format) ctx name body
  sealEnvelope draw configPub envelope

/-- Decrypt a secret value and check every binding. -/
def openValue (secret : VaultSecret) (ctx : EnvelopeContext) (name : String) (valueCt : List UInt8) :
    Except SealError (List UInt8) := do
  let decoded ← decryptEnvelope secret.raw valueCt
  checkBindings decoded .secret ctx name
  pure decoded.body

/-- Decrypt a config document and check every binding. -/
def openConfig (secret : ConfigSecret) (ctx : EnvelopeContext) (name : String) (valueCt : List UInt8) :
    Except SealError (ConfigFormat × List UInt8) := do
  let decoded ← decryptEnvelope secret.raw valueCt
  checkBindings decoded .config ctx name
  match decoded.format with
  | none => throw (.envelope (.unknownKind RecordCode.config.code))
  | some format => pure (format, decoded.body)

end

end GalataVault.Client

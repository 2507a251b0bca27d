import GalataVault.Client.Records

/-!
# The rotation batch

Everything the server needs to move a vault to a new generation in one transaction,
built on the client from what the server already stores: a fresh generation named by a
descriptor linked to the current one, every retained version verified, opened,
re-encrypted and re-signed under its own number and write time, and a bundle for the
owner and for every surviving token.
-/

namespace GalataVault.Client

open Proto

/-- A token's scope as a client reads it: a later server may name one it does not
know. -/
inductive TokenScope where
  | known (scope : Scope)
  | unknown (name : String)
deriving DecidableEq

def TokenScope.isKnown : TokenScope → Bool
  | known _ => true
  | unknown _ => false

/-- A token as the owner sees it listed. -/
structure ListedToken where
  tokenId : TokenId
  scope : TokenScope
  boxPub : Key32
deriving DecidableEq

/-- What a rotation reads of the vault's status. The tokens are there for the owner and
admin tokens only. -/
structure RotationStatus where
  generation : Nat
  revision : Nat
  tokens : Option (List ListedToken)
deriving DecidableEq

/-- Everything a rotation draws. -/
structure Draws where
  keys : FreshKeys
  owner : FixedBytes 32
  /-- For the version at each place of its list. -/
  secret : Nat → Draw
  config : Nat → Draw
  /-- For the token at each place of the surviving ones. -/
  token : Nat → FixedBytes 32

structure Rotation where
  request : RotationRequest
  /-- The new generation, to keep using once the server accepts. -/
  newBundle : FullBundle
  newDescriptor : Descriptor
deriving DecidableEq

/-- A version of the batch, from the version it replaces and its new record. -/
def rotatedVersion (v : SecretVersion) (rec : WrittenRecord) : RotatedVersion where
  oldNameHmac := v.nameHmac
  version := v.version
  nameHmac := rec.nameHmac
  nameCt := ⟨rec.nameCt⟩
  valueCt := rec.valueCt.map (⟨·⟩)
  writtenAt := v.writtenAt
  sig := rec.sig

section

variable [Crypto] [Digests] [Ed25519]

/-- Verify and open one secret version, and write it anew. -/
def rotateSecret (descriptor : Descriptor) (current : FullBundle) (w : Writer) (draw : Draw) (v : SecretVersion) :
    Except SealError RotatedVersion := do
  let opened ← openSecret descriptor current.nameKey current.vaultSecret v
  let rec ← (match opened.value with
    | some value => w.secret draw opened.name value v.version v.writtenAt
    | none => w.tombstone draw .secret opened.name v.version v.writtenAt)
  pure (rotatedVersion v rec)

/-- Verify and open one config version, and write it anew. -/
def rotateConfig (descriptor : Descriptor) (current : FullBundle) (w : Writer) (draw : Draw) (v : SecretVersion) :
    Except SealError RotatedVersion := do
  let opened ← openConfigRecord descriptor current.nameKey current.configSecret v
  let rec ← (match opened.value, opened.format with
    | some body, some format => w.config draw opened.name format body v.version v.writtenAt
    | _, _ => w.tombstone draw .config opened.name v.version v.writtenAt)
  pure (rotatedVersion v rec)

/-- Reseal one surviving token's bundle for its scope. -/
def reseal (owner : OwnerKeys) (next : FullBundle) (draw : FixedBytes 32) (t : ListedToken) :
    Except SealError ResealedBundle :=
  match t.scope with
  | .unknown name => .error (.unsupportedByClient t.tokenId name)
  | .known scope => do
    let bundle ← (sealForScope owner draw t.boxPub t.tokenId scope next).mapError .key
    pure ⟨t.tokenId, bundle⟩

/-- `secrets` and `configs` must be every retained version of each kind; `current` is
the owner's bundle for `descriptor`, which the caller has verified. -/
def buildRotation (owner : OwnerKeys) (status : RotationStatus) (descriptor : Descriptor) (current : FullBundle)
    (secrets configs : List SecretVersion) (revoke : List TokenId) (now : Int) (draws : Draws) :
    Except SealError Rotation :=
  if current.generation ≠ status.generation ∨ descriptor.generation ≠ status.generation then
    .error (.staleGeneration current.generation status.generation)
  else
    match status.tokens with
    | none => .error .tokensNotVisible
    | some tokens =>
      let surviving := tokens.filter fun t => t.tokenId ∉ revoke
      -- A scope this client does not know: refuse before anything is built.
      match surviving.find? fun t => !t.scope.isKnown with
      | some t =>
        .error (.unsupportedByClient t.tokenId (match t.scope with | .unknown name => name | .known _ => "?"))
      | none =>
        match revoke.find? fun id => !tokens.any fun t => t.tokenId = id with
        | some id => .error (.unknownToken id)
        | none => do
          let next := FullBundle.generate draws.keys (status.generation + 1)
          let nextDescriptor := next.descriptor owner.vaultId descriptor.hash now
          let rotatedSecrets ← secrets.zipIdx.mapM fun v =>
            rotateSecret descriptor current ⟨nextDescriptor, next.nameKey, next.secretWriter⟩ (draws.secret v.2) v.1
          let rotatedConfigs ← configs.zipIdx.mapM fun v =>
            rotateConfig descriptor current ⟨nextDescriptor, next.nameKey, next.configWriter⟩ (draws.config v.2) v.1
          let resealed ← surviving.zipIdx.mapM fun t => reseal owner next (draws.token t.2) t.1
          let ownerBundle ← (sealOwnerBundle owner draws.owner next).mapError .key
          pure
            { request :=
                { fromGeneration := status.generation
                  fromRevision := status.revision
                  descriptor := owner.signDescriptor nextDescriptor
                  ownerBundle := ownerBundle
                  secrets := rotatedSecrets
                  configs := rotatedConfigs
                  tokens := resealed
                  revoke := revoke }
              newBundle := next
              newDescriptor := nextDescriptor }

end

end GalataVault.Client

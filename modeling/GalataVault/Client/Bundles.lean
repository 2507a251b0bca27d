import GalataVault.Client.AllowLists
import GalataVault.Client.Opening

/-!
# Bundles

What each scope's bundle holds, how a bundle is written as bytes, and how a holder
reads it back: the owner's signature, then the seal, then the version, the binding
and the exact length of the kind.

Three tables have to agree: scope to bundle, bundle to bytes, and bytes to bundle.
That the sealed box opens with its holder's key is an assumption, as are the
signatures.
-/

namespace GalataVault.Client

open Proto Backend

/-! ## Kinds -/

/-- What `meta` tokens hold. -/
structure NamesBundle where
  generation : Nat
  nameKey : NameKey
deriving DecidableEq

/-- What `append` tokens hold: both writer keys, and no key that decrypts. -/
structure AppendBundle where
  generation : Nat
  nameKey : NameKey
  secretWriter : WriterKey
  configWriter : WriterKey
deriving DecidableEq

/-- What `config` tokens hold: no field for the vault key or a writer. -/
structure ConfigBundle where
  generation : Nat
  nameKey : NameKey
  configSecret : ConfigSecret
deriving DecidableEq

/-- What `config-write` tokens hold: no field for the vault key or the secret writer. -/
structure ConfigWriteBundle where
  generation : Nat
  nameKey : NameKey
  configSecret : ConfigSecret
  configWriter : WriterKey
deriving DecidableEq

/-- What `read` tokens hold: both decryption keys, and no writer. -/
structure ReadBundle where
  generation : Nat
  nameKey : NameKey
  vaultSecret : VaultSecret
  configSecret : ConfigSecret
deriving DecidableEq

inductive Bundle where
  | names (bundle : NamesBundle)
  | append (bundle : AppendBundle)
  | config (bundle : ConfigBundle)
  | configWrite (bundle : ConfigWriteBundle)
  | read (bundle : ReadBundle)
  | full (bundle : FullBundle)
deriving DecidableEq

def bundleVersion : UInt8 := 2
def kindNames : UInt8 := 1
def kindAppend : UInt8 := 2
def kindConfig : UInt8 := 3
def kindConfigWrite : UInt8 := 4
def kindRead : UInt8 := 5
def kindFull : UInt8 := 6
def kindChild : UInt8 := 7

/-- Version, kind, vault id, token id, generation. -/
def headerLen : Nat := 1 + 1 + 16 + 16 + 4

def kindName (kind : UInt8) : String :=
  if kind = kindNames then "names"
  else if kind = kindAppend then "append"
  else if kind = kindConfig then "config"
  else if kind = kindConfigWrite then "config-write"
  else if kind = kindRead then "read"
  else if kind = kindFull then "full"
  else if kind = kindChild then "child"
  else "unknown"

def scopeKind : Scope → UInt8
  | .metadata => kindNames
  | .append => kindAppend
  | .config => kindConfig
  | .configWrite => kindConfigWrite
  | .read => kindRead
  | .admin => kindFull

namespace Bundle

/-- What a token of a scope receives, and nothing more. -/
def forScope (b : FullBundle) : Scope → Bundle
  | .metadata => .names ⟨b.generation, b.nameKey⟩
  | .append => .append ⟨b.generation, b.nameKey, b.secretWriter, b.configWriter⟩
  | .config => .config ⟨b.generation, b.nameKey, b.configSecret⟩
  | .configWrite => .configWrite ⟨b.generation, b.nameKey, b.configSecret, b.configWriter⟩
  | .read => .read ⟨b.generation, b.nameKey, b.vaultSecret, b.configSecret⟩
  | .admin => .full b

def generation : Bundle → Nat
  | names b => b.generation
  | append b => b.generation
  | config b => b.generation
  | configWrite b => b.generation
  | read b => b.generation
  | full b => b.generation

def nameKey : Bundle → NameKey
  | names b => b.nameKey
  | append b => b.nameKey
  | config b => b.nameKey
  | configWrite b => b.nameKey
  | read b => b.nameKey
  | full b => b.nameKey

def vaultSecret : Bundle → Option VaultSecret
  | read b => some b.vaultSecret
  | full b => some b.vaultSecret
  | _ => none

def configSecret : Bundle → Option ConfigSecret
  | config b => some b.configSecret
  | configWrite b => some b.configSecret
  | read b => some b.configSecret
  | full b => some b.configSecret
  | _ => none

def secretWriter : Bundle → Option WriterKey
  | append b => some b.secretWriter
  | full b => some b.secretWriter
  | _ => none

def configWriter : Bundle → Option WriterKey
  | append b => some b.configWriter
  | configWrite b => some b.configWriter
  | full b => some b.configWriter
  | _ => none

def kind : Bundle → UInt8
  | names _ => kindNames
  | append _ => kindAppend
  | config _ => kindConfig
  | configWrite _ => kindConfigWrite
  | read _ => kindRead
  | full _ => kindFull

def intoFull : Bundle → Except KeyError FullBundle
  | full b => .ok b
  | other => .error (.kind "full" (kindName other.kind))

end Bundle

/-! ## Bytes -/

/-- `version ‖ kind ‖ vault id ‖ token id ‖ generation ‖ keys`. -/
def plaintext (kind : UInt8) (vaultId : VaultId) (tokenId : TokenId) (generation : Nat)
    (keys : List (FixedBytes 32)) : List UInt8 :=
  [bundleVersion, kind] ++ vaultId.raw.bytes ++ tokenId.raw.bytes ++ beBytes 4 generation ++
    (keys.map (·.bytes)).flatten

namespace Bundle

/-- A bundle's plaintext, for one vault and token. -/
def encode (bundle : Bundle) (vaultId : VaultId) (tokenId : TokenId) : List UInt8 :=
  let generation := bundle.generation
  let nameKey := bundle.nameKey.raw
  match bundle with
  | names _ => plaintext kindNames vaultId tokenId generation [nameKey]
  | append b =>
    plaintext kindAppend vaultId tokenId generation [nameKey, b.secretWriter.seed, b.configWriter.seed]
  | config b => plaintext kindConfig vaultId tokenId generation [nameKey, b.configSecret.raw]
  | configWrite b =>
    plaintext kindConfigWrite vaultId tokenId generation [nameKey, b.configSecret.raw, b.configWriter.seed]
  | read b => plaintext kindRead vaultId tokenId generation [nameKey, b.vaultSecret.raw, b.configSecret.raw]
  | full b =>
    plaintext kindFull vaultId tokenId generation
      [nameKey, b.vaultSecret.raw, b.configSecret.raw, b.secretWriter.seed, b.configWriter.seed]

end Bundle

/-- What a bundle's plaintext must name. -/
structure Binding where
  vaultId : VaultId
  tokenId : TokenId
  generation : Nat

/-- The byte of the kind. -/
def kindOf (p : List UInt8) : UInt8 := p.getD 1 0

/-- The key at a position of the body. The callers have checked the length, so the
slice is whole. -/
def keyAt (p : List UInt8) (i : Nat) : FixedBytes 32 :=
  if whole : ((p.drop (headerLen + 32 * i)).take 32).length = 32 then ⟨_, whole⟩ else .fill 32 0

def checkBinding (p : List UInt8) (binding : Binding) : Except KeyError Unit :=
  if (p.drop 2).take 16 ≠ binding.vaultId.raw.bytes then .error (.binding "vault id")
  else if (p.drop 18).take 16 ≠ binding.tokenId.raw.bytes then .error (.binding "token id")
  else if (p.drop 34).take 4 ≠ beBytes 4 binding.generation then .error (.binding "generation")
  else .ok ()

/-- The bundle of a plaintext whose binding was checked: its kind and its exact length
decide what it holds. -/
def bundleOf (p : List UInt8) (generation : Nat) : Except KeyError Bundle :=
  let kind := kindOf p
  let body := p.length - headerLen
  let nameKey : NameKey := ⟨keyAt p 0⟩
  if kind = kindNames ∧ body = 32 then .ok (.names ⟨generation, nameKey⟩)
  else if kind = kindAppend ∧ body = 96 then .ok (.append ⟨generation, nameKey, ⟨keyAt p 1⟩, ⟨keyAt p 2⟩⟩)
  else if kind = kindConfig ∧ body = 64 then .ok (.config ⟨generation, nameKey, ⟨keyAt p 1⟩⟩)
  else if kind = kindConfigWrite ∧ body = 96 then
    .ok (.configWrite ⟨generation, nameKey, ⟨keyAt p 1⟩, ⟨keyAt p 2⟩⟩)
  else if kind = kindRead ∧ body = 96 then .ok (.read ⟨generation, nameKey, ⟨keyAt p 1⟩, ⟨keyAt p 2⟩⟩)
  else if kind = kindFull ∧ body = 160 then
    .ok (.full ⟨generation, nameKey, ⟨keyAt p 1⟩, ⟨keyAt p 2⟩, ⟨keyAt p 3⟩, ⟨keyAt p 4⟩⟩)
  else if kindNames ≤ kind ∧ kind ≤ kindFull then .error (.badLength (kindName kind) body)
  else .error (.unknownKind kind)

/-! ## Sealing and opening -/

/-- The other half of the sealed box: opening one with a holder's secret. -/
class Unsealing where
  unsealBox : (secret : FixedBytes 32) → List UInt8 → Option (List UInt8)

section

variable [Unsealing]

/-- Open the seal, then check the version byte, whatever the length, and that a whole
header is there. -/
def unsealBytes (sk : FixedBytes 32) (sealedBytes : List UInt8) : Except KeyError (List UInt8) :=
  match Unsealing.unsealBox sk sealedBytes with
  | none => .error .unsealFailed
  | some [] => .error .truncated
  | some (version :: rest) =>
    if version ≠ bundleVersion then .error (.unknownVersion version)
    else if (version :: rest).length < headerLen then .error .truncated
    else .ok (version :: rest)

def openBundle (sk : FixedBytes 32) (sealedBytes : List UInt8) (binding : Binding) : Except KeyError Bundle := do
  let p ← unsealBytes sk sealedBytes
  if kindOf p = kindChild then throw (.kind "a token or owner bundle" "child")
  else
    checkBinding p binding
    bundleOf p binding.generation

/-- The kind a scope's bundle must be. -/
def expectScope (bundle : Bundle) (scope : Scope) : Except KeyError Unit :=
  if bundle.kind ≠ scopeKind scope then .error (.kind (kindName (scopeKind scope)) (kindName bundle.kind))
  else .ok ()

/-- A node's key: whoever holds it owns the node's vault and everything beneath it. -/
structure NodeKey where
  raw : FixedBytes 32
deriving DecidableEq

/-- Seal a re-rooted child's random key to its parent's owner box key. -/
def sealChildKey [Crypto] (draw : FixedBytes 32) (parentBoxPub : Key32) (parentVault : VaultId) (key : NodeKey) :
    Except KeyError (List UInt8) :=
  sealBytes draw parentBoxPub (plaintext kindChild parentVault ownerTokenId 0 [key.raw])

def openChildKey (sk : FixedBytes 32) (sealedBytes : List UInt8) (parentVault : VaultId) : Except KeyError NodeKey := do
  let p ← unsealBytes sk sealedBytes
  if kindOf p ≠ kindChild then throw (.kind "child" (kindName (kindOf p)))
  else
    checkBinding p ⟨parentVault, ownerTokenId, 0⟩
    if p.length ≠ headerLen + 32 then throw (.badLength "child" (p.length - headerLen))
    else pure ⟨keyAt p 0⟩

variable [Crypto] [Digests] [Ed25519]

/-- Open this vault's owner bundle: the signature first, then the seal, then the
binding. -/
def OwnerKeys.openOwnBundle (owner : OwnerKeys) (signed : SignedBundle) (generation : Nat) :
    Except KeyError FullBundle := do
  (signed.verify owner.signPub owner.vaultId ownerTokenId ownerScopeCode generation).mapError .integrity
  let bundle ← openBundle owner.boxing signed.sealed.bytes ⟨owner.vaultId, ownerTokenId, generation⟩
  bundle.intoFull

end

namespace Label

def tokenBox : String := "gv/v1/token-box"

end Label

/-- A token, as its string carries it. -/
structure TokenKeys where
  id : TokenId
  vaultId : VaultId
  secret : FixedBytes 32
deriving DecidableEq

namespace TokenKeys

variable [Crypto]

def boxing (token : TokenKeys) : FixedBytes 32 :=
  Crypto.derive32 token.secret.bytes (info Label.tokenBox token.id.raw.bytes)

/-- What the token's bundle is sealed to. -/
def boxPub (token : TokenKeys) : Key32 := Crypto.x25519Public token.boxing

variable [Digests] [Ed25519] [Unsealing]

/-- Open this token's bundle: the owner key hashes to the pinned vault id, the owner's
signature binds this vault, token, scope and generation, and the plaintext names the
same and is of the scope's kind. -/
def openBundle (token : TokenKeys) (signed : SignedBundle) (ownerSignPub : Key32) (scope : Scope) (generation : Nat) :
    Except KeyError Bundle := do
  if VaultId.fromOwnerSignPub ownerSignPub ≠ token.vaultId then throw (.integrity (.keyMismatch "owner signing key"))
  else
    (signed.verify ownerSignPub token.vaultId token.id scope.code generation).mapError .integrity
    let bundle ← Client.openBundle token.boxing signed.sealed.bytes ⟨token.vaultId, token.id, generation⟩
    expectScope bundle scope
    pure bundle

end TokenKeys

/-! ## What a scope may hold -/

/-- The keys of a generation. -/
inductive KeyName where
  | nameKey
  | vaultSecret
  | configSecret
  | secretWriter
  | configWriter
deriving DecidableEq

def FullBundle.key (b : FullBundle) : KeyName → FixedBytes 32
  | .nameKey => b.nameKey.raw
  | .vaultSecret => b.vaultSecret.raw
  | .configSecret => b.configSecret.raw
  | .secretWriter => b.secretWriter.seed
  | .configWriter => b.configWriter.seed

/-- The key a bundle holds under a name, if it holds one. -/
def Bundle.key (b : Bundle) : KeyName → Option (FixedBytes 32)
  | .nameKey => some b.nameKey.raw
  | .vaultSecret => b.vaultSecret.map (·.raw)
  | .configSecret => b.configSecret.map (·.raw)
  | .secretWriter => b.secretWriter.map (·.seed)
  | .configWriter => b.configWriter.map (·.seed)

/-- The documented table of what each scope's bundle carries. -/
def Scope.holds : Scope → KeyName → Bool
  | .metadata, name => name = .nameKey
  | .append, name => name ∈ [KeyName.nameKey, .secretWriter, .configWriter]
  | .config, name => name ∈ [KeyName.nameKey, .configSecret]
  | .configWrite, name => name ∈ [KeyName.nameKey, .configSecret, .configWriter]
  | .read, name => name ∈ [KeyName.nameKey, .vaultSecret, .configSecret]
  | .admin, _ => true

/-- A bundle holds a scope's keys of a generation, unchanged, and no other. -/
structure Follows (bundle : Bundle) (scope : Scope) (full : FullBundle) : Prop where
  generation : bundle.generation = full.generation
  keys : ∀ name, bundle.key name = if Scope.holds scope name then some (full.key name) else none

theorem forScope_follows (full : FullBundle) (scope : Scope) : Follows (Bundle.forScope full scope) scope full := by
  constructor
  · cases scope <;> rfl
  · intro name
    cases scope <;> cases name <;> rfl

theorem forScope_generation (full : FullBundle) (scope : Scope) :
    (Bundle.forScope full scope).generation = full.generation := (forScope_follows full scope).generation

theorem forScope_kind (full : FullBundle) (scope : Scope) : (Bundle.forScope full scope).kind = scopeKind scope := by
  cases scope <;> rfl

/-- What is sealed for a scope is the encoding of its bundle. -/
theorem encodeFor_eq (full : FullBundle) (scope : Scope) (vaultId : VaultId) (tokenId : TokenId) :
    full.encodeFor scope vaultId tokenId = (Bundle.forScope full scope).encode vaultId tokenId := by
  cases scope <;> rfl

/-- A bundle is determined by its scope, its generation and the keys its scope holds. -/
theorem forScope_agree {scope : Scope} {full other : FullBundle} (generation : full.generation = other.generation)
    (agree : ∀ name, Scope.holds scope name = true → full.key name = other.key name) :
    Bundle.forScope full scope = Bundle.forScope other scope := by
  obtain ⟨g, ⟨nameKey⟩, ⟨vaultSecret⟩, ⟨configSecret⟩, ⟨secretWriter⟩, ⟨configWriter⟩⟩ := full
  obtain ⟨g', ⟨nameKey'⟩, ⟨vaultSecret'⟩, ⟨configSecret'⟩, ⟨secretWriter'⟩, ⟨configWriter'⟩⟩ := other
  obtain rfl : g = g' := generation
  have names := agree .nameKey
  have vaults := agree .vaultSecret
  have configs := agree .configSecret
  have secretWriters := agree .secretWriter
  have configWriters := agree .configWriter
  simp only [FullBundle.key] at names vaults configs secretWriters configWriters
  cases scope <;> simp_all [Scope.holds, Bundle.forScope]

/-! ## Reading a plaintext -/

section Plaintext

variable {kind : UInt8} {vaultId : VaultId} {tokenId : TokenId} {generation : Nat} {keys : List (FixedBytes 32)}

theorem flatten_length (keys : List (FixedBytes 32)) : ((keys.map (·.bytes)).flatten).length = 32 * keys.length := by
  induction keys with
  | nil => rfl
  | cons key keys inductionHypothesis =>
    rw [List.map_cons, List.flatten_cons, List.length_append, inductionHypothesis, key.size, List.length_cons]
    omega

theorem plaintext_length : (plaintext kind vaultId tokenId generation keys).length = headerLen + 32 * keys.length := by
  simp only [plaintext, List.length_append, flatten_length, beBytes_length, FixedBytes.length_bytes, headerLen,
    List.length_cons, List.length_nil]

theorem plaintext_kind : kindOf (plaintext kind vaultId tokenId generation keys) = kind := rfl

/-- A plaintext is its two bytes and then its fields. -/
theorem plaintext_fields : plaintext kind vaultId tokenId generation keys =
    [bundleVersion, kind] ++ (vaultId.raw.bytes ++ (tokenId.raw.bytes ++ (beBytes 4 generation ++
      (keys.map (·.bytes)).flatten))) := by
  simp only [plaintext, List.append_assoc]

theorem checkBinding_plaintext :
    checkBinding (plaintext kind vaultId tokenId generation keys) ⟨vaultId, tokenId, generation⟩ = .ok () := by
  have vault : ((plaintext kind vaultId tokenId generation keys).drop 2).take 16 = vaultId.raw.bytes := by
    rw [plaintext_fields]
    exact List.take_left' vaultId.raw.size
  have token : ((plaintext kind vaultId tokenId generation keys).drop 18).take 16 = tokenId.raw.bytes := by
    rw [plaintext_fields, ← List.append_assoc, List.drop_left' (by simp [vaultId.raw.size])]
    exact List.take_left' tokenId.raw.size
  have number : ((plaintext kind vaultId tokenId generation keys).drop 34).take 4 = beBytes 4 generation := by
    rw [plaintext_fields, ← List.append_assoc, ← List.append_assoc,
      List.drop_left' (by simp [vaultId.raw.size, tokenId.raw.size])]
    exact List.take_left' (beBytes_length 4 generation)
  simp only [checkBinding, vault, token, number, ne_eq, not_true_eq_false, if_false]

/-- The keys of a plaintext stand one after the other behind its header. -/
theorem keyAt_plaintext {i : Nat} {key : FixedBytes 32} (here : keys[i]? = some key) :
    keyAt (plaintext kind vaultId tokenId generation keys) i = key := by
  have header : (plaintext kind vaultId tokenId generation keys).drop headerLen = (keys.map (·.bytes)).flatten :=
    List.drop_left' (by simp [beBytes_length, headerLen, vaultId.raw.size, tokenId.raw.size])
  have slice : ∀ (keys : List (FixedBytes 32)) (i : Nat), keys[i]? = some key →
      (((keys.map (·.bytes)).flatten).drop (32 * i)).take 32 = key.bytes := by
    intro keys
    induction keys with
    | nil =>
      intro i here
      cases here
    | cons first keys inductionHypothesis =>
      intro i here
      cases i with
      | zero =>
        obtain rfl := Option.some.inj here
        exact List.take_left' first.size
      | succ i =>
        rw [List.map_cons, List.flatten_cons, show 32 * (i + 1) = first.bytes.length + 32 * i by
          rw [first.size]; omega, List.drop_length_add_append]
        exact inductionHypothesis i here
  have found := slice keys i here
  rw [← header, List.drop_drop] at found
  unfold keyAt
  rw [dif_pos (by rw [found, key.size])]
  apply fixedBytes_ext
  exact found

/-- A plaintext is determined by what its reader looks at: the version, the kind, the
binding, its length and the keys. -/
theorem plaintext_of_read {p : List UInt8} {binding : Binding} {n : Nat} (version : p.head? = some bundleVersion)
    (bound : checkBinding p binding = .ok ()) (long : p.length = headerLen + 32 * n) :
    p = plaintext (kindOf p) binding.vaultId binding.tokenId binding.generation
      ((List.range n).map (keyAt p)) := by
  have chunks : ∀ (n : Nat) (body : List UInt8), body.length = 32 * n →
      body = ((List.range n).map fun i => (body.drop (32 * i)).take 32).flatten := by
    intro n
    induction n with
    | zero =>
      intro body empty
      rw [List.length_eq_zero_iff.mp empty]
      rfl
    | succ n inductionHypothesis =>
      intro body long
      have rest := inductionHypothesis (body.drop 32) (by rw [List.length_drop]; omega)
      rw [List.range_succ_eq_map, List.map_cons, List.flatten_cons, List.map_map]
      conv_lhs => rw [← List.take_append_drop 32 body, rest]
      congr 2
      apply List.map_congr_left
      intro i _
      rw [List.drop_drop, Function.comp_apply]
      congr 2
      omega
  have keys : ((List.range n).map (keyAt p)).map (·.bytes) =
      (List.range n).map fun i => ((p.drop headerLen).drop (32 * i)).take 32 := by
    rw [List.map_map]
    apply List.map_congr_left
    intro i inside
    have inside := List.mem_range.mp inside
    rw [Function.comp_apply, keyAt, dif_pos (by rw [List.length_take, List.length_drop]; omega), List.drop_drop]
  have body := chunks n (p.drop headerLen) (by rw [List.length_drop]; omega)
  obtain ⟨vault, token, number⟩ : (p.drop 2).take 16 = binding.vaultId.raw.bytes ∧
      (p.drop 18).take 16 = binding.tokenId.raw.bytes ∧ (p.drop 34).take 4 = beBytes 4 binding.generation := by
    unfold checkBinding at bound
    split at bound
    · cases bound
    · next vault =>
      split at bound
      · cases bound
      · next token =>
        split at bound
        · cases bound
        · next number => exact ⟨not_not.mp vault, not_not.mp token, not_not.mp number⟩
  rw [plaintext_fields, keys, ← body, ← vault, ← token, ← number]
  obtain ⟨kind, rest, rfl⟩ : ∃ kind rest, p = bundleVersion :: kind :: rest := by
    cases p with
    | nil => cases version
    | cons v tail =>
      obtain rfl := Option.some.inj version
      cases tail with
      | nil =>
        simp only [List.length_cons, List.length_nil, headerLen] at long
        omega
      | cons kind rest => exact ⟨kind, rest, rfl⟩
  have first : (bundleVersion :: kind :: rest).drop 2 = rest := rfl
  have second : (bundleVersion :: kind :: rest).drop 18 = rest.drop 16 := rfl
  have third : (bundleVersion :: kind :: rest).drop 34 = (rest.drop 16).drop 16 := by rw [List.drop_drop]; rfl
  have last : (bundleVersion :: kind :: rest).drop headerLen = ((rest.drop 16).drop 16).drop 4 := by
    rw [List.drop_drop, List.drop_drop]
    rfl
  rw [first, second, third, last, List.take_append_drop, List.take_append_drop, List.take_append_drop]
  rfl

end Plaintext

/-! ## Bundles read back -/

theorem checkBinding_encode (bundle : Bundle) (vaultId : VaultId) (tokenId : TokenId) :
    checkBinding (bundle.encode vaultId tokenId) ⟨vaultId, tokenId, bundle.generation⟩ = .ok () := by
  cases bundle <;> exact checkBinding_plaintext

@[simp] theorem kindOf_encode (bundle : Bundle) (vaultId : VaultId) (tokenId : TokenId) :
    kindOf (bundle.encode vaultId tokenId) = bundle.kind := by
  cases bundle <;> rfl

theorem kind_not_child (bundle : Bundle) : bundle.kind ≠ kindChild := by
  cases bundle <;>
    simp [Bundle.kind, kindNames, kindAppend, kindConfig, kindConfigWrite, kindRead, kindFull, kindChild]

theorem bundleOf_encode (bundle : Bundle) (vaultId : VaultId) (tokenId : TokenId) :
    bundleOf (bundle.encode vaultId tokenId) bundle.generation = .ok bundle := by
  cases bundle with
  | names b | append b | config b | configWrite b | read b | full b =>
    simp only [Bundle.encode, bundleOf, plaintext_kind, plaintext_length, Nat.add_sub_cancel_left, List.length_cons,
      List.length_nil]
    simp [kindNames, kindAppend, kindConfig, kindConfigWrite, kindRead, kindFull, keyAt_plaintext, Bundle.generation,
      Bundle.nameKey]

/-- A plaintext that reads as a bundle is the encoding of that bundle for the binding. -/
theorem encode_of_bundleOf {p : List UInt8} {binding : Binding} {bundle : Bundle} (version : p.head? = some bundleVersion)
    (long : headerLen ≤ p.length) (bound : checkBinding p binding = .ok ())
    (given : bundleOf p binding.generation = .ok bundle) :
    p = bundle.encode binding.vaultId binding.tokenId ∧ bundle.generation = binding.generation := by
  have whole : ∀ kind n, kindOf p = kind → p.length - headerLen = 32 * n →
      p = plaintext kind binding.vaultId binding.tokenId binding.generation ((List.range n).map (keyAt p)) := by
    rintro _ n rfl body
    exact plaintext_of_read version bound (by omega)
  unfold bundleOf at given
  dsimp only at given
  split at given
  · next found =>
    obtain rfl := Except.ok.inj given
    exact ⟨whole kindNames 1 found.1 found.2, rfl⟩
  split at given
  · next found =>
    obtain rfl := Except.ok.inj given
    exact ⟨whole kindAppend 3 found.1 found.2, rfl⟩
  split at given
  · next found =>
    obtain rfl := Except.ok.inj given
    exact ⟨whole kindConfig 2 found.1 found.2, rfl⟩
  split at given
  · next found =>
    obtain rfl := Except.ok.inj given
    exact ⟨whole kindConfigWrite 3 found.1 found.2, rfl⟩
  split at given
  · next found =>
    obtain rfl := Except.ok.inj given
    exact ⟨whole kindRead 3 found.1 found.2, rfl⟩
  split at given
  · next found =>
    obtain rfl := Except.ok.inj given
    exact ⟨whole kindFull 5 found.1 found.2, rfl⟩
  split at given
  · cases given
  · cases given

section

variable [Unsealing]

/-- What opens is a whole header of the known version. -/
theorem unsealBytes_ok {sk : FixedBytes 32} {sealedBytes p : List UInt8} :
    unsealBytes sk sealedBytes = .ok p ↔
      Unsealing.unsealBox sk sealedBytes = some p ∧ p.head? = some bundleVersion ∧ headerLen ≤ p.length := by
  unfold unsealBytes
  split
  · next shut => simp [shut]
  · next empty =>
    rw [empty]
    constructor
    · intro impossible
      cases impossible
    · rintro ⟨same, version, _⟩
      obtain rfl := Option.some.inj same
      cases version
  · next version rest found =>
    rw [found]
    split
    · next other =>
      constructor
      · intro impossible
        cases impossible
      · rintro ⟨same, first, _⟩
        obtain rfl := Option.some.inj same
        exact absurd (Option.some.inj first) other
    · next known =>
      split
      · next short =>
        constructor
        · intro impossible
          cases impossible
        · rintro ⟨same, _, long⟩
          obtain rfl := Option.some.inj same
          exact absurd long (Nat.not_le.mpr short)
      · next long =>
        constructor
        · intro same
          obtain rfl := Except.ok.inj same
          exact ⟨rfl, congrArg some (not_not.mp known), Nat.not_lt.mp long⟩
        · rintro ⟨same, _, _⟩
          rw [Option.some.inj same]

theorem unsealBytes_plaintext {sk : FixedBytes 32} {sealedBytes : List UInt8} {kind : UInt8} {vaultId : VaultId}
    {tokenId : TokenId} {generation : Nat} {keys : List (FixedBytes 32)}
    (found : Unsealing.unsealBox sk sealedBytes = some (plaintext kind vaultId tokenId generation keys)) :
    unsealBytes sk sealedBytes = .ok (plaintext kind vaultId tokenId generation keys) := by
  refine unsealBytes_ok.mpr ⟨found, rfl, ?_⟩
  rw [plaintext_length]
  exact Nat.le_add_right _ _

theorem unsealBytes_encode {sk : FixedBytes 32} {sealedBytes : List UInt8} {bundle : Bundle} {vaultId : VaultId}
    {tokenId : TokenId} (found : Unsealing.unsealBox sk sealedBytes = some (bundle.encode vaultId tokenId)) :
    unsealBytes sk sealedBytes = .ok (bundle.encode vaultId tokenId) := by
  cases bundle <;> exact unsealBytes_plaintext found

/-- An encoded bundle is read back. -/
theorem openBundle_encode {sk : FixedBytes 32} {sealedBytes : List UInt8} {bundle : Bundle} {vaultId : VaultId}
    {tokenId : TokenId} (found : Unsealing.unsealBox sk sealedBytes = some (bundle.encode vaultId tokenId)) :
    openBundle sk sealedBytes ⟨vaultId, tokenId, bundle.generation⟩ = .ok bundle := by
  have notChild : kindOf (bundle.encode vaultId tokenId) ≠ kindChild := by
    rw [kindOf_encode]
    exact kind_not_child bundle
  unfold openBundle
  rw [unsealBytes_encode found]
  dsimp only [bind, Except.bind]
  rw [if_neg notChild, checkBinding_encode]
  exact bundleOf_encode bundle vaultId tokenId

/-- Only the encodings of bundles for the binding are opened, each as its bundle. -/
theorem encode_of_openBundle {sk : FixedBytes 32} {sealedBytes : List UInt8} {binding : Binding} {bundle : Bundle}
    (opened : openBundle sk sealedBytes binding = .ok bundle) :
    Unsealing.unsealBox sk sealedBytes = some (bundle.encode binding.vaultId binding.tokenId) ∧
      bundle.generation = binding.generation := by
  obtain ⟨p, unsealed, opened⟩ := except_bind_ok opened
  obtain ⟨found, version, long⟩ := unsealBytes_ok.mp unsealed
  split at opened
  · cases opened
  · obtain ⟨_, bound, given⟩ := except_bind_ok opened
    obtain ⟨encoded, generation⟩ := encode_of_bundleOf version long bound given
    rw [← encoded]
    exact ⟨found, generation⟩

/-- Only a child key's plaintext is opened as a child key. -/
theorem plaintext_of_openChildKey {sk : FixedBytes 32} {sealedBytes : List UInt8} {parentVault : VaultId} {key : NodeKey}
    (opened : openChildKey sk sealedBytes parentVault = .ok key) :
    Unsealing.unsealBox sk sealedBytes = some (plaintext kindChild parentVault ownerTokenId 0 [key.raw]) := by
  obtain ⟨p, unsealed, opened⟩ := except_bind_ok opened
  obtain ⟨found, version, _⟩ := unsealBytes_ok.mp unsealed
  split at opened
  · cases opened
  · next child =>
    obtain ⟨_, bound, given⟩ := except_bind_ok opened
    split at given
    · cases given
    · next long =>
      obtain rfl := Except.ok.inj given
      have read := plaintext_of_read (n := 1) version bound (not_not.mp long)
      rw [not_not.mp child] at read
      exact found.trans (congrArg some read)

theorem openChildKey_plaintext {sk : FixedBytes 32} {sealedBytes : List UInt8} {parentVault : VaultId} {key : NodeKey}
    (found : Unsealing.unsealBox sk sealedBytes = some (plaintext kindChild parentVault ownerTokenId 0 [key.raw])) :
    openChildKey sk sealedBytes parentVault = .ok key := by
  unfold openChildKey
  rw [unsealBytes_plaintext found]
  dsimp only [bind, Except.bind]
  rw [if_neg (not_not.mpr plaintext_kind), checkBinding_plaintext]
  have long : (plaintext kindChild parentVault ownerTokenId 0 [key.raw]).length = headerLen + 32 := plaintext_length
  dsimp only
  rw [if_neg (not_not.mpr long), keyAt_plaintext (show [key.raw][0]? = some key.raw from rfl)]
  rfl

/-- One plaintext is not both a bundle and a child key. -/
theorem bundle_not_child {sk sk' : FixedBytes 32} {sealedBytes sealedBytes' : List UInt8} {binding : Binding}
    {parentVault : VaultId} {bundle : Bundle} {key : NodeKey}
    (same : Unsealing.unsealBox sk sealedBytes = Unsealing.unsealBox sk' sealedBytes')
    (opened : openBundle sk sealedBytes binding = .ok bundle)
    (child : openChildKey sk' sealedBytes' parentVault = .ok key) : False := by
  have first := (encode_of_openBundle opened).1
  have second := plaintext_of_openChildKey child
  rw [same, second] at first
  have kinds := congrArg kindOf (Option.some.inj first)
  rw [plaintext_kind, kindOf_encode] at kinds
  exact kind_not_child bundle kinds.symm

end

/-! ## Scopes and their keys -/

/-- Sealed boxes open with their holder's secret, and signatures verify. -/
structure Ideal [Crypto] [Ed25519] [Unsealing] : Prop where
  signs : ∀ seed message, Ed25519.verifyStrict (Crypto.verifyingKey seed) message (Crypto.sign seed message) = true
  opens : ∀ draw secret message ct, Crypto.sealBox draw (Crypto.x25519Public secret) message = some ct →
    Unsealing.unsealBox secret ct = some message

section

variable [Crypto] [Ed25519] [Unsealing] [Digests]

/-- A token opens what was sealed for it as its scope's bundle. -/
theorem openBundle_sealForScope (ideal : Ideal) {owner : OwnerKeys} {draw : FixedBytes 32} {token : TokenKeys}
    (pinned : token.vaultId = owner.vaultId) {scope : Scope} {full : FullBundle} {signed : SignedBundle}
    (given : sealForScope owner draw token.boxPub token.id scope full = .ok signed) :
    token.openBundle signed owner.signPub scope full.generation = .ok (Bundle.forScope full scope) := by
  unfold sealForScope sealBytes at given
  split at given
  · cases given
  · next sealedBytes boxed =>
    obtain rfl := Except.ok.inj given
    have found := ideal.opens _ _ _ _ boxed
    rw [encodeFor_eq] at found
    have opened := openBundle_encode found
    rw [forScope_generation] at opened
    have verified : SignedBundle.verify ⟨⟨sealedBytes⟩, owner.signBundle token.id scope.code full.generation sealedBytes⟩
        owner.signPub owner.vaultId token.id scope.code full.generation = .ok () := if_pos (ideal.signs _ _)
    unfold TokenKeys.openBundle
    rw [pinned, if_neg (show ¬ VaultId.fromOwnerSignPub owner.signPub ≠ owner.vaultId from not_not.mpr rfl), verified]
    change (Client.openBundle token.boxing sealedBytes ⟨owner.vaultId, token.id, full.generation⟩ >>= _) = _
    rw [opened]
    change (expectScope (Bundle.forScope full scope) scope >>= _) = _
    rw [expectScope, forScope_kind, if_neg (not_not.mpr rfl)]
    rfl

/-- The owner opens its own bundle. -/
theorem openOwnBundle_sealOwnerBundle (ideal : Ideal) {owner : OwnerKeys} {draw : FixedBytes 32} {full : FullBundle}
    {signed : SignedBundle} (given : sealOwnerBundle owner draw full = .ok signed) :
    owner.openOwnBundle signed full.generation = .ok full := by
  unfold sealOwnerBundle sealBytes at given
  split at given
  · cases given
  · next sealedBytes boxed =>
    obtain rfl := Except.ok.inj given
    have found := ideal.opens _ _ _ _ boxed
    rw [encodeFor_eq] at found
    have opened := openBundle_encode found
    have verified : SignedBundle.verify
        ⟨⟨sealedBytes⟩, owner.signBundle ownerTokenId ownerScopeCode full.generation sealedBytes⟩ owner.signPub
          owner.vaultId ownerTokenId ownerScopeCode full.generation = .ok () := if_pos (ideal.signs _ _)
    unfold OwnerKeys.openOwnBundle
    rw [verified]
    change (openBundle owner.boxing sealedBytes ⟨owner.vaultId, ownerTokenId, full.generation⟩ >>= _) = _
    rw [show openBundle owner.boxing sealedBytes ⟨owner.vaultId, ownerTokenId, full.generation⟩ = .ok (.full full) from
      opened]
    rfl

end

/-! ## One token -/

/-- A sealed box that is what it seals. -/
@[reducible] def plainUnseal : Unsealing where
  unsealBox _ ct := some ct

theorem plain_ideal : @Ideal plain plainVerify plainUnseal :=
  @Ideal.mk plain plainVerify plainUnseal (fun _ _ => decide_eq_true rfl) fun _ _ _ _ boxed => boxed.symm

end GalataVault.Client

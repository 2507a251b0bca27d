import GalataVault.Server.Isolation

/-!
# What a request may do

Every operation of a handler, judged by what the request was answered before: which
clock readings it has, which vault and token rows were read for it, whether its
nonce was spent. A write is the request's own authentication, a report of a token,
or an operation of an authenticated caller that the caller's principal and the
checks of the handler allow. A response holds a record, a bundle or a token list
only for a caller that may see it.

The judgement is made once for each handler and for whole dispatches. What it means
for the store is said elsewhere.
-/

namespace GalataVault.Server

open Proto Backend Interaction

/-! ## What is noted of a request -/

/-- The lookup of a token and the row it was answered. -/
inductive Op.AnswersToken : {β : Type} → Op β → β → TokenId → TokenRow → Prop
  | mk (id : TokenId) (row : TokenRow) : AnswersToken (.read (tokenById id)) (.ok (some row)) id row

/-- The tokens of a vault, as they were listed. -/
inductive Op.AnswersTokens : {β : Type} → Op β → β → VaultPk → List TokenRow → Prop
  | mk (pk : VaultPk) (rows : List TokenRow) : AnswersTokens (.read fun db => db.tokensOf pk) (.ok rows) pk rows

/-- The read of one record and the version it was answered. -/
inductive Op.AnswersRecord : {β : Type} → Op β → β → VaultPk → RecordKind → NameHmac → VersionRow → Prop
  | latest (pk : VaultPk) (kind : RecordKind) (name : NameHmac) (row : VersionRow) :
      AnswersRecord (.read (latestRecord pk kind name)) (.ok (some row)) pk kind name row
  | version (pk : VaultPk) (kind : RecordKind) (name : NameHmac) (version : Nat) (row : VersionRow) :
      AnswersRecord (.read (recordVersion pk kind name version)) (.ok (some row)) pk kind name row

/-- Whether the operation spends a nonce and was answered that it is spent. -/
def Op.spendsNonce : {β : Type} → Op β → β → Bool
  | _, .write (.spend .nonce _ _ _), .ok _ => true
  | _, _, _ => false

/-- What a request was answered so far. -/
structure Noted where
  readings : List Int
  /-- Whether its nonce was spent for it. -/
  spent : Bool
  vault : Option VaultRow
  tokens : TokenId → TokenRow → Prop
  lists : VaultPk → List TokenRow → Prop
  records : VaultPk → RecordKind → NameHmac → VersionRow → Prop

namespace Noted

/-- Nothing was answered yet. -/
def nothing : Noted where
  readings := []
  spent := false
  vault := none
  tokens _ _ := False
  lists _ _ := False
  records _ _ _ _ := False

variable {β : Type}

def after (noted : Noted) (op : Op β) (answer : β) : Noted where
  readings := match op, answer with
    | .now, reading => reading :: noted.readings
    | _, _ => noted.readings
  spent := noted.spent || op.spendsNonce answer
  vault := match op, answer with
    | .findVault _, .ok (some vault) => some vault
    | _, _ => noted.vault
  tokens id row := noted.tokens id row ∨ op.AnswersToken answer id row
  lists pk rows := noted.lists pk rows ∨ op.AnswersTokens answer pk rows
  records pk kind name row := noted.records pk kind name row ∨ op.AnswersRecord answer pk kind name row

/-- What was noted is still noted later, and of the same vault. -/
structure Grows (noted later : Noted) : Prop where
  readings : ∀ reading ∈ noted.readings, reading ∈ later.readings
  spent : noted.spent = true → later.spent = true
  vault : later.vault = noted.vault
  tokens : ∀ id row, noted.tokens id row → later.tokens id row
  lists : ∀ pk rows, noted.lists pk rows → later.lists pk rows
  records : ∀ pk kind name row, noted.records pk kind name row → later.records pk kind name row

theorem Grows.refl (noted : Noted) : noted.Grows noted where
  readings _ := id
  spent := id
  vault := rfl
  tokens _ _ := id
  lists _ _ := id
  records _ _ _ _ := id

theorem Grows.trans {first second third : Noted} (one : first.Grows second) (two : second.Grows third) :
    first.Grows third where
  readings reading member := two.readings reading (one.readings reading member)
  spent spent := two.spent (one.spent spent)
  vault := two.vault.trans one.vault
  tokens id row token := two.tokens id row (one.tokens id row token)
  lists pk rows list := two.lists pk rows (one.lists pk rows list)
  records pk kind name row record := two.records pk kind name row (one.records pk kind name row record)

/-- Every operation but the one that finds the vault adds to what is noted. -/
theorem grows_after (noted : Noted) {op : Op β} (plain : op.Plain) (answer : β) :
    noted.Grows (noted.after op answer) := by
  constructor
  · intro reading member
    cases op with
    | now => exact List.mem_cons_of_mem _ member
    | read | findVault | write => exact member
  · intro spent
    simp only [after, spent, Bool.true_or]
  · cases op with
    | findVault query => exact plain.elim
    | now | read | write => rfl
  · exact fun _ _ => .inl
  · exact fun _ _ => .inl
  · exact fun _ _ _ _ => .inl

end Noted

/-! ## Callers -/

section

variable [Digests] [Ed25519] [Bodies]

/-- The key a caller's request is verified under. -/
def Caller.key (caller : Caller) : Key32 :=
  match caller.principal with
  | .owner => caller.vault.ownerSignPub
  | .token row => row.authPub

/-- The principal is the one the request names, as it was looked up. -/
def Principal.Named (noted : Noted) : Principal → SigActor → Prop
  | .owner, .owner => True
  | .token row, .token id => noted.tokens id row
  | .owner, .token _ => False
  | .token _, .owner => False

/-- The request was authenticated as this caller: its vault row was read, its
signature verified within the skew window, and its nonce spent. -/
structure Authenticated (request : CanonicalRequest) (noted : Noted) (caller : Caller) : Prop where
  spent : noted.spent = true
  vault : noted.vault = some caller.vault
  verified : ∃ params, ∃ now ∈ noted.readings, request.authorization = some params ∧
    verifyRequest caller.key request params now = .ok () ∧ caller.principal.Named noted params.actor

omit [Bodies] in
theorem Authenticated.grows {request : CanonicalRequest} {noted later : Noted} {caller : Caller}
    (authenticated : Authenticated request noted caller) (grows : noted.Grows later) :
    Authenticated request later caller where
  spent := grows.spent authenticated.spent
  vault := grows.vault.trans authenticated.vault
  verified := by
    obtain ⟨params, now, read, authorized, verified, named⟩ := authenticated.verified
    refine ⟨params, now, grows.readings now read, authorized, verified, ?_⟩
    cases principal : caller.principal with
    | owner =>
      rw [principal] at named
      cases actor : params.actor with
      | owner => trivial
      | token id => rw [actor] at named; exact named.elim
    | token row =>
      rw [principal] at named
      cases actor : params.actor with
      | owner => rw [actor] at named; exact named.elim
      | token id => rw [actor] at named; exact grows.tokens id row named

/-! ## Permitted operations -/

/-- A write carries the signature of its generation's writer key, as the caller's
descriptor has it. -/
structure Signed (caller : Caller) (kind : RecordKind) (name : NameHmac) (w : RecordWrite) : Prop where
  generation : w.generation = caller.vault.generation
  verified : ∃ descriptor, caller.vault.descriptor.decodeUnverified = .ok descriptor ∧
    (RecordContext.ofCiphertexts caller.vault.vaultId w.generation (wire kind) name w.version w.writtenAt w.nameCt
      w.valueCt).verify (writerPub descriptor kind) w.sig = .ok ()

/-- A batch passed every check of the handler, against the caller's vault row and a
list of its tokens. -/
structure RotationVerified (caller : Caller) (lists : VaultPk → List TokenRow → Prop) (r : RotationRequest)
    (current next : Descriptor) : Prop where
  generation : r.fromGeneration = caller.vault.generation
  revision : r.fromRevision = caller.vault.revision
  decoded : caller.vault.descriptor.decodeUnverified = .ok current
  verified : r.descriptor.verifyFor caller.vault.vaultId caller.vault.ownerSignPub = .ok next
  follows : next.follows current = true
  secrets : verifyVersions caller.vault.vaultId next.generation .secret next.secretWriterPub r.secrets = .ok ()
  configs : verifyVersions caller.vault.vaultId next.generation .config next.configWriterPub r.configs = .ok ()
  ownerBundle : r.ownerBundle.verify caller.vault.ownerSignPub caller.vault.vaultId ownerTokenId ownerScopeCode
    next.generation = .ok ()
  tokens : ∃ rows, lists caller.vault.pk rows ∧ verifyResealed caller.vault next.generation rows r.tokens = .ok ()

/-- What an authenticated caller may do to the store. -/
def StoreCall.Permitted {β : Type} (caller : Caller) (lists : VaultPk → List TokenRow → Prop) : StoreCall β → Prop
  | .record pk _ _ => pk = caller.vault.pk
  | .registerToken pk t _ _ => pk = caller.vault.pk ∧ caller.principal = .owner ∧
      t.bundle.verify caller.vault.ownerSignPub caller.vault.vaultId t.tokenId t.scope.code t.generation = .ok ()
  | .revokeTokens pk _ reported _ => pk = caller.vault.pk ∧ reported = false ∧ caller.can .manage = true
  | .putRecord pk kind name _ w _ _ =>
    pk = caller.vault.pk ∧ caller.can (needWrite kind) = true ∧ Signed caller kind name w
  | .deleteRecord pk kind name _ w _ _ =>
    pk = caller.vault.pk ∧ caller.can (needWrite kind) = true ∧ w.valueCt = none ∧ Signed caller kind name w
  | .putChildren pk _ blob _ _ => pk = caller.vault.pk ∧ caller.principal = .owner ∧
      blob.verify caller.vault.vaultId caller.vault.ownerSignPub = .ok ()
  | .applyRotation pk r _ => pk = caller.vault.pk ∧ caller.principal = .owner ∧
      ∃ current next, RotationVerified caller lists r current next
  | .deleteVault pk _ => pk = caller.vault.pk ∧ caller.principal = .owner
  | .createVault .. | .touch .. | .spend .. => False

/-- A vault whose id is its owner key's hash, with a first descriptor and an owner
bundle that verify. -/
structure Creatable (v : NewVault) : Prop where
  named : VaultId.fromOwnerSignPub v.ownerSignPub = v.vaultId
  described : ∃ descriptor, v.descriptor.verifyFor v.vaultId v.ownerSignPub = .ok descriptor ∧ descriptor.isFirst = true
  ownerBundle : v.ownerBundle.verify v.ownerSignPub v.vaultId ownerTokenId ownerScopeCode 1 = .ok ()

/-- A nonce is spent with the request's own vault id, nonce and timestamp, at a
reading of the clock, after a reading within the skew window. -/
structure SpendsNonce (request : CanonicalRequest) (noted : Noted) (id : List UInt8) (expiresAt now : Int) : Prop where
  read : now ∈ noted.readings
  signed : ∃ params, ∃ checked ∈ noted.readings, request.authorization = some params ∧ id = nonceId params ∧
    expiresAt = params.ts + 2 * maxSkewSecs ∧ ((checked - params.ts).natAbs : Int) ≤ maxSkewSecs

/-- What a request may do to the store before it is authenticated, and to become so. -/
def StoreCall.Opening {β : Type} (request : CanonicalRequest) (noted : Noted) : StoreCall β → Prop
  | .spend .nonce id expiresAt now => SpendsNonce request noted id expiresAt now
  | .spend .challenge _ _ now => now ∈ noted.readings
  | .touch pk _ => noted.spent = true ∧ ∃ vault, noted.vault = some vault ∧ pk = vault.pk
  | .createVault v _ => noted.spent = true ∧ Creatable v ∧ ∃ params, request.authorization = some params ∧
      params.actor = .owner ∧ params.vaultId = v.vaultId
  | .revokeTokens pk ids reported _ => reported = true ∧ ∃ report row, Bodies.reportToken request.body = .ok report ∧
      noted.tokens report.tokenId row ∧ pk = row.vaultPk ∧ ids = [report.tokenId] ∧
      verifyEd25519 row.authPub (reportSigningInput report.tokenId report.ts) report.sig "report" = .ok ()
  | _ => False

/-- What a request may do after what was noted. -/
def Op.Allowed {β : Type} (request : CanonicalRequest) (noted : Noted) : Op β → Prop
  | .now => True
  | .read _ => True
  | .findVault query => noted.vault = none ∧ ∀ db vault, query db = some vault → db.loadVault vault.pk = some vault
  | .write call => call.Opening request noted ∨
      ∃ caller, Authenticated request noted caller ∧ call.Permitted caller noted.lists

/-- What a caller may be answered. -/
def MayHold (caller : Caller) (noted : Noted) : Body → Prop
  | .record row => ∃ kind name, caller.can (needRead kind) = true ∧ (kind = .secret → caller.allowsName name = true) ∧
      noted.records caller.vault.pk kind name row
  | .status status => (status.tokens.isSome = true → caller.can .manage = true) ∧
      (status.ownerBundle.isSome = true → caller.principal = .owner)
  | .children _ => caller.principal = .owner
  | _ => True

/-- A body that shows nothing of a vault's records, bundles, tokens or children. -/
def Body.Open : Body → Prop
  | .error .. | .capabilities _ | .challenge _ | .createVault .. | .revoked _ => True
  | _ => False

/-- What the program of a request may do, and the answers it may end with. -/
def permissions : Duty CanonicalRequest Op CoreError CoreResponse Noted where
  allowed request _ noted op := op.Allowed request noted
  ends request result noted := ∀ response, result = .ok response →
    response.body.Open ∨ ∃ caller, Authenticated request noted caller ∧ MayHold caller noted response.body

/-- The watch a request's program is held to. -/
abbrev permitted (request : CanonicalRequest) : Watch Op Noted where
  note noted op answer := noted.after op answer
  allowed noted op := op.Allowed request noted

end

end GalataVault.Server

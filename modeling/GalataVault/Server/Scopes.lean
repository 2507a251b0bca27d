import GalataVault.Backend.Changes
import GalataVault.Server.Conduct

/-!
# What a token's scope allows

A request that names a token acts with the rows the token was looked up under. Every
change it makes to the store is one that such a row's scope allows, and so is every
answer it ends with. What only the owner may do, no such request does.

The rows were the token's own, in the store as it was at some earlier moment of the
run. A record a response holds was stored then as well.
-/

namespace GalataVault.Server

open Proto Backend Relational Relational.Transaction Interaction

/-- Some row the token was looked up under is one of these. -/
def Granted (noted : Noted) (id : TokenId) (may : TokenRow → Prop) : Prop := ∃ row, noted.tokens id row ∧ may row

section

variable [Digests] [Ed25519] [Bodies]

/-- The body is a report that the reported token's own key signed. -/
def Reports (request : CanonicalRequest) (noted : Noted) (id : TokenId) : Prop :=
  ∃ report row, Bodies.reportToken request.body = .ok report ∧ report.tokenId = id ∧ noted.tokens id row ∧
    verifyEd25519 row.authPub (reportSigningInput report.tokenId report.ts) report.sig "report" = .ok ()

/-- What a request that names a token may change. -/
structure Licensed (request : CanonicalRequest) (noted : Noted) (id : TokenId) (before after : Db) : Prop where
  records : ∀ kind, after.tables kind ≠ before.tables kind →
    Granted noted id fun row => scopeCan row.scope (needWrite kind) = true
  descriptors : after.descriptors = before.descriptors
  children : after.children = before.children
  /-- No vault appears, disappears, or gets another generation or owner bundle. -/
  vaults : ∀ pk, (after.vaults.find? pk).map (fun v => (v.generation, v.ownerBundle)) =
    (before.vaults.find? pk).map fun v => (v.generation, v.ownerBundle)
  /-- No token is added or changed: no scope, bundle or allow-list. -/
  tokens : after.tokens.rows.Sublist before.tokens.rows
  removals : ∀ row ∈ before.tokens.rows, row ∉ after.tokens.rows →
    (Granted noted id fun row => row.scope = .admin) ∨ Reports request noted row.tokenId

/-- What a request that names a token may be answered. -/
def Disclosed (noted : Noted) (id : TokenId) : Body → Prop
  | .record version => ∃ kind name pk, (Granted noted id fun row => scopeCan row.scope (needRead kind) = true ∧
      (kind = .secret → ∀ list, row.allowList = some list → name ∈ list)) ∧ noted.records pk kind name version
  | .status status => (status.tokens.isSome = true → Granted noted id fun row => row.scope = .admin) ∧
      status.ownerBundle = none
  | .children _ => False
  | _ => True

/-! ## Callers -/

variable {request : CanonicalRequest} {noted : Noted} {id : TokenId} {params : SigParams}

omit [Bodies] in
/-- A caller of a request that names a token is that token, by a row it was looked up
under. -/
theorem token_of_authenticated {caller : Caller} (authenticated : Authenticated request noted caller)
    (authorized : request.authorization = some params) (actor : params.actor = .token id) :
    ∃ row, caller.principal = .token row ∧ noted.tokens id row := by
  obtain ⟨params', _, _, authorized', _, named⟩ := authenticated.verified
  obtain rfl := Option.some.inj (authorized'.symm.trans authorized)
  rw [actor] at named
  cases principal : caller.principal with
  | owner =>
    rw [principal] at named
    exact named.elim
  | token row =>
    rw [principal] at named
    exact ⟨row, rfl, named⟩

omit [Digests] [Ed25519] [Bodies] in
theorem admin_of_manage {scope : Scope} (may : scopeCan scope .manage = true) : scope = .admin :=
  of_decide_eq_true may

/-! ## Changes -/

omit [Ed25519] [Bodies] in
/-- A script on one vault's records, bytes and log changes nothing else. -/
theorem licensed_of_script {pk : VaultPk} {targets : List Target} {before after : Db}
    (script : Script pk targets before after)
    (targeted : ∀ target ∈ targets, target = .vaults ∨ target = .audit ∨ target = .bytes ∨ ∃ kind, target = .records kind)
    (records : ∀ kind, .records kind ∈ targets → Granted noted id fun row => scopeCan row.scope (needWrite kind) = true)
    [Ed25519] [Bodies] : Licensed request noted id before after := by
  have off {target : Target} (other : ¬ (target = .vaults ∨ target = .audit ∨ target = .bytes ∨
      ∃ kind, target = .records kind)) : target ∉ targets := fun member => other (targeted target member)
  have tokens : after.tokens = before.tokens := script.tokens_same (off (by simp))
  constructor
  · intro kind changed
    by_cases member : Target.records kind ∈ targets
    · exact records kind member
    · exact absurd (script.tables_same kind member) changed
  · exact script.descriptors_same (off (by simp))
  · exact script.children_same (off (by simp))
  · exact script.generation_same (off (by simp))
  · rw [tokens]
  · intro row member gone
    rw [tokens] at gone
    exact absurd member gone

omit [Ed25519] [Bodies] in
/-- A revocation removes tokens that it names, and changes no record, descriptor,
children record, generation or bundle. -/
theorem revokeTokens_tokens {σ : Type} (disk : Except String Unit) (hook : CommitHook σ) (pk : VaultPk)
    (ids : List TokenId) (reported : Bool) (ctx : Ctx) (world : World σ) :
    ∃ gone : TokenRow → Bool, (∀ row, gone row = true → row.tokenId ∈ ids) ∧
      (Backend.step world (.revokeTokens disk hook pk ids reported ctx)).db.tokens = world.db.tokens.deleteWhere gone := by
  rcases writeCritical_cases disk hook (revokeTokensBody pk ids reported ctx) world.db world.journal with
    ⟨_, _, outcome⟩ | ⟨removed, record, after, ran, _, _, outcome⟩
  · refine ⟨fun _ => false, ?_, ?_⟩
    · intro row impossible
      cases impossible
    change (writeCritical disk hook (revokeTokensBody pk ids reported ctx) world.db world.journal).2.1.tokens = _
    rw [outcome]
    exact Table.ext (List.filter_eq_self.mpr fun _ _ => rfl).symm
  · obtain ⟨vault, deleted, audited, _, deletes, _, audits, _, rfl⟩ := revokeTokensBody_ok ran
    obtain ⟨_, deletesRun, _⟩ := deleteTokens_run pk ids world.db
    rw [deletesRun, Except.ok.injEq, Prod.mk.injEq] at deletes
    obtain ⟨_, rfl⟩ := deletes
    refine ⟨fun t => t.vaultPk = pk && ids.contains t.tokenId, fun row hit => ?_, ?_⟩
    · simp only [Bool.and_eq_true, List.contains_iff_mem] at hit
      exact hit.2
    · have auditsEach : Keeps (Script pk [.vaults, .audit]) (removed.forM fun id =>
          appendAudit pk (event ctx.actor (revokeAction reported) none (some id) .ok) ctx.now) :=
        .forM Script.refl Script.trans _ fun id _ => appendAudit_script _ _
      change (writeCritical disk hook (revokeTokensBody pk ids reported ctx) world.db world.journal).2.1.tokens = _
      rw [outcome]
      exact (auditsEach _ _ _ audits).tokens_same

omit [Digests] in
theorem Licensed.refl (db : Db) : Licensed request noted id db db where
  records _ changed := absurd rfl changed
  descriptors := rfl
  children := rfl
  vaults _ := rfl
  tokens := .refl _
  removals _ member gone := absurd member gone

/-- Every operation of a request that names a token changes what such a row of the
token allows, and nothing else. One case for each call: what only the owner may do
is not among them. -/
theorem licensed_of_allowed {σ β : Type} {op : Op β} (allowed : op.Allowed request noted)
    (authorized : request.authorization = some params) (actor : params.actor = .token id) (env : Env σ)
    (world : World σ) : Licensed request noted id world.db (perform env op world).2.db := by
  have notOwner {caller : Caller} (authenticated : Authenticated request noted caller) : caller.principal ≠ .owner := by
    obtain ⟨row, principal, _⟩ := token_of_authenticated authenticated authorized actor
    rw [principal]
    exact fun same => by cases same
  have granted {caller : Caller} (authenticated : Authenticated request noted caller) {need : Need}
      (may : caller.can need = true) : Granted noted id fun row => scopeCan row.scope need = true := by
    obtain ⟨row, principal, looked⟩ := token_of_authenticated authenticated authorized actor
    refine ⟨row, looked, ?_⟩
    rw [Caller.can, principal] at may
    exact may
  cases op with
  | now | read | findVault => exact .refl _
  | write call =>
    change Licensed request noted id world.db (Backend.step world (call.call env)).db
    cases call with
    | spend kind spentId expiresAt now =>
      change Licensed request noted id world.db (Backend.spend env.disk kind spentId expiresAt now world.db).2
      unfold Backend.spend
      rcases write_cases env.disk (spendBody kind spentId expiresAt now) world.db with
        ⟨_, outcome⟩ | ⟨_, after, ran, _, outcome⟩
      · rw [outcome]
        exact .refl _
      · rw [outcome]
        obtain ⟨spent, rfl⟩ := spendBody_ok ran
        exact { Licensed.refl world.db with records := fun kind changed => absurd (by cases kind <;> rfl) changed }
    | createVault v now =>
      rcases allowed with ⟨_, _, params', authorized', owner, _⟩ | ⟨_, _, impossible⟩
      · obtain rfl := Option.some.inj (authorized'.symm.trans authorized)
        rw [actor] at owner
        cases owner
      · exact impossible.elim
    | touch pk now =>
      exact licensed_of_script (step_script world (show (Call.touch env.disk pk now : Call σ).script = _ from rfl)) (by simp) (by simp)
    | record pk e now =>
      exact licensed_of_script (step_script world (show (Call.record env.disk pk e now : Call σ).script = _ from rfl)) (by simp) (by simp)
    | putRecord pk kind name pre w ctx limits =>
      rcases allowed with impossible | ⟨caller, authenticated, _, may, _⟩
      · exact impossible.elim
      · refine licensed_of_script (step_script world
          (show (Call.putRecord env.disk pk kind name pre w ctx limits : Call σ).script = _ from rfl))
          (by simp) fun other member => ?_
        obtain rfl : other = kind := by simpa using member
        exact granted authenticated may
    | deleteRecord pk kind name ifMatch w ctx limits =>
      rcases allowed with impossible | ⟨caller, authenticated, _, may, _⟩
      · exact impossible.elim
      · refine licensed_of_script
          (step_script world
          (show (Call.deleteRecord env.disk pk kind name ifMatch w ctx limits : Call σ).script = _ from rfl)) (by simp)
          fun other member => ?_
        obtain rfl : other = kind := by simpa using member
        exact granted authenticated may
    | registerToken pk t ctx limits =>
      rcases allowed with impossible | ⟨caller, authenticated, _, owner, _⟩
      · exact impossible.elim
      · exact absurd owner (notOwner authenticated)
    | putChildren pk pre blob ctx limits =>
      rcases allowed with impossible | ⟨caller, authenticated, _, owner, _⟩
      · exact impossible.elim
      · exact absurd owner (notOwner authenticated)
    | applyRotation pk r ctx =>
      rcases allowed with impossible | ⟨caller, authenticated, _, owner, _⟩
      · exact impossible.elim
      · exact absurd owner (notOwner authenticated)
    | deleteVault pk now =>
      rcases allowed with impossible | ⟨caller, authenticated, _, owner⟩
      · exact impossible.elim
      · exact absurd owner (notOwner authenticated)
    | revokeTokens pk ids reported ctx =>
      have script := step_script world (show (Call.revokeTokens env.disk env.hook pk ids reported ctx : Call σ).script = _ from rfl)
      obtain ⟨gone, named, tokens⟩ := revokeTokens_tokens env.disk env.hook pk ids reported ctx world
      refine
        { records := fun kind changed => absurd (script.tables_same kind) changed
          descriptors := script.descriptors_same
          children := script.children_same
          vaults := script.generation_same (by simp)
          tokens := ?_
          removals := ?_ }
      · exact tokens ▸ List.filter_sublist
      · intro row member removed
        have hit : row.tokenId ∈ ids := by
          apply named
          by_contra kept
          refine removed ?_
          change row ∈ (Backend.step world (.revokeTokens env.disk env.hook pk ids reported ctx)).db.tokens.rows
          rw [tokens]
          exact List.mem_filter.mpr ⟨member, by simpa using kept⟩
        rcases allowed with ⟨_, report, holder, parsed, looked, _, rfl, verified⟩ | ⟨caller, authenticated, _, _, may⟩
        · have same : row.tokenId = report.tokenId := List.mem_singleton.mp hit
          exact .inr ⟨report, holder, parsed, same.symm, same ▸ looked, verified⟩
        · obtain ⟨holder, looked, admin⟩ := granted authenticated may
          exact .inl ⟨holder, looked, admin_of_manage admin⟩

omit [Digests] [Ed25519] [Bodies] in
theorem disclosed_of_open {body : Body} (shown : body.Open) : Disclosed noted id body := by
  cases body with
  | record | status | children => exact shown.elim
  | error | capabilities | challenge | createVault | descriptors | put | list | versions | audit | rotation
  | deleteVault | revoked | registerToken | tokenSelf => trivial

omit [Bodies] in
/-- An answer a caller may be given discloses what a row of its token allows. -/
theorem disclosed_of_mayHold {caller : Caller} {body : Body} (authenticated : Authenticated request noted caller)
    (authorized : request.authorization = some params) (actor : params.actor = .token id)
    (holds : MayHold caller noted body) : Disclosed noted id body := by
  obtain ⟨row, principal, looked⟩ := token_of_authenticated authenticated authorized actor
  cases body with
  | record version =>
    obtain ⟨kind, name, may, listed, stored⟩ := holds
    rw [Caller.can, principal] at may
    refine ⟨kind, name, caller.vault.pk, ⟨row, looked, may, fun secret list limited => ?_⟩, stored⟩
    have allows := listed secret
    rw [Caller.allowsName, principal] at allows
    simpa [limited] using allows
  | status status =>
    obtain ⟨tokens, bundle⟩ := holds
    constructor
    · intro shown
      have may := tokens shown
      rw [Caller.can, principal] at may
      exact ⟨row, looked, admin_of_manage may⟩
    · cases shown : status.ownerBundle with
      | none => rfl
      | some _ =>
        have owner := bundle (by rw [shown]; rfl)
        rw [principal] at owner
        cases owner
  | children blob =>
    rw [show caller.principal = .owner from holds] at principal
    cases principal
  | error | capabilities | challenge | createVault | descriptors | put | list | versions | audit | rotation
  | deleteVault | revoked | registerToken | tokenSelf => trivial

end

/-! ## What was looked up -/

section

variable {σ : Type}

/-- What was noted of tokens and records was stored in one of these databases. -/
structure Witnessed (past : Db → Prop) (flight : Serving) : Prop where
  tokens : ∀ id row, flight.noted.tokens id row → ∃ db, past db ∧ db.tokens.find? id = some row
  records : ∀ pk kind name row, flight.noted.records pk kind name row →
    ∃ db, past db ∧ ∃ version, recordVersion pk kind name version db = some row

theorem Witnessed.mono {past more : Db → Prop} {flight : Serving} (witnessed : Witnessed past flight)
    (included : ∀ db, past db → more db) : Witnessed more flight where
  tokens id row noted := by
    obtain ⟨db, passed, found⟩ := witnessed.tokens id row noted
    exact ⟨db, included db passed, found⟩
  records pk kind name row noted := by
    obtain ⟨db, passed, stored⟩ := witnessed.records pk kind name row noted
    exact ⟨db, included db passed, stored⟩

variable [Digests]

/-- A read that is answered with a value was answered with what is stored. -/
theorem perform_read {β : Type} {env : Env σ} {query : Db → β} {world : World σ} {value : β}
    (answered : (perform env (.read query) world).1 = .ok value) : query world.db = value := by
  change (env.disk.mapError StoreError.database).map (fun _ => query world.db) = .ok value at answered
  cases disk : env.disk with
  | error detail =>
    rw [disk] at answered
    cases answered
  | ok _ =>
    rw [disk] at answered
    exact Except.ok.inj answered

theorem token_stored {β : Type} {env : Env σ} {op : Op β} {answer : β} {world : World σ} {id : TokenId} {row : TokenRow}
    (answers : op.AnswersToken answer id row) (answered : answer = (perform env op world).1) :
    world.db.tokens.find? id = some row := by
  cases answers
  exact perform_read answered.symm

theorem record_stored {β : Type} {env : Env σ} {op : Op β} {answer : β} {world : World σ} {pk : VaultPk}
    {kind : RecordKind} {name : NameHmac} {row : VersionRow} (answers : op.AnswersRecord answer pk kind name row)
    (answered : answer = (perform env op world).1) :
    ∃ version, recordVersion pk kind name version world.db = some row := by
  cases answers with
  | latest =>
    obtain ⟨head, _, stored⟩ := Option.bind_eq_some_iff.mp (perform_read answered.symm)
    exact ⟨head.1, stored⟩
  | version _ _ _ version => exact ⟨version, perform_read answered.symm⟩

theorem Witnessed.after {β : Type} {past : Db → Prop} {noted : Noted} {op : Op β} {rest next : Handler CoreResponse}
    {env : Env σ} {world : World σ} (witnessed : Witnessed past ⟨noted, rest⟩) (now : past world.db) :
    Witnessed past ⟨noted.after op (perform env op world).1, next⟩ where
  tokens id row noted := by
    rcases noted with old | answers
    · exact witnessed.tokens id row old
    · exact ⟨world.db, now, token_stored answers rfl⟩
  records pk kind name row noted := by
    rcases noted with old | answers
    · exact witnessed.records pk kind name row old
    · exact ⟨world.db, now, record_stored answers rfl⟩

variable [Ed25519] [Bodies] (policy : Policy) (world : World σ)

/-- The databases a run has passed through. -/
def Passed (events : List (Event CanonicalRequest (Env σ))) (db : Db) : Prop :=
  ∃ part rest, events = part ++ rest ∧ (serveAll policy world part).world.db = db

theorem Passed.now (events : List (Event CanonicalRequest (Env σ))) :
    Passed policy world events (serveAll policy world events).world.db :=
  ⟨events, [], (List.append_nil _).symm, rfl⟩

variable {policy world} in
theorem Passed.later {events more : List (Event CanonicalRequest (Env σ))} {db : Db}
    (passed : Passed policy world events db) : Passed policy world (events ++ more) db := by
  obtain ⟨part, rest, rfl, reached⟩ := passed
  exact ⟨part, rest ++ more, List.append_assoc .., reached⟩

/-- At every moment of a run each request keeps to its permissions, and was answered
what was stored. The induction is on the events, from the last. -/
theorem serveAll_meets (events : List (Event CanonicalRequest (Env σ))) :
    Meets (core policy σ) permissions (Witnessed (Passed policy world events)) (arrivals events)
      (serveAll policy world events) := by
  induction events using List.reverseRecOn with
  | nil => exact .initial world
  | append_singleton events event inductionHypothesis =>
    rw [serveAll_concat, arrivals_append]
    refine inductionHypothesis.step event ?_ ?_ ?_
    · rintro request rfl
      refine ⟨⟨?_, ?_⟩, core_starts policy request⟩
      · intro id row noted
        exact noted.elim
      · intro pk kind name row noted
        exact noted.elim
    · rintro index env β noted op rest rfl _ witnessed
      exact (witnessed.after (Passed.now policy world events)).mono fun _ passed => passed.later
    · intro flight _ witnessed
      exact witnessed.mono fun _ passed => passed.later

end

/-! ## A token's request -/

/-- A token of the newcomer's vault, as it is registered. -/
def readToken : NewToken where
  tokenId := ⟨.fill 16 9⟩
  authPub := ⟨.fill 32 9⟩
  boxPub := ⟨.fill 32 9⟩
  scope := .read
  expiresAt := 1000
  bundle := ⟨⟨[9]⟩, ⟨.fill 64 9⟩⟩
  generation := 1
  allowList := none

/-- A store with one vault and one token. -/
def oneToken : World Unit :=
  let created := newcomer 1
  @Backend.run checksum Unit ⟨Db.empty, ()⟩
    [.createVault (.ok ()) ⟨created.vaultId, created.ownerSignPub, created.ownerBoxPub, created.descriptor, created.ownerBundle⟩ 1,
      .registerToken (.ok ()) 1 readToken ⟨.owner, 1⟩ .default]

/-- The token's request to delete the vault. -/
def tokenDeletes : CanonicalRequest :=
  { ownerRequest "DELETE" "/v1/vault" 1 2 with
    authorization := some
      { actor := .token ⟨.fill 16 9⟩, vaultId := (newcomer 1).vaultId, ts := 100, nonce := .fill 16 2,
        sig := ⟨.fill 64 9⟩ } }

/-- The request, authenticated and not yet refused. -/
def tokenWaits : List (Event CanonicalRequest (Env Unit)) :=
  .arrive tokenDeletes :: List.replicate 8 (.advance 0 calm)

end GalataVault.Server

import GalataVault.Server.Permissions

/-!
# Every dispatch keeps to its permissions

One lemma for each handler of an authenticated caller: its operations are permitted
to that caller, and so is what it answers. Authentication ends with a caller that is
authenticated, and a dispatch is an authentication followed by such a handler, or
one of the few that need none.
-/

namespace GalataVault.Server

open Proto Backend Interaction

section

variable [Digests] [Ed25519] [Bodies] {request : CanonicalRequest} {α β : Type}

/-! ## Parts of handlers -/

/-- From what was noted, the handler keeps to what is permitted and ends with a value
as `post` says, or an error. -/
def Serves (request : CanonicalRequest) (noted : Noted) (handler : Handler α) (post : α → Noted → Prop) : Prop :=
  handler.Obeys (permitted request) noted fun result later =>
    noted.Grows later ∧ ∀ value, result = .ok value → post value later

namespace Serves

variable {noted : Noted} {post : α → Noted → Prop}

protected theorem pure {value : α} (ends : post value noted) : Serves request noted (pure value) post := by
  refine ⟨.refl noted, fun other same => ?_⟩
  obtain rfl := Except.ok.inj same
  exact ends

protected theorem fail (failure : CoreError) : Serves request noted (Program.fail failure : Handler α) post :=
  ⟨.refl noted, fun _ same => by cases same⟩

protected theorem bind {first : Handler β} {next : β → Handler α} {middle : β → Noted → Prop}
    (head : Serves request noted first middle)
    (tail : ∀ value later, noted.Grows later → middle value later → Serves request later (next value) post) :
    Serves request noted (first >>= next) post := by
  refine Program.Obeys.bind (head.mono fun result later ends => ?_)
  obtain ⟨grows, reached⟩ := ends
  cases result with
  | error failure => exact ⟨grows, fun _ same => by cases same⟩
  | ok value =>
    exact (tail value later grows (reached value rfl)).mono fun result last ends => ⟨grows.trans ends.1, ends.2⟩

protected theorem check (result : Except CoreError α) :
    Serves request noted (Handler.check result) fun value _ => result = .ok value :=
  ⟨.refl noted, fun _ passed => passed⟩

protected theorem integrity (result : Except IntegrityError α) :
    Serves request noted (Handler.integrity result) fun value _ => result = .ok value := by
  refine ⟨.refl noted, fun value passed => ?_⟩
  cases result with
  | error failure => cases passed
  | ok found =>
    obtain rfl := Except.ok.inj passed
    rfl

protected theorem json (parsed : Parsed α) (what : String) :
    Serves request noted (json parsed what) fun value _ => parsed = .ok value := by
  refine ⟨.refl noted, fun value passed => ?_⟩
  cases parsed with
  | error failure => cases passed
  | ok found =>
    obtain rfl := Except.ok.inj passed
    rfl

/-- An operation that finds no vault keeps what was noted. -/
protected theorem ask {op : Op α} (allowed : op.Allowed request noted) (plain : op.Plain)
    (ends : ∀ answer, post answer (noted.after op answer)) : Serves request noted (Program.ask op) post := by
  refine ⟨allowed, fun answer => ⟨noted.grows_after plain answer, fun value same => ?_⟩⟩
  obtain rfl := Except.ok.inj same
  exact ends answer

/-- An operation whose answer does not matter. -/
protected theorem perform {op : Op α} (allowed : op.Allowed request noted) (plain : op.Plain) :
    Serves request noted (Program.ask op) fun _ _ => True :=
  .ask allowed plain fun _ => trivial

protected theorem now : Serves request noted Handler.now fun reading later => reading ∈ later.readings :=
  .ask trivial trivial fun _ => List.mem_cons_self ..

/-- A store operation, whose error is the handler's. -/
protected theorem orError {op : Op (Except StoreError α)} (allowed : op.Allowed request noted) (plain : op.Plain)
    (ends : ∀ value, post value (noted.after op (.ok value))) :
    Serves request noted (Program.ask op >>= Handler.orError) post := by
  refine ⟨allowed, fun answer => ?_⟩
  cases answer with
  | error failure => exact ⟨noted.grows_after plain _, fun _ same => by cases same⟩
  | ok value =>
    refine ⟨noted.grows_after plain _, fun other same => ?_⟩
    obtain rfl := Except.ok.inj same
    exact ends value

protected theorem read (query : Db → α) :
    Serves request noted (Handler.read query) fun value later => later = noted.after (.read query) (.ok value) :=
  .orError (show (Op.read query).Allowed request noted from trivial) trivial fun _ => rfl

protected theorem store {call : StoreCall α} (allowed : (Op.write call).Allowed request noted) :
    Serves request noted (Handler.store call) fun _ _ => True :=
  .orError allowed trivial fun _ => trivial

/-- A permitted operation of an authenticated caller. -/
protected theorem permitted {caller : Caller} {call : StoreCall α} (authenticated : Authenticated request noted caller)
    (may : call.Permitted caller noted.lists) : Serves request noted (Handler.store call) fun _ _ => True :=
  .store (.inr ⟨caller, authenticated, may⟩)

end Serves

variable {caller : Caller} {noted : Noted}

theorem serves_refuse (authenticated : Authenticated request noted caller) (action : AuditAction)
    (name : Option NameHmac) : Serves request noted (refuse caller action name) fun _ _ => True :=
  .bind .now fun _ _ grows _ =>
    .bind (.perform (.inr ⟨caller, authenticated.grows grows, rfl⟩) trivial) fun _ _ _ _ => .pure trivial

/-- Refuse, audited. -/
theorem serves_refused {post : α → Noted → Prop} (authenticated : Authenticated request noted caller)
    (action : AuditAction) (name : Option NameHmac) (failure : CoreError) :
    Serves request noted (refuse caller action name >>= fun _ => (Program.fail failure : Handler α)) post :=
  .bind (serves_refuse authenticated action name) fun _ _ _ _ => .fail failure

theorem serves_require (authenticated : Authenticated request noted caller) (need : Need) (action : AuditAction)
    (name : Option NameHmac) :
    Serves request noted (require caller need action name) fun _ _ => caller.can need = true := by
  unfold require
  split
  · next may => exact .pure may
  · exact serves_refused authenticated action name _

omit [Digests] [Ed25519] [Bodies] in
theorem owner_of_can {need : Need} (only : ∀ scope, scopeCan scope need = false) (may : caller.can need = true) :
    caller.principal = .owner := by
  unfold Caller.can at may
  split at may
  · next owner => exact owner
  · rw [only] at may
    cases may

omit [Digests] [Ed25519] [Bodies] in
theorem scopeCan_owner (scope : Scope) : scopeCan scope .owner = false := by cases scope <;> rfl

omit [Digests] [Ed25519] [Bodies] in
theorem decoded_of_descriptor {descriptor : Descriptor} (decoded : caller.descriptor = .ok descriptor) :
    caller.vault.descriptor.decodeUnverified = .ok descriptor := by
  unfold Caller.descriptor at decoded
  cases unverified : caller.vault.descriptor.decodeUnverified with
  | error failure => rw [unverified] at decoded; cases decoded
  | ok found => rw [unverified] at decoded; rw [Except.ok.inj decoded]

/-! ## Records -/

theorem serves_list (kind : RecordKind) (query : Option String) :
    Serves request noted (list caller kind query) fun response later => MayHold caller later response.body :=
  .bind (.check _) fun _ _ _ _ => .bind (.check _) fun _ _ _ _ => .bind (.read _) fun _ _ _ _ => .pure trivial

theorem serves_readRecord (authenticated : Authenticated request noted caller) (kind : RecordKind) (name : String)
    (version : Option String) :
    Serves request noted (read caller kind name version) fun response later => MayHold caller later response.body := by
  refine .bind (.check _) fun name _ grows _ => .bind (.check _) fun version _ grows' _ => ?_
  have authenticated := (authenticated.grows grows).grows grows'
  refine .bind (serves_require authenticated ..) fun _ _ grows may => ?_
  have authenticated := authenticated.grows grows
  split
  · exact serves_refused authenticated ..
  · next allowed =>
    have listed : kind = .secret → caller.allowsName name = true := by
      intro secret
      by_contra hidden
      exact allowed ⟨secret, Bool.not_eq_true _ ▸ hidden⟩
    refine .bind (?reads : Serves _ _ _ fun found later => ∀ row, found = some row →
      later.records caller.vault.pk kind name row) fun found later grows read => ?_
    case reads =>
      split
      · refine (Serves.read _).mono fun result later ends => ⟨ends.1, ?_⟩
        rintro found rfl row rfl
        rw [ends.2 _ rfl]
        exact .inr (.latest ..)
      · refine (Serves.read _).mono fun result later ends => ⟨ends.1, ?_⟩
        rintro found rfl row rfl
        rw [ends.2 _ rfl]
        exact .inr (.version ..)
    · have authenticated := authenticated.grows grows
      split
      · exact .fail _
      · next row =>
        split
        · exact .pure trivial
        · refine .bind .now fun _ _ grows _ => ?_
          have authenticated := authenticated.grows grows
          refine .bind (.permitted authenticated rfl) fun _ _ grows' _ => .pure ⟨kind, name, may, listed, ?_⟩
          exact grows'.records _ _ _ _ (grows.records _ _ _ _ (read row rfl))

theorem serves_versions (kind : RecordKind) (name : String) :
    Serves request noted (versions caller kind name) fun response later => MayHold caller later response.body := by
  refine .bind (.check _) fun name _ _ _ => .bind (.read _) fun rows _ _ _ => ?_
  split
  · exact .fail _
  · exact .pure trivial

theorem serves_checkSigned (authenticated : Authenticated request noted caller) (kind : RecordKind) (action : AuditAction)
    (name : NameHmac) (w : RecordWrite) :
    Serves request noted (checkSigned caller kind action name w) fun _ _ => Signed caller kind name w := by
  unfold checkSigned
  split
  · exact serves_refused authenticated ..
  · next current =>
    refine .bind (.check _) fun descriptor later grows decoded => ?_
    have authenticated := authenticated.grows grows
    dsimp only
    split
    · next verified =>
      exact .pure ⟨not_not.mp current, descriptor, decoded_of_descriptor decoded, verified⟩
    · exact serves_refused authenticated ..

theorem serves_put (authenticated : Authenticated request noted caller) (policy : Policy) (kind : RecordKind)
    (name : String) :
    Serves request noted (put policy caller kind name request) fun response later => MayHold caller later response.body := by
  refine .bind (.check _) fun name _ grows _ => ?_
  have authenticated := authenticated.grows grows
  refine .bind (serves_require authenticated ..) fun _ _ grows may => .bind (.check _) fun pre _ grows' _ =>
    .bind (.json _ _) fun body _ grows'' _ => ?_
  have authenticated := ((authenticated.grows grows).grows grows').grows grows''
  split
  · exact .fail _
  · refine .bind (serves_checkSigned authenticated ..) fun _ _ grows signed => .bind .now fun now _ grows' _ => ?_
    have authenticated := (authenticated.grows grows).grows grows'
    exact .bind (.permitted authenticated ⟨rfl, may, signed⟩) fun _ _ _ _ => .pure trivial

theorem serves_delete (authenticated : Authenticated request noted caller) (policy : Policy) (kind : RecordKind)
    (name : String) :
    Serves request noted (delete policy caller kind name request)
      fun response later => MayHold caller later response.body := by
  refine .bind (.check _) fun name _ grows _ => ?_
  have authenticated := authenticated.grows grows
  refine .bind (serves_require authenticated ..) fun _ _ grows may => ?_
  have authenticated := authenticated.grows grows
  split
  · exact .fail _
  · split
    · exact .fail _
    · refine .bind (.check _) fun ifMatch _ grows _ => .bind (.json _ _) fun body _ grows' _ => ?_
      have authenticated := (authenticated.grows grows).grows grows'
      refine .bind (serves_checkSigned authenticated ..) fun _ _ grows signed => .bind .now fun now _ grows' _ => ?_
      have authenticated := (authenticated.grows grows).grows grows'
      exact .bind (.permitted authenticated ⟨rfl, may, rfl, signed⟩) fun _ _ _ _ => .pure trivial

theorem serves_audit (query : Option String) :
    Serves request noted (audit caller query) fun response later => MayHold caller later response.body := by
  unfold audit
  split
  · exact .fail _
  · exact .bind (.check _) fun _ _ _ _ => .bind (.check _) fun _ _ _ _ => .bind (.read _) fun _ _ _ _ =>
      .bind (.read _) fun _ _ _ _ => .pure trivial

/-! ## Vaults and tokens -/

theorem serves_listTokens (authenticated : Authenticated request noted caller) :
    Serves request noted (listTokens caller) fun tokens _ => tokens.isSome = true → caller.can .manage = true := by
  unfold listTokens
  split
  · next may =>
    refine .bind (.read _) fun rows _ grows _ => ?_
    have authenticated := authenticated.grows grows
    split
    · exact .pure fun _ => may
    · refine .bind .now fun now _ grows _ => ?_
      have authenticated := authenticated.grows grows
      exact .bind (.perform (.inr ⟨caller, authenticated, rfl⟩) trivial) fun _ _ _ _ => .pure fun _ => may
  · exact .pure fun listed => by cases listed

omit [Digests] [Ed25519] [Bodies] in
theorem owner_of_isOwner (owner : caller.isOwner = true) : caller.principal = .owner := of_decide_eq_true owner

theorem serves_status (authenticated : Authenticated request noted caller) (policy : Policy) :
    Serves request noted (status policy caller) fun response later => MayHold caller later response.body := by
  refine .bind (serves_listTokens authenticated) fun tokens _ _ listed => .bind (.read _) fun _ _ _ _ =>
    .pure ⟨listed, fun shown => ?_⟩
  by_cases owner : caller.isOwner = true
  · exact owner_of_isOwner owner
  · simp only [owner, Bool.false_eq_true, if_false, Option.isSome_none] at shown

theorem serves_descriptors (query : Option String) :
    Serves request noted (descriptors caller query) fun response later => MayHold caller later response.body := by
  refine .bind (?parsed : Serves _ _ _ fun _ _ => True) fun _ _ _ _ => .bind (.read _) fun _ _ _ _ => .pure trivial
  case parsed =>
    split
    · exact .pure trivial
    · split
      · exact .pure trivial
      · exact .fail _

theorem serves_children :
    Serves request noted (children caller) fun response later => MayHold caller later response.body := by
  unfold children
  split
  · exact .fail _
  · next owner =>
    refine .bind (.read _) fun blob _ _ _ => ?_
    split
    · exact .fail _
    · exact .pure (owner_of_isOwner (not_not.mp owner))

theorem serves_putChildren (authenticated : Authenticated request noted caller) (policy : Policy) :
    Serves request noted (putChildren policy caller request) fun response later => MayHold caller later response.body := by
  refine .bind (serves_require authenticated ..) fun _ _ grows may => .bind (.check _) fun pre _ grows' _ =>
    .bind (.json _ _) fun blob _ grows'' _ => ?_
  have authenticated := ((authenticated.grows grows).grows grows').grows grows''
  split
  · exact serves_refused authenticated ..
  · next verified =>
    refine .bind .now fun now _ grows _ => ?_
    have authenticated := authenticated.grows grows
    exact .bind (.permitted authenticated ⟨rfl, owner_of_can scopeCan_owner may, verified⟩) fun _ _ _ _ => .pure trivial

theorem serves_register (authenticated : Authenticated request noted caller) (policy : Policy) (body : List UInt8) :
    Serves request noted (register policy caller body) fun response later => MayHold caller later response.body := by
  refine .bind (serves_require authenticated ..) fun _ _ grows may => .bind (.json _ _) fun r _ grows' _ => ?_
  have authenticated := (authenticated.grows grows).grows grows'
  dsimp only
  generalize (if r.ttlSecs = 0 then Scope.defaultTtlSecs r.scope else r.ttlSecs) = ttl
  split
  · exact .fail _
  · split
    · exact .fail _
    · split
      · exact serves_refused authenticated ..
      · next verified =>
        refine .bind .now fun now _ grows _ => ?_
        have authenticated := authenticated.grows grows
        exact .bind (.permitted authenticated ⟨rfl, owner_of_can scopeCan_owner may, verified⟩)
          fun _ _ _ _ => .pure trivial

theorem serves_whoami :
    Serves request noted (whoami caller) fun response later => MayHold caller later response.body := by
  unfold whoami
  split
  · exact .fail _
  · exact .pure trivial

theorem serves_revoke (authenticated : Authenticated request noted caller) (id : String) :
    Serves request noted (revoke caller id) fun response later => MayHold caller later response.body := by
  refine .bind (serves_require authenticated ..) fun _ _ grows may => ?_
  have authenticated := authenticated.grows grows
  split
  · exact .fail _
  · refine .bind .now fun now _ grows _ => ?_
    have authenticated := authenticated.grows grows
    exact .bind (.permitted authenticated ⟨rfl, rfl, may⟩) fun _ _ _ _ => .pure trivial

theorem serves_deleteVault (authenticated : Authenticated request noted caller) :
    Serves request noted (deleteVault caller) fun response later => MayHold caller later response.body := by
  refine .bind (serves_require authenticated ..) fun _ _ grows may => .bind .now fun now _ grows' _ => ?_
  have authenticated := (authenticated.grows grows).grows grows'
  exact .bind (.permitted authenticated ⟨rfl, owner_of_can scopeCan_owner may⟩) fun _ _ _ _ => .pure trivial

theorem serves_rotate (authenticated : Authenticated request noted caller) (body : List UInt8) :
    Serves request noted (rotate caller body) fun response later => MayHold caller later response.body := by
  refine .bind (serves_require authenticated ..) fun _ _ grows may => .bind (.json _ _) fun r _ grows' _ => ?_
  have authenticated := (authenticated.grows grows).grows grows'
  dsimp only
  split
  · exact .fail _
  · split
    · exact .fail _
    · next current =>
      obtain ⟨generation, revision⟩ := not_or.mp current
      refine .bind (.check _) fun previous _ grows decoded => .bind (.integrity _) fun next _ grows' verified => ?_
      have authenticated := (authenticated.grows grows).grows grows'
      split
      · exact .fail _
      · next follows =>
        refine .bind (.integrity _) fun _ _ grows₁ secrets => .bind (.integrity _) fun _ _ grows₂ configs =>
          .bind (.integrity _) fun _ _ grows₃ bundle => .bind (.read _) fun rows _ grows₄ listed =>
          .bind (.check _) fun _ _ grows₅ resealed => .bind .now fun now last grows₆ _ => ?_
        have authenticated := authenticated.grows ((((grows₁.trans grows₂).trans grows₃).trans grows₄).trans
          (grows₅.trans grows₆))
        refine .bind (.permitted authenticated ⟨rfl, owner_of_can scopeCan_owner may, previous, next, ?_⟩)
          fun _ _ _ _ => .pure trivial
        exact
          { generation := not_not.mp generation
            revision := not_not.mp revision
            decoded := decoded_of_descriptor decoded
            verified := verified
            follows := not_not.mp follows
            secrets := secrets
            configs := configs
            ownerBundle := bundle
            tokens := ⟨rows, (grows₅.trans grows₆).lists _ _ (listed ▸ .inr (.mk ..)), resealed⟩ }

/-! ## Authentication -/

variable {params : SigParams}

omit [Bodies] in
theorem skew_of_verified {pub : Key32} {now : Int} (verified : verifyRequest pub request params now = .ok ()) :
    ((now - params.ts).natAbs : Int) ≤ maxSkewSecs := by
  unfold verifyRequest at verified
  split at verified
  · cases verified
  · next inside => exact Int.not_lt.mp inside

theorem serves_spendNonce {pub : Key32} {checked : Int} (authorized : request.authorization = some params)
    (read : checked ∈ noted.readings) (verified : verifyRequest pub request params checked = .ok ()) :
    Serves request noted (spendNonce params) fun _ later => later.spent = true := by
  refine .bind .now fun now later grows reading => ?_
  refine .bind (?spends : Serves _ _ _ fun answer last => ∀ value, answer = .ok value → last.spent = true)
    fun answer last _ spent => (Serves.check _).mono fun result last' ends => ⟨ends.1, fun value same => ?_⟩
  case spends =>
    refine .ask (.inl ⟨reading, params, checked, grows.readings _ read, authorized, rfl, rfl,
      skew_of_verified verified⟩) trivial ?_
    rintro answer value rfl
    exact Bool.or_true _
  cases answer with
  | error failure => cases ends.2 value same
  | ok value => exact ends.1.spent (spent value rfl)

/-- Finding the vault notes it. -/
theorem findVault_permitted {query : Db → Option VaultRow} {next : Option VaultRow → Handler α}
    {post : Except CoreError α → Noted → Prop} (fresh : noted.vault = none)
    (stored : ∀ db vault, query db = some vault → db.loadVault vault.pk = some vault)
    (failed : ∀ failure later, post (.error failure) later)
    (absent : ∀ later, (next none).Obeys (permitted request) later post)
    (found : ∀ vault later, later.readings = noted.readings → later.vault = some vault →
      (∀ id row, noted.tokens id row → later.tokens id row) → (next (some vault)).Obeys (permitted request) later post) :
    (Handler.findVault query >>= next).Obeys (permitted request) noted post := by
  refine ⟨⟨fresh, stored⟩, fun answer => ?_⟩
  cases answer with
  | error failure => exact failed _ _
  | ok row =>
    cases row with
    | none => exact absent _
    | some vault => exact found vault _ rfl rfl fun _ _ => .inl

omit [Digests] [Ed25519] [Bodies] in
theorem loadVaultById_loads {id : VaultId} (db : Db) (vault : VaultRow) (loaded : db.loadVaultById id = some vault) :
    db.loadVault vault.pk = some vault := by
  obtain ⟨v, found, joined⟩ := Option.bind_eq_some_iff.mp loaded
  have numbered : v.pk = vault.pk := by
    obtain ⟨_, _, rfl⟩ := Option.map_eq_some_iff.mp joined
    rfl
  have present : db.vaults.find? vault.pk = some v :=
    Relational.Table.find?_eq_some.mpr ⟨List.mem_of_find?_eq_some found, numbered⟩
  rw [Db.loadVault, present]
  exact joined

omit [Digests] [Ed25519] [Bodies] in
theorem loadVault_loads {pk : VaultPk} (db : Db) (vault : VaultRow) (loaded : db.loadVault pk = some vault) :
    db.loadVault vault.pk = some vault := by
  obtain ⟨v, found, joined⟩ := Option.bind_eq_some_iff.mp loaded
  have numbered : v.pk = vault.pk := by
    obtain ⟨_, _, rfl⟩ := Option.map_eq_some_iff.mp joined
    rfl
  rw [← numbered, (Relational.Table.find?_eq_some.mp found).2]
  exact loaded

/-- Authenticated as the caller it ends with, if it ends with one. -/
def EndsAuthenticated (request : CanonicalRequest) (result : Except CoreError Caller) (later : Noted) : Prop :=
  ∀ caller, result = .ok caller → Authenticated request later caller

omit [Bodies] in
theorem endsAuthenticated_error (failure : CoreError) (later : Noted) :
    EndsAuthenticated request (.error failure) later := fun _ same => by cases same

/-- The checks of a credential that has been looked up, down to the spent nonce. -/
theorem credential_permitted {policy : Policy} {vault : VaultRow} {now : Int} {pub : Key32} {rest : Handler Caller}
    (authorized : request.authorization = some params) (read : now ∈ noted.readings)
    (ends : ∀ later, noted.Grows later → later.spent = true → verifyRequest pub request params now = .ok () →
      rest.Obeys (permitted request) later (EndsAuthenticated request)) :
    (Handler.check (verifyRequest pub request params now) >>= fun _ =>
      if expired policy vault now then (Program.fail .unauthorized : Handler Caller)
      else spendNonce params >>= fun _ => rest).Obeys (permitted request) noted (EndsAuthenticated request) := by
  refine Program.Obeys.bind ?_
  cases verified : verifyRequest pub request params now with
  | error failure => exact endsAuthenticated_error _ _
  | ok _ =>
    change Program.Obeys _ (if _ then _ else _) _ _
    split
    · exact endsAuthenticated_error _ _
    · refine .bind ((serves_spendNonce authorized read verified).mono fun result later spends => ?_)
      cases result with
      | error failure => exact endsAuthenticated_error _ _
      | ok _ => exact ends later spends.1 (spends.2 _ rfl) verified

theorem ownerAuth_permitted (policy : Policy) {now : Int} (authorized : request.authorization = some params)
    (actor : params.actor = .owner) (read : now ∈ noted.readings) (fresh : noted.vault = none) :
    (ownerAuth policy request params now).Obeys (permitted request) noted (EndsAuthenticated request) := by
  refine findVault_permitted fresh loadVaultById_loads endsAuthenticated_error (fun _ => endsAuthenticated_error _ _)
    fun vault later readings bound _ => ?_
  refine credential_permitted authorized (readings ▸ read) fun last grows spent verified => ?_
  rintro caller same
  obtain rfl := Except.ok.inj same
  refine ⟨spent, grows.vault.trans bound, params, now, grows.readings _ (readings ▸ read), authorized, verified, ?_⟩
  rw [actor]
  trivial

theorem tokenAuth_permitted (policy : Policy) {now : Int} {id : TokenId} (authorized : request.authorization = some params)
    (actor : params.actor = .token id) (read : now ∈ noted.readings) (fresh : noted.vault = none) :
    (tokenAuth policy request params id now).Obeys (permitted request) noted (EndsAuthenticated request) := by
  refine .bind ((Serves.read (tokenById id)).mono fun result later ends => ?_)
  cases result with
  | error failure => exact endsAuthenticated_error _ _
  | ok found =>
    cases found with
    | none => exact endsAuthenticated_error _ _
    | some row =>
      have token : later.tokens id row := by
        rw [ends.2 _ rfl]
        exact .inr (.mk id row)
      have read' : now ∈ later.readings := ends.1.readings _ read
      refine findVault_permitted (ends.1.vault.trans fresh) loadVault_loads endsAuthenticated_error
        (fun _ => endsAuthenticated_error _ _) fun vault later' readings bound tokens => ?_
      dsimp only
      split
      · exact endsAuthenticated_error _ _
      · refine credential_permitted authorized (readings ▸ read') fun last grows spent verified => ?_
        split
        · exact endsAuthenticated_error _ _
        · rintro caller same
          obtain rfl := Except.ok.inj same
          refine ⟨spent, grows.vault.trans bound, params, now, grows.readings _ (readings ▸ read'), authorized,
            verified, ?_⟩
          rw [actor]
          exact grows.tokens _ _ (tokens _ _ token)

theorem authenticate_permitted (policy : Policy) (fresh : noted.vault = none) :
    (authenticate policy request).Obeys (permitted request) noted (EndsAuthenticated request) := by
  unfold authenticate
  split
  · exact endsAuthenticated_error _ _
  · next params authorized =>
    refine .bind (Serves.now.mono fun result later ends => ?_)
    cases result with
    | error failure => exact endsAuthenticated_error _ _
    | ok now =>
      have read := ends.2 _ rfl
      have fresh' := ends.1.vault.trans fresh
      refine .bind (Program.Obeys.mono (?authenticated : Program.Obeys _ _ _ (EndsAuthenticated request))
        fun result last ends => ?_)
      case authenticated =>
        split
        · next actor => exact ownerAuth_permitted policy authorized actor read fresh'
        · next actor => exact tokenAuth_permitted policy authorized actor read fresh'
      cases result with
      | error failure => exact endsAuthenticated_error _ _
      | ok caller =>
        have authenticated := ends caller rfl
        have touches : (Op.write (.touch caller.vault.pk now)).Allowed request last :=
          .inl ⟨authenticated.spent, _, authenticated.vault, rfl⟩
        refine .bind ((Serves.store touches).mono fun result last' stored => ?_)
        cases result with
        | error failure => exact endsAuthenticated_error _ _
        | ok _ =>
          rintro other same
          obtain rfl := Except.ok.inj same
          exact authenticated.grows stored.1

/-- An authenticated request serves its caller, and its answer is the handler's or
an error. -/
theorem authed_permitted (policy : Policy) (fresh : noted.vault = none) {op : Caller → Handler CoreResponse}
    (serves : ∀ caller later, Authenticated request later caller →
      Serves request later (op caller) fun response last => MayHold caller last response.body) :
    (authed policy request op).Obeys (permitted request) noted (permissions.ends request) := by
  refine .bind ((authenticate_permitted policy fresh).mono fun result later ends => ?_)
  cases result with
  | error failure => exact fun _ same => by cases same
  | ok caller =>
    have authenticated := ends caller rfl
    refine Program.Obeys.mono (?served : Serves request later _ fun (response : CoreResponse) last =>
      response.body.Open ∨ ∃ caller, Authenticated request last caller ∧ MayHold caller last response.body)
      fun result last ends => ends.2
    refine .bind .now fun now _ grows _ => .bind (.check _) fun _ _ grows' _ => ?_
    have authenticated := (authenticated.grows grows).grows grows'
    refine .bind (?attempted : Serves request _ _ fun outcome last => ∀ response : CoreResponse, outcome = .ok response →
      MayHold caller last response.body) fun outcome last grows held => .pure ?_
    case attempted =>
      refine .attempt ((serves caller _ authenticated).mono fun result last ends => ⟨ends.1, ?_⟩)
      rintro outcome same response rfl
      exact ends.2 response (Except.ok.inj same)
    cases outcome with
    | error failure => exact .inl trivial
    | ok response => exact .inr ⟨caller, authenticated.grows grows, held response rfl⟩

/-! ## Requests that need no caller -/

theorem serves_challenge (policy : Policy) :
    Serves request noted (challenge policy request) fun response _ => response.body.Open := by
  unfold challenge
  split
  · exact .fail _
  · exact .bind (.json _ _) fun _ _ _ _ => .bind .now fun _ _ _ _ => .bind (.check _) fun _ _ _ _ => .pure trivial

theorem serves_create (policy : Policy) :
    Serves request noted (create policy request) fun response _ => response.body.Open := by
  refine .bind (.json _ _) fun body _ _ _ => .bind .now fun now _ _ read => .bind (.check _) fun admitted _ grows _ => ?_
  have read := grows.readings _ read
  split
  · exact .fail _
  · next named =>
    split
    · exact .fail _
    · next params authorized =>
      split
      · exact .fail _
      · next addressed =>
        obtain ⟨actor, vaultId⟩ := not_or.mp addressed
        refine .bind (.check _) fun _ _ grows₁ verified => .bind (.integrity _) fun descriptor _ grows₂ described => ?_
        split
        · exact .fail _
        · next first =>
          refine .bind (.integrity _) fun _ _ grows₃ bundle => .bind (?admits : Serves _ _ _ fun _ _ => True)
            fun _ _ grows₄ _ => ?_
          case admits =>
            have read := ((grows₁.trans grows₂).trans grows₃).readings _ read
            split
            · exact .pure trivial
            · exact .store (.inl read)
          have read := (((grows₁.trans grows₂).trans grows₃).trans grows₄).readings _ read
          refine .bind (serves_spendNonce authorized read verified) fun _ last _ spent => ?_
          exact .bind (.store (.inl ⟨spent, ⟨not_not.mp named, ⟨descriptor, described, not_not.mp first⟩, bundle⟩,
            params, authorized, not_not.mp actor, not_not.mp vaultId⟩)) fun row _ _ _ => .pure trivial

theorem serves_report : Serves request noted (report request.body) fun response _ => response.body.Open := by
  refine .bind (.json _ _) fun report _ _ parsed => .bind (.read _) fun found later _ looked => ?_
  split
  · exact .fail _
  · next row =>
    have token : later.tokens report.tokenId row := by
      rw [looked]
      exact .inr (.mk ..)
    refine .bind .now fun now _ grows _ => ?_
    split
    · exact .fail _
    · refine .bind (.check _) fun _ _ grows' verified => ?_
      have signed : verifyEd25519 row.authPub (reportSigningInput report.tokenId report.ts) report.sig "report" = .ok () := by
        cases checked : verifyEd25519 row.authPub (reportSigningInput report.tokenId report.ts) report.sig "report" with
        | error failure => rw [checked] at verified; cases verified
        | ok _ => rfl
      have token := (grows.trans grows').tokens _ _ token
      exact .bind (.store (.inl ⟨rfl, report, row, parsed, token, rfl, rfl, signed⟩)) fun _ _ _ _ => .pure trivial

/-! ## Dispatches -/

theorem serves_withParam {post : CoreResponse → Noted → Prop} (params : List String) (index : Nat)
    {op : String → Handler CoreResponse} (serves : ∀ text later, noted.Grows later → Serves request later (op text) post) :
    Serves request noted (withParam params index op) post :=
  .bind (.check _) fun text later grows _ => serves text later grows

theorem open_ends {handler : Handler CoreResponse}
    (serves : Serves request noted handler fun response _ => response.body.Open) :
    handler.Obeys (permitted request) noted (permissions.ends request) :=
  serves.mono fun _ _ ends response same => .inl (ends.2 response same)

theorem refused_ends (failure : CoreError) (noted : Noted) : permissions.ends request (.error failure) noted :=
  fun _ same => by cases same

/-- Every request, whatever it asks for and whatever it is answered, performs
permitted operations only, and is answered what its caller may see. -/
theorem dispatch_permitted (policy : Policy) (fresh : noted.vault = none) :
    (dispatch policy request).Obeys (permitted request) noted (permissions.ends request) := by
  unfold dispatch
  dsimp only
  split
  · next route params _ =>
    cases route.id with
    | capabilities => exact open_ends (.pure trivial)
    | challenges => exact open_ends (serves_challenge policy)
    | createVault => exact open_ends (serves_create policy)
    | status => exact authed_permitted policy fresh fun caller _ auth => serves_status auth policy
    | deleteVault => exact authed_permitted policy fresh fun caller _ auth => serves_deleteVault auth
    | descriptors => exact authed_permitted policy fresh fun caller _ _ => serves_descriptors _
    | childrenGet => exact authed_permitted policy fresh fun caller _ _ => serves_children
    | childrenPut => exact authed_permitted policy fresh fun caller _ auth => serves_putChildren auth policy
    | rotate => exact authed_permitted policy fresh fun caller _ auth => serves_rotate auth _
    | registerToken => exact authed_permitted policy fresh fun caller _ auth => serves_register auth policy _
    | tokenSelf => exact authed_permitted policy fresh fun caller _ _ => serves_whoami
    | reportToken => exact open_ends serves_report
    | revokeToken =>
      exact authed_permitted policy fresh fun caller _ auth =>
        serves_withParam _ _ fun id _ grows => serves_revoke (auth.grows grows) id
    | audit => exact authed_permitted policy fresh fun caller _ _ => serves_audit _
    | recordList kind => exact authed_permitted policy fresh fun caller _ _ => serves_list kind _
    | recordGet kind =>
      exact authed_permitted policy fresh fun caller _ auth =>
        serves_withParam _ _ fun name _ grows => serves_readRecord (auth.grows grows) kind name none
    | recordPut kind =>
      exact authed_permitted policy fresh fun caller _ auth =>
        serves_withParam _ _ fun name _ grows => serves_put (auth.grows grows) policy kind name
    | recordDelete kind =>
      exact authed_permitted policy fresh fun caller _ auth =>
        serves_withParam _ _ fun name _ grows => serves_delete (auth.grows grows) policy kind name
    | recordVersions kind =>
      exact authed_permitted policy fresh fun caller _ _ =>
        serves_withParam _ _ fun name _ _ => serves_versions kind name
    | recordVersion kind =>
      exact authed_permitted policy fresh fun caller _ auth =>
        serves_withParam _ _ fun name _ grows => serves_withParam _ _ fun version _ grows' =>
          serves_readRecord ((auth.grows grows).grows grows') kind name (some version)
    | healthz | readyz => exact refused_ends _ _
  · exact refused_ends _ _
  · exact refused_ends _ _

end

/-! ## The server -/

section

variable [Digests] [Ed25519] [Bodies]

/-- Any number of requests over one store and one journal, with what each was
answered. -/
abbrev Requests (σ : Type) := System (World σ) Op CoreError CoreResponse Noted

/-- The server: each request runs its dispatch, each of its operations alone. -/
def core (policy : Policy) (σ : Type) :
    Rules (World σ) CanonicalRequest (Env σ) Op CoreError CoreResponse Noted where
  start := dispatch policy
  first := .nothing
  serve := perform
  watch := { note := fun noted op answer => noted.after op answer, allowed := fun _ _ => True }

/-- A request on its way, and what it was answered. -/
abbrev Serving := Flight Op CoreError CoreResponse Noted

/-- The server after some events, from a store without requests. -/
def serveAll (policy : Policy) {σ : Type} (world : World σ) (events : List (Event CanonicalRequest (Env σ))) :
    Requests σ :=
  Machine.run (Interaction.step (core policy σ)) ⟨world, []⟩ events

theorem serveAll_concat (policy : Policy) {σ : Type} (world : World σ) (events : List (Event CanonicalRequest (Env σ)))
    (event : Event CanonicalRequest (Env σ)) :
    serveAll policy world (events ++ [event]) = Interaction.step (core policy σ) (serveAll policy world events) event :=
  Machine.run_append _ _ _

/-- A request that arrives starts to keep to its permissions. -/
theorem core_starts (policy : Policy) {σ : Type} (request : CanonicalRequest) :
    ((core policy σ).start request).Obeys (permissions.watch (core policy σ).watch request) (core policy σ).first
      (permissions.ends request) :=
  dispatch_permitted policy rfl

end

end GalataVault.Server

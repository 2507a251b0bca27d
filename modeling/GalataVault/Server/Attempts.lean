import GalataVault.Backend.Failures
import GalataVault.Server.Scopes

/-!
# Refused attempts

What a refused attempt of an authenticated caller leaves in its vault. Some handlers
append the row of a refusal themselves, some leave it to the store's transaction, and
three kinds of refusal are made by a plain error that nothing records. One is meant:
the children record read by a token is refused before it names an action. The others
are a rotation built from a state that has passed, and a write that names no
precondition at all.

An attempt is one execution of a handler, each of its operations at a moment of its
own. Nothing is assumed of the moments but that the vault is still there and that the
database stores a row it is given.
-/

namespace GalataVault.Server

open Proto Backend Interaction

/-! ## Refusals -/

/-- Whether an error refuses an attempt for its scope, its precondition, its
generation, its version or a quota. -/
def CoreError.refuses (e : CoreError) : Bool :=
  decide (e.code ∈ [ErrorCode.forbidden, .preconditionRequired, .preconditionFailed, .staleGeneration, .versionMismatch,
    .valueTooLarge, .configTooLarge, .vaultQuotaExceeded, .nameQuotaExceeded, .tokenQuotaExceeded,
    .configQuotaExceeded]) ||
    -- The code of the rotation's refusal has another use.
    decide (e = .ofStore .conflict)

theorem ofStore_refuses (failure : StoreError) : (CoreError.ofStore failure).refuses = failure.refuses := by
  cases failure with
  | quota quota => cases quota <;> rfl
  | _ => rfl

theorem ofIntegrity_refuses (failure : IntegrityError) : (CoreError.ofIntegrity failure).refuses = false := by
  cases failure <;> rfl

/-! ## Moments -/

section Moments

variable {σ : Type}

/-- An operation meets a database some run reached in which the vault is still there,
and a disk that commits and has room for one more row. -/
structure Ready [Digests] (pk : VaultPk) (env : Env σ) (world : World σ) : Prop where
  disk : env.disk = .ok ()
  reached : ∃ journal calls, world = Backend.run ⟨Db.empty, journal⟩ calls
  present : world.db.hasVault pk = true
  room : world.db.rowCount < maxRows

/-- No operation changed the database. -/
def Quiet (moments : List (Moment (World σ))) : Prop := ∀ moment ∈ moments, moment.after.db = moment.before.db

/-- One operation appended one refused row to the vault's log, and nothing else
changed. -/
def AuditedOnce (pk : VaultPk) (moments : List (Moment (World σ))) : Prop :=
  ∃ earlier moment later, moments = earlier ++ moment :: later ∧ Quiet earlier ∧
    AppendsRefusal pk moment.before.db moment.after.db ∧ Quiet later

theorem Quiet.nil : Quiet ([] : List (Moment (World σ))) := by
  intro moment member
  cases member

theorem Quiet.append {earlier later : List (Moment (World σ))} (first : Quiet earlier) (second : Quiet later) :
    Quiet (earlier ++ later) := by
  intro moment member
  rcases List.mem_append.mp member with old | new
  · exact first moment old
  · exact second moment new

theorem Quiet.one {moment : Moment (World σ)} (same : moment.after.db = moment.before.db) : Quiet [moment] := by
  intro other member
  obtain rfl := List.mem_singleton.mp member
  exact same

theorem AuditedOnce.one {pk : VaultPk} {moment : Moment (World σ)}
    (appends : AppendsRefusal pk moment.before.db moment.after.db) : AuditedOnce pk [moment] :=
  ⟨[], moment, [], rfl, .nil, appends, .nil⟩

theorem AuditedOnce.after {pk : VaultPk} {earlier later : List (Moment (World σ))} (quiet : Quiet earlier)
    (audited : AuditedOnce pk later) : AuditedOnce pk (earlier ++ later) := by
  obtain ⟨before, moment, rest, rfl, first, appends, last⟩ := audited
  exact ⟨earlier ++ before, moment, rest, by rw [List.append_assoc], quiet.append first, appends, last⟩

/-- What was audited was not quiet. -/
theorem AuditedOnce.not_quiet {pk : VaultPk} {moments : List (Moment (World σ))} (audited : AuditedOnce pk moments) :
    ¬ Quiet moments := by
  obtain ⟨earlier, moment, later, rfl, _, appends, _⟩ := audited
  intro quiet
  exact appends.changes (quiet moment (List.mem_append_right _ (List.mem_cons_self)))

/-- Moments that may stand before others without changing what holds of them. -/
class Precedes (quiet later : List (Moment (World σ)) → Prop) : Prop where
  append : ∀ first second, quiet first → later second → later (first ++ second)

instance : Precedes (σ := σ) Quiet Quiet := ⟨fun _ _ first second => first.append second⟩

instance (pk : VaultPk) : Precedes (σ := σ) Quiet (AuditedOnce pk) := ⟨fun _ _ first second => second.after first⟩

instance (quiet : List (Moment (World σ)) → Prop) : Precedes quiet (fun _ => True) := ⟨fun _ _ _ _ => trivial⟩

instance (quiet : List (Moment (World σ)) → Prop) : Precedes quiet (fun _ => False) := ⟨fun _ _ _ never => never⟩

end Moments

/-! ## Checks -/

section Checks

variable {α β : Type}

/-- A check whose errors are no refusals. -/
def Mild (result : Except CoreError α) : Prop := ∀ failure, result = .error failure → failure.refuses = false

theorem Mild.ok (value : α) : Mild (.ok value) := by
  intro failure same
  cases same

theorem Mild.error {failure : CoreError} (mild : failure.refuses = false) : Mild (.error failure : Except CoreError α) := by
  rintro _ same
  cases same
  exact mild

theorem Mild.map {result : Except CoreError α} (mild : Mild result) (f : α → β) : Mild (result.map f) := by
  intro failure same
  cases result with
  | ok value => cases same
  | error thrown =>
    cases same
    exact mild _ rfl

theorem Mild.mapM {γ : Type} {f : γ → Except CoreError α} (mild : ∀ value, Mild (f value)) (given : Option γ) :
    Mild (given.mapM f) := by
  cases given with
  | none => exact .ok none
  | some value => exact (mild value).map some

theorem Mild.forM {γ : Type} {f : γ → Except CoreError Unit} (mild : ∀ item, Mild (f item)) (items : List γ) :
    Mild (items.forM f) := by
  induction items with
  | nil => exact .ok ()
  | cons item items inductionHypothesis =>
    intro failure same
    change (f item >>= fun _ => items.forM f) = _ at same
    cases first : f item with
    | error thrown =>
      rw [first] at same
      cases same
      exact mild item _ first
    | ok value =>
      rw [first] at same
      exact inductionHypothesis failure same

theorem parseName_mild (text : String) : Mild (parseName text) := by
  unfold parseName
  split
  · exact .ok _
  · exact .error rfl

theorem parseVersion_mild (text : String) : Mild (parseVersion text) := by
  unfold parseVersion
  split
  · exact .ok _
  · exact .error rfl

theorem parseEtag_mild (text : String) : Mild (parseEtag text) := by
  unfold parseEtag
  dsimp only
  split
  · exact .ok _
  · exact .error rfl

theorem pageLimit_mild (query : Option String) (default max : Nat) : Mild (pageLimit query default max) := by
  unfold pageLimit
  split
  · exact .ok _
  · split
    · exact .ok _
    · exact .error rfl

theorem param_mild (segment : String) : Mild (param segment) := by
  unfold param
  split
  · exact .ok _
  · split
    · exact .ok _
    · exact .error rfl

theorem ofIntegrity_mild (result : Except IntegrityError α) : Mild (result.mapError .ofIntegrity) := by
  intro failure same
  cases result with
  | ok value => cases same
  | error thrown =>
    cases same
    exact ofIntegrity_refuses thrown

theorem descriptor_mild (caller : Caller) : Mild caller.descriptor := by
  intro failure same
  unfold Caller.descriptor at same
  cases decoded : caller.vault.descriptor.decodeUnverified with
  | ok descriptor =>
    rw [decoded] at same
    cases same
  | error thrown =>
    rw [decoded] at same
    cases same
    rfl

/-- A precondition that is named wrongly is an invalid request; only a missing one is
refused as such. -/
theorem precondition_mild {ifMatch ifNoneMatch : Option String} (named : ¬ (ifMatch = none ∧ ifNoneMatch = none)) :
    Mild (precondition ifMatch ifNoneMatch) := by
  unfold precondition
  split
  · exact .error rfl
  · split
    · exact .ok _
    · exact .error rfl
  · exact (parseEtag_mild _).map _
  · exact absurd ⟨rfl, rfl⟩ named

end Checks

/-! ## Parts of handlers -/

section Handlers

variable [Digests] {σ α β : Type} {pk : VaultPk} {fine failed quiet : List (Moment (World σ)) → Prop}

/-- What the moments of a handler are when it ends with a value, and when it refuses. -/
abbrev Traced (σ : Type) (pk : VaultPk) (fine failed : List (Moment (World σ)) → Prop) (handler : Handler α) : Prop :=
  Settles (fun _ => perform (σ := σ)) (Ready pk) (fun failure : CoreError => failure.refuses = true) fine failed handler

/-- The handler refuses nothing. -/
abbrev NeverRefuses (σ : Type) (pk : VaultPk) (handler : Handler α) : Prop :=
  Traced σ pk (fun _ => True) (fun _ => False) handler

/-- Every refusal of the handler is audited once. -/
abbrev Audits (σ : Type) (pk : VaultPk) (handler : Handler α) : Prop := Traced σ pk (fun _ => True) (AuditedOnce pk) handler

/-- No refusal of the handler leaves anything. -/
abbrev Silences (σ : Type) (pk : VaultPk) (handler : Handler α) : Prop := Traced σ pk (fun _ => True) Quiet handler

namespace Traced

protected theorem pure {value : α} : Traced σ pk Quiet failed (pure value) := Settles.pure .nil

/-- The end of a handler. -/
protected theorem ends {value : α} : Traced σ pk (fun _ => True) failed (pure value) := Settles.pure trivial

protected theorem bind [Precedes quiet fine] [Precedes quiet failed] {first : Handler α} {next : α → Handler β}
    (head : Traced σ pk quiet failed first) (tail : ∀ value, Traced σ pk fine failed (next value)) :
    Traced σ pk fine failed (first >>= next) :=
  Settles.bind head tail Precedes.append Precedes.append

protected theorem fail {failure : CoreError} (mild : failure.refuses = false) :
    Traced σ pk fine failed (Program.fail failure : Handler α) :=
  Settles.fail fun refuses => absurd (mild.symm.trans refuses) Bool.false_ne_true

protected theorem check {result : Except CoreError α} (mild : Mild result) :
    Traced σ pk Quiet failed (Handler.check result) := by
  cases result with
  | ok value => exact Traced.pure
  | error failure => exact Traced.fail (mild failure rfl)

protected theorem now : Traced σ pk Quiet failed Handler.now :=
  Settles.ask fun _ _ _ => .one rfl

/-- What holds of the moments of an operation by its two answers holds of the handler that
goes on with its value. -/
protected theorem orError {op : Op (Except StoreError α)}
    (succeeded : ∀ env world value, Ready pk env world → (perform env op world).1 = .ok value →
      fine [⟨world, (perform env op world).2⟩])
    (refused : ∀ env world failure, Ready pk env world → (perform env op world).1 = .error failure →
      failure.refuses = true → failed [⟨world, (perform env op world).2⟩]) :
    Traced σ pk fine failed (Program.ask op >>= Handler.orError) := by
  constructor
  case value =>
    intro moments value executes
    change Executes _ _ (.perform op fun answer => Handler.orError answer) _ _ at executes
    cases executes with
    | perform _ _ env world later _ met goes =>
      cases answer : (perform env op world).1 with
      | error failure =>
        rw [answer] at goes
        cases goes
      | ok value =>
        rw [answer] at goes
        cases goes
        exact succeeded env world _ met answer
  case failure =>
    intro moments failure executes refuses
    change Executes _ _ (.perform op fun answer => Handler.orError answer) _ _ at executes
    cases executes with
    | perform _ _ env world later _ met goes =>
      cases answer : (perform env op world).1 with
      | error thrown =>
        rw [answer] at goes
        cases goes
        exact refused env world thrown met answer ((ofStore_refuses thrown).symm.trans refuses)
      | ok found =>
        rw [answer] at goes
        cases goes

protected theorem read (query : Db → α) : Traced σ pk Quiet failed (Handler.read query) := by
  apply Traced.orError
  · intro env world value _ _
    exact .one rfl
  · intro env world failure met answer _
    simp only [perform, met.disk, Except.mapError, Except.map] at answer
    cases answer

/-- A write of the store, with what its refusals leave. -/
protected theorem store {call : StoreCall α}
    (refused : ∀ env world failure, Ready pk env world → call.answer env world = .error failure → failure.refuses = true →
      failed [⟨world, step world (call.call env)⟩]) :
    Traced σ pk (fun _ => True) failed (Handler.store call) :=
  .orError (fun _ _ _ _ _ => trivial) refused

end Traced

theorem NeverRefuses.any {handler : Handler α} (never : NeverRefuses σ pk handler) :
    Traced σ pk (fun _ => True) failed handler :=
  never.mono (fun _ _ => trivial) fun _ impossible => impossible.elim

theorem traced_json (parsed : Parsed α) (what : String) : Traced σ pk Quiet failed (json parsed what) := by
  apply Traced.check
  intro failure same
  cases parsed with
  | ok value => cases same
  | error place =>
    cases same
    rfl

theorem traced_withParam {params : List String} {index : Nat} {op : String → Handler CoreResponse}
    [Precedes Quiet failed] (settled : ∀ text, Traced σ pk (fun _ => True) failed (op text)) :
    Traced σ pk (fun _ => True) failed (withParam params index op) :=
  .bind (.check (param_mild _)) settled

/-! ## Refusals a handler makes itself -/

section Refusing

variable {caller : Caller}

/-- A row written on its own, and then an error. -/
theorem traced_noted (e : AuditEvent) (refused : e.result = .refused) (error : CoreError) :
    Traced σ pk fine (AuditedOnce pk) (.perform Op.now fun now =>
      .perform (Op.write (.record pk e now)) fun _ => .done (.error error) : Handler α) := by
  constructor
  case value =>
    intro moments value executes
    cases executes with
    | perform _ _ _ _ _ _ _ goes =>
      cases goes with
      | perform _ _ _ _ _ _ _ goes => cases goes
  case failure =>
    intro moments failure executes _
    cases executes with
    | perform _ _ env world _ _ _ goes =>
      cases goes with
      | perform _ _ later after _ _ met goes =>
        cases goes
        obtain ⟨journal, calls, reached⟩ := met.reached
        have invariant : LogInvariant after.db := by
          rw [reached]
          exact run_log journal calls
        have appended := record_appends invariant met.room met.present e env.now
        rw [← met.disk] at appended
        have appends : AppendsRefusal pk after.db (step after (.record later.disk pk e env.now)).db :=
          appendsRefusal_of_append appended refused
        exact AuditedOnce.after (Quiet.one rfl) (.one appends)

/-- A handler that refuses and then fails leaves its row, whatever it fails with. -/
theorem traced_refused (action : AuditAction) (name : Option NameHmac) (error : CoreError) :
    Traced σ caller.vault.pk fine (AuditedOnce caller.vault.pk)
      (refuse caller action name >>= fun _ => (Program.fail error : Handler α)) :=
  traced_noted _ rfl error

theorem traced_require (need : Need) (action : AuditAction) (name : Option NameHmac) :
    Traced σ caller.vault.pk Quiet (AuditedOnce caller.vault.pk) (require caller need action name) := by
  unfold require
  split
  · exact .pure
  · exact traced_refused action name _

/-- A caller without the scope gets no further than its refusal. -/
theorem audits_denied {need : Need} (action : AuditAction) (name : Option NameHmac) (denied : caller.can need = false)
    (next : Unit → Handler α) : Audits σ caller.vault.pk (require caller need action name >>= next) := by
  apply Settles.stop
  rw [require, if_neg (by rw [denied]; exact Bool.false_ne_true)]
  exact traced_refused action name _

omit [Digests] in
/-- A caller with the scope gets on as if nothing had been asked. -/
theorem require_granted {need : Need} (action : AuditAction) (name : Option NameHmac) (granted : caller.can need = true) :
    require caller need action name = pure () := by
  rw [require, if_pos granted]

theorem traced_checkSigned [Ed25519] (kind : RecordKind) (action : AuditAction) (name : NameHmac) (w : RecordWrite) :
    Traced σ caller.vault.pk Quiet (AuditedOnce caller.vault.pk) (checkSigned caller kind action name w) := by
  unfold checkSigned
  split
  · exact traced_refused action _ _
  · refine .bind (.check (descriptor_mild caller)) fun descriptor => ?_
    dsimp only
    split
    · exact .pure
    · exact traced_refused action _ _

end Refusing

/-! ## Handlers that refuse nothing -/

section Never

variable {caller : Caller}

theorem never_list (kind : RecordKind) (query : Option String) : NeverRefuses σ pk (list caller kind query) :=
  .bind (.check (.mapM parseName_mild _)) fun _ => .bind (.check (pageLimit_mild _ _ _)) fun _ =>
    .bind (.read _) fun _ => .ends

theorem never_versions (kind : RecordKind) (name : String) : NeverRefuses σ pk (versions caller kind name) := by
  refine .bind (.check (parseName_mild name)) fun _ => .bind (.read _) fun rows => ?_
  split
  · exact .fail rfl
  · exact .ends

theorem never_audit (query : Option String) : NeverRefuses σ pk (audit caller query) := by
  -- Every scope may read the log.
  have may : caller.can .readAudit = true := by
    unfold Caller.can
    split <;> rfl
  unfold audit
  rw [if_neg (by rw [may]; exact Bool.noConfusion)]
  exact .bind (.check ((Mild.mapM parseVersion_mild _).map _)) fun _ => .bind (.check (pageLimit_mild _ _ _)) fun _ =>
    .bind (.read _) fun _ => .bind (.read _) fun _ => .ends

theorem never_listTokens : NeverRefuses σ pk (listTokens caller) := by
  unfold listTokens
  split
  · refine .bind (.read _) fun _ => ?_
    split
    · exact .ends
    · exact .bind .now fun _ => .bind (show NeverRefuses σ pk _ from Settles.ask fun _ _ _ => trivial) fun _ => .ends
  · exact .ends

theorem never_status (policy : Policy) : NeverRefuses σ pk (status policy caller) :=
  .bind (never_listTokens) fun _ => .bind (.read _) fun _ => .ends

theorem never_descriptors (query : Option String) : NeverRefuses σ pk (descriptors caller query) := by
  unfold descriptors
  split
  · exact .bind .pure fun _ => .bind (.read _) fun _ => .ends
  · split
    · exact .bind .pure fun _ => .bind (.read _) fun _ => .ends
    · exact Settles.stop (Traced.fail rfl)

theorem never_whoami : NeverRefuses σ pk (whoami caller) := by
  unfold whoami
  split
  · exact .fail rfl
  · exact .ends

theorem never_children (owner : caller.isOwner = true) : NeverRefuses σ pk (children caller) := by
  unfold children
  rw [if_neg (not_not.mpr owner)]
  refine .bind (.read _) fun found => ?_
  split
  · exact .fail rfl
  · exact .ends

end Never

/-! ## Handlers that audit their refusals -/

section Auditing

variable {caller : Caller}

/-- A write of the store that never refuses. -/
theorem Traced.mishap {call : StoreCall α}
    (mishap : ∀ (env : Env σ) (world : World σ) failure, call.answer env world = .error failure → Mishap failure) :
    Traced σ pk (fun _ => True) failed (Handler.store call) :=
  .store fun env world failure _ answer refuses =>
    absurd ((mishap env world failure answer).symm.trans refuses) Bool.false_ne_true

/-- A write of the store whose refusals are committed with their row. -/
theorem Traced.audited {call : StoreCall α}
    (appends : ∀ (env : Env σ) (world : World σ) failure, call.answer env world = .error failure →
      failure.refuses = true → AppendsRefusal pk world.db (step world (call.call env)).db) :
    Audits σ pk (Handler.store call) :=
  .store fun env world failure _ answer refuses => .one (appends env world failure answer refuses)

theorem audits_read (kind : RecordKind) (name : String) (version : Option String) :
    Audits σ caller.vault.pk (read caller kind name version) := by
  refine .bind (.check (parseName_mild name)) fun name => .bind (.check (.mapM parseVersion_mild _)) fun version =>
    .bind (traced_require _ _ _) fun _ => ?_
  split
  · exact traced_refused _ _ _
  · refine .bind (?reads : Traced σ _ Quiet _ _) fun found => ?_
    case reads =>
      split
      · exact .read _
      · exact .read _
    · split
      · exact .fail rfl
      · split
        · exact .ends
        · refine .bind .now fun now => Settles.last (Traced.mishap ?_) fun _ => ⟨_, rfl⟩
          intro env world failure answer
          exact record_mishap answer

theorem audits_revoke (id : String) : Audits σ caller.vault.pk (revoke caller id) := by
  refine .bind (traced_require _ _ _) fun _ => ?_
  split
  · exact .fail rfl
  · refine .bind .now fun now => Settles.last (Traced.mishap ?_) fun _ => ⟨_, rfl⟩
    intro env world failure answer
    exact writeCritical_mishap (revokeTokensBody_throws _ _ _) answer

theorem audits_deleteVault : Audits σ caller.vault.pk (deleteVault caller) := by
  refine .bind (traced_require _ _ _) fun _ => .bind .now fun now => Settles.last (Traced.mishap ?_) fun _ => ⟨_, rfl⟩
  intro env world failure answer
  exact writeCritical_mishap (deleteVaultBody_throws now) answer

variable [Ed25519] [Bodies]

theorem audits_register (policy : Policy) (body : List UInt8) :
    Audits σ caller.vault.pk (register policy caller body) := by
  refine .bind (traced_require _ _ _) fun _ => .bind (traced_json _ _) fun r => ?_
  dsimp only
  generalize (if r.ttlSecs = 0 then Scope.defaultTtlSecs r.scope else r.ttlSecs) = ttl
  split
  · exact .fail rfl
  · split
    · exact .fail rfl
    · split
      · exact traced_refused _ _ _
      · refine .bind .now fun now => Settles.last (Traced.audited ?_) fun _ => ⟨_, rfl⟩
        intro env world failure answer refuses
        exact registerToken_refuses answer refuses

/-- A write of the children record is audited when it is refused, unless the owner
names no precondition. -/
theorem audits_putChildren (policy : Policy) (request : CanonicalRequest)
    (named : caller.can .owner = false ∨ ¬ (request.ifMatch = none ∧ request.ifNoneMatch = none)) :
    Audits σ caller.vault.pk (putChildren policy caller request) := by
  rcases named with denied | named
  · exact audits_denied _ _ denied _
  · refine .bind (traced_require _ _ _) fun _ => .bind (.check (precondition_mild named)) fun pre =>
      .bind (traced_json _ _) fun blob => ?_
    split
    · exact traced_refused _ _ _
    · refine .bind .now fun now => Settles.last (Traced.audited ?_) fun _ => ⟨_, rfl⟩
      intro env world failure answer refuses
      exact putChildren_refuses answer refuses

theorem audits_put (policy : Policy) (kind : RecordKind) (name : String) (request : CanonicalRequest)
    (named : caller.can (needWrite kind) = false ∨ ¬ (request.ifMatch = none ∧ request.ifNoneMatch = none)) :
    Audits σ caller.vault.pk (put policy caller kind name request) := by
  refine .bind (.check (parseName_mild name)) fun name => ?_
  rcases named with denied | named
  · exact audits_denied _ _ denied _
  · refine .bind (traced_require _ _ _) fun _ => .bind (.check (precondition_mild named)) fun pre =>
      .bind (traced_json _ _) fun body => ?_
    split
    · exact .fail rfl
    · refine .bind (traced_checkSigned _ _ _ _) fun _ => .bind .now fun now =>
        Settles.last (Traced.audited ?_) fun _ => ⟨_, rfl⟩
      intro env world failure answer refuses
      exact putRecord_refuses answer refuses

theorem audits_delete (policy : Policy) (kind : RecordKind) (name : String) (request : CanonicalRequest)
    (named : caller.can (needWrite kind) = false ∨ ¬ (request.ifMatch = none ∧ request.ifNoneMatch = none)) :
    Audits σ caller.vault.pk (delete policy caller kind name request) := by
  refine .bind (.check (parseName_mild name)) fun name => ?_
  rcases named with denied | named
  · exact audits_denied _ _ denied _
  · refine .bind (traced_require _ _ _) fun _ => ?_
    split
    · exact .fail rfl
    · next absent =>
      split
      · next missing => exact absurd ⟨missing, by simpa using absent⟩ named
      · refine .bind (.check (parseEtag_mild _)) fun ifMatch => .bind (traced_json _ _) fun body =>
          .bind (traced_checkSigned _ _ _ _) fun _ => .bind .now fun now =>
          Settles.last (Traced.audited ?_) fun _ => ⟨_, rfl⟩
        intro env world failure answer refuses
        exact deleteRecord_refuses answer refuses

end Auditing

/-! ## Handlers that are silent about theirs -/

section Silent

variable {caller : Caller}

theorem silences_children (stranger : caller.isOwner = false) : Silences σ pk (children caller) := by
  unfold children
  rw [if_pos (by rw [stranger]; exact Bool.false_ne_true)]
  exact Settles.fail fun _ => .nil

variable [Ed25519] [Bodies]

omit [Ed25519] [Bodies] in
/-- A write that names no precondition is refused before anything is done. -/
theorem silences_unnamed {request : CanonicalRequest} (ifMatch : request.ifMatch = none)
    (ifNoneMatch : request.ifNoneMatch = none) (next : Precondition → Handler α) :
    Silences σ pk (Handler.check (precondition request.ifMatch request.ifNoneMatch) >>= next) := by
  rw [ifMatch, ifNoneMatch]
  exact Settles.fail fun _ => .nil

theorem silences_putChildren (policy : Policy) {request : CanonicalRequest} (granted : caller.can .owner = true)
    (ifMatch : request.ifMatch = none) (ifNoneMatch : request.ifNoneMatch = none) :
    Silences σ pk (putChildren policy caller request) := by
  unfold putChildren
  rw [require_granted _ _ granted]
  exact silences_unnamed ifMatch ifNoneMatch _

theorem silences_put (policy : Policy) (kind : RecordKind) (name : String) {request : CanonicalRequest}
    (granted : caller.can (needWrite kind) = true) (ifMatch : request.ifMatch = none)
    (ifNoneMatch : request.ifNoneMatch = none) : Silences σ pk (put policy caller kind name request) := by
  refine .bind (.check (parseName_mild name)) fun name => ?_
  rw [require_granted _ _ granted]
  exact silences_unnamed ifMatch ifNoneMatch _

theorem silences_delete (policy : Policy) (kind : RecordKind) (name : String) {request : CanonicalRequest}
    (granted : caller.can (needWrite kind) = true) (ifMatch : request.ifMatch = none)
    (ifNoneMatch : request.ifNoneMatch = none) : Silences σ pk (delete policy caller kind name request) := by
  refine .bind (.check (parseName_mild name)) fun name => ?_
  rw [require_granted _ _ granted, ifMatch, ifNoneMatch]
  exact Settles.fail fun _ => .nil

/-- A rotation refused by its caller's snapshot stops before the store, and one the
store refuses is rolled back. -/
theorem silences_rotate (granted : caller.can .owner = true) (body : List UInt8) :
    Silences σ pk (rotate caller body) := by
  unfold rotate
  rw [require_granted _ _ granted]
  refine .bind .pure fun _ => .bind (traced_json _ _) fun r => ?_
  dsimp only
  split
  · exact .fail rfl
  · split
    · exact Settles.fail fun _ => .nil
    · refine .bind (.check (descriptor_mild caller)) fun current => .bind (.check (ofIntegrity_mild _)) fun next => ?_
      split
      · exact .fail rfl
      · refine .bind (.check (ofIntegrity_mild _)) fun _ => .bind (.check (ofIntegrity_mild _)) fun _ =>
          .bind (.check (ofIntegrity_mild _)) fun _ => .bind (.read _) fun tokens => .bind (.check ?_) fun _ =>
          .bind .now fun now => Settles.last (Traced.store ?_) fun _ => ⟨_, rfl⟩
        · apply Mild.forM
          intro t
          split
          · exact .error rfl
          · exact ofIntegrity_mild _
        · intro env world failure _ answer _
          exact .one (writeCritical_refused answer)

end Silent

end Handlers

/-! ## Every route -/

section Routes

variable [Digests] [Ed25519] [Bodies] (policy : Policy) (request : CanonicalRequest) (query : Option String)
  (params : List String)

/-- What a route runs for the caller it authenticated. -/
def operation : RouteId → Option (Caller → Handler CoreResponse)
  | .status => some (status policy)
  | .deleteVault => some deleteVault
  | .descriptors => some fun c => descriptors c query
  | .childrenGet => some children
  | .childrenPut => some fun c => putChildren policy c request
  | .rotate => some fun c => rotate c request.body
  | .registerToken => some fun c => register policy c request.body
  | .tokenSelf => some whoami
  | .revokeToken => some fun c => withParam params 0 (revoke c)
  | .audit => some fun c => audit c query
  | .recordList kind => some fun c => list c kind query
  | .recordGet kind => some fun c => withParam params 0 fun name => read c kind name none
  | .recordPut kind => some fun c => withParam params 0 fun name => put policy c kind name request
  | .recordDelete kind => some fun c => withParam params 0 fun name => delete policy c kind name request
  | .recordVersions kind => some fun c => withParam params 0 (versions c kind)
  | .recordVersion kind =>
    some fun c => withParam params 0 fun name => withParam params 1 fun version => read c kind name (some version)
  | .capabilities | .challenges | .createVault | .reportToken | .healthz | .readyz => none

/-- The other routes authenticate no caller of a vault. -/
theorem handle_operation {id : RouteId} {op : Caller → Handler CoreResponse}
    (routed : operation policy request query params id = some op) :
    handle policy request query params id = authed policy request op := by
  cases id <;> cases routed <;> rfl

/-- The attempts whose refusals nothing records although an action was named: a
rotation by the owner, and a write within the caller's scope that names no
precondition. -/
def overlooked (caller : Caller) (request : CanonicalRequest) : RouteId → Bool
  | .rotate => caller.isOwner
  | .childrenPut => caller.isOwner && request.ifMatch.isNone && request.ifNoneMatch.isNone
  | .recordPut kind | .recordDelete kind =>
    caller.can (needWrite kind) && request.ifMatch.isNone && request.ifNoneMatch.isNone
  | _ => false

variable {policy request query params} {σ : Type} {id : RouteId} {op : Caller → Handler CoreResponse} {caller : Caller}

omit [Digests] [Ed25519] [Bodies] in
theorem can_owner (caller : Caller) : caller.can .owner = caller.isOwner := by
  unfold Caller.can Caller.isOwner
  split
  · next owner => simp [owner]
  · next row token => simp [token, scopeCan]

theorem silences_operation (routed : operation policy request query params id = some op)
    (silent : overlooked caller request id = true) : Silences σ caller.vault.pk (op caller) := by
  cases id with
  | rotate =>
    cases routed
    exact silences_rotate ((can_owner caller).trans silent) _
  | childrenPut =>
    cases routed
    simp only [overlooked, Bool.and_eq_true, Option.isNone_iff_eq_none] at silent
    exact silences_putChildren policy ((can_owner caller).trans silent.1.1) silent.1.2 silent.2
  | recordPut kind =>
    cases routed
    simp only [overlooked, Bool.and_eq_true, Option.isNone_iff_eq_none] at silent
    exact traced_withParam fun name => silences_put policy kind name silent.1.1 silent.1.2 silent.2
  | recordDelete kind =>
    cases routed
    simp only [overlooked, Bool.and_eq_true, Option.isNone_iff_eq_none] at silent
    exact traced_withParam fun name => silences_delete policy kind name silent.1.1 silent.1.2 silent.2
  | _ => cases silent

omit [Digests] [Ed25519] [Bodies] in
/-- A write that is not overlooked lacks the scope or names a
precondition. -/
theorem named_of_loud {need : Need}
    (loud : (caller.can need && request.ifMatch.isNone && request.ifNoneMatch.isNone) = false) :
    caller.can need = false ∨ ¬ (request.ifMatch = none ∧ request.ifNoneMatch = none) := by
  cases granted : caller.can need with
  | false => exact .inl rfl
  | true =>
    right
    rintro ⟨ifMatch, ifNoneMatch⟩
    rw [granted, ifMatch, ifNoneMatch] at loud
    cases loud

theorem audits_operation (routed : operation policy request query params id = some op) (named : id ≠ .childrenGet)
    (loud : overlooked caller request id = false) : Audits σ caller.vault.pk (op caller) := by
  cases id with
  | capabilities | challenges | createVault | reportToken | healthz | readyz => cases routed
  | status =>
    cases routed
    exact (never_status policy).any
  | deleteVault =>
    cases routed
    exact audits_deleteVault
  | descriptors =>
    cases routed
    exact (never_descriptors query).any
  | childrenGet => exact absurd rfl named
  | childrenPut =>
    cases routed
    rw [overlooked, ← can_owner] at loud
    exact audits_putChildren policy request (named_of_loud loud)
  | rotate =>
    cases routed
    exact audits_denied _ _ ((can_owner caller).trans loud) _
  | registerToken =>
    cases routed
    exact audits_register policy request.body
  | tokenSelf =>
    cases routed
    exact never_whoami.any
  | revokeToken =>
    cases routed
    exact traced_withParam audits_revoke
  | audit =>
    cases routed
    exact (never_audit query).any
  | recordList kind =>
    cases routed
    exact (never_list kind query).any
  | recordGet kind =>
    cases routed
    exact traced_withParam fun name => audits_read kind name none
  | recordPut kind =>
    cases routed
    exact traced_withParam fun name => audits_put policy kind name request (named_of_loud loud)
  | recordDelete kind =>
    cases routed
    exact traced_withParam fun name => audits_delete policy kind name request (named_of_loud loud)
  | recordVersions kind =>
    cases routed
    exact traced_withParam fun name => (never_versions kind name).any
  | recordVersion kind =>
    cases routed
    exact traced_withParam fun name => traced_withParam fun version => audits_read kind name (some version)

omit [Ed25519] [Bodies] in
/-- A token that reads the children record is refused without a trace; the owner is
never refused there. -/
theorem silences_childrenGet : Silences σ pk (children caller) := by
  cases owner : caller.isOwner with
  | false => exact silences_children owner
  | true => exact (never_children owner).any

/-- Exactly which refusals are audited. -/
theorem audited_iff (routed : operation policy request query params id = some op) {moments : List (Moment (World σ))}
    {failure : CoreError}
    (executes : Executes (fun _ => perform) (Ready caller.vault.pk) (op caller) moments (.error failure))
    (refuses : failure.refuses = true) :
    AuditedOnce caller.vault.pk moments ↔ id ≠ .childrenGet ∧ overlooked caller request id = false := by
  by_cases children : id = .childrenGet
  · subst children
    cases routed
    have quiet := silences_childrenGet.failure _ _ executes refuses
    exact iff_of_false (fun audited => audited.not_quiet quiet) fun named => named.1 rfl
  · cases silent : overlooked caller request id with
    | false => exact iff_of_true ((audits_operation routed children silent).failure _ _ executes refuses) ⟨children, rfl⟩
    | true =>
      have quiet := (silences_operation routed silent).failure _ _ executes refuses
      exact iff_of_false (fun audited => audited.not_quiet quiet) fun named => Bool.noConfusion named.2

/-- Refusals are audited.

Of every attempt of an authenticated caller that is refused for its scope, its
precondition, its generation, its version or a quota, on every route and for both
kinds of record, the overlooked ones apart: exactly one of its operations appended one
refused row to the vault's log and nothing else in the database changed. A token that
reads the children record leaves nothing at all. -/
theorem refusals_audited (routed : operation policy request query params id = some op)
    {moments : List (Moment (World σ))} {failure : CoreError}
    (executes : Executes (fun _ => perform) (Ready caller.vault.pk) (op caller) moments (.error failure))
    (refuses : failure.refuses = true) (heeded : overlooked caller request id = false) :
    (id = .childrenGet → Quiet moments) ∧ (id ≠ .childrenGet → AuditedOnce caller.vault.pk moments) := by
  constructor
  · rintro rfl
    cases routed
    exact silences_childrenGet.failure _ _ executes refuses
  · intro named
    exact (audits_operation routed named heeded).failure _ _ executes refuses

end Routes

/-! ## Two requests of a token -/

/-- The token's request for the children record. -/
def tokenReadsChildren : CanonicalRequest := { tokenDeletes with method := "GET", pathAndQuery := "/v1/vault/children" }

/-- The code a request that is done was answered with. -/
def answeredCode {σ : Type} (state : Requests σ) (index : Nat) : Option ErrorCode :=
  state.flights[index]?.bind fun flight =>
    match flight.rest with
    | .done (.ok response) => response.error
    | _ => none

/-- The request is authenticated and refused for its scope, and its vault's log does
not grow. -/
theorem refusal_without_a_row :
    let _ := checksum
    let _ := trusting
    let _ := oneByte
    let served := serveAll .default oneToken (.arrive tokenReadsChildren :: List.replicate 10 (.advance 0 calm))
    served.flights.map (·.noted.spent) = [true] ∧ answeredCode served 0 = some .forbidden ∧
      oneToken.db.log 1 = served.world.db.log 1 := by
  intro _ _ _
  decide +kernel

/-- The token's request to delete the vault leaves one row. -/
theorem refused_deletion_audited :
    let _ := checksum
    ∃ (caller : Caller) (moments : List (Moment (World Unit))), caller.principal = .token (readToken.row 1 1) ∧
      moments.length = 2 ∧ AuditedOnce 1 moments := by
  intro digests
  have present : (oneToken.db.loadVault 1).isSome = true := by decide +kernel
  obtain ⟨vault, loaded⟩ := Option.isSome_iff_exists.mp present
  have number : vault.pk = 1 := Db.loadVault_pk loaded
  have ready : Ready vault.pk calm oneToken := by
    rw [number]
    exact ⟨rfl, ⟨(), _, rfl⟩, by decide +kernel, by decide +kernel⟩
  have executes : Executes (fun _ => perform) (Ready vault.pk) (deleteVault ⟨vault, .token (readToken.row 1 1), none⟩)
      _ (.error .forbidden) :=
    .perform Op.now _ calm oneToken _ _ ready (.perform (Op.write _) _ calm oneToken _ _ ready (.done _))
  have audited := (@refusals_audited checksum trusting oneByte .default tokenDeletes none [] Unit .deleteVault _
    ⟨vault, .token (readToken.row 1 1), none⟩ rfl _ _ executes (show CoreError.forbidden.refuses = true from rfl) rfl).2 (by decide)
  rw [number] at audited
  exact ⟨⟨vault, .token (readToken.row 1 1), none⟩, _, rfl, rfl, audited⟩

end GalataVault.Server

import GalataVault.Backend.Agreement
import GalataVault.Server.Route

/-!
# What a request's operations are about

Every operation of an authenticated handler is about the row number its caller is
bound to: its reads depend on that vault's rows only, and its writes are addressed
to it. One lemma says it of each handler, and one of a whole dispatch: the row
number is the one of the vault row that authentication read.
-/

namespace GalataVault.Server

open Proto Backend Interaction

/-! ## Operations about one vault -/

/-- A call about the vault with this row number. A spent identifier belongs to no
vault. -/
def StoreCall.Own {β : Type} (pk : VaultPk) : StoreCall β → Prop
  | .createVault .. => False
  | .touch other _ => other = pk
  | .registerToken other .. => other = pk
  | .revokeTokens other .. => other = pk
  | .putRecord other .. => other = pk
  | .deleteRecord other .. => other = pk
  | .putChildren other .. => other = pk
  | .record other .. => other = pk
  | .applyRotation other .. => other = pk
  | .deleteVault other _ => other = pk
  | .spend .. => True

/-- An operation about the vault with this row number. -/
def Op.Own (pk : VaultPk) {β : Type} : Op β → Prop
  | .now => True
  | .read query => ∀ left right, SameFor pk left right → query left = query right
  | .findVault _ => False
  | .write call => call.Own pk

section Calls

variable [Digests] {σ β : Type} {pk : VaultPk}

/-- A call about one vault changes no row of another. -/
theorem StoreCall.Own.rowsWhere {call : StoreCall β} (own : call.Own pk) (env : Env σ) (world : World σ)
    {p : VaultPk → Bool} (off : p pk = false) :
    (step world (call.call env)).db.rowsWhere p = world.db.rowsWhere p := by
  have spent (disk kind id) (expiresAt now : Int) :
      (Backend.spend disk kind id expiresAt now world.db).2.rowsWhere p = world.db.rowsWhere p := by
    rcases write_cases disk (spendBody kind id expiresAt now) world.db with ⟨_, outcome⟩ | ⟨_, _, ran, _, outcome⟩
    · rw [Backend.spend, outcome]
    · obtain ⟨_, rfl⟩ := spendBody_ok ran
      rw [Backend.spend, outcome]
      rfl
  have addressed (other : Call σ) {targets : List Target} (reach : other.reach = .at pk targets) :
      (step world other).db.rowsWhere p = world.db.rowsWhere p := by
    have effect := step_effect world other
    rw [reach] at effect
    generalize (step world other).db = after at effect
    cases effect with
    | none => rfl
    | script q mine script =>
      obtain rfl : q = pk := mine
      exact script.rowsWhere off
    | created v now vaults descriptors e alone => exact absurd rfl (alone pk)
    | deleted gone seq mine =>
      refine Db.rowsWhere_deleteVaults world.db fun v _ selected => ?_
      rw [show v.pk = pk from mine v selected]
      exact off
    | spent table => rfl
  cases call with
  | createVault => exact own.elim
  | spend kind id expiresAt now => exact spent env.disk kind id expiresAt now
  | touch | registerToken | revokeTokens | putRecord | deleteRecord | putChildren | record | applyRotation
  | deleteVault =>
    cases own
    exact addressed _ rfl

/-- What a call about one vault answers depends on that vault's rows and on what
all vaults share. -/
theorem StoreCall.Own.sameAnswer {call : StoreCall β} (own : call.Own pk) (env : Env σ) (journal : σ)
    {left right : Db} (same : SameFor pk left right) (spent : left.spent = right.spent) :
    SameAnswer (call.answer env ⟨left, journal⟩) (call.answer env ⟨right, journal⟩) := by
  cases call with
  | createVault => exact own.elim
  | touch other now =>
    obtain rfl := show other = pk from own
    simp only [answer, Backend.touch, same.findVault]
    split
    · exact write_sameAnswer _ (.bind (.modify (R := SameFor other) (same.updateVault _)) fun _ _ _ same => .pure _ same)
    · exact .inl rfl
  | registerToken other t ctx limits =>
    obtain rfl := show other = pk from own
    exact write_sameAnswer _ (registerTokenBody_alike same t ctx limits)
  | revokeTokens other ids reported ctx =>
    obtain rfl := show other = pk from own
    exact writeCritical_sameAnswer _ _ _ (revokeTokensBody_alike same ids reported ctx)
  | putRecord other kind name pre w ctx limits =>
    obtain rfl := show other = pk from own
    simp only [answer, Backend.putRecord]
    split
    · exact .inl rfl
    · exact write_sameAnswer _ (putRecordBody_alike same kind name pre w _ ctx limits)
  | deleteRecord other kind name ifMatch w ctx limits =>
    obtain rfl := show other = pk from own
    simp only [answer, Backend.deleteRecord]
    split
    · exact .inl rfl
    · exact write_sameAnswer _ (deleteRecordBody_alike same kind name ifMatch w ctx limits)
  | putChildren other pre blob ctx limits =>
    obtain rfl := show other = pk from own
    exact write_sameAnswer _ (putChildrenBody_alike same pre blob ctx limits)
  | record other e now =>
    obtain rfl := show other = pk from own
    refine write_sameAnswer (R := SameFor other) _ (.get_bind ?_)
    rw [same.hasVault]
    split
    · exact .bind (appendAudit_alike same e now) fun _ _ _ same => .pure _ same
    · exact .throw _
  | applyRotation other r ctx =>
    obtain rfl := show other = pk from own
    exact writeCritical_sameAnswer _ _ _ (applyRotationBody_alike same r ctx)
  | deleteVault other now =>
    obtain rfl := show other = pk from own
    exact writeCritical_sameAnswer _ _ _ (deleteVaultBody_alike same now)
  | spend kind id expiresAt now =>
    refine write_sameAnswer (R := fun left right => left.spent = right.spent) _ ?_
    refine .bind (.modify (R := fun left right => left.spent = right.spent) ?_) fun _ left right spent => .get_bind ?_
    · simp only [spent]
    · rw [spent]
      split
      · exact .pure _ spent
      · exact .bind (.set (R := fun left right => left.spent = right.spent) rfl) fun _ _ _ spent => .pure _ spent

end Calls

/-! ## Handlers about one vault -/

namespace Handler

variable {α β : Type} {pk : VaultPk}

/-- Whatever it is answered, the handler performs operations about one vault. -/
abbrev Own (pk : VaultPk) (handler : Handler α) : Prop := handler.Only (Op.Own pk)

theorem own_now : Own pk Handler.now := .ask trivial

theorem own_check (result : Except CoreError β) : Own pk (check result) := trivial

theorem own_integrity (result : Except IntegrityError β) : Own pk (integrity result) := trivial

theorem own_json (parsed : Parsed β) (what : String) : Own pk (json parsed what) := trivial

theorem own_orError (result : Except StoreError β) : Own pk (orError result) := by
  cases result with
  | ok value => exact .pure value
  | error failure => exact .fail _

theorem own_read {query : Db → β} (depends : ∀ left right, SameFor pk left right → query left = query right) :
    Own pk (Handler.read query) :=
  .bind (.ask depends) fun _ => own_orError _

theorem own_store {call : StoreCall β} (own : call.Own pk) : Own pk (store call) :=
  .bind (.ask own) fun _ => own_orError _

end Handler

open Handler in
theorem own_refuse (caller : Caller) (action : AuditAction) (name : Option NameHmac) :
    Own caller.vault.pk (refuse caller action name) :=
  .bind own_now fun _ => .bind (.ask rfl) fun _ => .pure _

open Handler in
theorem own_require (caller : Caller) (need : Need) (action : AuditAction) (name : Option NameHmac) :
    Own caller.vault.pk (require caller need action name) := by
  unfold require
  split
  · exact .pure _
  · exact .bind (own_refuse caller action name) fun _ => .fail _

section Handlers

open Handler

variable [Digests] [Ed25519] [Bodies] (policy : Policy) (caller : Caller)

omit [Digests] [Ed25519] [Bodies] in
theorem own_list (kind : RecordKind) (query : Option String) : Own caller.vault.pk (list caller kind query) :=
  .bind (own_check _) fun _ => .bind (own_check _) fun _ =>
    .bind (own_read fun _ _ same => same.listRecords kind _ _) fun _ => .pure _

omit [Ed25519] [Bodies] in
theorem own_readRecord (kind : RecordKind) (name : String) (version : Option String) :
    Own caller.vault.pk (read caller kind name version) := by
  refine .bind (own_check _) fun name => .bind (own_check _) fun version => .bind (own_require ..) fun _ => ?_
  split
  · exact .bind (own_refuse ..) fun _ => .fail _
  · refine .bind ?_ fun found => ?_
    · split
      · exact own_read fun _ _ same => same.latestRecord kind name
      · exact own_read fun _ _ same => same.recordVersion kind name _
    · split
      · exact .fail _
      · split
        · exact .pure _
        · exact .bind own_now fun _ => .bind (own_store rfl) fun _ => .pure _

omit [Ed25519] [Bodies] in
theorem own_versions (kind : RecordKind) (name : String) : Own caller.vault.pk (versions caller kind name) := by
  refine .bind (own_check _) fun name => .bind (own_read fun _ _ same => same.recordVersions kind name) fun rows => ?_
  split
  · exact .fail _
  · exact .pure _

omit [Bodies] in
theorem own_checkSigned (kind : RecordKind) (action : AuditAction) (name : NameHmac) (w : RecordWrite) :
    Own caller.vault.pk (checkSigned caller kind action name w) := by
  unfold checkSigned
  split
  · exact .bind (own_refuse ..) fun _ => .fail _
  · refine .bind (own_check _) fun descriptor => ?_
    dsimp only
    split
    · exact .pure _
    · exact .bind (own_refuse ..) fun _ => .fail _

theorem own_put (kind : RecordKind) (name : String) (request : CanonicalRequest) :
    Own caller.vault.pk (put policy caller kind name request) := by
  refine .bind (own_check _) fun name => .bind (own_require ..) fun _ => .bind (own_check _) fun pre =>
    .bind (own_json ..) fun body => ?_
  split
  · exact .fail _
  · exact .bind (own_checkSigned ..) fun _ => .bind own_now fun _ => .bind (own_store rfl) fun _ => .pure _

theorem own_delete (kind : RecordKind) (name : String) (request : CanonicalRequest) :
    Own caller.vault.pk (delete policy caller kind name request) := by
  refine .bind (own_check _) fun name => .bind (own_require ..) fun _ => ?_
  split
  · exact .fail _
  · split
    · exact .fail _
    · exact .bind (own_check _) fun ifMatch => .bind (own_json ..) fun body => .bind (own_checkSigned ..) fun _ =>
        .bind own_now fun _ => .bind (own_store rfl) fun _ => .pure _

omit [Digests] [Ed25519] [Bodies] in
theorem own_audit (query : Option String) : Own caller.vault.pk (audit caller query) := by
  unfold audit
  split
  · exact .fail _
  · refine .bind (own_check _) fun after => .bind (own_check _) fun limit => ?_
    refine .bind (own_read fun _ _ same => by rw [same.auditAfter]) fun rows => ?_
    exact .bind (own_read fun _ _ same => by rw [same.auditAfter]) fun head => .pure _

omit [Digests] [Ed25519] [Bodies] in
theorem own_listTokens : Own caller.vault.pk (listTokens caller) := by
  unfold listTokens
  split
  · refine .bind (own_read fun _ _ same => same.tokensOf) fun rows => ?_
    split
    · exact .pure _
    · exact .bind own_now fun _ => .bind (.ask rfl) fun _ => .pure _
  · exact .pure _

omit [Digests] [Ed25519] [Bodies] in
theorem own_status : Own caller.vault.pk (status policy caller) :=
  .bind (own_listTokens caller) fun _ =>
    .bind (own_read fun _ _ same => by rw [same.liveHeads]) fun _ => .pure _

omit [Digests] [Ed25519] [Bodies] in
theorem own_descriptors (query : Option String) : Own caller.vault.pk (descriptors caller query) := by
  refine .bind ?_ fun after => .bind (own_read fun _ _ same => same.descriptorsOf after) fun _ => .pure _
  split
  · exact .pure _
  · split
    · exact .pure _
    · exact .fail _

omit [Digests] [Ed25519] [Bodies] in
theorem own_children : Own caller.vault.pk (children caller) := by
  unfold children
  split
  · exact .fail _
  · refine .bind (own_read fun _ _ same => same.childrenOf) fun blob => ?_
    split
    · exact .fail _
    · exact .pure _

theorem own_putChildren (request : CanonicalRequest) : Own caller.vault.pk (putChildren policy caller request) := by
  refine .bind (own_require ..) fun _ => .bind (own_check _) fun pre => .bind (own_json ..) fun blob => ?_
  split
  · exact .bind (own_refuse ..) fun _ => .fail _
  · exact .bind own_now fun _ => .bind (own_store rfl) fun _ => .pure _

theorem own_register (body : List UInt8) : Own caller.vault.pk (register policy caller body) := by
  refine .bind (own_require ..) fun _ => .bind (own_json ..) fun r => ?_
  dsimp only
  generalize (if r.ttlSecs = 0 then Scope.defaultTtlSecs r.scope else r.ttlSecs) = ttl
  split
  · exact .fail _
  · split
    · exact .fail _
    · split
      · exact .bind (own_refuse ..) fun _ => .fail _
      · exact .bind own_now fun _ => .bind (own_store rfl) fun _ => .pure _

omit [Digests] [Ed25519] [Bodies] in
theorem own_whoami : Own caller.vault.pk (whoami caller) := by
  unfold whoami
  split
  · exact .fail _
  · exact .pure _

omit [Digests] [Ed25519] [Bodies] in
theorem own_revoke (id : String) : Own caller.vault.pk (revoke caller id) := by
  refine .bind (own_require ..) fun _ => ?_
  split
  · exact .fail _
  · exact .bind own_now fun _ => .bind (own_store rfl) fun _ => .pure _

theorem own_rotate (body : List UInt8) : Own caller.vault.pk (rotate caller body) := by
  refine .bind (own_require ..) fun _ => .bind (own_json ..) fun request => ?_
  dsimp only
  split
  · exact .fail _
  · split
    · exact .fail _
    · refine .bind (own_check _) fun current => .bind (own_integrity _) fun next => ?_
      split
      · exact .fail _
      · exact .bind (own_integrity _) fun _ => .bind (own_integrity _) fun _ => .bind (own_integrity _) fun _ =>
          .bind (own_read fun _ _ same => same.tokensOf) fun _ => .bind (own_check _) fun _ =>
          .bind own_now fun _ => .bind (own_store rfl) fun _ => .pure _

omit [Digests] [Ed25519] [Bodies] in
theorem own_deleteVault : Own caller.vault.pk (deleteVault caller) :=
  .bind (own_require ..) fun _ => .bind own_now fun _ => .bind (own_store rfl) fun _ => .pure _

omit [Digests] [Ed25519] [Bodies] in
theorem own_withParam {pk : VaultPk} (params : List String) (index : Nat) {op : String → Handler CoreResponse}
    (own : ∀ text, Own pk (op text)) : Own pk (withParam params index op) :=
  .bind (own_check _) own

end Handlers

end GalataVault.Server

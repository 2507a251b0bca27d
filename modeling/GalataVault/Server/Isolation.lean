import GalataVault.Server.Bounds

/-!
# Vault isolation under interleaving

A request is bound to a vault by the read that finds its row, and from then on
every operation names the vault by its row number alone. This module runs any
number of requests at once, one store operation at a time, and asks whose rows an
operation reads and changes.

Row numbers are used again: deleting the last vault and creating another gives the
newcomer the number that requests in flight for the deleted one still carry. In a
run that never does that, a request bound to a vault reads and changes rows of
that vault only, at every moment. In a run that does, it does not.
-/

namespace GalataVault.Server

open Proto Backend Relational Interaction

/-- The vault a request is bound to: its id and the row number it was found under. -/
abbrev Bound := Option (VaultId × VaultPk)

/-- The read that finds a vault binds the request to it. Before, it may perform any
operation but reading a vault row that is not there; after, operations about that
row number only. -/
def bindsVault : Watch Op Bound where
  note bound op answer := match op, answer with
    | .findVault _, .ok (some vault) => some (vault.vaultId, vault.pk)
    | _, _ => bound
  allowed bound op := match bound, op with
    | some (_, pk), op => op.Own pk
    | none, .findVault query =>
      ∀ db vault, query db = some vault → ∃ v ∈ db.vaults.rows, v.pk = vault.pk ∧ v.vaultId = vault.vaultId
    | none, _ => True

/-! ## Every dispatch is bound -/

/-- An operation that binds nothing. -/
def Op.Plain {β : Type} : Op β → Prop
  | .findVault _ => False
  | _ => True

section Programs

variable {α : Type} {post : Except CoreError α → Bound → Prop} {handler : Handler α}

theorem plain_obeys (plain : handler.Only Op.Plain) (ends : ∀ result, post result none) :
    handler.Obeys bindsVault none post := by
  refine plain.obeys (fun op plain => ?_) ends
  cases op with
  | findVault query => exact plain.elim
  | now | read | write => exact ⟨trivial, fun _ => rfl⟩

theorem own_obeys {id : VaultId} {pk : VaultPk} (own : handler.Only (Op.Own pk))
    (ends : ∀ result, post result (some (id, pk))) : handler.Obeys bindsVault (some (id, pk)) post := by
  refine own.obeys (fun op own => ⟨own, fun answer => ?_⟩) ends
  cases op with
  | findVault query => exact own.elim
  | now | read | write => rfl

/-- Finding a vault binds the rest of the program to it. -/
theorem findVault_obeys {query : Db → Option VaultRow} {next : Option VaultRow → Handler α}
    (stored : ∀ db vault, query db = some vault → ∃ v ∈ db.vaults.rows, v.pk = vault.pk ∧ v.vaultId = vault.vaultId)
    (failed : ∀ failure, post (.error failure) none) (absent : (next none).Obeys bindsVault none post)
    (found : ∀ vault, (next (some vault)).Obeys bindsVault (some (vault.vaultId, vault.pk)) post) :
    (Handler.findVault query >>= next).Obeys bindsVault none post := by
  refine ⟨stored, fun answer => ?_⟩
  cases answer with
  | error failure => exact failed _
  | ok row =>
    cases row with
    | none => exact absent
    | some vault => exact found vault

end Programs

theorem vaultRow_stored {db : Db} {v : VaultCols} {vault : VaultRow} (member : v ∈ db.vaults.rows)
    (joined : db.vaultRow v = some vault) : ∃ v ∈ db.vaults.rows, v.pk = vault.pk ∧ v.vaultId = vault.vaultId := by
  obtain ⟨_, _, rfl⟩ := Option.map_eq_some_iff.mp joined
  exact ⟨v, member, rfl, rfl⟩

theorem loadVault_stored {pk : VaultPk} (db : Db) (vault : VaultRow) (loaded : db.loadVault pk = some vault) :
    ∃ v ∈ db.vaults.rows, v.pk = vault.pk ∧ v.vaultId = vault.vaultId := by
  obtain ⟨v, found, joined⟩ := Option.bind_eq_some_iff.mp loaded
  exact vaultRow_stored (Table.find?_eq_some.mp found).1 joined

theorem loadVaultById_stored {id : VaultId} (db : Db) (vault : VaultRow) (loaded : db.loadVaultById id = some vault) :
    ∃ v ∈ db.vaults.rows, v.pk = vault.pk ∧ v.vaultId = vault.vaultId := by
  obtain ⟨v, found, joined⟩ := Option.bind_eq_some_iff.mp loaded
  exact vaultRow_stored (List.mem_of_find?_eq_some found) joined

section Dispatch

open Handler

variable [Digests] [Ed25519] [Bodies] (policy : Policy)

omit [Digests] [Ed25519] [Bodies] in
theorem own_spendNonce (pk : VaultPk) (params : SigParams) : Own pk (spendNonce params) :=
  .bind own_now fun _ => .bind (.ask trivial) fun _ => own_check _

/-- Bound to a vault, or failed. -/
def BoundTo : Except CoreError Caller → Bound → Prop
  | .ok caller, bound => bound = some (caller.vault.vaultId, caller.vault.pk)
  | .error _, _ => True

omit [Bodies] in
theorem ownerAuth_obeys (request : CanonicalRequest) (params : SigParams) (now : Int) :
    (ownerAuth policy request params now).Obeys bindsVault none BoundTo := by
  refine findVault_obeys loadVaultById_stored (fun _ => trivial) trivial fun vault => ?_
  dsimp only
  refine .bind (own_obeys (own_check _) fun result => ?_)
  cases result with
  | error failure => trivial
  | ok _ =>
    change Program.Obeys _ (if _ then _ else _) _ _
    split
    · trivial
    · refine .bind (own_obeys (own_spendNonce vault.pk params) fun result => ?_)
      cases result with
      | error failure => trivial
      | ok _ => rfl

omit [Bodies] in
theorem tokenAuth_obeys (request : CanonicalRequest) (params : SigParams) (id : TokenId) (now : Int) :
    (tokenAuth policy request params id now).Obeys bindsVault none BoundTo := by
  refine .bind (plain_obeys (.bind (.ask trivial) fun result => ?_) fun result => ?_)
  · cases result <;> trivial
  · cases result with
    | error failure => trivial
    | ok found =>
      cases found with
      | none => trivial
      | some row =>
        refine findVault_obeys loadVault_stored (fun _ => trivial) trivial fun vault => ?_
        dsimp only
        split
        · trivial
        · refine .bind (own_obeys (own_check _) fun result => ?_)
          cases result with
          | error failure => trivial
          | ok _ =>
            change Program.Obeys _ (if _ then _ else _) _ _
            split
            · trivial
            · refine .bind (own_obeys (own_spendNonce vault.pk params) fun result => ?_)
              cases result with
              | error failure => trivial
              | ok _ =>
                change Program.Obeys _ (if _ then _ else _) _ _
                split
                · trivial
                · rfl

omit [Bodies] in
theorem authenticate_obeys (request : CanonicalRequest) :
    (authenticate policy request).Obeys bindsVault none BoundTo := by
  unfold authenticate
  split
  · trivial
  · next params _ =>
    refine .bind (plain_obeys (.ask trivial) fun result => ?_)
    cases result with
    | error failure => trivial
    | ok now =>
      refine .bind (Program.Obeys.mono (?authenticated : Program.Obeys _ _ _ BoundTo) fun result bound boundTo => ?_)
      case authenticated =>
        split
        · exact ownerAuth_obeys policy request params now
        · exact tokenAuth_obeys policy request params _ now
      cases result with
      | error failure => trivial
      | ok caller =>
        obtain rfl := boundTo
        refine .bind (own_obeys (own_store rfl) fun result => ?_)
        cases result with
        | error failure => trivial
        | ok _ => rfl

omit [Bodies] in
/-- An authenticated request stays with the vault it was bound to. -/
theorem authed_obeys (request : CanonicalRequest) {op : Caller → Handler CoreResponse}
    (own : ∀ caller, Own caller.vault.pk (op caller)) :
    (authed policy request op).Obeys bindsVault none fun _ _ => True := by
  refine .bind ((authenticate_obeys policy request).mono fun result bound boundTo => ?_)
  cases result with
  | error failure => trivial
  | ok caller =>
    obtain rfl := boundTo
    exact own_obeys (.bind own_now fun _ => .bind (own_check _) fun _ => .bind (own caller).attempt fun _ => .pure _)
      fun _ => trivial

omit [Digests] [Ed25519] in
theorem plain_challenge (request : CanonicalRequest) : (challenge policy request).Only Op.Plain := by
  have checks {β : Type} (result : Except CoreError β) : (check result).Only Op.Plain := trivial
  unfold challenge
  split
  · exact .fail _
  · exact .bind (checks _) fun _ => .bind (.ask trivial) fun _ => .bind (checks _) fun _ => .pure _

theorem plain_create (request : CanonicalRequest) : (create policy request).Only Op.Plain := by
  have ends {β : Type} (result : Except StoreError β) : (orError result).Only Op.Plain := by
    cases result <;> trivial
  have stores {β : Type} (call : StoreCall β) : (store call).Only Op.Plain := .bind (.ask trivial) fun _ => ends _
  have checks {β : Type} (result : Except CoreError β) : (check result).Only Op.Plain := trivial
  refine .bind (checks _) fun body => .bind (.ask trivial) fun now => .bind (checks _) fun admitted => ?_
  split
  · exact .fail _
  · split
    · exact .fail _
    · split
      · exact .fail _
      · refine .bind (checks _) fun _ => .bind (checks _) fun descriptor => ?_
        split
        · exact .fail _
        · refine .bind (checks _) fun _ => .bind ?_ fun _ => .bind ?_ fun _ => .bind (stores _) fun row => .pure _
          · split
            · exact .pure _
            · exact stores _
          · exact .bind (.ask trivial) fun _ => .bind (.ask trivial) fun _ => checks _

omit [Digests] in
theorem plain_report (body : List UInt8) : (report body).Only Op.Plain := by
  have ends {β : Type} (result : Except StoreError β) : (orError result).Only Op.Plain := by
    cases result <;> trivial
  have checks {β : Type} (result : Except CoreError β) : (check result).Only Op.Plain := trivial
  refine .bind (checks _) fun request => .bind (.bind (.ask trivial) fun _ => ends _) fun found => ?_
  split
  · exact .fail _
  · refine .bind (.ask trivial) fun now => ?_
    split
    · exact .fail _
    · exact .bind (checks _) fun _ => .bind (.bind (.ask trivial) fun _ => ends _) fun _ => .pure _

/-- Every request, whatever it asks for and whatever it is answered, is bound by the
read that finds its vault, and stays with that row number. -/
theorem dispatch_obeys (request : CanonicalRequest) :
    (dispatch policy request).Obeys bindsVault none fun _ _ => True := by
  unfold dispatch
  dsimp only
  split
  · next route params _ =>
    cases route.id with
    | capabilities => trivial
    | challenges => exact plain_obeys (plain_challenge policy request) fun _ => trivial
    | createVault => exact plain_obeys (plain_create policy request) fun _ => trivial
    | status => exact authed_obeys policy request fun caller => own_status policy caller
    | deleteVault => exact authed_obeys policy request own_deleteVault
    | descriptors => exact authed_obeys policy request fun caller => own_descriptors caller _
    | childrenGet => exact authed_obeys policy request own_children
    | childrenPut => exact authed_obeys policy request fun caller => own_putChildren policy caller request
    | rotate => exact authed_obeys policy request fun caller => own_rotate caller _
    | registerToken => exact authed_obeys policy request fun caller => own_register policy caller _
    | tokenSelf => exact authed_obeys policy request own_whoami
    | reportToken => exact plain_obeys (plain_report request.body) fun _ => trivial
    | revokeToken => exact authed_obeys policy request fun caller => own_withParam _ _ (own_revoke caller)
    | audit => exact authed_obeys policy request fun caller => own_audit caller _
    | recordList kind => exact authed_obeys policy request fun caller => own_list caller kind _
    | recordGet kind =>
      exact authed_obeys policy request fun caller => own_withParam _ _ fun name => own_readRecord caller kind name none
    | recordPut kind =>
      exact authed_obeys policy request fun caller => own_withParam _ _ fun name => own_put policy caller kind name request
    | recordDelete kind =>
      exact authed_obeys policy request fun caller =>
        own_withParam _ _ fun name => own_delete policy caller kind name request
    | recordVersions kind =>
      exact authed_obeys policy request fun caller => own_withParam _ _ (own_versions caller kind)
    | recordVersion kind =>
      exact authed_obeys policy request fun caller => own_withParam _ _ fun name =>
        own_withParam _ _ fun version => own_readRecord caller kind name (some version)
    | healthz | readyz => trivial
  · trivial
  · trivial

end Dispatch

/-! ## Requests in flight -/

section Flights

variable [Digests] [Ed25519] [Bodies] (policy : Policy) {σ : Type}

/-- Any number of requests over one store and one journal. -/
abbrev Flights (σ : Type) := System (World σ) Op CoreError CoreResponse Bound

/-- The server: each request runs its dispatch, each of its operations alone. -/
def server (σ : Type) : Rules (World σ) CanonicalRequest (Env σ) Op CoreError CoreResponse Bound where
  start := dispatch policy
  first := none
  serve := perform
  watch := bindsVault

/-- The vault an operation creates. -/
def Op.creates {β : Type} : Op β → Option NewVault
  | .write (.createVault v _) => some v
  | _ => none

omit [Digests] [Ed25519] [Bodies] in
/-- Whether an event creates a vault under the row number that a request in flight
found for another vault. -/
def reassigns (state : Flights σ) : Event CanonicalRequest (Env σ) → Bool
  | .arrive _ => false
  | .advance index _ =>
    match state.flights[index]? with
    | some ⟨_, .perform op _⟩ =>
      (op.creates.map fun v => state.flights.any fun flight => flight.active &&
        (flight.noted.map fun bound => bound.2 = state.world.db.nextPk && bound.1 ≠ v.vaultId).getD false).getD false
    | _ => false

/-- What a request is bound to is still true of the vault row under that number, if
there is one. -/
def Fits (world : World σ) (bound : Bound) : Prop :=
  ∀ id pk, bound = some (id, pk) → ∀ v ∈ world.db.vaults.rows, v.pk = pk → v.vaultId = id

/-- The rows of the vaults with this id. -/
def rowsOf (db : Db) (id : VaultId) : Rows :=
  db.rowsWhere fun pk => db.vaults.rows.any fun v => v.pk = pk && v.vaultId = id

omit [Ed25519] [Bodies] in
/-- Every vault row after a creation continues one from before, or is the new one. -/
theorem createVault_rows (disk : Except String Unit) (created : NewVault) (now : Int) (db : Db) {v : VaultCols}
    (member : v ∈ (Backend.createVault disk created now db).2.vaults.rows) :
    (∃ old ∈ db.vaults.rows, old.pk = v.pk ∧ old.vaultId = v.vaultId) ∨
      v.pk = db.nextPk ∧ v.vaultId = created.vaultId := by
  unfold Backend.createVault at member
  rcases write_cases disk (createVaultBody created now) db with ⟨_, outcome⟩ | ⟨_, after, ran, _, outcome⟩
  · rw [outcome] at member
    exact .inl ⟨v, member, rfl, rfl⟩
  · rw [outcome] at member
    rcases createVaultBody_cases ran with
      ⟨_, rfl⟩ | ⟨_, vaults, descriptors, e, _, _, _, inserted, _, audited⟩
    · exact .inl ⟨v, member, rfl, rfl⟩
    · have audits : Transaction.Keeps (Script db.nextPk [.audit]) (appendAudit db.nextPk e now) :=
        appendAudit_script e now
      obtain ⟨f, rows, later⟩ := (audits _ _ _ audited).vaultsLater
      rw [rows] at member
      obtain ⟨old, oldMember, rfl⟩ := List.mem_map.mp member
      rw [(Table.insert_eq_some.mp inserted).2, List.mem_append, List.mem_singleton] at oldMember
      rw [(later old).pk, (later old).vaultId]
      rcases oldMember with present | rfl
      · exact .inl ⟨old, present, rfl, rfl⟩
      · exact .inr ⟨rfl, rfl⟩

omit [Ed25519] [Bodies] in
/-- Every vault row after a call continues one from before, or is the one created. -/
theorem step_vaultRows {β : Type} (call : StoreCall β) (env : Env σ) (world : World σ) {v : VaultCols}
    (member : v ∈ (step world (call.call env)).db.vaults.rows) :
    (∃ old ∈ world.db.vaults.rows, old.pk = v.pk ∧ old.vaultId = v.vaultId) ∨
      ∃ created, (Op.write call).creates = some created ∧ v.pk = world.db.nextPk ∧ v.vaultId = created.vaultId := by
  have addressed {pk : VaultPk} {targets : List Target} (reach : (call.call env).reach = .at pk targets) :
      ∃ old ∈ world.db.vaults.rows, old.pk = v.pk ∧ old.vaultId = v.vaultId := by
    have effect := step_effect world (call.call env)
    rw [reach] at effect
    generalize (step world (call.call env)).db = after at effect member
    cases effect with
    | none => exact ⟨v, member, rfl, rfl⟩
    | script q mine script =>
      obtain ⟨f, rows, later⟩ := script.vaultsLater
      rw [rows] at member
      obtain ⟨old, oldMember, rfl⟩ := List.mem_map.mp member
      exact ⟨old, oldMember, (later old).pk.symm, (later old).vaultId.symm⟩
    | created w now vaults descriptors e alone => exact absurd rfl (alone pk)
    | deleted gone seq mine => exact ⟨v, List.mem_of_mem_filter member, rfl, rfl⟩
    | spent table => exact ⟨v, member, rfl, rfl⟩
  cases call with
  | createVault created now =>
    rcases createVault_rows env.disk created now world.db member with old | ⟨numbered, named⟩
    · exact .inl old
    · exact .inr ⟨created, rfl, numbered, named⟩
  | spend kind id expiresAt now =>
    change v ∈ (Backend.spend env.disk kind id expiresAt now world.db).2.vaults.rows at member
    rcases write_cases env.disk (spendBody kind id expiresAt now) world.db with ⟨_, outcome⟩ | ⟨_, _, ran, _, outcome⟩
    · rw [Backend.spend, outcome] at member
      exact .inl ⟨v, member, rfl, rfl⟩
    · obtain ⟨_, rfl⟩ := spendBody_ok ran
      rw [Backend.spend, outcome] at member
      exact .inl ⟨v, member, rfl, rfl⟩
  | touch | registerToken | revokeTokens | putRecord | deleteRecord | putChildren | record | applyRotation
  | deleteVault => exact .inl (addressed rfl)

omit [Ed25519] [Bodies] in
/-- What a request is bound to stays true, unless its row number is given to another
vault. -/
theorem Fits.perform {β : Type} {op : Op β} {env : Env σ} {world : World σ} {bound : Bound} (fits : Fits world bound)
    (kept : ∀ created, op.creates = some created → ∀ id, bound = some (id, world.db.nextPk) → id = created.vaultId) :
    Fits (perform env op world).2 bound := by
  cases op with
  | now | read | findVault => exact fits
  | write call =>
    rintro id pk rfl v member rfl
    rcases step_vaultRows call env world member with ⟨old, present, numbered, named⟩ | ⟨created, creates, numbered, named⟩
    · rw [← named]
      exact fits id v.pk rfl old present numbered
    · rw [named, kept created creates id (by rw [numbered])]

/-- In a run that gives no row number in flight to another vault, every request is
bound as it was authenticated. -/
theorem sound_step {state : Flights σ} {event : Event CanonicalRequest (Env σ)}
    (sound : Sound (server policy σ) Fits state) (kept : reassigns state event = false) :
    Sound (server policy σ) Fits (Interaction.step (server policy σ) state event) := by
  cases event with
  | arrive request =>
    exact sound.arrive request (fun _ _ absurd => nomatch absurd) (dispatch_obeys policy request)
  | advance index env =>
    -- The notes of all requests survive the operation.
    have others : ∀ flight ∈ state.flights, flight.active = true →
        Fits (Interaction.step (server policy σ) state (.advance index env)).world flight.noted := by
      intro flight member active
      have fits := (sound flight member active).1
      simp only [Interaction.step, Interaction.advance]
      split
      · next noted β op rest found =>
        refine fits.perform fun created creates id bound => ?_
        simp only [reassigns, found, creates, Option.map_some, Option.getD_some, List.any_eq_false] at kept
        have spared := kept flight member
        simpa [active, bound] using spared
      · exact fits
    refine sound.advance index env (fun {β noted op} performs => ?_) others
    obtain ⟨fits, allowed⟩ := sound.allowed performs
    obtain ⟨rest, found⟩ := performs
    have survives := others _ (List.mem_of_getElem? found) rfl
    simp only [Interaction.step, Interaction.advance, found] at survives
    cases op with
    | now | read | write => exact survives
    | findVault query =>
      cases noted with
      | some bound => exact allowed.elim
      | none =>
        rintro id pk bound v member rfl
        have answered : (server policy σ).serve env (.findVault query) state.world =
            ((env.disk.mapError .database).map fun _ => query state.world.db, state.world) := rfl
        rw [answered] at bound member
        cases disk : env.disk with
        | error detail =>
          rw [disk] at bound
          cases bound
        | ok _ =>
          rw [disk] at bound
          cases loaded : query state.world.db with
          | none =>
            simp only [Except.mapError, Except.map, loaded] at bound
            cases bound
          | some vault =>
            simp only [Except.mapError, Except.map, loaded] at bound
            obtain ⟨stored, present, numbered, named⟩ := allowed state.world.db vault loaded
            have same : (vault.vaultId, vault.pk) = (id, v.pk) := Option.some.inj bound
            rw [Prod.mk.injEq] at same
            have one : stored = v :=
              List.inj_on_of_nodup_map state.world.db.vaults.distinct present member (numbered.trans same.2)
            rw [← one, named, same.1]

/-! ## Isolation -/

/-- Two answers of an operation that agree, up to a full file. -/
def Op.Agree {β : Type} : Op β → β → β → Prop
  | .write _, left, right => SameAnswer left right
  | .now, left, right => left = right
  | .read _, left, right => left = right
  | .findVault _, left, right => left = right

/-- An operation of a request bound to vault `id` under row number `pk` reads and
changes rows of that vault only. -/
structure Private {β : Type} (env : Env σ) (world : World σ) (id : VaultId) (pk : VaultPk) (op : Op β) : Prop where
  /-- The row number is the vault's, or nobody's. -/
  numbered : ∀ v ∈ world.db.vaults.rows, v.pk = pk → v.vaultId = id
  /-- On any database with the same rows under that number, and the same of what all
  vaults share, the operation is answered the same. -/
  reads : ∀ other : Db, SameFor pk world.db other → world.db.spent = other.spent →
    op.Agree (perform env op world).1 (perform env op ⟨other, world.journal⟩).1
  /-- The rows of every other vault are as they were. -/
  changes : ∀ other, other ≠ id → rowsOf (perform env op world).2.db other = rowsOf world.db other

/-- The event's operation, if its request is bound to a vault, is about that vault. -/
def Isolated (state : Flights σ) (event : Event CanonicalRequest (Env σ)) : Prop :=
  ∀ index env, event = .advance index env → ∀ (β : Type) id pk (op : Op β),
    Performs state index (some (id, pk)) op → Private env state.world id pk op

omit [Ed25519] [Bodies] in
theorem private_of_own {β : Type} {op : Op β} {env : Env σ} {world : World σ} {id : VaultId} {pk : VaultPk}
    (own : op.Own pk) (fits : Fits world (some (id, pk))) : Private env world id pk op where
  numbered := fits id pk rfl
  reads other same spent := by
    cases op with
    | now => rfl
    | read query =>
      change _ = _
      simp only [perform, own _ _ same]
    | findVault query => exact own.elim
    | write call => exact StoreCall.Own.sameAnswer own env world.journal same spent
  changes other differs := by
    cases op with
    | now | read | findVault => rfl
    | write call =>
      let theirs := fun q => world.db.vaults.rows.any fun v => v.pk = q && v.vaultId = other
      have off : theirs pk = false := by
        rw [List.any_eq_false]
        intro v member hit
        simp only [Bool.and_eq_true, decide_eq_true_eq] at hit
        exact differs (hit.2.symm.trans (fits id pk rfl v member hit.1))
      have rows := StoreCall.Own.rowsWhere own env world off
      have still : (fun q => (step world (call.call env)).db.vaults.rows.any fun v => v.pk = q && v.vaultId = other) =
          theirs := by
        funext q
        rw [Bool.eq_iff_iff, List.any_eq_true, List.any_eq_true]
        constructor
        · rintro ⟨v, member, hit⟩
          simp only [Bool.and_eq_true, decide_eq_true_eq] at hit
          rcases step_vaultRows call env world member with ⟨old, present, numbered, named⟩ | ⟨created, creates, _, _⟩
          · exact ⟨old, present, by simp [numbered, named, hit]⟩
          · cases call with
            | createVault => exact own.elim
            | _ => cases creates
        · rintro ⟨v, member, hit⟩
          have mine : theirs v.pk = true := by
            simp only [Bool.and_eq_true, decide_eq_true_eq] at hit
            exact List.any_eq_true.mpr ⟨v, member, by simp [hit]⟩
          have selected : v ∈ world.db.vaults.select fun v => theirs v.pk := List.mem_filter.mpr ⟨member, mine⟩
          have moved : (step world (call.call env)).db.vaults.select (fun v => theirs v.pk) =
              world.db.vaults.select fun v => theirs v.pk := congrArg Rows.vaults rows
          rw [← moved] at selected
          exact ⟨v, List.mem_of_mem_filter selected, hit⟩
      change (step world (call.call env)).db.rowsWhere (fun q =>
        (step world (call.call env)).db.vaults.rows.any fun v => v.pk = q && v.vaultId = other) = _
      rw [still]
      exact rows

/-- From any database, over any interleaving of any requests in which no vault is
created under a row number that a request in flight found for another vault: every
operation of a request bound to a vault reads and changes rows of that vault only. -/
theorem isolation_of_kept_numbers (world : World σ) (events : List (Event CanonicalRequest (Env σ)))
    (kept : Machine.Throughout (Interaction.step (server policy σ)) (fun state event => reassigns state event = false)
      ⟨world, []⟩ events) :
    Machine.Throughout (Interaction.step (server policy σ)) Isolated ⟨world, []⟩ events := by
  have initial : Sound (server policy σ) Fits ⟨world, []⟩ := fun _ member => absurd member List.not_mem_nil
  refine (kept.strengthen initial fun state event sound kept => sound_step policy sound kept).mono ?_
  rintro state event ⟨sound, _⟩ index env rfl β id pk op performs
  obtain ⟨fits, allowed⟩ := sound.allowed performs
  exact private_of_own allowed fits

omit [Ed25519] [Bodies] in
/-- Whether the next operation of a request bound to another vault changes this
vault's rows. -/
def harms (state : Flights σ) (index : Nat) (env : Env σ) (other : VaultId) : Bool :=
  match state.flights[index]? with
  | some ⟨some (id, _), .perform op _⟩ =>
    decide (other ≠ id ∧ rowsOf (perform env op state.world).2.db other ≠ rowsOf state.world.db other)
  | _ => false

omit [Ed25519] [Bodies] in
theorem not_isolated_of_harms {state : Flights σ} {index : Nat} {env : Env σ} (other : VaultId)
    (harmed : harms state index env other = true) : ¬ Isolated state (.advance index env) := by
  intro isolated
  unfold harms at harmed
  split at harmed
  · next id pk β op rest found =>
    obtain ⟨differs, changed⟩ := of_decide_eq_true harmed
    exact changed ((isolated index env rfl β id pk op ⟨rest, found⟩).changes other differs)
  · cases harmed

end Flights

/-! ## Three requests and a number used again -/

/-- Signatures that all verify. -/
@[reducible] def trusting : Ed25519 where
  verifyStrict _ _ _ := true

/-- The vault whose owner key is filled with one byte, as `checksum` names it. -/
def newcomer (b : UInt8) : CreateVaultRequest :=
  let _ := checksum
  let id := VaultId.fromOwnerSignPub ⟨.fill 32 b⟩
  let descriptor : Descriptor :=
    { vaultId := id, generation := 1, vaultPub := ⟨.fill 32 b⟩, configPub := ⟨.fill 32 b⟩,
      secretWriterPub := ⟨.fill 32 b⟩, configWriterPub := ⟨.fill 32 b⟩, prevHash := ⟨.fill 32 0⟩, createdAt := 1 }
  { challenge := none, nonce := none, vaultId := id, ownerSignPub := ⟨.fill 32 b⟩, ownerBoxPub := ⟨.fill 32 b⟩,
    descriptor := ⟨⟨descriptor.encode⟩, ⟨.fill 64 b⟩⟩, ownerBundle := ⟨⟨[b]⟩, ⟨.fill 64 b⟩⟩ }

/-- Bodies of one byte, which names the vault to create. -/
@[reducible] def oneByte : Bodies where
  challenge _ := .error (1, 1)
  createVault body := match body with
    | [b] => .ok (newcomer b)
    | _ => .error (1, 1)
  putSecret _ := .error (1, 1)
  deleteRecord _ := .error (1, 1)
  registerToken _ := .error (1, 1)
  reportToken _ := .error (1, 1)
  rotation _ := .error (1, 1)
  children _ := .error (1, 1)

/-- The owner's request to create or to delete the vault that `b` names. -/
def ownerRequest (method path : String) (b nonce : UInt8) : CanonicalRequest where
  method := method
  pathAndQuery := path
  authorization := some
    { actor := .owner, vaultId := (newcomer b).vaultId, ts := 100, nonce := .fill 16 nonce, sig := ⟨.fill 64 b⟩ }
  ifMatch := none
  ifNoneMatch := none
  body := [b]

/-- A disk and a journal that refuse nothing. -/
def calm : Env Unit where
  now := 100
  disk := .ok ()
  hook := fun _ journal => (.ok (), journal)

/-- A vault is created. Its owner sends the deletion twice, and the second waits with
everything done but the deletion itself; the first is served, and another owner
creates a vault. -/
def twoDeletions : List (Event CanonicalRequest (Env Unit)) :=
  [.arrive (ownerRequest "POST" "/v1/vaults" 1 1)] ++ List.replicate 4 (.advance 0 calm) ++
    [.arrive (ownerRequest "DELETE" "/v1/vault" 1 2), .arrive (ownerRequest "DELETE" "/v1/vault" 1 3)] ++
    List.replicate 7 (.advance 2 calm) ++ List.replicate 8 (.advance 1 calm) ++
    [.arrive (ownerRequest "POST" "/v1/vaults" 2 4)] ++ List.replicate 4 (.advance 3 calm)

/-- A run in which the second deletion, authenticated for the deleted vault, deletes
the vault of another owner. -/
theorem deletion_reaches_a_newcomer :
    let _ := checksum
    let _ := trusting
    let _ := oneByte
    ¬ Machine.Throughout (Interaction.step (server .default Unit)) Isolated ⟨⟨Db.empty, ()⟩, []⟩
      (twoDeletions ++ [.advance 2 calm]) := by
  intro _ _ _ isolated
  have last := (Machine.throughout_append.mp isolated).2.1
  exact not_isolated_of_harms (newcomer 2).vaultId (by decide +kernel) last

/-- The same requests served one after the other stay isolated. -/
theorem isolation_of_requests_in_turn :
    let _ := checksum
    let _ := trusting
    let _ := oneByte
    Machine.Throughout (Interaction.step (server .default Unit)) Isolated ⟨⟨Db.empty, ()⟩, []⟩
      ([.arrive (ownerRequest "POST" "/v1/vaults" 1 1)] ++ List.replicate 4 (.advance 0 calm) ++
        [.arrive (ownerRequest "DELETE" "/v1/vault" 1 2)] ++ List.replicate 8 (.advance 1 calm) ++
        [.arrive (ownerRequest "POST" "/v1/vaults" 2 4)] ++ List.replicate 4 (.advance 2 calm)) := by
  intro _ _ _
  exact isolation_of_kept_numbers .default ⟨Db.empty, ()⟩ _ (by decide +kernel)

end GalataVault.Server

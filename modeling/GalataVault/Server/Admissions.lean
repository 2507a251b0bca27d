import GalataVault.Server.Isolation
import GalataVault.Server.Replays

/-!
# Challenges that admit creations

A policy may admit a creation by a challenge, which is then spent with it. What a
challenge admits is checked at one reading of the clock, and the challenge is spent at
that reading, before the nonce and the creation itself. Between these any number of
other requests may run, and every spending forgets what expired before its own reading.

Each program is watched twice here: for what a request may do at all, and for the
challenges spent for it. Until a challenge expires, it admits one vault.
-/

namespace GalataVault.Server

open Proto Backend Interaction

/-! ## Challenges spent for a request -/

/-- A challenge as it was spent. -/
structure SpentChallenge where
  id : List UInt8
  expiresAt : Int

def Admitted.spent (admitted : Admitted) : SpentChallenge := ⟨admitted.challengeId.bytes, admitted.expiresAt⟩

/-- The challenge an operation spends, if the store answers that it did. -/
def Op.spendsChallenge : {β : Type} → Op β → β → Option SpentChallenge
  | _, .write (.spend .challenge id expiresAt _), .ok _ => some ⟨id, expiresAt⟩
  | _, _, _ => none

/-- Whether an operation creates a vault and was answered that it did. -/
def Op.answersCreated : {β : Type} → Op β → β → Bool
  | _, .write (.createVault ..), .ok _ => true
  | _, _, _ => false

/-- What was paid for a request. -/
structure Paid where
  challenges : List SpentChallenge
  /-- Whether the store was asked to create its vault. -/
  created : Bool

namespace Paid

def nothing : Paid := ⟨[], false⟩

def after {β : Type} (paid : Paid) (op : Op β) (answer : β) : Paid where
  challenges := (op.spendsChallenge answer).toList ++ paid.challenges
  created := op.creates.isSome || paid.created

/-- The vault was asked for, and the challenge was spent. -/
def With (challenge : SpentChallenge) (paid : Paid) : Prop := challenge ∈ paid.challenges ∧ paid.created = true

theorem With.after {β : Type} {challenge : SpentChallenge} {paid : Paid} (done : Paid.With challenge paid) (op : Op β)
    (answer : β) : Paid.With challenge (paid.after op answer) :=
  ⟨List.mem_append_right _ done.1, by simp only [Paid.after, done.2, Bool.or_true]⟩

end Paid

section Programs

variable [Digests] [Ed25519] [Bodies] (policy : Policy) (request : CanonicalRequest)

/-- A vault is created once for a request, after the admission of its body: a challenge
that admitted it was spent for the request. -/
def payments : Duty CanonicalRequest Op CoreError CoreResponse Paid where
  allowed request _ paid op := ∀ v, op.creates = some v → paid.created = false ∧
    ∃ body now admitted, Bodies.createVault request.body = .ok body ∧
      policy.admission.admitCreation body now = .ok admitted ∧ v.vaultId = body.vaultId ∧
      ∀ challenge, admitted = some challenge → challenge.spent ∈ paid.challenges
  ends _ _ _ := True

/-- The watch a request's program is held to. -/
abbrev paying : Watch Op Paid where
  note paid op answer := paid.after op answer
  allowed paid op := (payments policy).allowed request paid op

/-- An operation that creates no vault. -/
def Op.Barren {β : Type} (op : Op β) : Prop := op.creates = none

variable {policy} {request} {α β : Type} {paid : Paid}

omit [Digests] [Ed25519] in
/-- A program that creates no vault needs no challenge. -/
theorem barren_pays {handler : Handler α} (barren : handler.Only Op.Barren) :
    handler.Obeys (paying policy request) paid fun _ _ => True := by
  refine barren.obeys_while (fun _ => True) trivial (fun op paid barren _ => ⟨?_, fun _ => trivial⟩) fun _ _ _ => trivial
  intro v creates
  rw [show op.creates = none from barren] at creates
  cases creates

/-! ## Handlers that create nothing -/

section Barren

omit [Digests] [Ed25519] [Bodies]

theorem barren_orError (result : Except StoreError β) : (Handler.orError result).Only Op.Barren := by
  cases result <;> trivial

theorem barren_store {call : StoreCall β} (barren : (Op.write call).creates = none) :
    (Handler.store call).Only Op.Barren :=
  .bind (.ask barren) fun _ => barren_orError _

theorem barren_read (query : Db → β) : (Handler.read query).Only Op.Barren :=
  .bind (.ask rfl) fun _ => barren_orError _

theorem barren_findVault (query : Db → Option VaultRow) : (Handler.findVault query).Only Op.Barren :=
  .bind (.ask rfl) fun _ => barren_orError _

theorem barren_check (result : Except CoreError β) : (Handler.check result).Only Op.Barren := trivial

theorem barren_spendNonce (params : SigParams) : (spendNonce params).Only Op.Barren :=
  .bind (.ask rfl) fun _ => .bind (.ask rfl) fun _ => barren_check _

/-- What is about one vault creates none. -/
theorem barren_of_own {pk : VaultPk} {handler : Handler α} (own : Handler.Own pk handler) : handler.Only Op.Barren := by
  refine own.mono fun op own => ?_
  cases op with
  | now | read | findVault => rfl
  | write call =>
    cases call with
    | createVault => exact own.elim
    | touch | registerToken | revokeTokens | putRecord | deleteRecord | putChildren | record | applyRotation
    | deleteVault | spend => rfl

end Barren

omit [Bodies] in
theorem barren_ownerAuth (params : SigParams) (now : Int) :
    (ownerAuth policy request params now).Only Op.Barren := by
  refine .bind (barren_findVault _) fun found => ?_
  split
  · exact .fail _
  · refine .bind (barren_check _) fun _ => ?_
    split
    · exact .fail _
    · exact .bind (barren_spendNonce params) fun _ => .pure _

omit [Bodies] in
theorem barren_tokenAuth (params : SigParams) (id : TokenId) (now : Int) :
    (tokenAuth policy request params id now).Only Op.Barren := by
  refine .bind (barren_read _) fun found => ?_
  split
  · exact .fail _
  · refine .bind (barren_findVault _) fun found => ?_
    split
    · exact .fail _
    · split
      · exact .fail _
      · refine .bind (barren_check _) fun _ => ?_
        split
        · exact .fail _
        · refine .bind (barren_spendNonce params) fun _ => ?_
          split
          · exact .fail _
          · exact .pure _

omit [Bodies] in
theorem barren_authed {op : Caller → Handler CoreResponse} (own : ∀ caller, Handler.Own caller.vault.pk (op caller)) :
    (authed policy request op).Only Op.Barren := by
  refine .bind ?authenticates fun caller => .bind (.ask rfl) fun now => .bind (barren_check _) fun _ =>
    .bind (barren_of_own (own caller)).attempt fun _ => .pure _
  case authenticates =>
    unfold authenticate
    split
    · exact .fail _
    · next params _ =>
      refine .bind (.ask rfl) fun now => .bind ?credential fun caller => .bind (barren_store rfl) fun _ => .pure _
      case credential =>
        split
        · exact barren_ownerAuth params now
        · exact barren_tokenAuth params _ now

omit [Digests] [Ed25519] in
theorem barren_challenge : (challenge policy request).Only Op.Barren := by
  unfold challenge
  split
  · exact .fail _
  · exact .bind (barren_check _) fun _ => .bind (.ask rfl) fun _ => .bind (barren_check _) fun _ => .pure _

omit [Digests] in
theorem barren_report (body : List UInt8) : (report body).Only Op.Barren := by
  refine .bind (barren_check _) fun _ => .bind (barren_read _) fun found => ?_
  split
  · exact .fail _
  · refine .bind (.ask rfl) fun now => ?_
    split
    · exact .fail _
    · exact .bind (barren_check _) fun _ => .bind (barren_store rfl) fun _ => .pure _

/-! ## Creation -/

/-- From what was paid, the handler keeps to its payments and ends with a value as
`holds` says, or an error. -/
def Pays (policy : Policy) (request : CanonicalRequest) (paid : Paid) (handler : Handler α) (holds : α → Paid → Prop) :
    Prop :=
  handler.Obeys (paying policy request) paid fun result later => ∀ value, result = .ok value → holds value later

namespace Pays

omit [Digests] [Ed25519] in
protected theorem bind {first : Handler β} {next : β → Handler α} {middle : β → Paid → Prop} {holds : α → Paid → Prop}
    (head : Pays policy request paid first middle)
    (tail : ∀ value later, middle value later → Pays policy request later (next value) holds) :
    Pays policy request paid (first >>= next) holds := by
  refine Program.Obeys.bind (head.mono fun result later ends => ?_)
  cases result with
  | error failure =>
    intro value same
    cases same
  | ok value => exact tail value later (ends value rfl)

omit [Digests] [Ed25519] in
protected theorem check (result : Except CoreError α) :
    Pays policy request paid (Handler.check result) fun value later => result = .ok value ∧ later = paid :=
  fun _ same => ⟨same, rfl⟩

omit [Digests] [Ed25519] in
protected theorem fail {holds : α → Paid → Prop} (failure : CoreError) :
    Pays policy request paid (Program.fail failure : Handler α) holds := fun _ same => by cases same

omit [Digests] [Ed25519] in
protected theorem pure {holds : α → Paid → Prop} {value : α} (ends : holds value paid) :
    Pays policy request paid (pure value : Handler α) holds := by
  rintro other same
  obtain rfl := Except.ok.inj same
  exact ends

omit [Digests] [Ed25519] in
protected theorem integrity (result : Except IntegrityError α) :
    Pays policy request paid (Handler.integrity result) fun _ later => later = paid := fun _ _ => rfl

omit [Digests] [Ed25519] in
theorem spendNonce (params : SigParams) :
    Pays policy request paid (Server.spendNonce params) fun _ later => later = paid := by
  refine ⟨fun _ creates => (by cases creates), fun now => ⟨fun _ creates => (by cases creates), fun answer => ?_⟩⟩
  intro _ _
  cases answer <;> rfl

omit [Digests] [Ed25519] in
/-- A challenge that is spent is noted as paid. -/
theorem spendChallenge (id : List UInt8) (expiresAt now : Int) :
    Pays policy request paid (Handler.store (.spend .challenge id expiresAt now)) fun _ later =>
      later = ⟨⟨id, expiresAt⟩ :: paid.challenges, paid.created⟩ := by
  refine ⟨fun _ creates => (by cases creates), fun answer => ?_⟩
  cases answer with
  | error failure =>
    intro _ same
    cases same
  | ok done => exact fun _ _ => rfl

end Pays

/-- A creation spends the challenge that admitted it before its vault is created. -/
theorem create_pays : Pays policy request .nothing (create policy request) fun _ _ => True := by
  unfold create
  refine .bind (?parses : Pays _ _ _ _ fun body later => Bodies.createVault request.body = .ok body ∧ later = .nothing)
    fun body later parsed => ?_
  case parses =>
    cases parsed : Bodies.createVault request.body with
    | error failure => exact Pays.fail _
    | ok body => exact Pays.pure ⟨rfl, rfl⟩
  obtain ⟨parsed, rfl⟩ := parsed
  refine .bind (?reads : Pays _ _ _ _ fun _ later => later = .nothing) fun now later read => ?_
  case reads => exact ⟨fun _ creates => (by cases creates), fun _ _ _ => rfl⟩
  obtain rfl := read
  refine .bind (.check _) fun admitted later admits => ?_
  obtain ⟨admits, rfl⟩ := admits
  split
  · exact .fail _
  · split
    · exact .fail _
    · next params _ =>
      split
      · exact .fail _
      · refine .bind (.check _) fun _ later verified => ?_
        obtain ⟨_, rfl⟩ := verified
        refine .bind (.integrity _) fun descriptor later same => ?_
        obtain rfl := same
        split
        · exact .fail _
        · refine .bind (.integrity _) fun _ later same => ?_
          obtain rfl := same
          refine .bind (?spends : Pays _ _ _ _ fun _ later => later.created = false ∧
            ∀ challenge, admitted = some challenge → challenge.spent ∈ later.challenges) fun _ later paid => ?_
          case spends =>
            cases admitted with
            | none => exact Pays.pure ⟨rfl, fun _ same => by cases same⟩
            | some challenge =>
              refine (Pays.spendChallenge _ _ _).mono fun result later ends value same => ?_
              obtain rfl := ends value same
              refine ⟨rfl, fun other same => ?_⟩
              obtain rfl := Option.some.inj same
              exact List.mem_cons_self
          obtain ⟨fresh, spent⟩ := paid
          refine .bind (.spendNonce params) fun _ later same => ?_
          obtain rfl := same
          refine .bind (?stores : Pays _ _ _ _ fun _ _ => True) fun row _ _ => .pure trivial
          case stores =>
            refine ⟨fun v creates => ?_, fun answer => ?_⟩
            · obtain rfl := Option.some.inj creates
              exact ⟨fresh, body, now, admitted, parsed, admits, rfl, spent⟩
            · cases answer with
              | error failure => exact Pays.fail _
              | ok row => exact Pays.pure trivial

/-- Every request, whatever it asks for and whatever it is answered, keeps to its
payments. -/
theorem dispatch_pays (policy : Policy) (request : CanonicalRequest) :
    (dispatch policy request).Obeys (paying policy request) .nothing fun _ _ => True := by
  unfold dispatch
  dsimp only
  split
  · next route params _ =>
    cases route.id with
    | capabilities => trivial
    | challenges => exact barren_pays barren_challenge
    | createVault => exact create_pays.mono fun _ _ _ => trivial
    | status => exact barren_pays (barren_authed fun caller => own_status policy caller)
    | deleteVault => exact barren_pays (barren_authed own_deleteVault)
    | descriptors => exact barren_pays (barren_authed fun caller => own_descriptors caller _)
    | childrenGet => exact barren_pays (barren_authed own_children)
    | childrenPut => exact barren_pays (barren_authed fun caller => own_putChildren policy caller request)
    | rotate => exact barren_pays (barren_authed fun caller => own_rotate caller _)
    | registerToken => exact barren_pays (barren_authed fun caller => own_register policy caller _)
    | tokenSelf => exact barren_pays (barren_authed own_whoami)
    | reportToken => exact barren_pays (barren_report request.body)
    | revokeToken => exact barren_pays (barren_authed fun caller => own_withParam _ _ (own_revoke caller))
    | audit => exact barren_pays (barren_authed fun caller => own_audit caller _)
    | recordList kind => exact barren_pays (barren_authed fun caller => own_list caller kind _)
    | recordGet kind =>
      exact barren_pays (barren_authed fun caller => own_withParam _ _ fun name => own_readRecord caller kind name none)
    | recordPut kind =>
      exact barren_pays (barren_authed fun caller =>
        own_withParam _ _ fun name => own_put policy caller kind name request)
    | recordDelete kind =>
      exact barren_pays (barren_authed fun caller =>
        own_withParam _ _ fun name => own_delete policy caller kind name request)
    | recordVersions kind =>
      exact barren_pays (barren_authed fun caller => own_withParam _ _ (own_versions caller kind))
    | recordVersion kind =>
      exact barren_pays (barren_authed fun caller => own_withParam _ _ fun name =>
        own_withParam _ _ fun version => own_readRecord caller kind name (some version))
    | healthz | readyz => trivial
  · trivial
  · trivial

end Programs

/-! ## The server, with what was paid -/

section Runs

variable {σ : Type}

/-- Any number of requests over one store and one journal, with what each was answered
and what was paid for it. -/
abbrev Payments (σ : Type) := System (World σ) Op CoreError CoreResponse (Noted × Paid)

/-- No later time is before the challenge's expiry. -/
def Over (later : List Int) (challenge : SpentChallenge) : Prop := ∀ now ∈ later, challenge.expiresAt < now

/-- A spent challenge is remembered, or over. -/
def Lasting (later : List Int) (db : Db) (challenge : SpentChallenge) : Prop :=
  db.spent.find? (.challenge, challenge.id) = some ⟨.challenge, challenge.id, challenge.expiresAt⟩ ∨ Over later challenge

theorem Over.weaken {first later : List Int} {challenge : SpentChallenge} (past : Over (first ++ later) challenge) :
    Over later challenge := fun now member => past now (List.mem_append_right _ member)

variable [Digests] [Ed25519] [Bodies] (policy : Policy)

/-- The server: each request runs its dispatch, each of its operations alone. -/
def counter (σ : Type) : Rules (World σ) CanonicalRequest (Env σ) Op CoreError CoreResponse (Noted × Paid) where
  start := dispatch policy
  first := (.nothing, .nothing)
  serve := perform
  watch :=
    { note := fun noted op answer => (noted.1.after op answer, noted.2.after op answer), allowed := fun _ _ => True }

/-- The server after some events, from a store without requests. -/
def serveCounted (world : World σ) (events : List (Event CanonicalRequest (Env σ))) : Payments σ :=
  Machine.run (Interaction.step (counter policy σ)) ⟨world, []⟩ events

/-- The request an event creates a vault for, if the store answers that it did. -/
def creates (state : Payments σ) : Event CanonicalRequest (Env σ) → Option Nat
  | .arrive _ => none
  | .advance index env =>
    match state.flights[index]? with
    | some ⟨_, .perform op _⟩ => if op.answersCreated (perform env op state.world).1 then some index else none
    | _ => none

omit [Digests] [Ed25519] [Bodies] in
theorem answersCreated_creates {β : Type} {op : Op β} {answer : β} (answered : op.answersCreated answer = true) :
    ∃ v, op.creates = some v := by
  cases op with
  | now | read | findVault => cases answered
  | write call =>
    cases call with
    | createVault v now => exact ⟨v, rfl⟩
    | touch | registerToken | revokeTokens | putRecord | deleteRecord | putChildren | record | applyRotation
    | deleteVault | spend => cases answered

/-- What a request is held to: its permissions and its payments. -/
abbrev duties : Duty CanonicalRequest Op CoreError CoreResponse (Noted × Paid) := permissions.both (payments policy)

/-- A request on its way has read no time later than those to come. -/
def ReadFirst (later : List Int) (flight : Flight Op CoreError CoreResponse (Noted × Paid)) : Prop :=
  ReadBefore later ⟨flight.noted.1, flight.rest⟩

/-- No challenge that is not over was spent for two requests. -/
structure Once (later : List Int) (state : Payments σ) : Prop where
  lasting : ∀ flight ∈ state.flights, ∀ challenge ∈ flight.noted.2.challenges, Lasting later state.world.db challenge
  apart : ∀ (i j : Nat) one other, state.flights[i]? = some one → state.flights[j]? = some other → i ≠ j →
    ∀ challenge ∈ one.noted.2.challenges, ∀ challenge' ∈ other.noted.2.challenges,
      challenge.id = challenge'.id → Over later challenge ∨ Over later challenge'

variable {policy} {requests : List CanonicalRequest} {state : Payments σ} {later : List Int}

theorem counted_starts (request : CanonicalRequest) :
    ((counter policy σ).start request).Obeys ((duties policy).watch (counter policy σ).watch request)
      (counter policy σ).first ((duties policy).ends request) :=
  Program.Obeys.both (core_starts (σ := σ) policy request) ((dispatch_pays policy request).mono fun _ _ _ => trivial)

theorem step_counted {event : Event CanonicalRequest (Env σ)}
    (meets : Meets (counter policy σ) (duties policy) (ReadFirst (times [event] ++ later)) requests state)
    (ordered : (times [event] ++ later).Pairwise (· ≤ ·)) :
    Meets (counter policy σ) (duties policy) (ReadFirst later) (requests ++ arrivals [event])
      (Interaction.step (counter policy σ) state event) := by
  refine meets.step event ?_ ?_ fun flight _ before => ReadBefore.weaken before
  · rintro request rfl
    refine ⟨?_, counted_starts request⟩
    intro reading read
    cases read
  · rintro index env β noted op rest rfl _ before
    exact readBefore_after state.world before ordered

/-! ## What is spent -/

/-- A spent challenge stays remembered until it is over. -/
theorem perform_lasting {β : Type} {op : Op β} {env : Env σ} {world : World σ} {request : CanonicalRequest}
    {noted : Noted} {times : List Int} {challenge : SpentChallenge} (allowed : op.Allowed request noted)
    (read : ∀ reading ∈ noted.readings, ∀ now ∈ times ++ later, reading ≤ now)
    (lasting : Lasting (times ++ later) world.db challenge) : Lasting later (perform env op world).2.db challenge := by
  rcases lasting with found | past
  case inr => exact .inr past.weaken
  cases op with
  | now | read | findVault => exact .inl found
  | write call =>
    change Lasting later (Backend.step world (call.call env)).db challenge
    cases call with
    | spend kind other otherExpiry now =>
      have read : ∀ time ∈ times ++ later, now ≤ time := by
        refine read now ?_
        rcases allowed with opening | ⟨_, _, impossible⟩
        · cases kind with
          | nonce => exact opening.read
          | challenge => exact opening
        · exact impossible.elim
      by_cases expired : challenge.expiresAt < now
      · right
        intro time member
        have := read time (List.mem_append_right _ member)
        omega
      · left
        exact spend_keeps found (Int.not_lt.mp expired)
    | createVault | touch | registerToken | revokeTokens | putRecord | deleteRecord | putChildren | record
    | applyRotation | deleteVault =>
      left
      rw [step_spent_same world _ fun _ _ _ _ _ same => by cases same]
      exact found

omit [Digests] [Ed25519] [Bodies] in
theorem spendsChallenge_cases {β : Type} {op : Op β} {answer : β} {challenge : SpentChallenge}
    (spends : op.spendsChallenge answer = some challenge) :
    ∃ now, ∃ same : β = Except StoreError Unit, HEq op (Op.write (.spend .challenge challenge.id challenge.expiresAt now)) ∧
      ∃ value, same ▸ answer = .ok value := by
  cases op with
  | now | read | findVault => cases spends
  | write call =>
    cases call with
    | spend kind id expiresAt now =>
      cases kind with
      | nonce => cases spends
      | challenge =>
        cases answer with
        | error failure => cases spends
        | ok value =>
          obtain rfl := Option.some.inj spends
          exact ⟨now, rfl, HEq.rfl, value, rfl⟩
    | createVault | touch | registerToken | revokeTokens | putRecord | deleteRecord | putChildren | record
    | applyRotation | deleteVault => cases spends

/-- A challenge that is spent is remembered, and what was spent under its id before is
over. -/
theorem perform_spends {β : Type} {op : Op β} {env : Env σ} {world : World σ} {request : CanonicalRequest}
    {noted : Noted} {times : List Int} {challenge : SpentChallenge} (allowed : op.Allowed request noted)
    (read : ∀ reading ∈ noted.readings, ∀ now ∈ times ++ later, reading ≤ now)
    (spends : op.spendsChallenge (perform env op world).1 = some challenge) :
    Lasting later (perform env op world).2.db challenge ∧
      ∀ earlier, Lasting (times ++ later) world.db earlier → earlier.id = challenge.id → Over later earlier := by
  obtain ⟨now, rfl, same, value, answered⟩ := spendsChallenge_cases spends
  obtain rfl := eq_of_heq same
  have spent := spend_accepted (answered : (Backend.spend _ _ _ _ _ _).1 = _)
  refine ⟨.inl spent.1, ?_⟩
  rintro earlier (found | past) named
  · rw [named] at found
    have expired := spent.2 _ found
    have reading : now ∈ noted.readings := by
      rcases allowed with opening | ⟨_, _, impossible⟩
      · exact opening
      · exact impossible.elim
    intro time member
    have := read now reading time (List.mem_append_right _ member)
    dsimp only at expired
    omega
  · exact past.weaken

omit [Digests] [Ed25519] [Bodies] in
theorem Once.weaken {first : List Int} (once : Once (first ++ later) state) : Once later state where
  lasting flight member challenge spent := (once.lasting flight member challenge spent).imp_right Over.weaken
  apart i j one other found found' differs challenge spent challenge' spent' same :=
    (once.apart i j one other found found' differs challenge spent challenge' spent' same).imp Over.weaken Over.weaken

/-- Whatever an event is, no challenge that is not over was spent for two requests
after it. -/
theorem step_once {event : Event CanonicalRequest (Env σ)}
    (meets : Meets (counter policy σ) (duties policy) (ReadFirst (times [event] ++ later)) requests state)
    (once : Once (times [event] ++ later) state) : Once later (Interaction.step (counter policy σ) state event) := by
  cases event with
  | arrive request =>
    have once := once.weaken
    -- A request that arrives has spent nothing.
    have old : ∀ (i : Nat) flight, (state.flights ++ [⟨(.nothing, .nothing), dispatch policy request⟩])[i]? = some flight →
        state.flights[i]? = some flight ∨ flight.noted.2.challenges = [] := by
      intro i flight found
      by_cases inside : i < state.flights.length
      · exact .inl ((List.getElem?_append_left inside).symm.trans found)
      · rw [List.getElem?_append_right (Nat.not_lt.mp inside)] at found
        obtain rfl := List.mem_singleton.mp (List.mem_of_getElem? found)
        exact .inr rfl
    constructor
    · intro flight member challenge spent
      obtain ⟨i, found⟩ := List.mem_iff_getElem?.mp member
      rcases old i flight found with before | nothing
      · exact once.lasting flight (List.mem_of_getElem? before) challenge spent
      · rw [nothing] at spent
        cases spent
    · intro i j one other found found' differs challenge spent challenge' spent' same
      rcases old i one found with before | nothing
      · rcases old j other found' with before' | nothing
        · exact once.apart i j one other before before' differs challenge spent challenge' spent' same
        · rw [nothing] at spent'
          cases spent'
      · rw [nothing] at spent
        cases spent
  | advance index env =>
    simp only [Interaction.step, Interaction.advance]
    split
    · next noted β op rest here =>
      obtain ⟨request, _, _, before, allowed⟩ := meets.allowed ⟨rest, here⟩
      have lasts := fun challenge => @perform_lasting σ _ _ _ later β op env state.world request noted.1 _ challenge allowed.1 before
      have spends := fun challenge => @perform_spends σ _ _ _ later β op env state.world request noted.1 _ challenge allowed.1 before
      have paid : ∀ challenge ∈ (noted.2.after op (perform env op state.world).1).challenges,
          op.spendsChallenge (perform env op state.world).1 = some challenge ∨ challenge ∈ noted.2.challenges :=
        fun challenge spent => (List.mem_append.mp spent).imp_left Option.mem_toList.mp
      have placed : ∀ (i : Nat) flight new, (state.flights.set index new)[i]? = some flight →
          i ≠ index ∧ state.flights[i]? = some flight ∨ i = index ∧ flight = new := by
        intro i flight new found
        by_cases same : i = index
        · subst same
          rw [List.getElem?_set_self (List.getElem?_eq_some_iff.mp here).1] at found
          exact .inr ⟨rfl, (Option.some.inj found).symm⟩
        · rw [List.getElem?_set_ne (Ne.symm same)] at found
          exact .inl ⟨same, found⟩
      constructor
      · intro flight member challenge spent
        obtain ⟨i, found⟩ := List.mem_iff_getElem?.mp member
        rcases placed i flight _ found with ⟨_, old⟩ | ⟨_, rfl⟩
        · exact lasts challenge (once.lasting flight (List.mem_of_getElem? old) challenge spent)
        · rcases paid challenge spent with new | old
          · exact (spends challenge new).1
          · exact lasts challenge (once.lasting _ (List.mem_of_getElem? here) challenge old)
      · intro i j one other found found' differs challenge spent challenge' spent' same
        rcases placed i one _ found with ⟨_, old⟩ | ⟨rfl, rfl⟩
        · rcases placed j other _ found' with ⟨_, old'⟩ | ⟨rfl, rfl⟩
          · exact (once.apart i j one other old old' differs challenge spent challenge' spent' same).imp
              Over.weaken Over.weaken
          · rcases paid challenge' spent' with new | earlier
            · exact .inl ((spends challenge' new).2 challenge
                (once.lasting one (List.mem_of_getElem? old) challenge spent) same)
            · exact (once.apart i _ one _ old here differs challenge spent challenge' earlier same).imp
                Over.weaken Over.weaken
        · rcases placed j other _ found' with ⟨_, old'⟩ | ⟨rfl, rfl⟩
          · rcases paid challenge spent with new | earlier
            · exact .inr ((spends challenge new).2 challenge'
                (once.lasting other (List.mem_of_getElem? old') challenge' spent') same.symm)
            · exact (once.apart _ j _ other here old' differs challenge earlier challenge' spent' same).imp
                Over.weaken Over.weaken
          · exact absurd rfl differs
    · exact once.weaken

/-- At every moment of a run each request keeps to its duties, and no challenge that is
not over was spent for two of them. -/
theorem run_once {events : List (Event CanonicalRequest (Env σ))}
    (meets : Meets (counter policy σ) (duties policy) (ReadFirst (times events ++ later)) requests state)
    (once : Once (times events ++ later) state) (ordered : (times events ++ later).Pairwise (· ≤ ·)) :
    Meets (counter policy σ) (duties policy) (ReadFirst later) (requests ++ arrivals events)
        (Machine.run (Interaction.step (counter policy σ)) state events) ∧
      Once later (Machine.run (Interaction.step (counter policy σ)) state events) := by
  induction events generalizing requests state with
  | nil =>
    rw [show arrivals ([] : List (Event CanonicalRequest (Env σ))) = [] from rfl, List.append_nil]
    exact ⟨meets, once⟩
  | cons event events inductionHypothesis =>
    rw [times_cons, List.append_assoc] at meets once ordered
    have rest := inductionHypothesis (step_counted meets ordered) (step_once meets once) (List.pairwise_append.mp ordered).2.1
    rw [List.append_assoc, ← arrivals_cons] at rest
    exact rest

/-! ## One vault for a challenge -/

/-- A vault was asked for, for the request these are the notes of, and the challenge was
spent. -/
def PaidWith (challenge : Admitted) (noted : Noted × Paid) : Prop := Paid.With challenge.spent noted.2

/-- When a vault is created for a request, it is the first, and the challenge that
admits its body was spent for it; both are so from then on. -/
theorem creates_paid {event : Event CanonicalRequest (Env σ)} {index : Nat} {request : CanonicalRequest}
    {body : CreateVaultRequest} {challenge : Admitted}
    (meets : Meets (counter policy σ) (duties policy) (ReadFirst (times [event] ++ later)) requests state)
    (created : creates state event = some index) (asked : requests[index]? = some request)
    (parsed : Bodies.createVault request.body = .ok body)
    (proved : ∀ now admitted, policy.admission.admitCreation body now = .ok admitted → admitted = some challenge) :
    ∃ env flight, event = .advance index env ∧ state.flights[index]? = some flight ∧
      flight.noted.2.created = false ∧ challenge.spent ∈ flight.noted.2.challenges ∧
      ∃ later, (Interaction.step (counter policy σ) state event).flights[index]? = some later ∧
        PaidWith challenge later.noted := by
  cases event with
  | arrive _ => cases created
  | advance at_index env =>
    simp only [creates] at created
    split at created
    · next noted β op rest here =>
      split at created
      · next answered =>
        obtain rfl := Option.some.inj created
        obtain ⟨other, _, asked', _, allowed⟩ := meets.allowed ⟨rest, here⟩
        obtain rfl := Option.some.inj (asked'.symm.trans asked)
        obtain ⟨v, creates⟩ := answersCreated_creates answered
        obtain ⟨fresh, body', now, admitted, parsed', admits, _, spent⟩ := allowed.2 v creates
        obtain rfl := Except.ok.inj (parsed'.symm.trans parsed)
        have spent := spent challenge (proved now admitted admits)
        have requested : (noted.2.after op (perform env op state.world).1).created = true := by
          change (op.creates.isSome || _) = true
          rw [creates]
          rfl
        refine ⟨env, _, rfl, here, fresh, spent, ⟨(noted.1.after op (perform env op state.world).1,
          noted.2.after op (perform env op state.world).1), rest (perform env op state.world).1⟩, ?_,
          List.mem_append_right _ spent, requested⟩
        simp only [Interaction.step, Interaction.advance, here]
        exact List.getElem?_set_self (List.getElem?_eq_some_iff.mp here).1
      · cases created
    · cases created

/-- Two vaults are created by one challenge only when the second is created after the
challenge expired.

Any requests interleave over any store, under any policy, and the clock never goes
back. The two requests may be the same bytes. A request whose body the policy admits by
the challenge at whatever time it is asked has spent the challenge before its vault is
created; a second request spends it only after some spending read a clock past its
expiry and forgot it. -/
theorem challenge_admits_one_vault (policy : Policy) (world : World σ)
    (before middle : List (Event CanonicalRequest (Env σ))) (first second : Event CanonicalRequest (Env σ))
    (ordered : (times (before ++ first :: (middle ++ [second]))).Pairwise (· ≤ ·)) {i j : Nat}
    {request again : CanonicalRequest} {body body' : CreateVaultRequest} {challenge : Admitted}
    (created : creates (serveCounted policy world before) first = some i)
    (createdAgain : creates (serveCounted policy world (before ++ first :: middle)) second = some j)
    (asked : (arrivals before)[i]? = some request)
    (askedAgain : (arrivals (before ++ first :: middle))[j]? = some again)
    (parsed : Bodies.createVault request.body = .ok body) (parsedAgain : Bodies.createVault again.body = .ok body')
    (proved : ∀ now admitted, policy.admission.admitCreation body now = .ok admitted → admitted = some challenge)
    (provedAgain : ∀ now admitted, policy.admission.admitCreation body' now = .ok admitted → admitted = some challenge) :
    i ≠ j ∧ ∃ now, eventTime second = some now ∧ challenge.expiresAt < now := by
  have timed : times (before ++ first :: (middle ++ [second])) =
      times before ++ (times [first] ++ (times middle ++ times [second])) := by
    rw [times_append, times_cons, times_append]
  rw [timed] at ordered
  have ordered₁ := (List.pairwise_append.mp ordered).2.1
  have ordered₂ := (List.pairwise_append.mp ordered₁).2.1
  have started : Meets (counter policy σ) (duties policy) (ReadFirst (times before ++ (times [first] ++
      (times middle ++ times [second])))) [] ⟨world, []⟩ := .initial world
  have nothing : Once (times before ++ (times [first] ++ (times middle ++ times [second])))
      (⟨world, []⟩ : Payments σ) := ⟨fun _ member => (by cases member), fun _ _ _ _ found => (by simp at found)⟩
  obtain ⟨meets, once⟩ := run_once started nothing ordered
  rw [List.nil_append] at meets
  -- The first creation leaves its payment noted, and it stays so up to the second.
  obtain ⟨_, _, _, _, _, _, paid⟩ := creates_paid meets created asked parsed proved
  have meets₁ := step_counted meets ordered₁
  obtain ⟨meets₂, once₂⟩ := run_once meets₁ (step_once meets once) ordered₂
  obtain ⟨one, found, spent, already⟩ : ∃ flight, (Machine.run (Interaction.step (counter policy σ))
      (Interaction.step (counter policy σ) (serveCounted policy world before) first) middle).flights[i]? = some flight ∧
      PaidWith challenge flight.noted :=
    run_noted (fun _ _ op answer paid => Paid.With.after paid op answer) middle paid
  have reached : serveCounted policy world (before ++ first :: middle) = Machine.run (Interaction.step (counter policy σ))
      (Interaction.step (counter policy σ) (serveCounted policy world before) first) middle := Machine.run_append _ _ _
  rw [reached] at createdAgain
  rw [arrivals_append, arrivals_cons, ← List.append_assoc] at askedAgain
  rw [← List.append_nil (times [second])] at meets₂
  obtain ⟨env, other, rfl, found', fresh, spent', _⟩ := creates_paid meets₂ createdAgain askedAgain parsedAgain provedAgain
  have differs : i ≠ j := by
    rintro rfl
    obtain rfl := Option.some.inj (found.symm.trans found')
    rw [already] at fresh
    cases fresh
  refine ⟨differs, env.now, rfl, ?_⟩
  rcases once₂.apart i j one other found found' differs _ spent _ spent' rfl with past | past
  all_goals exact past env.now (List.mem_cons_self ..)

end Runs

/-! ## A creation that waits -/

/-- A policy that admits every creation by one challenge, until it expires. -/
def oneChallenge : Policy :=
  { Policy.default with
    admission :=
      { Admission.allowAll with
        admitCreation := fun _ now => if now ≤ 700 then .ok (some ⟨.fill 16 9, 700⟩) else .error .unauthorized } }

/-- Two creations are admitted by one challenge, at time 100. The second waits; the
first is served up to its creation. -/
def creationWaits : List (Event CanonicalRequest (Env Unit)) :=
  [.arrive (ownerRequest "POST" "/v1/vaults" 1 1), .arrive (ownerRequest "POST" "/v1/vaults" 2 2),
    .advance 1 (calmAt 100)] ++ List.replicate 4 (.advance 0 (calmAt 100))

/-- At time 1000 the first vault's owner asks for its status, which forgets the
challenge. The second creation goes on. -/
def challengeForgotten : List (Event CanonicalRequest (Env Unit)) :=
  [.arrive (statusAt 1000)] ++ List.replicate 4 (.advance 2 (calmAt 1000)) ++ List.replicate 3 (.advance 1 (calmAt 1000))

/-- The second vault of a challenge is created after the challenge expired. -/
theorem challenge_admits_again_later :
    let _ := checksum
    let _ := trusting
    let _ := oneByte
    (0 : Nat) ≠ 1 ∧ ∃ now, eventTime (.advance 1 (calmAt 1000)) = some now ∧ (700 : Int) < now := by
  intro _ _ _
  have proved : ∀ body now admitted, oneChallenge.admission.admitCreation body now = .ok admitted →
      admitted = some ⟨.fill 16 9, 700⟩ := by
    intro body now admitted admits
    change (if now ≤ 700 then _ else _) = _ at admits
    split at admits
    · exact (Except.ok.inj admits).symm
    · cases admits
  have created : creates (serveCounted oneChallenge ⟨Db.empty, ()⟩ creationWaits) (.advance 0 (calmAt 100)) = some 0 := by
    decide +kernel
  have createdAgain : creates (serveCounted oneChallenge ⟨Db.empty, ()⟩
      (creationWaits ++ .advance 0 (calmAt 100) :: challengeForgotten)) (.advance 1 (calmAt 1000)) = some 1 := by
    decide +kernel
  exact challenge_admits_one_vault oneChallenge ⟨Db.empty, ()⟩ creationWaits challengeForgotten (.advance 0 (calmAt 100))
    (.advance 1 (calmAt 1000)) (by decide +kernel) created createdAgain rfl rfl (show oneByte.createVault [1] = .ok (newcomer 1) from rfl)
    (show oneByte.createVault [2] = .ok (newcomer 2) from rfl) (proved _) (proved _)

end GalataVault.Server

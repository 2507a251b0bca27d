import GalataVault.Client.Pins

/-!
# The environment of an agent's server

`gv-mcp` holds a token that can list names and nothing more. What it verified of the vault
is behind one lock: the descriptor of a generation, and that generation's name key. A
listing that meets another generation makes it fetch the vault's view again, and adopt it
unless its generation is lower than the one held.

A server that answers every request as it pleases from what it has gives, over any number
of listings, what the adoption lets through: no generation goes back, and whatever else the
answers verify as is taken. So the pin is kept in every run exactly if the answers
themselves hold no fork and no gap.
-/

namespace GalataVault.Mcp

open Proto Client Interaction

/-! ## The code -/

/-- Why a call fails. Its text begins with the path and the token id, and never holds the
token. -/
inductive Failure where
  | request (failure : ApiError)
  /-- The server answered for another token or vault. -/
  | otherToken
  /-- Only meta tokens are accepted, which cannot decrypt values. -/
  | scope (scope : TokenScope)
  | integrity (failure : IntegrityError)
  /-- The bundle holds more than the name key. -/
  | holdsMore
  | bundle (failure : KeyError)
  /-- The bundle is for another generation. -/
  | otherGeneration
  | rollback (saw shows : Nat)
  /-- A listed record does not verify. -/
  | record (failure : IntegrityError)
  /-- A secret name does not decrypt. -/
  | name (failure : KeyError)
  /-- The vault's generation keeps changing. -/
  | keepsChanging
  /-- Not an outcome of the source: the pages a list was followed for are used up. -/
  | unfinished
deriving DecidableEq

/-- Why a listing ends early: it met a generation this view does not have the key for, or
it failed. -/
inductive Halt where
  | stale
  | failed (failure : Failure)
deriving DecidableEq

/-- A secret's name and latest-version metadata. Never a value. -/
structure NameInfo where
  name : String
  hmac : NameHmac
  version : Nat
  updatedAt : Int
  size : Nat
deriving DecidableEq

/-- The verified view of the vault: its current descriptor, and the name key of that
generation. -/
structure View where
  descriptor : Descriptor
  nameKey : NameKey
deriving DecidableEq

/-- Secret names starting with this are reserved. -/
def reservedPrefix : String := "gv:"

def isReservedName (name : String) : Bool := reservedPrefix.toList.isPrefixOf name.toList

/-- One operation of a call: under the lock of the view, or a request. -/
inductive EnvOp : Type → Type 1 where
  | view : EnvOp View
  /-- Adopt a view, unless its generation is lower. -/
  | replace (view : View) : EnvOp (Except Failure Unit)
  | ask {β : Type} (query : Query β) : EnvOp (Except ApiError β)

abbrev Action := Program EnvOp Halt

section

variable [Crypto] [Digests] [Ed25519] [Unsealing]

/-- Verify a token's view of itself from the vault id the token carries: the owner key hashes
to it, the descriptor is owner-signed for it, and the bundle is owner-signed for this token
as `meta` and holds only the name key. -/
def verifySelf (token : TokenKeys) (me : TokenSelf) : Except Failure View :=
  if me.tokenId ≠ token.id ∨ me.vaultId ≠ token.vaultId then .error .otherToken
  else if me.scope ≠ .known .metadata then .error (.scope me.scope)
  else
    match me.descriptor.verifyFor token.vaultId me.ownerSignPub with
    | .error e => .error (.integrity e)
    | .ok descriptor =>
      match token.openBundle me.bundle me.ownerSignPub .metadata descriptor.generation with
      | .error (.kind _ _) => .error .holdsMore
      | .error e => .error (.bundle e)
      | .ok (.names names) =>
        if names.generation ≠ descriptor.generation then .error .otherGeneration
        else .ok ⟨descriptor, names.nameKey⟩
      | .ok _ => .error .holdsMore

/-- The items of one page: each of the held generation, its signature verified. Reserved and
deleted names are left out. -/
def checkItems (view : View) : List SecretListItem → Except Halt (List NameInfo)
  | [] => .ok []
  | item :: rest =>
    let d := view.descriptor
    if item.generation ≠ d.generation then .error .stale
    else
      let ctx : RecordContext :=
        { vaultId := d.vaultId, generation := item.generation, kind := .secret, nameIndex := item.nameHmac,
          version := item.version, writtenAt := item.writtenAt, tombstone := item.tombstone,
          valueCtHash := item.valueCtHash, nameCtHash := Digests.sha256 item.nameCt.bytes }
      match ctx.verify d.secretWriterPub item.sig with
      | .error e => .error (.failed (.record e))
      | .ok _ =>
        if item.tombstone then checkItems view rest
        else
          match view.nameKey.openName ⟨d.vaultId, d.generation, .secret⟩ item.nameHmac item.nameCt.bytes with
          | .error e => .error (.failed (.name e))
          | .ok name =>
            if isReservedName name then checkItems view rest
            else (checkItems view rest).map (⟨name, item.nameHmac, item.version, item.writtenAt, item.size⟩ :: ·)

/-- Every page from a cursor on. -/
def tryPages (view : View) : Nat → Option NameHmac → Action (List NameInfo)
  | 0, _ => Program.fail (.failed .unfinished)
  | pages + 1, after => do
    match ← Program.ask (.ask (.list .secret after)) with
    | .error e => Program.fail (.failed (.request e))
    | .ok page => do
      let items ← Program.done (checkItems view page.items)
      match page.nextCursor with
      | none => pure items
      | some cursor => do
        let more ← tryPages view pages (some cursor)
        pure (items ++ more)

def tryNames (pages : Nat) : Action (List NameInfo) := do
  let view ← Program.ask .view
  let out ← tryPages view pages none
  pure (out.insertionSort fun a b => a.name ≤ b.name)

/-- After a rotation: fetch and verify the new generation's view. -/
def reload (token : TokenKeys) : Action Unit := do
  match ← Program.ask (.ask .tokenSelf) with
  | .error e => Program.fail (.failed (.request e))
  | .ok me =>
    match verifySelf token me with
    | .error failure => Program.fail (.failed failure)
    | .ok view => do
      match ← Program.ask (.replace view) with
      | .error failure => Program.fail (.failed failure)
      | .ok _ => pure ()

/-- Every live user secret, sorted by name, each record's signature verified. A listing that
meets another generation is tried once more with the view reloaded. -/
def names (token : TokenKeys) (pages : Nat) : Action (List NameInfo) := do
  match ← (tryNames pages).attempt with
  | .ok items => pure items
  | .error (.failed failure) => Program.fail (.failed failure)
  | .error .stale => do
    reload token
    match ← (tryNames pages).attempt with
    | .ok items => pure items
    | .error (.failed failure) => Program.fail (.failed failure)
    | .error .stale => Program.fail (.failed .keepsChanging)

end

/-! ## Runs -/

/-- A server that answers each request as it pleases, and remembers what it likes. -/
structure Server (σ : Type) where
  answer : {β : Type} → Query β → σ → Except ApiError β × σ

/-- The view that is held, and the server. -/
structure World (σ : Type) where
  view : View
  server : σ

variable {σ : Type}

def perform (server : Server σ) {β : Type} : EnvOp β → World σ → β × World σ
  | .view, world => (world.view, world)
  | .replace view, world =>
    if view.descriptor.generation < world.view.descriptor.generation then
      (.error (.rollback world.view.descriptor.generation view.descriptor.generation), world)
    else (.ok (), { world with view := view })
  | .ask query, world =>
    ((server.answer query world.server).1, { world with server := (server.answer query world.server).2 })

section

variable [Crypto] [Digests] [Ed25519] [Unsealing]

/-- Refuse any token that is not `meta`, any vault that does not verify from the token's
vault id, and any bundle that holds more than the name key. -/
def openEnv (token : TokenKeys) (server : Server σ) (start : σ) : Except Failure (World σ) :=
  match server.answer .tokenSelf start with
  | (.error e, _) => .error (.request e)
  | (.ok me, state) => (verifySelf token me).map fun view => ⟨view, state⟩

/-- A call of `names`, with the pages its listings are followed for. -/
def callNames (token : TokenKeys) (server : Server σ) (world : World σ) (pages : Nat) : World σ :=
  ((names token pages).alone (perform server) world).2

/-- A server that has nothing but these views of the token to show. -/
def Within (answers : Set TokenSelf) (server : Server σ) : Prop :=
  ∀ state me, (server.answer .tokenSelf state).1 = .ok me → me ∈ answers

/-- A descriptor of the token's vault that the owner signed. -/
def OwnerSigned (token : TokenKeys) (signed : Set SignedDescriptor) (d : Descriptor) : Prop :=
  ∃ s ∈ signed, ∃ ownerSignPub, s.verifyFor token.vaultId ownerSignPub = .ok d

/-- The pin is kept: the descriptor is the one held, or a newer one that an unbroken chain of
owner-signed descriptors connects to it. -/
def PinKept (token : TokenKeys) (signed : Set SignedDescriptor) (held adopted : Descriptor) : Prop :=
  adopted = held ∨
    held.generation < adopted.generation ∧
      ∃ chain, (∀ d ∈ chain, OwnerSigned token signed d) ∧ Linked (.of held) chain ∧ chain.getLast? = some adopted

/-- In every run over a server, every descriptor adopted keeps the pin. -/
def KeepsPin (token : TokenKeys) (signed : Set SignedDescriptor) (server : Server σ) : Prop :=
  ∀ start opened, openEnv token server start = .ok opened → ∀ (calls : List Nat) (pages : Nat),
    let world := calls.foldl (callNames token server) opened
    PinKept token signed world.view.descriptor (callNames token server world pages).view.descriptor

/-- No fork and no gap: of any two views that verify, the one of no lower generation is
connected to the other. -/
def Unforked (token : TokenKeys) (signed : Set SignedDescriptor) (answers : Set TokenSelf) : Prop :=
  ∀ first ∈ answers, ∀ next ∈ answers, ∀ held adopted, verifySelf token first = .ok held →
    verifySelf token next = .ok adopted → held.descriptor.generation ≤ adopted.descriptor.generation →
      PinKept token signed held.descriptor adopted.descriptor

/-! ## What a call does to the view -/

/-- The operations that leave the view as it is. -/
def Reads {β : Type} : EnvOp β → Prop
  | .replace _ => False
  | _ => True

omit [Crypto] [Digests] [Ed25519] [Unsealing] in
/-- A program that replaces no view leaves the view held. -/
theorem alone_view {α : Type} (server : Server σ) {program : Action α} (reads : program.Only Reads) (world : World σ) :
    (program.alone (perform server) world).2.view = world.view := by
  induction program generalizing world with
  | done result => rfl
  | perform op rest inductionHypothesis =>
    have same : (perform server op world).2.view = world.view := by
      cases op with
      | view => rfl
      | replace view => exact reads.1.elim
      | ask query => rfl
    rw [← same]
    exact inductionHypothesis _ (reads.2 _) _

omit [Unsealing] in
theorem tryPages_reads (view : View) (pages : Nat) (after : Option NameHmac) : (tryPages view pages after).Only Reads := by
  induction pages generalizing after with
  | zero => exact .fail _
  | succ pages inductionHypothesis =>
    refine .bind (.ask trivial) fun answer => ?_
    cases answer with
    | error e => exact .fail _
    | ok page =>
      refine .bind trivial fun items => ?_
      cases page.nextCursor with
      | none => exact .pure _
      | some cursor => exact .bind (inductionHypothesis (some cursor)) fun more => .pure _

omit [Unsealing] in
theorem tryNames_reads (pages : Nat) : (tryNames pages).Only Reads :=
  .bind (.ask trivial) fun view => .bind (tryPages_reads view pages none) fun _ => .pure _

/-- A step from a view to a view: it is kept, or one that verifies and is of no lower
generation is adopted. -/
def Moves (token : TokenKeys) (answers : Set TokenSelf) (held adopted : View) : Prop :=
  adopted = held ∨
    ∃ me ∈ answers, verifySelf token me = .ok adopted ∧ held.descriptor.generation ≤ adopted.descriptor.generation

theorem reload_moves {token : TokenKeys} {answers : Set TokenSelf} {server : Server σ} (confined : Within answers server)
    (world : World σ) : Moves token answers world.view ((reload token).alone (perform server) world).2.view := by
  unfold reload
  rw [Program.alone_ask_bind]
  cases answered : (perform server (.ask .tokenSelf) world).1 with
  | error e => exact .inl rfl
  | ok me =>
    cases verified : verifySelf token me with
    | error failure =>
      simp only [verified]
      exact .inl rfl
    | ok view =>
      simp only [verified]
      rw [Program.alone_ask_bind]
      -- The request left the view, so the comparison is with the one held.
      by_cases lower : view.descriptor.generation < world.view.descriptor.generation
      · have refused : perform server (.replace view) (perform server (.ask .tokenSelf) world).2 =
            (.error (.rollback world.view.descriptor.generation view.descriptor.generation),
              (perform server (.ask .tokenSelf) world).2) := if_pos lower
        rw [refused]
        exact .inl rfl
      · have adopted : perform server (.replace view) (perform server (.ask .tokenSelf) world).2 =
            (.ok (), { (perform server (.ask .tokenSelf) world).2 with view := view }) := if_neg lower
        rw [adopted]
        exact .inr ⟨me, confined _ me answered, verified, Nat.le_of_not_lt lower⟩

/-- What reads only may come before a step. -/
theorem moves_after_reading {α β : Type} {token : TokenKeys} {answers : Set TokenSelf} {server : Server σ}
    {first : Action α} {next : α → Action β} (reads : first.Only Reads) (world : World σ)
    (moves : ∀ value (after : World σ), after.view = world.view →
      Moves token answers world.view ((next value).alone (perform server) after).2.view) :
    Moves token answers world.view ((first >>= next).alone (perform server) world).2.view := by
  have kept := alone_view server reads world
  obtain ⟨failure, after, ran, ends⟩ | ⟨value, after, ran, goesOn⟩ :=
    Program.alone_bind (perform server) first next world
  · rw [ran] at kept
    rw [ends]
    exact .inl kept
  · rw [ran] at kept
    rw [goesOn]
    exact moves value after kept

/-- What reads only may come after a step. -/
theorem moves_before_reading {α β : Type} {token : TokenKeys} {answers : Set TokenSelf} {server : Server σ}
    {first : Action α} {next : α → Action β} (reads : ∀ value, (next value).Only Reads) {world : World σ} {held : View}
    (moves : Moves token answers held (first.alone (perform server) world).2.view) :
    Moves token answers held ((first >>= next).alone (perform server) world).2.view := by
  obtain ⟨failure, after, ran, ends⟩ | ⟨value, after, ran, goesOn⟩ :=
    Program.alone_bind (perform server) first next world
  · rw [ran] at moves
    rwa [ends]
  · rw [ran] at moves
    rw [goesOn, alone_view server (reads value) after]
    exact moves

/-- A call adopts at most one view. -/
theorem names_moves {token : TokenKeys} {answers : Set TokenSelf} {server : Server σ} (confined : Within answers server)
    (world : World σ) (pages : Nat) : Moves token answers world.view (callNames token server world pages).view := by
  refine moves_after_reading (.attempt (tryNames_reads pages)) world fun outcome after same => ?_
  cases outcome with
  | ok items => exact .inl same
  | error halt =>
    cases halt with
    | failed failure => exact .inl same
    | stale =>
      refine moves_before_reading (fun _ => ?_) (same ▸ reload_moves confined after)
      refine .bind (.attempt (tryNames_reads pages)) fun again => ?_
      cases again with
      | ok items => exact .pure items
      | error halt => cases halt <;> exact .fail _

/-! ## Runs keep the pin exactly without a fork -/

/-- A view that was verified. -/
def Verified (token : TokenKeys) (answers : Set TokenSelf) (view : View) : Prop :=
  ∃ me ∈ answers, verifySelf token me = .ok view

theorem Moves.verified {token : TokenKeys} {answers : Set TokenSelf} {held adopted : View}
    (moves : Moves token answers held adopted) (verified : Verified token answers held) :
    Verified token answers adopted := by
  obtain rfl | ⟨me, shown, accepted, _⟩ := moves
  · exact verified
  · exact ⟨me, shown, accepted⟩

theorem opened_verified {token : TokenKeys} {answers : Set TokenSelf} {server : Server σ} (confined : Within answers server)
    {start : σ} {opened : World σ} (opens : openEnv token server start = .ok opened) :
    Verified token answers opened.view := by
  unfold openEnv at opens
  split at opens
  · cases opens
  · next me state answered =>
    cases accepted : verifySelf token me with
    | error failure =>
      rw [accepted] at opens
      cases opens
    | ok view =>
      rw [accepted] at opens
      cases opens
      exact ⟨me, confined start me (congrArg Prod.fst answered), accepted⟩

/-- Over a run, the view held is one that was verified. -/
theorem run_verified {token : TokenKeys} {answers : Set TokenSelf} {server : Server σ} (confined : Within answers server)
    {world : World σ} (verified : Verified token answers world.view) (calls : List Nat) :
    Verified token answers (calls.foldl (callNames token server) world).view := by
  induction calls generalizing world with
  | nil => exact verified
  | cons pages calls inductionHypothesis =>
    exact inductionHypothesis ((names_moves confined world pages).verified verified)

/-- Whatever the server answers, no generation goes back. -/
theorem names_never_older {token : TokenKeys} (server : Server σ) (world : World σ) (pages : Nat) :
    world.view.descriptor.generation ≤ (callNames token server world pages).view.descriptor.generation := by
  have anything : Within Set.univ server := fun _ _ _ => trivial
  obtain same | ⟨_, _, _, later⟩ := names_moves anything world pages
  · rw [same]
  · exact later

theorem keepsPin_of_unforked {token : TokenKeys} {signed : Set SignedDescriptor} {answers : Set TokenSelf}
    (unforked : Unforked token signed answers) {server : Server σ} (confined : Within answers server) :
    KeepsPin token signed server := by
  intro start opened opens calls pages world
  obtain ⟨me, shown, accepted⟩ := run_verified confined (opened_verified confined opens) calls
  obtain same | ⟨next, showsNext, acceptsNext, later⟩ := names_moves confined world pages
  · exact .inl (congrArg View.descriptor same)
  · exact unforked me shown next showsNext _ _ accepted acceptsNext later

/-- An item of another generation than the one given. -/
def strayItem (generation : Nat) : SecretListItem where
  nameHmac := ⟨.fill 32 0⟩
  nameCt := ⟨[]⟩
  version := 1
  writtenAt := 0
  size := 0
  tombstone := true
  generation := if generation = 0 then 1 else 0
  valueCtHash := ⟨.fill 32 0⟩
  sig := ⟨.fill 64 0⟩

/-- A server that shows one view first and another afterwards, and lists an item of another
generation than the first. -/
def forking (first next : TokenSelf) (generation : Nat) : Server Bool where
  answer
    | .tokenSelf, shown => (.ok (if shown then next else first), true)
    | .list _ _, shown => (.ok ⟨[strayItem generation], none⟩, shown)
    | _, shown => (.error .transport, shown)

omit [Crypto] [Digests] [Ed25519] [Unsealing] in
theorem forking_within {answers : Set TokenSelf} {first next : TokenSelf} (shown : first ∈ answers) (later : next ∈ answers)
    (generation : Nat) : Within answers (forking first next generation) := by
  intro state me answered
  cases state
  · cases answered
    exact shown
  · cases answered
    exact later

theorem forking_opens {token : TokenKeys} {first next : TokenSelf} {held : View} (accepted : verifySelf token first = .ok held)
    (generation : Nat) : openEnv token (forking first next generation) false = .ok ⟨held, true⟩ := by
  change (verifySelf token first).map _ = _
  rw [accepted]
  rfl

omit [Unsealing] in
/-- The listing under the held view is stale. -/
theorem checkItems_stray (view : View) : checkItems view [strayItem view.descriptor.generation] = .error .stale := by
  have other : (strayItem view.descriptor.generation).generation ≠ view.descriptor.generation := by
    change (if view.descriptor.generation = 0 then 1 else 0) ≠ view.descriptor.generation
    split
    · next zero => omega
    · next some_generation => exact Ne.symm some_generation
  rw [checkItems, if_pos other]

omit [Unsealing] in
theorem forking_lists {first next : TokenSelf} (held : View) :
    (tryNames 1).alone (perform (forking first next held.descriptor.generation)) ⟨held, true⟩ =
      (.error .stale, ⟨held, true⟩) := by
  have listed : (tryPages held 1 none).alone (perform (forking first next held.descriptor.generation)) ⟨held, true⟩ =
      (.error .stale, ⟨held, true⟩) := by
    rw [tryPages, Program.alone_ask_bind]
    change (Program.done (checkItems held [strayItem held.descriptor.generation]) >>= _).alone _ _ = _
    rw [checkItems_stray]
    rfl
  rw [tryNames, Program.alone_ask_bind]
  exact Program.alone_bind_error _ _ listed

theorem forking_reloads {token : TokenKeys} {first next : TokenSelf} {held adopted : View}
    (accepted : verifySelf token next = .ok adopted)
    (later : held.descriptor.generation ≤ adopted.descriptor.generation) :
    (reload token).alone (perform (forking first next held.descriptor.generation)) ⟨held, true⟩ =
      (.ok (), ⟨adopted, true⟩) := by
  have room : ¬ adopted.descriptor.generation < held.descriptor.generation := Nat.not_lt.mpr later
  simp only [reload, Program.alone_ask_bind, perform, forking, if_true, accepted, room, if_false]
  rfl

/-- The first call over such a server adopts the other view. -/
theorem forking_adopts {token : TokenKeys} {first next : TokenSelf} {held adopted : View}
    (accepted : verifySelf token next = .ok adopted)
    (later : held.descriptor.generation ≤ adopted.descriptor.generation) :
    (callNames token (forking first next held.descriptor.generation) ⟨held, true⟩ 1).view = adopted := by
  have listed : (tryNames 1).attempt.alone (perform (forking first next held.descriptor.generation)) ⟨held, true⟩ =
      (.ok (.error .stale), ⟨held, true⟩) := by rw [Program.alone_attempt, forking_lists]
  have reads : (tryNames 1).attempt.Only Reads := .attempt (tryNames_reads 1)
  have reloaded := @forking_reloads _ _ _ _ token first next held adopted accepted later
  unfold callNames names
  rw [Program.alone_bind_ok _ _ listed]
  dsimp only
  rw [Program.alone_bind_ok _ _ reloaded]
  refine alone_view _ (.bind reads fun again => ?_) _
  cases again with
  | ok items => exact .pure items
  | error halt => cases halt <;> exact .fail _

/-- The pin is kept in every run over every server that has only these answers, if and only if
the answers hold no fork and no gap. -/
theorem names_keep_pin_iff (token : TokenKeys) (signed : Set SignedDescriptor) (answers : Set TokenSelf) :
    (∀ (σ : Type) (server : Server σ), Within answers server → KeepsPin token signed server) ↔
      Unforked token signed answers := by
  constructor
  · intro kept first shown next later held adopted acceptedFirst acceptedNext notOlder
    have confined := forking_within shown later held.descriptor.generation
    have keeps : PinKept token signed held.descriptor
        (callNames token (forking first next held.descriptor.generation) ⟨held, true⟩ 1).view.descriptor :=
      kept Bool _ confined false _ (forking_opens acceptedFirst _) [] 1
    rwa [forking_adopts acceptedNext notOlder] at keeps
  · exact fun unforked σ server confined => keepsPin_of_unforked unforked confined

end

/-! ## A fork -/

/-- The descriptor of the first generation, of either of two branches. -/
def branch (createdAt : Int) : Descriptor := { listedDescriptor with createdAt := createdAt }

/-- A meta token of the vault. -/
def branchToken : TokenKeys :=
  let _ := plain
  let _ := Backend.checksum
  ⟨⟨.fill 16 3⟩, listedOwner.vaultId, .fill 32 4⟩

/-- What the server shows the token of a branch: the owner signed both descriptors, and the
bundle is for the generation. -/
def branchSelf (createdAt : Int) : TokenSelf :=
  let _ := plain
  let _ := Backend.checksum
  let sealedBytes := listedBundle.encodeFor .metadata branchToken.vaultId branchToken.id
  { tokenId := branchToken.id, vaultId := branchToken.vaultId, scope := .known .metadata, allowList := none,
    ownerSignPub := listedOwner.signPub, descriptor := listedOwner.signDescriptor (branch createdAt),
    bundle := ⟨⟨sealedBytes⟩, listedOwner.signBundle branchToken.id Scope.metadata.code 1 sealedBytes⟩ }

theorem branch_accepted (createdAt : Int) (small : createdAt = 1 ∨ createdAt = 2) :
    let _ := plain
    let _ := Backend.checksum
    let _ := plainVerify
    let _ := plainUnseal
    verifySelf branchToken (branchSelf createdAt) = .ok ⟨branch createdAt, listedBundle.nameKey⟩ := by
  obtain rfl | rfl := small <;> decide +kernel

/-- The owner signed two descriptors of the first generation. An agent's server that holds one
adopts the other. -/
theorem fork_adopted :
    let _ := plain
    let _ := Backend.checksum
    let _ := plainVerify
    let _ := plainUnseal
    let server := forking (branchSelf 1) (branchSelf 2) 1
    let opened : World Bool := ⟨⟨branch 1, listedBundle.nameKey⟩, true⟩
    openEnv branchToken server false = .ok opened ∧
      (callNames branchToken server opened 1).view.descriptor = branch 2 ∧
      (branch 2).generation = (branch 1).generation ∧ branch 2 ≠ branch 1 ∧
      ∀ signed, ¬ KeepsPin branchToken signed server := by
  intro _ _ _ _ server opened
  have opens : openEnv branchToken server false = .ok opened := forking_opens (branch_accepted 1 (.inl rfl)) 1
  have adopts : (callNames branchToken server opened 1).view = ⟨branch 2, listedBundle.nameKey⟩ :=
    @forking_adopts _ _ _ _ branchToken (branchSelf 1) _ opened.view _ (branch_accepted 2 (.inr rfl)) (by decide)
  have different : branch 2 ≠ branch 1 := fun equal => absurd (congrArg Descriptor.createdAt equal) (by decide)
  have same : (branch 2).generation = (branch 1).generation := by decide
  refine ⟨opens, congrArg View.descriptor adopts, same, different, fun signed keeps => ?_⟩
  have kept : PinKept branchToken signed (branch 1) (callNames branchToken server opened 1).view.descriptor :=
    keeps false opened opens [] 1
  rw [adopts] at kept
  obtain equal | ⟨newer, _⟩ := kept
  · exact different equal
  · exact Nat.ne_of_lt newer same.symm

end GalataVault.Mcp

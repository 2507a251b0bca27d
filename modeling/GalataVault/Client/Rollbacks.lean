import GalataVault.Client.Threads

/-!
# Latest versions of a record

A handle accepts a latest version of a record by checking it against the version
pinned under the record's index. Indexes belong to a name key: a pin is of use as long
as the view in force names the record by the index it is pinned under, and pins that a
caller kept replace those of the handle.

What was accepted is remembered as long as no step drops it. Then no older version is
accepted, whatever the server answers and however the calls interleave.
-/

namespace GalataVault.Client

open Proto Interaction

/-! ## One check -/

theorem Pins.versions_insert_self (pins : Pins) (kind : RecordCode) (index : NameHmac) (version : Nat) :
    (pins.insert kind index version).versions kind index = some version := by
  cases kind <;> simp [Pins.insert, Pins.versions]

theorem Pins.versions_insert_other (pins : Pins) {kind other : RecordCode} {index slot : NameHmac} (version : Nat)
    (different : other ≠ kind ∨ slot ≠ index) :
    (pins.insert kind index version).versions other slot = pins.versions other slot := by
  cases kind <;> cases other <;> simp_all [Pins.insert, Pins.versions]

/-- The check passes a version that is not below the pinned one, and pins it; else it
leaves everything as it is. -/
theorem checkVersion_cases (shared : Shared) (kind : RecordCode) (index : NameHmac) (got : Nat) :
    ((shared.checkVersion kind index got).1 = .ok () ∧ (∀ known, shared.pins.versions kind index = some known → known ≤ got) ∧
        (shared.checkVersion kind index got).2 = { shared with pins := shared.pins.insert kind index got }) ∨
      (∃ known, shared.pins.versions kind index = some known ∧ got < known ∧
        shared.checkVersion kind index got = (.error (.integrity (.versionRollback known got)), shared)) := by
  unfold Shared.checkVersion
  split
  · next missing =>
    refine .inl ⟨rfl, fun known found => ?_, rfl⟩
    rw [missing] at found
    cases found
  · next known found =>
    split
    · next less => exact .inr ⟨known, found, less, rfl⟩
    · next notLess =>
      refine .inl ⟨rfl, fun other same => ?_, rfl⟩
      obtain rfl := Option.some.inj (found.symm.trans same)
      exact Nat.le_of_not_lt notLess

section

variable [Crypto] [Digests] [Ed25519] [Unsealing] (handle : Handle)

/-! ## What is accepted and what is remembered -/

/-- A latest version of a record that passed the check. -/
structure Acceptance where
  kind : RecordCode
  name : String
  index : NameHmac
  version : Nat
deriving DecidableEq

/-- The latest version of a named record that an event accepts: a call checks it against
the pins, and it passes. -/
def accepted (state : Threads) : ThreadEvent → Option Acceptance
  | .arrive _ => none
  | .advance call _ =>
    match state.flights[call]? with
    | some ⟨_, .perform (.checkVersion name kind index got) _⟩ =>
      match (state.world.checkVersion kind index got).1 with
      | .ok () => some ⟨kind, name, index, got⟩
      | .error _ => none
    | _ => none

/-- The pins that a caller kept and an event adopts. -/
def adopted (state : Threads) : ThreadEvent → Option Pins
  | .arrive _ => none
  | .advance call _ =>
    match state.flights[call]? with
    | some ⟨_, .perform (.adopt pins) _⟩ => some pins
    | _ => none

/-- The version pinned of a named record, under its index in the view in force. -/
def Shared.known (shared : Shared) (kind : RecordCode) (name : String) : Option Nat :=
  shared.pins.versions kind (shared.view.bundle.nameKey.index kind name)

/-- An event by which the handle learns of a latest version of a named record: it
accepts it, or adopts it from pins. -/
def Learns (state : Threads) (event : ThreadEvent) (kind : RecordCode) (name : String) (version : Nat) : Prop :=
  (∃ index, accepted state event = some ⟨kind, name, index, version⟩) ∨
    ∃ pins, adopted state event = some pins ∧ { state.world with pins := pins }.known kind name = some version

/-- Every version known before is known afterwards, or a later one is. -/
def Shared.Keeps (before after : Shared) : Prop :=
  ∀ kind name version, before.known kind name = some version → ∃ later, version ≤ later ∧ after.known kind name = some later

/-- A step that drops nothing the handle knows: the view it puts in force has every
known version pinned under its own indexes, the pins it adopts have every known version,
and a version is checked under the index the record has in the view in force. -/
def Mindful (state : Threads) : ThreadEvent → Prop
  | .arrive _ => True
  | .advance call _ =>
    match state.flights[call]? with
    | some ⟨_, .perform (.setView view) _⟩ => state.world.Keeps { state.world with view := view }
    | some ⟨_, .perform (.adopt pins) _⟩ => state.world.Keeps { state.world with pins := pins }
    | some ⟨_, .perform (.checkVersion name kind index _) _⟩ => index = state.world.view.bundle.nameKey.index kind name
    | _ => True

omit [Digests] [Ed25519] [Unsealing] in
theorem Shared.Keeps.refl (shared : Shared) : shared.Keeps shared := by
  intro kind name version known
  exact ⟨version, Nat.le_refl _, known⟩

omit [Digests] [Ed25519] [Unsealing] in
theorem Shared.Keeps.trans {first second third : Shared} (one : first.Keeps second) (two : second.Keeps third) :
    first.Keeps third := by
  intro kind name version known
  obtain ⟨later, atLeast, knownLater⟩ := one kind name version known
  obtain ⟨last, further, knownLast⟩ := two kind name later knownLater
  exact ⟨last, Nat.le_trans atLeast further, knownLast⟩

omit [Digests] [Ed25519] [Unsealing] in
/-- A check keeps what is known. -/
theorem keeps_checkVersion (shared : Shared) (kind : RecordCode) (index : NameHmac) (got : Nat) :
    shared.Keeps (shared.checkVersion kind index got).2 := by
  rcases checkVersion_cases shared kind index got with ⟨_, atLeast, pinned⟩ | ⟨_, _, _, refused⟩
  · rw [pinned]
    intro other name version known
    change ∃ later, version ≤ later ∧ (shared.pins.insert kind index got).versions other
      (shared.view.bundle.nameKey.index other name) = some later
    by_cases same : other = kind ∧ shared.view.bundle.nameKey.index other name = index
    · obtain ⟨rfl, rfl⟩ := same
      exact ⟨got, atLeast version known, Pins.versions_insert_self _ _ _ _⟩
    · refine ⟨version, Nat.le_refl _, ?_⟩
      rw [Pins.versions_insert_other _ _ (by tauto)]
      exact known
  · rw [refused]
    exact .refl shared

/-! ## What a call reports -/

/-- The latest versions a call reports by what it returns: one that was read without a
version given, every one that was listed, and one that was written. -/
def HandleCall.reports : HandleCall → Returned → List (RecordCode × String × Nat)
  | .get kind name none, .record opened => [(kind, name, opened.version)]
  | .list kind _, .items items => items.map fun item => (kind, item.name, item.version)
  | .put kind name _ _ _ _, .written version => [(kind, name, version)]
  | .delete kind name _ _, .written version => [(kind, name, version)]
  | _, _ => []

/-- The checks a call made that passed. -/
def notePassed : {β : Type} → List (RecordCode × String × Nat) → HandleOp β → β → List (RecordCode × String × Nat)
  | _, passed, .checkVersion name kind _ got, .ok () => (kind, name, got) :: passed
  | _, passed, _, _ => passed

/-- The watch that notes them. -/
def checks : Watch HandleOp (List (RecordCode × String × Nat)) := { note := notePassed, allowed := fun _ _ => True }

omit [Crypto] [Digests] [Ed25519] [Unsealing] in
/-- A check that a call goes on from was noted. -/
theorem check_obeys {α : Type} {passed : List (RecordCode × String × Nat)} (kind : RecordCode) (name : String)
    (index : NameHmac) (got : Nat) (next : Action α) {post : Except Error α → List (RecordCode × String × Nat) → Prop}
    (fails : ∀ e later, post (.error e) later) (goes : next.Obeys checks ((kind, name, got) :: passed) post) :
    (Program.ask (.checkVersion name kind index got) >>= fun checked =>
      Action.check checked >>= fun _ => next).Obeys checks passed post := by
  refine ⟨trivial, fun answer => ?_⟩
  cases answer with
  | error e => exact fails _ _
  | ok done => exact goes

omit [Crypto] [Digests] [Ed25519] [Unsealing] in
/-- What was noted stays, whatever a call does next. -/
theorem obeys_grows {α : Type} (action : Action α) (passed : List (RecordCode × String × Nat)) :
    action.Obeys checks passed fun _ later => passed ⊆ later := by
  have grows : ∀ {β : Type} (op : HandleOp β) (answer : β) (noted : List (RecordCode × String × Nat)),
      noted ⊆ notePassed noted op answer := by
    intro β op answer noted
    cases op with
    | checkVersion name kind index got =>
      cases answer with
      | ok done => exact List.subset_cons_self _ _
      | error e => exact List.Subset.refl _
    | _ => exact List.Subset.refl _
  induction action generalizing passed with
  | done result => exact List.Subset.refl _
  | perform op rest inductionHypothesis =>
    refine ⟨trivial, fun answer => ?_⟩
    apply Program.Obeys.mono (inductionHypothesis answer _)
    intro _ later within
    exact List.Subset.trans (grows op answer passed) within

omit [Crypto] [Digests] [Ed25519] [Unsealing] in
/-- A call goes on only from a check of its own that succeeds. -/
theorem checked_obeys {α β : Type} {ν : Type} {watch : Watch HandleOp ν} {noted : ν} {result : Except Error β}
    {next : β → Action α} {post : Except Error α → ν → Prop} (fails : ∀ e, post (.error e) noted)
    (goes : ∀ value, result = .ok value → (next value).Obeys watch noted post) :
    (Action.check result >>= next).Obeys watch noted post := by
  cases result with
  | error e => exact fails e
  | ok value => exact goes value rfl

omit [Unsealing] in
theorem checkListed_reports (v : View) (kind : RecordCode) (it : SecretListItem)
    (passed : List (RecordCode × String × Nat)) :
    (Handle.checkListed v kind it).Obeys checks passed fun result later =>
      passed ⊆ later ∧ ∀ item, result = .ok item → (kind, item.name, item.version) ∈ later := by
  apply checked_obeys
  · intro e
    exact ⟨List.Subset.refl _, fun item impossible => by cases impossible⟩
  intro _ _
  apply checked_obeys
  · intro e
    exact ⟨List.Subset.refl _, fun item impossible => by cases impossible⟩
  intro name _
  refine ⟨trivial, fun answer => ?_⟩
  cases answer with
  | error e => exact ⟨List.Subset.refl _, fun item impossible => by cases impossible⟩
  | ok done =>
    refine ⟨List.subset_cons_self _ _, fun item same => ?_⟩
    obtain rfl := Except.ok.inj same
    exact List.mem_cons_self

omit [Unsealing] in
theorem checkPage_reports (v : View) (kind : RecordCode) (items : List SecretListItem)
    (passed : List (RecordCode × String × Nat)) :
    (Handle.checkPage v kind items).Obeys checks passed fun result later =>
      passed ⊆ later ∧ ∀ list, result = .ok list → ∀ item ∈ list, (kind, item.name, item.version) ∈ later := by
  induction items generalizing passed with
  | nil =>
    refine ⟨List.Subset.refl _, fun list same item member => ?_⟩
    obtain rfl := Except.ok.inj same
    cases member
  | cons it rest inductionHypothesis =>
    apply Program.Obeys.bind
    apply (checkListed_reports v kind it passed).mono
    rintro result noted ⟨within, reported⟩
    cases result with
    | error e => exact ⟨within, fun list impossible => by cases impossible⟩
    | ok first =>
      apply Program.Obeys.bind
      apply (inductionHypothesis noted).mono
      rintro result later ⟨further, others⟩
      cases result with
      | error e => exact ⟨List.Subset.trans within further, fun list impossible => by cases impossible⟩
      | ok list =>
        refine ⟨List.Subset.trans within further, fun whole same item member => ?_⟩
        obtain rfl := Except.ok.inj same
        rcases List.mem_cons.mp member with rfl | other
        · exact further (reported item rfl)
        · exact others list rfl item other

omit [Unsealing] in
theorem listPages_reports (v : View) (kind : RecordCode) (pages : Nat) (after : Option NameHmac)
    (passed : List (RecordCode × String × Nat)) :
    (Handle.listPages v kind pages after).Obeys checks passed fun result later =>
      passed ⊆ later ∧ ∀ list, result = .ok list → ∀ item ∈ list, (kind, item.name, item.version) ∈ later := by
  induction pages generalizing after passed with
  | zero => exact ⟨List.Subset.refl _, fun list impossible => by cases impossible⟩
  | succ pages inductionHypothesis =>
    refine ⟨trivial, fun answer => ?_⟩
    cases answer with
    | error e => exact ⟨List.Subset.refl _, fun list impossible => by cases impossible⟩
    | ok page =>
      change Program.Obeys checks (Handle.checkPage v kind page.items >>= _) passed _
      apply Program.Obeys.bind
      apply (checkPage_reports v kind page.items passed).mono
      rintro result noted ⟨within, reported⟩
      cases result with
      | error e => exact ⟨within, fun list impossible => by cases impossible⟩
      | ok items =>
        cases next : page.nextCursor with
        | none =>
          simp only [Program.Next]
          refine ⟨within, fun list same => ?_⟩
          obtain rfl := Except.ok.inj same
          exact reported items rfl
        | some cursor =>
          simp only [Program.Next]
          apply Program.Obeys.bind
          apply (inductionHypothesis (some cursor) noted).mono
          rintro result later ⟨further, others⟩
          cases result with
          | error e => exact ⟨List.Subset.trans within further, fun list impossible => by cases impossible⟩
          | ok more =>
            refine ⟨List.Subset.trans within further, fun list same item member => ?_⟩
            obtain rfl := Except.ok.inj same
            rcases List.mem_append.mp member with first | second
            · exact further (reported items rfl item first)
            · exact others more rfl item second

omit [Unsealing] in
/-- The latest version that was fetched has passed its check. -/
theorem fetch_reports (v : View) (kind : RecordCode) (name : String) (passed : List (RecordCode × String × Nat)) :
    (handle.fetch v kind name none).Obeys checks passed fun result later =>
      ∀ record, result = .ok record → (kind, name, record.version) ∈ later := by
  refine ⟨trivial, fun answer => ?_⟩
  cases answer with
  | ok record =>
    change Program.Obeys checks (if record.nameHmac ≠ v.bundle.nameKey.index kind name then _ else _) passed _
    split
    · exact fun record impossible => by cases impossible
    · apply checked_obeys
      · exact fun e record impossible => by cases impossible
      intro _ _
      apply check_obeys
      · exact fun e later record impossible => by cases impossible
      intro other same
      obtain rfl := Except.ok.inj same
      exact List.mem_cons_self
  | error e =>
    change Program.Obeys checks (if e.code = some .notFound then _ else _) passed _
    split
    · apply Program.Obeys.bind
      apply (obeys_grows (handle.movedOn v) passed).mono
      rintro result later _
      cases result with
      | error e => exact fun record impossible => by cases impossible
      | ok moved => cases moved <;> exact fun record impossible => by cases impossible
    · split <;> exact fun record impossible => by cases impossible

omit [Unsealing] in
theorem openSecret_version {d : Descriptor} {nameKey : NameKey} {vaultSecret : VaultSecret} {record : SecretVersion}
    {opened : OpenedRecord} (opens : openSecret d nameKey vaultSecret record = .ok opened) :
    opened.version = record.version := by
  obtain ⟨_, _, opens⟩ := except_bind_ok opens
  obtain ⟨_, _, opens⟩ := except_bind_ok opens
  obtain ⟨_, _, opens⟩ := except_bind_ok opens
  obtain rfl := Except.ok.inj opens
  rfl

omit [Unsealing] in
theorem openConfigRecord_version {d : Descriptor} {nameKey : NameKey} {configSecret : ConfigSecret}
    {record : SecretVersion} {opened : OpenedRecord}
    (opens : openConfigRecord d nameKey configSecret record = .ok opened) : opened.version = record.version := by
  obtain ⟨_, _, opens⟩ := except_bind_ok opens
  obtain ⟨_, _, opens⟩ := except_bind_ok opens
  obtain ⟨_, _, opens⟩ := except_bind_ok opens
  obtain rfl := Except.ok.inj opens
  rfl

omit [Unsealing] in
/-- A record that is fetched and then opened as the version it is of. -/
theorem opened_reports (v : View) (kind : RecordCode) (name : String) (passed : List (RecordCode × String × Nat))
    {opens : SecretVersion → Except SealError OpenedRecord} {gone : OpenedRecord → Prop} [DecidablePred gone]
    (same : ∀ record opened, opens record = .ok opened → opened.version = record.version) :
    (handle.fetch v kind name none >>= fun record => Action.check ((opens record).mapError .sealing) >>= fun opened =>
      if gone opened then Program.fail .notFound else pure opened : Action OpenedRecord).Obeys checks passed
        fun result later => ∀ opened, result = .ok opened → (kind, name, opened.version) ∈ later := by
  apply Program.Obeys.bind
  apply (fetch_reports handle v kind name passed).mono
  intro result later reported
  cases result with
  | error e => exact fun opened impossible => by cases impossible
  | ok record =>
    apply checked_obeys
    · exact fun e opened impossible => by cases impossible
    intro opened opens
    split
    · exact fun opened impossible => by cases impossible
    · intro other returned
      obtain rfl := Except.ok.inj returned
      rw [same record opened (except_mapError_ok opens)]
      exact reported record rfl

omit [Unsealing] in
theorem get_reports (name : String) (passed : List (RecordCode × String × Nat)) :
    (handle.get name none).Obeys checks passed fun result later =>
      ∀ opened, result = .ok opened → (RecordCode.secret, name, opened.version) ∈ later := by
  refine ⟨trivial, fun v => ?_⟩
  simp only [Program.bind]
  split
  · exact fun opened impossible => by cases impossible
  · exact opened_reports handle v .secret name passed fun _ _ => openSecret_version

omit [Unsealing] in
theorem getConfig_reports (name : String) (passed : List (RecordCode × String × Nat)) :
    (handle.getConfig name none).Obeys checks passed fun result later =>
      ∀ opened, result = .ok opened → (RecordCode.config, name, opened.version) ∈ later := by
  refine ⟨trivial, fun v => ?_⟩
  simp only [Program.bind]
  split
  · exact fun opened impossible => by cases impossible
  · exact opened_reports handle v .config name passed fun _ _ => openConfigRecord_version

omit [Unsealing] in
/-- A version that was written has passed its check. -/
theorem sendWrite_reports (v : View) (name : String) (written : WrittenRecord) (pre : Pre)
    (passed : List (RecordCode × String × Nat)) :
    (handle.sendWrite v name written pre).Obeys checks passed fun result later =>
      ∀ version, result = .ok version → (written.kind, name, version) ∈ later := by
  refine ⟨trivial, fun answer => ?_⟩
  cases answer with
  | ok version =>
    change Program.Obeys checks (if version ≠ written.version then _ else _) passed _
    split
    · exact fun version impossible => by cases impossible
    · apply check_obeys
      · exact fun e later version impossible => by cases impossible
      intro other same
      obtain rfl := Except.ok.inj same
      exact List.mem_cons_self
  | error e =>
    change Program.Obeys checks (if e.code = some .preconditionFailed ∨ e.code = some .versionMismatch then _ else _)
      passed _
    split
    · apply Program.Obeys.bind
      apply (obeys_grows (handle.conflict v written.kind name) passed).mono
      rintro result later _
      cases result <;> exact fun version impossible => by cases impossible
    · split
      · exact fun version impossible => by cases impossible
      · split <;> exact fun version impossible => by cases impossible

omit [Unsealing] in
theorem writeValue_reports (v : View) (kind : RecordCode) (name : String) (format : ConfigFormat) (body : List UInt8)
    (pre : Pre) (signing : Signing) (passed : List (RecordCode × String × Nat)) :
    (handle.writeValue v kind name format body pre signing).Obeys checks passed fun result later =>
      ∀ version, result = .ok version → (kind, name, version) ∈ later := by
  unfold Handle.writeValue
  split
  · exact fun version impossible => by cases impossible
  · apply checked_obeys
    · exact fun e version impossible => by cases impossible
    intro written signed
    have same : written.kind = kind := by
      cases kind with
      | secret => exact (secret_ok (except_mapError_ok signed)).1
      | config => exact (config_ok (except_mapError_ok signed)).1
    rw [← same]
    exact sendWrite_reports handle v name written pre passed

omit [Unsealing] in
theorem writeTombstone_reports (v : View) (kind : RecordCode) (name : String) (pre : Pre) (signing : Signing)
    (passed : List (RecordCode × String × Nat)) :
    (handle.writeTombstone v kind name pre signing).Obeys checks passed fun result later =>
      ∀ version, result = .ok version → (kind, name, version) ∈ later := by
  unfold Handle.writeTombstone
  split
  · exact fun version impossible => by cases impossible
  · apply checked_obeys
    · exact fun e version impossible => by cases impossible
    intro written signed
    rw [← (tombstone_ok (except_mapError_ok signed)).1]
    exact sendWrite_reports handle v name written pre passed

omit [Crypto] [Digests] [Ed25519] [Unsealing] in
/-- A call that returns what a part of it ends with. -/
theorem wrapped_reports {β : Type} {call : HandleCall} {action : Action β} (wrap : β → Returned)
    (obeys : action.Obeys checks [] fun result passed =>
      ∀ value, result = .ok value → ∀ report ∈ call.reports (wrap value), report ∈ passed) :
    (wrap <$> action).Obeys checks [] fun result passed =>
      ∀ returned, result = .ok returned → ∀ report ∈ call.reports returned, report ∈ passed := by
  apply Program.Obeys.bind
  apply obeys.mono
  intro result passed reported
  cases result with
  | error e => exact fun returned impossible => by cases impossible
  | ok value =>
    intro returned same
    obtain rfl := Except.ok.inj same
    exact reported value rfl

/-- Every latest version a call reports has passed its check. -/
theorem call_reports (call : HandleCall) :
    (call.program handle).Obeys checks [] fun result passed =>
      ∀ returned, result = .ok returned → ∀ report ∈ call.reports returned, report ∈ passed := by
  have silent : ∀ (action : Action Returned), (∀ returned, call.reports returned = []) →
      action.Obeys checks [] fun result passed =>
        ∀ returned, result = .ok returned → ∀ report ∈ call.reports returned, report ∈ passed := by
    intro action none
    apply (obeys_grows action []).mono
    intro result passed _ returned _ report member
    rw [none returned] at member
    cases member
  cases call with
  | get kind name version =>
    cases version with
    | some want => exact silent _ fun returned => by cases returned <;> rfl
    | none =>
      cases kind with
      | secret =>
        apply wrapped_reports Returned.record
        apply (get_reports handle name []).mono
        intro result passed reported opened same report member
        obtain rfl := List.mem_singleton.mp member
        exact reported opened same
      | config =>
        apply wrapped_reports Returned.record
        apply (getConfig_reports handle name []).mono
        intro result passed reported opened same report member
        obtain rfl := List.mem_singleton.mp member
        exact reported opened same
  | list kind pages =>
    refine ⟨trivial, fun v => ?_⟩
    apply wrapped_reports Returned.items
    apply Program.Obeys.bind
    apply (listPages_reports v kind pages none []).mono
    rintro result passed ⟨_, reported⟩
    cases result with
    | error e => exact fun items impossible => by cases impossible
    | ok items =>
      intro sorted same report member
      obtain rfl := Except.ok.inj same
      obtain ⟨item, listed, rfl⟩ := List.mem_map.mp member
      exact reported items rfl item ((List.mem_insertionSort _).mp listed)
  | versions kind name => exact silent _ fun returned => by cases returned <;> rfl
  | current kind name => exact silent _ fun returned => by cases returned <;> rfl
  | put kind name format body pre signing =>
    refine ⟨trivial, fun v => ?_⟩
    apply wrapped_reports Returned.written
    apply (writeValue_reports handle v kind name format body pre signing []).mono
    intro result passed reported version same report member
    obtain rfl := List.mem_singleton.mp member
    exact reported version same
  | delete kind name version signing =>
    refine ⟨trivial, fun v => ?_⟩
    apply wrapped_reports Returned.written
    apply (writeTombstone_reports handle v kind name (.update version) signing []).mono
    intro result passed reported version same report member
    obtain rfl := List.mem_singleton.mp member
    exact reported version same
  | refresh => exact silent _ fun returned => by cases returned <;> rfl
  | setPins pins => exact silent _ fun returned => by cases returned <;> rfl

/-! ## Runs -/

/-- A mindful step keeps what is known. -/
theorem keeps_step {state : Threads} {event : ThreadEvent} (mindful : Mindful state event) :
    state.world.Keeps (Interaction.step (threads handle) state event).world := by
  cases event with
  | arrive call => exact .refl _
  | advance call answers =>
    simp only [Interaction.step, Interaction.advance]
    split
    · next seen β op rest here =>
      simp only [Mindful, here] at mindful
      cases op with
      | view | pinned | ask => exact .refl _
      | setPin pin => exact .refl _
      | setView view => exact mindful
      | adopt pins => exact mindful
      | checkVersion name kind index got => exact keeps_checkVersion _ kind index got
    · exact .refl _

theorem keeps_run {state : Threads} {events : List ThreadEvent}
    (mindful : Machine.Throughout (Interaction.step (threads handle)) Mindful state events) :
    state.world.Keeps (runThreads handle state events).world := by
  induction events generalizing state with
  | nil => exact .refl _
  | cons event events inductionHypothesis =>
    exact (keeps_step handle mindful.1).trans (inductionHypothesis mindful.2)

/-- What an event accepts is known after it, and is not below what was known before. -/
theorem accepted_known {state : Threads} {event : ThreadEvent} {acceptance : Acceptance}
    (accepts : accepted state event = some acceptance) (mindful : Mindful state event) :
    (∀ before, state.world.known acceptance.kind acceptance.name = some before → before ≤ acceptance.version) ∧
      (Interaction.step (threads handle) state event).world.known acceptance.kind acceptance.name =
        some acceptance.version := by
  cases event with
  | arrive call => cases accepts
  | advance call answers =>
    simp only [accepted] at accepts
    split at accepts
    · next seen name kind index version rest here =>
      simp only [Mindful, here] at mindful
      rcases checkVersion_cases state.world kind index version with ⟨passed, atLeast, pinned⟩ | ⟨_, _, _, refused⟩
      · rw [passed] at accepts
        cases accepts
        refine ⟨fun before known => atLeast before (by rw [mindful]; exact known), ?_⟩
        simp only [Interaction.step, Interaction.advance, here]
        change (state.world.checkVersion kind index version).2.known kind name = some version
        rw [pinned, mindful]
        exact Pins.versions_insert_self _ _ _ _
      · rw [refused] at accepts
        cases accepts
    · cases accepts

/-- What an event adopts is known after it. -/
theorem adopted_known {state : Threads} {event : ThreadEvent} {pins : Pins} {kind : RecordCode} {name : String}
    {version : Nat} (adopts : adopted state event = some pins)
    (found : { state.world with pins := pins }.known kind name = some version) :
    (Interaction.step (threads handle) state event).world.known kind name = some version := by
  cases event with
  | arrive call => cases adopts
  | advance call answers =>
    simp only [adopted] at adopts
    split at adopts
    · next seen pins' rest here =>
      cases adopts
      simp only [Interaction.step, Interaction.advance, here]
      exact found
    · cases adopts

/-- What a handle accepted or adopted it never goes below, as long as it is mindful in
every step. -/
theorem accepted_le {state : Threads} {event later : ThreadEvent} {between : List ThreadEvent}
    (mindful : Machine.Throughout (Interaction.step (threads handle)) Mindful state (event :: (between ++ [later])))
    {kind : RecordCode} {name : String} {version got : Nat} (learns : Learns state event kind name version)
    {index : NameHmac} (accepts : accepted (runThreads handle (Interaction.step (threads handle) state event) between)
      later = some ⟨kind, name, index, got⟩) : version ≤ got := by
  obtain ⟨mindfulEvent, rest⟩ := mindful
  obtain ⟨mindfulBetween, mindfulLater, _⟩ := Machine.throughout_append.mp rest
  have known : (Interaction.step (threads handle) state event).world.known kind name = some version := by
    rcases learns with ⟨_, accepts⟩ | ⟨pins, adopts, found⟩
    · exact (accepted_known handle accepts mindfulEvent).2
    · exact adopted_known handle adopts found
  obtain ⟨kept, atLeast, knownLater⟩ := keeps_run handle mindfulBetween kind name version known
  exact Nat.le_trans atLeast ((accepted_known handle accepts mindfulLater).1 kept knownLater)

/-- A handle that drops nothing it knows never accepts a rollback of a record: every
latest version that a call reports it has accepted, and once it has accepted a latest
version of a named record, or adopted it from pins, it accepts no version below,
whatever the server answers and however the calls interleave. -/
theorem no_rollback_while_mindful :
    (∀ call : HandleCall, (call.program handle).Obeys checks [] fun result passed =>
      ∀ returned, result = .ok returned → ∀ report ∈ call.reports returned, report ∈ passed) ∧
    ∀ (view : View) (before between : List ThreadEvent) (event later : ThreadEvent),
      Machine.Throughout (Interaction.step (threads handle)) Mindful ⟨.opened view, []⟩
        (before ++ event :: (between ++ [later])) →
      ∀ (kind : RecordCode) (name : String) (index : NameHmac) (version got : Nat),
        Learns (runThreads handle ⟨.opened view, []⟩ before) event kind name version →
        accepted (runThreads handle ⟨.opened view, []⟩ (before ++ event :: between)) later =
          some ⟨kind, name, index, got⟩ → version ≤ got := by
  refine ⟨call_reports handle, ?_⟩
  intro view before between event later mindful kind name index version got learns accepts
  obtain ⟨_, rest⟩ := Machine.throughout_append.mp mindful
  have joined : runThreads handle ⟨.opened view, []⟩ (before ++ event :: between) = runThreads handle
      (Interaction.step (threads handle) (runThreads handle ⟨.opened view, []⟩ before) event) between :=
    Machine.run_append _ _ _
  rw [joined] at accepts
  exact accepted_le handle rest learns accepts

end

/-! ## A record that is rolled back -/

/-- A call that reads the secret "A" and is served one version of it, up to its check. -/
def reading (call generation version : Nat) : List ThreadEvent :=
  .arrive (.get .secret "A" none) :: List.replicate 2 (.advance call (servingSecret generation version))

/-- The step of a call that checks the version it was served. -/
def checking (call : Nat) : ThreadEvent := .advance call (keptAnswers 1)

/-- Version 2 was accepted, and version 1 is about to be checked: after pins that were
kept from before were adopted, and after a refresh to a generation whose pins are none. -/
def afterOlderPins : List ThreadEvent :=
  reading 0 1 2 ++ [checking 0, .arrive (.setPins .none), .advance 1 (keptAnswers 1)] ++ reading 2 1 1

def afterRotation : List ThreadEvent :=
  reading 0 1 2 ++ [checking 0, .arrive .refresh] ++ List.replicate 5 (.advance 1 (keptAnswers 2)) ++ reading 2 2 1

/-- A handle accepts version 1 of a secret after version 2: after pins kept earlier were
adopted, and after a rotation. -/
theorem older_version_accepted :
    let _ := plain
    let _ := Backend.checksum
    let _ := plainVerify
    let _ := plainUnseal
    let run := runThreads keptHandle ⟨.opened (keptView 1), []⟩
    let index := (keptBundle 1).nameKey.index .secret "A"
    accepted (run (reading 0 1 2)) (checking 0) = some ⟨.secret, "A", index, 2⟩ ∧
      accepted (run afterOlderPins) (checking 2) = some ⟨.secret, "A", index, 1⟩ ∧
      accepted (run afterRotation) (checking 2) =
        some ⟨.secret, "A", (keptBundle 2).nameKey.index .secret "A", 1⟩ := by
  decide +kernel

/-- A step that neither puts a view in force nor adopts pins, and checks a version under
the index in force. -/
def undisplaced [Crypto] (state : Threads) : ThreadEvent → Bool
  | .arrive _ => true
  | .advance call _ =>
    match state.flights[call]? with
    | some ⟨_, .perform (.setView _) _⟩ | some ⟨_, .perform (.adopt _) _⟩ => false
    | some ⟨_, .perform (.checkVersion name kind index _) _⟩ => index = state.world.view.bundle.nameKey.index kind name
    | _ => true

theorem undisplaced_mindful [Crypto] (state : Threads) (event : ThreadEvent) (stays : undisplaced state event = true) :
    Mindful state event := by
  cases event with
  | arrive call => trivial
  | advance call answers =>
    simp only [undisplaced] at stays
    simp only [Mindful]
    split <;> simp_all

/-- Two reads in turn: the second is served a later version. -/
theorem later_version_accepted :
    let _ := plain
    let _ := Backend.checksum
    let _ := plainVerify
    let _ := plainUnseal
    let run := runThreads keptHandle ⟨.opened (keptView 1), []⟩
    let index := (keptBundle 1).nameKey.index .secret "A"
    ∃ version got, accepted (run (reading 0 1 2)) (checking 0) = some ⟨.secret, "A", index, version⟩ ∧
      accepted (run (reading 0 1 2 ++ checking 0 :: reading 1 1 3)) (checking 1) = some ⟨.secret, "A", index, got⟩ ∧
        version ≤ got := by
  intro _ _ _ _ run index
  have first : accepted (run (reading 0 1 2)) (checking 0) = some ⟨.secret, "A", index, 2⟩ := by decide +kernel
  have second : accepted (run (reading 0 1 2 ++ checking 0 :: reading 1 1 3)) (checking 1) =
      some ⟨.secret, "A", index, 3⟩ := by
    decide +kernel
  have stays : Machine.Throughout (Interaction.step (@threads plain Backend.checksum plainVerify plainUnseal keptHandle))
      (fun state event => undisplaced state event = true) ⟨.opened (keptView 1), []⟩
      (reading 0 1 2 ++ checking 0 :: (reading 1 1 3 ++ [checking 1])) := by
    decide +kernel
  exact ⟨2, 3, first, second, (@no_rollback_while_mindful plain Backend.checksum plainVerify plainUnseal keptHandle).2
    (keptView 1) (reading 0 1 2) (reading 1 1 3) (checking 0) (checking 1) (stays.mono undisplaced_mindful) .secret "A"
    index 2 3 (.inl ⟨index, first⟩) second⟩

end GalataVault.Client

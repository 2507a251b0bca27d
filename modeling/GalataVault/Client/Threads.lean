import GalataVault.Client.Handle

/-!
# Threads that share a handle

The calls of any number of threads interleave over one handle's view and pins, one
operation at a time. What is noted of a call is the pin it read, the view it has put
in force without having pinned it yet, and the history it was last answered.

The judgement of the calls is made here, once: a view is put in force only after it
was checked against the pin the call read, it is pinned by the same call, and a write
carries the version its precondition implies.
-/

namespace GalataVault.Client

open Proto Interaction Program
open Server (ErrorCode VaultStatus VersionMeta)

/-! ## What is noted of a call -/

structure Seen where
  /-- The descriptor pin it read. -/
  pinned : Option DescriptorPin
  /-- The view it has put in force and not pinned yet. -/
  adopting : Option View
  /-- The history it was answered last; empty if it was refused. -/
  history : Option (List VersionMeta)
deriving DecidableEq

namespace Seen

def nothing : Seen := ⟨none, none, none⟩

def note : {β : Type} → Seen → HandleOp β → β → Seen
  | _, seen, .pinned, answer => { seen with pinned := answer }
  | _, seen, .setView view, _ => { seen with adopting := some view }
  | _, seen, .setPin _, _ => { seen with adopting := none }
  | _, seen, .ask (.versions _ _), answer => { seen with history := some (answer.toOption.getD []) }
  | _, seen, _, _ => seen

end Seen

/-- Where a pin stands to another: the other is of a later generation, or the same. -/
def DescriptorPin.Continued (pin next : DescriptorPin) : Prop := pin.generation < next.generation ∨ pin = next

namespace DescriptorPin.Continued

theorem refl (pin : DescriptorPin) : pin.Continued pin := .inr rfl

theorem trans {first second third : DescriptorPin} (one : first.Continued second) (two : second.Continued third) :
    first.Continued third := by
  rcases one with less | rfl
  · rcases two with more | rfl
    · exact .inl (Nat.lt_trans less more)
    · exact .inl less
  · exact two

theorem le {pin next : DescriptorPin} (continued : pin.Continued next) : pin.generation ≤ next.generation := by
  rcases continued with less | rfl
  · exact Nat.le_of_lt less
  · exact Nat.le_refl _

/-- At the same generation it is the same descriptor. -/
theorem same {pin next : DescriptorPin} (continued : pin.Continued next) (generation : next.generation = pin.generation) :
    next = pin := by
  rcases continued with less | rfl
  · exact absurd generation (Nat.ne_of_gt less)
  · rfl

end DescriptorPin.Continued

section

variable [Crypto] [Digests]

/-- The record a call signs: of its kind and name, as the version its precondition
implies. -/
def HandleCall.Signs (written : WrittenRecord) (pre : Pre) : HandleCall → Prop
  | .put kind _ _ _ given _ => pre = given ∧ written.kind = kind ∧ written.version = pre.nextVersion
  | .delete kind _ version _ => pre = .update version ∧ written.kind = kind ∧ written.version = pre.nextVersion
  | _ => False

/-- What a call may do after what was noted of it. -/
def HandleOp.Allowed (call : HandleCall) (seen : Seen) : {β : Type} → HandleOp β → Prop
  | _, .setView next => ∀ pin, seen.pinned = some pin → pin.Continued next.pin
  | _, .setPin pin => ∃ next, seen.adopting = some next ∧ pin = next.pin
  | _, .adopt pins => call = .setPins pins
  | _, .ask (.write written pre) => call.Signs written pre
  | _, _ => True

/-- What a call may do, and what it ends with: no view is left without its pin, and a
precondition is that of the last version of the history it was answered. -/
def calls : Duty HandleCall HandleOp Error Returned Seen where
  allowed call _ seen op := HandleOp.Allowed call seen op
  ends call result seen := seen.adopting = none ∧ ∀ kind name pre, call = .current kind name →
    result = .ok (.pre pre) → ∃ list, seen.history = some list ∧ pre = .after list.getLast?

variable [Ed25519] [Unsealing] (handle : Handle)

/-- The threads of one handle. -/
def threads : Rules Shared HandleCall Answers HandleOp Error Returned Seen where
  start call := call.program handle
  first := .nothing
  serve answers op shared := shared.perform answers op
  watch := { note := Seen.note, allowed := fun _ _ => True }

/-- The handle after a sequence of events, and every call on its way. -/
abbrev Threads := System Shared HandleOp Error Returned Seen

abbrev ThreadEvent := Interaction.Event HandleCall Answers

abbrev runThreads (state : Threads) (events : List ThreadEvent) : Threads :=
  Machine.run (Interaction.step (threads handle)) state events

/-! ## Parts of calls -/

/-- An operation that reads and checks. -/
def HandleOp.Quiet : {β : Type} → HandleOp β → Prop
  | _, .setView _ | _, .setPin _ | _, .adopt _ | _, .ask (.write _ _) => False
  | _, _ => True

/-- The watch over one call. -/
abbrev watched (call : HandleCall) : Watch HandleOp Seen := calls.watch (threads handle).watch call

/-- A program of quiet operations only. -/
abbrev Calm {α : Type} (action : Action α) : Prop := action.Only HandleOp.Quiet

end

section Calm

variable {α β : Type}

theorem calm_check (result : Except Error α) : Calm (Action.check result) := trivial

theorem calm_integrity (result : Except IntegrityError α) : Calm (Action.integrity result) := trivial

theorem calm_map {action : Action α} (calm : Calm action) (f : α → β) : Calm (f <$> action) :=
  Only.bind calm fun _ => trivial

theorem calm_ask (query : Query α) (onError : ApiError → Error) (reads : (HandleOp.ask query).Quiet) :
    Calm (Action.ask query onError) := by
  apply Only.bind (.ask reads)
  intro answer
  cases answer <;> trivial

variable [Digests] [Ed25519] (handle : Handle)

theorem calm_descriptorsAfter (after : Nat) : Calm (handle.descriptorsAfter after) :=
  Only.bind (calm_ask (.descriptors after) .api trivial) fun _ => calm_integrity _

theorem calm_checkDescriptorPin (pin : DescriptorPin) (d : Descriptor) : Calm (handle.checkDescriptorPin pin d) := by
  unfold Handle.checkDescriptorPin
  split
  · trivial
  · split
    · split <;> trivial
    · apply Only.bind (calm_descriptorsAfter handle _)
      intro served
      apply Only.bind (calm_check _)
      intro last
      split <;> trivial

theorem calm_refreshStatus : Calm handle.refreshStatus := by
  apply Only.bind (calm_ask .status .api trivial)
  intro status
  split
  · trivial
  · exact Only.bind (calm_integrity _) fun _ => trivial

theorem calm_movedOn (v : View) : Calm (handle.movedOn v) := by
  apply Only.bind (Only.attempt (calm_refreshStatus handle))
  intro status
  cases status <;> trivial

variable [Crypto]

theorem calm_candidate [Unsealing] : Calm handle.candidate := by
  unfold Handle.candidate
  split
  · exact Only.bind (calm_ask .status .owner trivial) fun _ => calm_check _
  · apply Only.bind (calm_ask .tokenSelf .api trivial)
    intro me
    apply Only.bind (calm_check _)
    intro found
    split
    split <;> trivial

theorem calm_checkListed (v : View) (kind : RecordCode) (it : SecretListItem) : Calm (Handle.checkListed v kind it) :=
  Only.bind (calm_check _) fun _ => Only.bind (calm_check _) fun _ => Only.bind (.ask trivial) fun _ =>
    Only.bind (calm_check _) fun _ => trivial

theorem calm_checkPage (v : View) (kind : RecordCode) (items : List SecretListItem) :
    Calm (Handle.checkPage v kind items) := by
  induction items with
  | nil => trivial
  | cons it rest inductionHypothesis =>
    exact Only.bind (calm_checkListed v kind it) fun _ => Only.bind inductionHypothesis fun _ => trivial

theorem calm_listPages (v : View) (kind : RecordCode) (pages : Nat) (after : Option NameHmac) :
    Calm (Handle.listPages v kind pages after) := by
  induction pages generalizing after with
  | zero => trivial
  | succ pages inductionHypothesis =>
    apply Only.bind (calm_ask (.list kind after) .api trivial)
    intro page
    apply Only.bind (calm_checkPage v kind page.items)
    intro items
    split
    · trivial
    · exact Only.bind (inductionHypothesis _) fun _ => trivial

theorem calm_listKind (pages : Nat) (v : View) (kind : RecordCode) : Calm (Handle.listKind pages v kind) :=
  Only.bind (calm_listPages v kind pages none) fun _ => trivial

theorem calm_versionsKind (v : View) (kind : RecordCode) (name : String) : Calm (handle.versionsKind v kind name) := by
  apply Only.bind (.ask trivial)
  intro answer
  split
  · exact Only.bind (calm_check _) fun _ => trivial
  · split
    · apply Only.bind (calm_movedOn handle v)
      intro moved
      cases moved <;> trivial
    · trivial

theorem calm_fetch (v : View) (kind : RecordCode) (name : String) (version : Option Nat) :
    Calm (handle.fetch v kind name version) := by
  apply Only.bind (.ask trivial)
  intro answer
  split
  · split
    · trivial
    · split
      · split <;> trivial
      · exact Only.bind (calm_check _) fun _ => Only.bind (.ask trivial) fun _ =>
          Only.bind (calm_check _) fun _ => trivial
  · split
    · apply Only.bind (calm_movedOn handle v)
      intro moved
      cases moved <;> trivial
    · split <;> trivial

theorem calm_get (name : String) (version : Option Nat) : Calm (handle.get name version) := by
  apply Only.bind (.ask trivial)
  intro v
  split
  · trivial
  · apply Only.bind (calm_fetch handle _ _ _ _)
    intro record
    apply Only.bind (calm_check _)
    intro opened
    split <;> trivial

theorem calm_getConfig (name : String) (version : Option Nat) : Calm (handle.getConfig name version) := by
  apply Only.bind (.ask trivial)
  intro v
  split
  · trivial
  · apply Only.bind (calm_fetch handle _ _ _ _)
    intro record
    apply Only.bind (calm_check _)
    intro opened
    split <;> trivial

theorem calm_conflict (v : View) (kind : RecordCode) (name : String) : Calm (handle.conflict v kind name) := by
  apply Only.bind (Only.attempt (calm_versionsKind handle v kind name))
  intro outcome
  cases outcome <;> trivial

end Calm

/-! ## Every call meets its duty -/

section

variable [Crypto] [Digests] [Ed25519] [Unsealing] (handle : Handle)

/-- A quiet operation is allowed to every call, and leaves no view to be pinned. -/
theorem quiet_allowed (call : HandleCall) {β : Type} (op : HandleOp β) (seen : Seen) (quiet : op.Quiet)
    (settled : seen.adopting = none) :
    (watched handle call).allowed seen op ∧ ∀ answer, ((watched handle call).note seen op answer).adopting = none := by
  cases op with
  | setView | setPin | adopt => exact quiet.elim
  | view | pinned | checkVersion => exact ⟨trivial, fun _ => settled⟩
  | ask query =>
    cases query with
    | write => exact quiet.elim
    | status | tokenSelf | descriptors | list | versions | record => exact ⟨trivial, fun _ => settled⟩

/-- A calm part of a call ends as it began: with no view to be pinned. -/
theorem calm_obeys (call : HandleCall) {α : Type} {action : Action α} (calm : Calm action) {seen : Seen}
    (settled : seen.adopting = none) {post : Except Error α → Seen → Prop}
    (ends : ∀ result seen, seen.adopting = none → post result seen) : action.Obeys (watched handle call) seen post :=
  Only.obeys_while (fun seen => seen.adopting = none) calm settled (fun op seen => quiet_allowed handle call op seen) ends

/-- A calm call other than one for a precondition. -/
theorem calm_call (call : HandleCall) {action : Action Returned} (calm : Calm action)
    (other : ∀ kind name, call ≠ .current kind name) :
    action.Obeys (watched handle call) Seen.nothing (calls.ends call) := by
  refine calm_obeys handle call calm rfl ?_
  intro result seen settled
  exact ⟨settled, fun kind name pre same => absurd same (other kind name)⟩

omit [Crypto] [Ed25519] [Unsealing] in
/-- A served chain ends at a pin that continues the one it was followed from. -/
theorem followChain_continued {d : Descriptor} {served : List Descriptor} {pin last : DescriptorPin}
    (followed : Handle.followChain d pin served = .ok last) : pin.Continued last := by
  induction served generalizing pin with
  | nil =>
    obtain rfl := Except.ok.inj followed
    exact .refl pin
  | cons next rest inductionHypothesis =>
    unfold Handle.followChain at followed
    split at followed
    · obtain rfl := Except.ok.inj followed
      exact .refl pin
    · split at followed
      · cases followed
      · next linked =>
        have later : pin.Continued (.of next) := by
          left
          change pin.generation < next.generation
          omega
        exact later.trans (inductionHypothesis followed)

/-- Nothing is noted of fetching a chain. -/
theorem descriptorsAfter_obeys (call : HandleCall) (after : Nat) {seen : Seen}
    {post : Except Error (List Descriptor) → Seen → Prop} (ends : ∀ result, post result seen) :
    (handle.descriptorsAfter after).Obeys (watched handle call) seen post := by
  refine ⟨trivial, fun answer => ?_⟩
  cases answer with
  | error e => exact ends _
  | ok served => exact ends _

/-- What passes the check of a pin continues it; nothing is noted of the check. -/
theorem checkDescriptorPin_obeys (call : HandleCall) (pin : DescriptorPin) (d : Descriptor) (seen : Seen) :
    (handle.checkDescriptorPin pin d).Obeys (watched handle call) seen fun result later =>
      later = seen ∧ (result = .ok () → pin.Continued (.of d)) := by
  unfold Handle.checkDescriptorPin
  split
  · exact ⟨rfl, fun impossible => by cases impossible⟩
  split
  · next generation =>
    split
    · next hash =>
      refine ⟨rfl, fun _ => .inr ?_⟩
      cases pin
      simp_all [DescriptorPin.of]
    · exact ⟨rfl, fun impossible => by cases impossible⟩
  · apply Obeys.bind
    apply descriptorsAfter_obeys
    intro result
    cases result with
    | error e => exact ⟨rfl, fun impossible => by cases impossible⟩
    | ok served =>
      cases followed : Handle.followChain d pin served with
      | error e =>
        change Program.Obeys _ (Action.check (Handle.followChain d pin served) >>= _) _ _
        rw [followed]
        exact ⟨rfl, fun impossible => by cases impossible⟩
      | ok last =>
        change Program.Obeys _ (Action.check (Handle.followChain d pin served) >>= _) _ _
        rw [followed]
        change Program.Obeys _ (if last ≠ .of d then _ else _) _ _
        split
        · exact ⟨rfl, fun impossible => by cases impossible⟩
        · next reached =>
          refine ⟨rfl, fun _ => ?_⟩
          rw [← not_not.mp reached]
          exact followChain_continued followed

theorem refresh_obeys (call : HandleCall) {seen : Seen} (settled : seen.adopting = none)
    {post : Except Error Unit → Seen → Prop} (ends : ∀ result seen, seen.adopting = none → post result seen) :
    handle.refresh.Obeys (watched handle call) seen post := by
  apply Obeys.bind
  apply calm_obeys handle call (calm_candidate handle) settled
  intro result seen settled
  cases result with
  | error e => exact ends _ _ settled
  | ok view =>
    refine ⟨trivial, fun pinned => ?_⟩
    have checked : ∀ seen : Seen, seen.adopting = none → (∀ pin, seen.pinned = some pin → pin.Continued view.pin) →
        (Program.ask (.setView view) >>= fun _ => Program.ask (.setPin view.pin) : Action Unit).Obeys
          (watched handle call) seen post := by
      intro seen settled continued
      exact ⟨continued, fun _ => ⟨⟨view, rfl, rfl⟩, fun _ => ends _ _ rfl⟩⟩
    cases pinned with
    | none => exact checked _ settled fun pin impossible => by cases impossible
    | some pin =>
      change Program.Obeys _ (handle.checkDescriptorPin pin view.descriptor >>= _) _ _
      apply Obeys.bind
      apply (checkDescriptorPin_obeys handle call pin view.descriptor _).mono
      rintro result _ ⟨rfl, continued⟩
      cases result with
      | error e => exact ends _ _ settled
      | ok done =>
        refine checked _ settled fun other same => ?_
        obtain rfl := Option.some.inj same
        exact continued rfl

theorem setPins_obeys (pins : Pins) {post : Except Error Unit → Seen → Prop} {seen : Seen} (settled : seen.adopting = none)
    (ends : ∀ result seen, seen.adopting = none → post result seen) :
    (handle.setPins pins).Obeys (watched handle (.setPins pins)) seen post := by
  have adopts : ∀ seen : Seen, seen.adopting = none →
      (Program.ask (.adopt pins) : Action Unit).Obeys (watched handle (.setPins pins)) seen post := by
    intro seen settled
    exact ⟨rfl, fun _ => ends _ _ settled⟩
  unfold Handle.setPins
  apply Obeys.bind
  split
  · exact adopts seen settled
  · next pin _ =>
    refine ⟨trivial, fun v => ?_⟩
    apply calm_obeys handle _ (calm_checkDescriptorPin handle pin v.descriptor) settled
    intro result seen settled
    cases result with
    | error e => exact ends _ _ settled
    | ok done => exact adopts seen settled

omit [Ed25519] [Unsealing] in
/-- A signed record is of the kind, the version and the index asked for. -/
theorem finish_ok {w : Writer} {draw : Draw} {kind : RecordCode} {name : String} {valueCt : Option (List UInt8)}
    {version : Nat} {writtenAt : Int} {written : WrittenRecord}
    (finished : w.finish draw kind name valueCt version writtenAt = .ok written) :
    written.kind = kind ∧ written.version = version ∧ written.nameHmac = w.nameKey.index kind name := by
  obtain ⟨nameCt, _, same⟩ := except_bind_ok finished
  obtain rfl := Except.ok.inj same
  exact ⟨rfl, rfl, rfl⟩

omit [Ed25519] [Unsealing] in
theorem secret_ok {w : Writer} {draw : Draw} {name : String} {value : List UInt8} {version : Nat} {writtenAt : Int}
    {written : WrittenRecord} (signed : w.secret draw name value version writtenAt = .ok written) :
    written.kind = .secret ∧ written.version = version ∧ written.nameHmac = w.nameKey.index .secret name := by
  obtain ⟨_, _, signed⟩ := except_bind_ok signed
  obtain ⟨_, _, signed⟩ := except_bind_ok signed
  exact finish_ok signed

omit [Ed25519] [Unsealing] in
theorem config_ok {w : Writer} {draw : Draw} {name : String} {format : ConfigFormat} {body : List UInt8} {version : Nat}
    {writtenAt : Int} {written : WrittenRecord}
    (signed : w.config draw name format body version writtenAt = .ok written) :
    written.kind = .config ∧ written.version = version ∧ written.nameHmac = w.nameKey.index .config name := by
  obtain ⟨_, _, signed⟩ := except_bind_ok signed
  obtain ⟨_, _, signed⟩ := except_bind_ok signed
  exact finish_ok signed

omit [Ed25519] [Unsealing] in
theorem tombstone_ok {w : Writer} {draw : Draw} {kind : RecordCode} {name : String} {version : Nat} {writtenAt : Int}
    {written : WrittenRecord} (signed : w.tombstone draw kind name version writtenAt = .ok written) :
    written.kind = kind ∧ written.version = version ∧ written.nameHmac = w.nameKey.index kind name := by
  obtain ⟨_, _, signed⟩ := except_bind_ok signed
  exact finish_ok signed

theorem sendWrite_obeys (call : HandleCall) (v : View) (name : String) {written : WrittenRecord} {pre : Pre}
    (signs : call.Signs written pre) {seen : Seen} (settled : seen.adopting = none)
    {post : Except Error Nat → Seen → Prop} (ends : ∀ result seen, seen.adopting = none → post result seen) :
    (handle.sendWrite v name written pre).Obeys (watched handle call) seen post := by
  refine ⟨signs, fun answer => ?_⟩
  refine calm_obeys handle call ?_ settled ends
  cases answer with
  | ok version =>
    change Calm (if version ≠ written.version then _ else _)
    split
    · trivial
    · exact Only.bind (.ask trivial) fun _ => Only.bind (calm_check _) fun _ => trivial
  | error e =>
    change Calm (if e.code = some .preconditionFailed ∨ e.code = some .versionMismatch then _ else _)
    split
    · exact Only.bind (calm_conflict handle v written.kind name) fun _ => trivial
    · split
      · trivial
      · split <;> trivial

/-- What a signed record is sent as, and only if it could be signed. -/
theorem signed_obeys (call : HandleCall) (v : View) (name : String) (pre : Pre) {signed : Except SealError WrittenRecord}
    (signs : ∀ written, signed = .ok written → call.Signs written pre) {seen : Seen} (settled : seen.adopting = none)
    {post : Except Error Nat → Seen → Prop} (ends : ∀ result seen, seen.adopting = none → post result seen) :
    (Action.check (signed.mapError Error.sealing) >>= fun written =>
      handle.sendWrite v name written pre).Obeys (watched handle call) seen post := by
  cases signed with
  | error e => exact ends _ _ settled
  | ok written => exact sendWrite_obeys handle call v name (signs written rfl) settled ends

theorem writeValue_obeys (v : View) (kind : RecordCode) (name : String) (format : ConfigFormat) (body : List UInt8)
    (pre : Pre) (signing : Signing) {seen : Seen} (settled : seen.adopting = none)
    {post : Except Error Nat → Seen → Prop} (ends : ∀ result seen, seen.adopting = none → post result seen) :
    (handle.writeValue v kind name format body pre signing).Obeys
      (watched handle (.put kind name format body pre signing)) seen post := by
  unfold Handle.writeValue
  split
  · exact ends _ _ settled
  · apply signed_obeys handle _ v name pre _ settled ends
    intro written signed
    cases kind with
    | secret =>
      obtain ⟨same, version, _⟩ := secret_ok signed
      exact ⟨rfl, same, version⟩
    | config =>
      obtain ⟨same, version, _⟩ := config_ok signed
      exact ⟨rfl, same, version⟩

theorem writeTombstone_obeys (v : View) (kind : RecordCode) (name : String) (version : Nat) (signing : Signing)
    {seen : Seen} (settled : seen.adopting = none) {post : Except Error Nat → Seen → Prop}
    (ends : ∀ result seen, seen.adopting = none → post result seen) :
    (handle.writeTombstone v kind name (.update version) signing).Obeys
      (watched handle (.delete kind name version signing)) seen post := by
  unfold Handle.writeTombstone
  split
  · exact ends _ _ settled
  · apply signed_obeys handle _ v name (.update version) _ settled ends
    intro written signed
    obtain ⟨same, version, _⟩ := tombstone_ok signed
    exact ⟨rfl, same, version⟩

/-- Nothing is noted of asking for the status. -/
theorem refreshStatus_obeys (call : HandleCall) {seen : Seen} {post : Except Error VaultStatus → Seen → Prop}
    (ends : ∀ result, post result seen) : handle.refreshStatus.Obeys (watched handle call) seen post := by
  refine ⟨trivial, fun answer => ?_⟩
  cases answer with
  | error e => exact ends _
  | ok status =>
    change Program.Obeys _ (if status.ownerSignPub ≠ handle.ownerSignPub ∨ status.vaultId ≠ handle.vaultId then _ else _)
      _ _
    split
    · exact ends _
    · cases verified : status.descriptor.verifyFor handle.vaultId handle.ownerSignPub with
      | error e => exact ends _
      | ok descriptor => exact ends _

theorem movedOn_obeys (call : HandleCall) (v : View) {seen : Seen} {post : Except Error (Option Error) → Seen → Prop}
    (ends : ∀ result, post result seen) : (handle.movedOn v).Obeys (watched handle call) seen post := by
  apply Obeys.bind
  apply Obeys.attempt
  apply refreshStatus_obeys
  intro result
  cases result <;> exact ends _

/-- A history is what the call was answered, or empty where nothing was found. -/
theorem versionsKind_obeys (call : HandleCall) (v : View) (kind : RecordCode) (name : String) {seen : Seen}
    (settled : seen.adopting = none) {post : Except Error (List VersionMeta) → Seen → Prop}
    (fails : ∀ e seen, seen.adopting = none → post (.error e) seen)
    (ends : ∀ list seen, seen.adopting = none → seen.history = some list → post (.ok list) seen) :
    (handle.versionsKind v kind name).Obeys (watched handle call) seen post := by
  refine ⟨trivial, fun answer => ?_⟩
  cases answer with
  | ok list =>
    cases checked : (list.forM fun m =>
        (verifyMeta v.descriptor kind (v.bundle.nameKey.index kind name) m).mapError Error.sealing) with
    | error e =>
      change Program.Obeys _ (Action.check (list.forM _) >>= _) _ _
      rw [checked]
      exact fails _ _ settled
    | ok done =>
      change Program.Obeys _ (Action.check (list.forM _) >>= _) _ _
      rw [checked]
      exact ends _ _ settled rfl
  | error e =>
    change Program.Obeys _ (if e.code = some .notFound then _ else _) _ _
    split
    · apply Obeys.bind
      apply movedOn_obeys
      intro result
      cases result with
      | error e => exact fails _ _ settled
      | ok moved =>
        cases moved with
        | none => exact ends _ _ settled rfl
        | some moved => exact fails _ _ settled
    · exact fails _ _ settled

/-- Every call meets its duty, whatever it is answered. -/
theorem call_obeys (call : HandleCall) :
    (call.program handle).Obeys (watched handle call) Seen.nothing (calls.ends call) := by
  have other : ∀ result seen, (∀ kind name, call ≠ .current kind name) → seen.adopting = none →
      calls.ends call result seen := by
    intro result seen different settled
    exact ⟨settled, fun kind name pre same => absurd same (different kind name)⟩
  cases call with
  | get kind name version =>
    cases kind with
    | secret => exact calm_call handle _ (calm_map (calm_get handle name version) _) (by simp)
    | config => exact calm_call handle _ (calm_map (calm_getConfig handle name version) _) (by simp)
  | list kind pages =>
    exact calm_call handle _ (Only.bind (.ask trivial) fun v => calm_map (calm_listKind pages v kind) _) (by simp)
  | versions kind name =>
    exact calm_call handle _ (Only.bind (.ask trivial) fun v => calm_map (calm_versionsKind handle v kind name) _)
      (by simp)
  | current kind name =>
    refine ⟨trivial, fun v => ?_⟩
    change Program.Obeys _ (handle.versionsKind v kind name >>= _) Seen.nothing _
    apply Obeys.bind
    refine versionsKind_obeys handle _ v kind name (show Seen.nothing.adopting = none from rfl) ?_ ?_
    · intro e seen settled
      exact ⟨settled, fun _ _ _ _ impossible => by cases impossible⟩
    · intro list seen settled history
      refine ⟨settled, fun _ _ pre _ same => ⟨list, history, ?_⟩⟩
      exact (Returned.pre.inj (Except.ok.inj same)).symm
  | put kind name format body pre signing =>
    refine ⟨trivial, fun v => ?_⟩
    change Program.Obeys _ (handle.writeValue v kind name format body pre signing >>= _) Seen.nothing _
    apply Obeys.bind
    refine writeValue_obeys handle v kind name format body pre signing (show Seen.nothing.adopting = none from rfl) ?_
    intro result seen settled
    cases result <;> exact other _ _ (by simp) settled
  | delete kind name version signing =>
    refine ⟨trivial, fun v => ?_⟩
    change Program.Obeys _ (handle.writeTombstone v kind name (.update version) signing >>= _) Seen.nothing _
    apply Obeys.bind
    refine writeTombstone_obeys handle v kind name version signing (show Seen.nothing.adopting = none from rfl) ?_
    intro result seen settled
    cases result <;> exact other _ _ (by simp) settled
  | refresh =>
    apply Obeys.bind
    refine refresh_obeys handle _ (show Seen.nothing.adopting = none from rfl) ?_
    intro result seen settled
    cases result <;> exact other _ _ (by simp) settled
  | setPins pins =>
    apply Obeys.bind
    refine setPins_obeys handle pins (show Seen.nothing.adopting = none from rfl) ?_
    intro result seen settled
    cases result <;> exact other _ _ (by simp) settled

/-- At every moment of a run, each call keeps to its duty. -/
theorem threads_meet {requests : List HandleCall} {state : Threads}
    (meets : Meets (threads handle) calls (fun _ => True) requests state) (events : List ThreadEvent) :
    Meets (threads handle) calls (fun _ => True) (requests ++ arrivals events) (runThreads handle state events) := by
  induction events generalizing requests state with
  | nil =>
    rw [show arrivals ([] : List ThreadEvent) = [] from rfl, List.append_nil]
    exact meets
  | cons event events inductionHypothesis =>
    have stepped := meets.step event (fun request _ => ⟨trivial, call_obeys handle request⟩)
      (fun _ _ _ _ _ _ _ _ _ => trivial) fun _ _ _ => trivial
    have rest := inductionHypothesis stepped
    rw [List.append_assoc, ← arrivals_cons] at rest
    exact rest

end

/-- A handle as it is opened: the view's descriptor is pinned, and no record version. -/
def Shared.opened [Digests] (view : View) : Shared := ⟨view, { Pins.none with descriptor := some view.pin }⟩

/-! ## One vault by hand -/

/-- The keys of each generation. -/
def keptBundle (generation : Nat) : FullBundle := .generate (.filled generation.toUInt8) generation

/-- The descriptor of each generation, linked to the one before. -/
def keptDescriptor : Nat → Descriptor
  | 0 | 1 =>
    let _ := plain
    let _ := Backend.checksum
    (keptBundle 1).descriptor listedOwner.vaultId ⟨.fill 32 0⟩ 1
  | generation + 2 =>
    let _ := plain
    let _ := Backend.checksum
    (keptBundle (generation + 2)).descriptor listedOwner.vaultId (keptDescriptor (generation + 1)).hash 1

/-- The owner's handle. -/
def keptHandle : Handle :=
  let _ := plain
  let _ := Backend.checksum
  ⟨.owner listedOwner, listedOwner.vaultId, listedOwner.signPub⟩

/-- What the owner sees of it. -/
def keptView (generation : Nat) : View := ⟨keptDescriptor generation, .full (keptBundle generation), none⟩

/-- What the server answers the owner at a generation. -/
def keptStatus (generation : Nat) : VaultStatus :=
  let _ := plain
  let _ := Backend.checksum
  { vaultId := listedOwner.vaultId, generation := generation, revision := 1, ownerSignPub := listedOwner.signPub,
    ownerBoxPub := listedOwner.boxPub, descriptor := listedOwner.signDescriptor (keptDescriptor generation),
    configCount := 0, createdAt := 1, lastActiveAt := 1, expiresAt := none, bytesUsed := 0, limits := .default,
    tokens := some [], ownerBundle := (sealOwnerBundle listedOwner (.fill 32 1) (keptBundle generation)).toOption }

/-- What an honest server at a generation answers, of a vault without records. -/
def keptAnswers (generation : Nat) : Answers :=
  let _ := plain
  let _ := Backend.checksum
  { status := .ok (keptStatus generation), tokenSelf := .error (.refused .forbidden),
    descriptors := fun after =>
      .ok ((List.range' (after + 1) (generation - after)).map fun g => listedOwner.signDescriptor (keptDescriptor g)),
    list := fun _ _ => .error .transport, versions := fun _ _ => .error .transport,
    record := fun _ _ _ => .error .transport, write := fun _ _ => .error .transport }

/-- The secret "A" as its writer signs each version in each generation. -/
def keptSecret (generation version : Nat) : Except SealError WrittenRecord :=
  let _ := plain
  let _ := Backend.checksum
  Writer.secret ⟨keptDescriptor generation, (keptBundle generation).nameKey, (keptBundle generation).secretWriter⟩
    ⟨.fill 24 1, .fill 32 1⟩ "A" [1] version 1

/-- A server that serves one version of it. -/
def servingSecret (generation version : Nat) : Answers :=
  let _ := plain
  { keptAnswers generation with
    record := fun kind index wanted =>
      if kind = .secret ∧ index = (keptBundle generation).nameKey.index .secret "A" ∧ wanted.getD version = version then
        ((keptSecret generation version).map WrittenRecord.served).mapError fun _ => .transport
      else .error (.refused .notFound) }

/-- The entry of each version of it in its history. -/
def keptMeta (generation version : Nat) : Except SealError VersionMeta :=
  let _ := Backend.checksum
  (keptSecret generation version).map fun written =>
    { version := written.version, writtenAt := written.writtenAt, writtenBy := .owner, size := 1, tombstone := false,
      generation := written.generation, valueCtHash := Digests.sha256 (written.valueCt.getD []),
      nameCtHash := Digests.sha256 written.nameCt, sig := written.sig }

end GalataVault.Client

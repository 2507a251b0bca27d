import GalataVault.Client.Acceptance
import GalataVault.Client.Generations
import GalataVault.Client.Honesty
import GalataVault.Client.Rollbacks
import GalataVault.Library.Reliance

/-!
# False accusations

An integrity error tells the user that what the server served does not verify. Against
an honest server two checks can fail all the same, both against what another thread
pinned after the answer was given: that of a latest version, and that of the generation
of a refresh. Here these are shown to be the only ones: in a run in which neither finds
a later pin, no call accuses the server.

What is noted of a call is the generation of the last descriptor it was answered.
-/

namespace GalataVault.Client

open Proto Interaction
open Server (VaultStatus VersionMeta)

theorem api_innocent (e : ApiError) : (Error.api e).accuses = false := by
  cases e with
  | transport | undecoded => rfl
  | refused code => cases code <;> rfl

theorem owner_innocent (e : ApiError) : (Error.owner e).accuses = false := by
  unfold Error.owner
  split
  · rfl
  · exact api_innocent e

section

variable [Crypto] [Digests]

/-! ## What a call may rely on -/

/-- The generation a signed descriptor names. -/
def SignedDescriptor.named (signed : SignedDescriptor) : Nat :=
  (signed.decodeUnverified.toOption.map (·.generation)).getD 0

/-- Note the generation of a descriptor that is answered. -/
def noteGeneration : {β : Type} → Nat → HandleOp β → β → Nat
  | _, _, .ask .status, .ok s => SignedDescriptor.named s.descriptor
  | _, _, .ask .tokenSelf, .ok me => SignedDescriptor.named me.descriptor
  | _, noted, _, _ => noted

variable (handle : Handle) (lineage : Lineage)

/-- What a call does to the view and the pin. -/
def HandleOp.Proper : {β : Type} → Nat → HandleOp β → Prop
  | _, noted, .setView next => Counted noted ∧ lineage.Sees noted next
  | _, noted, .setPin pin => Counted noted ∧ pin = .of (lineage.descriptor noted)
  | _, _, .adopt _ => False
  | _, _, _ => True

/-- The answers a call may rely on: those of an honest server that is no earlier than it
was; a view of one of the vault's generations; a pin that is not later than what the call
was answered; and that a latest version passes its check. -/
def HandleOp.Expected : {β : Type} → Nat → Nat × Answers → HandleOp β → β → Prop
  | _, _, _, .view, seen => ∃ g, Counted g ∧ lineage.Sees g seen
  | _, noted, _, .pinned, known =>
    ∀ pin, known = some pin → ∃ g, Counted g ∧ g ≤ noted ∧ pin = .of (lineage.descriptor g)
  | _, _, _, .checkVersion _ _ _ _, checked => checked = .ok ()
  | _, noted, env, .ask query, answer => Counted env.1 ∧ noted ≤ env.1 ∧ Truthful handle lineage env.1 env.2 ∧
      answer = env.2.answer query
  | _, _, _, _, _ => True

def reliance : Trust HandleOp Nat (Nat × Answers) where
  note noted _ op answer := noteGeneration noted op answer
  allowed := HandleOp.Proper lineage
  expected := HandleOp.Expected handle lineage

/-- A call ends with what holds of its value, or with an error that does not accuse the
server. -/
abbrev Ends {α : Type} (holds : α → Nat → Prop) : Except Error α → Nat → Prop :=
  Program.Outcome holds fun e => e.accuses = false

/-- An action that keeps to its trust and ends so. -/
abbrev Keeps {α : Type} (action : Action α) (noted : Nat) (holds : α → Nat → Prop) : Prop :=
  action.Trusts (reliance handle lineage) noted (Ends holds)

variable {handle lineage}

namespace Keeps

variable {α β : Type} {noted : Nat}

theorem bind {first : Action α} {next : α → Action β} {middle : α → Nat → Prop} {holds : β → Nat → Prop}
    (head : Keeps handle lineage first noted middle)
    (tail : ∀ value later, middle value later → Keeps handle lineage (next value) later holds) :
    Keeps handle lineage (first >>= next) noted holds := Program.Trusts.andThen head tail

theorem check {result : Except Error α} {next : α → Action β} {holds : β → Nat → Prop} (fine : Fine result)
    (goes : ∀ value, result = .ok value → Keeps handle lineage (next value) noted holds) :
    Keeps handle lineage (Action.check result >>= next) noted holds :=
  Program.Trusts.done_bind (fun e failed => fine e failed) goes

theorem fail {e : Error} {holds : α → Nat → Prop} (innocent : e.accuses = false) :
    Keeps handle lineage (Program.fail e) noted holds := innocent

/-- One request, and what follows its answer. -/
theorem ask {query : Query α} {next : Except ApiError α → Action β} {holds : β → Nat → Prop}
    (goes : ∀ now answers, Counted now → noted ≤ now → Truthful handle lineage now answers →
      Keeps handle lineage (next (answers.answer query)) (noteGeneration noted (.ask query) (answers.answer query)) holds) :
    Keeps handle lineage (Program.ask (.ask query) >>= next) noted holds := by
  refine ⟨trivial, fun env answer expected => ?_⟩
  obtain ⟨counted, later, truthful, rfl⟩ := expected
  exact goes env.1 env.2 counted later truthful

/-- A request whose refusal ends the call. -/
theorem request {query : Query α} {onError : ApiError → Error} {next : α → Action β} {holds : β → Nat → Prop}
    (innocent : ∀ e, (onError e).accuses = false)
    (goes : ∀ now answers value, Counted now → noted ≤ now → Truthful handle lineage now answers →
      answers.answer query = .ok value →
      Keeps handle lineage (next value) (noteGeneration noted (.ask query) (.ok value)) holds) :
    Keeps handle lineage (Action.ask query onError >>= next) noted holds := by
  refine ⟨trivial, fun env answer expected => ?_⟩
  obtain ⟨counted, later, truthful, rfl⟩ := expected
  cases answered : env.2.answer query with
  | ok value =>
    have goesOn := goes env.1 env.2 value counted later truthful answered
    exact goesOn
  | error e => exact innocent e

/-- The view in force, and what follows. -/
theorem seeing {next : View → Action β} {holds : β → Nat → Prop}
    (goes : ∀ v g, Counted g → lineage.Sees g v → Keeps handle lineage (next v) noted holds) :
    Keeps handle lineage (Program.ask .view >>= next) noted holds := by
  refine ⟨trivial, fun _ v expected => ?_⟩
  obtain ⟨g, counted, seen⟩ := expected
  exact goes v g counted seen

/-- An action whose outcome is looked at does not accuse by it. -/
theorem attempt {action : Action α} {holds : α → Nat → Prop} (keeps : Keeps handle lineage action noted holds) :
    Keeps handle lineage action.attempt noted fun result _ => Fine result := by
  apply Program.Trusts.attempt
  apply Program.Trusts.mono keeps
  intro result later ended
  cases result with
  | ok value => exact Fine.ok value
  | error e =>
    intro failure same
    obtain rfl := Except.error.inj same
    exact ended

end Keeps

end

/-! ## The calls -/

section

variable [Crypto] [Digests] [Ed25519] {handle : Handle} {lineage : Lineage} (serves : lineage.Serves handle)
  (correct : Correct) {noted : Nat}

include serves correct

/-- Verifying an honest descriptor for the handle. -/
theorem verifyFor_honest {g : Nat} (counted : Counted g) :
    (lineage.signed g).verifyFor handle.vaultId handle.ownerSignPub = .ok (lineage.descriptor g) := by
  rw [serves.vaultId, serves.ownerSignPub]
  exact lineage.verifies correct counted.below

theorem refreshStatus_keeps : Keeps handle lineage handle.refreshStatus noted fun _ _ => True := by
  apply Keeps.request api_innocent
  intro now answers s counted _ truthful answered
  obtain ⟨vaultId, signPub, _, _, descriptor, _⟩ := truthful.status s answered
  rw [if_neg (by rw [vaultId, signPub, serves.vaultId, serves.ownerSignPub]; simp)]
  apply Keeps.check
  · rw [descriptor, verifyFor_honest serves correct counted]
    exact Fine.ok _
  · intro _ _
    trivial

/-- What is found on a miss does not accuse the server. -/
theorem movedOn_keeps (v : View) : Keeps handle lineage (handle.movedOn v) noted fun moved _ =>
    ∀ e, moved = some e → e.accuses = false := by
  apply Keeps.bind (Keeps.attempt (refreshStatus_keeps serves correct))
  intro result later _
  cases result with
  | error e => exact fun e impossible => by cases impossible
  | ok status =>
    change ∀ e, (if status.generation = v.descriptor.generation then none else some Error.staleGeneration) = some e → _
    intro e same
    split at same
    · cases same
    · obtain rfl := Option.some.inj same
      rfl

/-- A miss is reported as what it is found to be, or as it came. -/
theorem missed_keeps {α : Type} (v : View) {otherwise : Action α} {holds : α → Nat → Prop}
    (ends : ∀ later, Keeps handle lineage otherwise later holds) :
    Keeps handle lineage (handle.movedOn v >>= fun moved =>
      match moved with
      | some moved => Program.fail moved
      | none => otherwise) noted holds := by
  apply Keeps.bind (movedOn_keeps serves correct v)
  intro moved later innocent
  cases moved with
  | some e => exact innocent e rfl
  | none => exact ends later

variable {v : View} {g : Nat}

omit serves in
theorem checkListed_keeps (seen : lineage.Sees g v) {now : Nat} (counted : Counted now) (kind : RecordCode)
    {record : SecretVersion} (written : Written (lineage.descriptor now) (lineage.keys now) kind record) (size : Nat) :
    Keeps handle lineage (Handle.checkListed v kind (record.listed size)) noted fun _ _ => True := by
  obtain ⟨descriptor, scope, bundle⟩ := seen
  have told : Told now g ((verifyListed v.descriptor kind (record.listed size)).mapError .sealing) := by
    rw [descriptor]
    exact verifyListed_told correct counted written size
  apply Keeps.check told.fine
  intro _ verified
  have current : now = g := by
    by_contra moved
    rw [told.moved moved] at verified
    cases verified
  subst current
  obtain ⟨name, named⟩ := openName_written correct counted written
  apply Keeps.check
  · rw [descriptor, bundle, forScope_nameKey, SecretVersion.listed, named]
    exact Fine.ok name
  intro name _
  refine ⟨trivial, fun _ answer expected => ?_⟩
  obtain rfl : answer = .ok () := expected
  trivial

omit serves in
theorem checkPage_keeps (seen : lineage.Sees g v) {now : Nat} (counted : Counted now) (kind : RecordCode)
    (items : List SecretListItem) (honest : ∀ item ∈ items, ∃ record size,
      Written (lineage.descriptor now) (lineage.keys now) kind record ∧ item = record.listed size) (noted : Nat) :
    Keeps handle lineage (Handle.checkPage v kind items) noted fun _ _ => True := by
  induction items generalizing noted with
  | nil => trivial
  | cons it rest inductionHypothesis =>
    obtain ⟨record, size, written, rfl⟩ := honest it List.mem_cons_self
    apply Keeps.bind (checkListed_keeps correct seen counted kind written size)
    intro item later _
    apply Keeps.bind (inductionHypothesis (fun item member => honest item (List.mem_cons_of_mem _ member)) later)
    intro items later _
    trivial

omit serves in
theorem listPages_keeps (seen : lineage.Sees g v) (kind : RecordCode) (pages : Nat) (after : Option NameHmac) (noted : Nat) :
    Keeps handle lineage (Handle.listPages v kind pages after) noted fun _ _ => True := by
  induction pages generalizing after noted with
  | zero => exact Keeps.fail rfl
  | succ pages inductionHypothesis =>
    apply Keeps.request api_innocent
    intro now answers page counted _ truthful answered
    apply Keeps.bind (checkPage_keeps correct seen counted kind page.items (truthful.list kind after page answered) _)
    intro items later _
    split
    · trivial
    · next cursor _ =>
      apply Keeps.bind (inductionHypothesis (some cursor) later)
      intro more later _
      trivial

omit [Crypto] [Digests] [Ed25519] serves correct in
theorem fine_forM {α : Type} {f : α → Except Error Unit} {list : List α} (each : ∀ a ∈ list, Fine (f a)) :
    Fine (list.forM f) := by
  induction list with
  | nil => exact Fine.ok ()
  | cons a rest inductionHypothesis =>
    intro e failed
    change (f a >>= fun _ => rest.forM f) = .error e at failed
    cases first : f a with
    | error thrown =>
      rw [first] at failed
      obtain rfl := Except.error.inj failed
      exact each a List.mem_cons_self thrown first
    | ok done =>
      rw [first] at failed
      exact inductionHypothesis (fun b member => each b (List.mem_cons_of_mem _ member)) e failed

theorem versionsKind_keeps (seen : lineage.Sees g v) (kind : RecordCode) (name : String) :
    Keeps handle lineage (handle.versionsKind v kind name) noted fun _ _ => True := by
  apply Keeps.ask
  intro now answers counted _ truthful
  split
  · next list answered =>
    apply Keeps.check
    · apply fine_forM
      intro m member
      obtain ⟨record, writtenBy, size, written, indexed, rfl⟩ := truthful.versions kind _ list answered m member
      rw [seen.1, ← indexed]
      exact (verifyMeta_told correct counted written writtenBy size).fine
    · intro _ _
      trivial
  · next e _ =>
    split
    · exact missed_keeps serves correct v fun later => trivial
    · exact api_innocent e

/-- A record is fetched as the server holds it at some generation. -/
theorem fetch_keeps (seen : lineage.Sees g v) (kind : RecordCode) (name : String) (version : Option Nat) :
    Keeps handle lineage (handle.fetch v kind name version) noted fun record _ => ∃ now, Counted now ∧
      Written (lineage.descriptor now) (lineage.keys now) kind record := by
  apply Keeps.ask
  intro now answers counted _ truthful
  split
  · next record answered =>
    obtain ⟨written, indexed, wanted⟩ := truthful.record kind _ version record answered
    rw [if_neg (not_not.mpr indexed)]
    split
    · next want =>
      rw [if_neg (not_not.mpr (wanted want rfl))]
      exact ⟨now, counted, written⟩
    · apply Keeps.check
      · rw [seen.1]
        exact (verifyVersion_told correct counted written).fine
      intro _ _
      refine ⟨trivial, fun _ answer expected => ?_⟩
      obtain rfl : answer = .ok () := expected
      exact ⟨now, counted, written⟩
  · next e _ =>
    split
    · exact missed_keeps serves correct v fun later => rfl
    · split
      · rfl
      · exact api_innocent e

/-- A record that is fetched and then opened as its generation's keys open it. -/
theorem opened_keeps (seen : lineage.Sees g v) (kind : RecordCode) (name : String) (version : Option Nat)
    {opens : SecretVersion → Except SealError OpenedRecord} {gone : OpenedRecord → Prop} [DecidablePred gone]
    (same : opens = openRecord (lineage.descriptor g) (lineage.keys g) kind) :
    Keeps handle lineage (handle.fetch v kind name version >>= fun record =>
      Action.check ((opens record).mapError .sealing) >>= fun opened =>
        if gone opened then Program.fail .notFound else pure opened) noted fun _ _ => True := by
  subst same
  apply Keeps.bind (fetch_keeps serves correct seen kind name version)
  rintro record later ⟨now, counted, written⟩
  apply Keeps.check (openRecord_told correct counted written).fine
  intro opened _
  split
  · exact Keeps.fail rfl
  · trivial

theorem get_keeps (name : String) (version : Option Nat) :
    Keeps handle lineage (handle.get name version) noted fun _ _ => True := by
  apply Keeps.seeing
  rintro v g _ ⟨descriptor, scope, bundle⟩
  split
  · exact Keeps.fail rfl
  · next vaultSecret held =>
    apply opened_keeps serves correct ⟨descriptor, scope, bundle⟩ .secret name version
    rw [bundle] at held
    rw [descriptor, bundle, forScope_nameKey, forScope_vaultSecret held]
    rfl

theorem getConfig_keeps (name : String) (version : Option Nat) :
    Keeps handle lineage (handle.getConfig name version) noted fun _ _ => True := by
  apply Keeps.seeing
  rintro v g _ ⟨descriptor, scope, bundle⟩
  split
  · exact Keeps.fail rfl
  · next configSecret held =>
    apply opened_keeps serves correct ⟨descriptor, scope, bundle⟩ .config name version
    rw [bundle] at held
    rw [descriptor, bundle, forScope_nameKey, forScope_configSecret held]
    rfl

/-! ### Writes -/

omit [Crypto] [Digests] [Ed25519] serves correct in
theorem fine_sealing {α β : Type} {first : Except SealError α} {next : α → Except SealError β}
    (head : Fine (first.mapError .sealing)) (tail : ∀ value, first = .ok value → Fine ((next value).mapError .sealing)) :
    Fine ((first >>= next).mapError .sealing) := by
  cases first with
  | ok value => exact tail value rfl
  | error e =>
    intro failure same
    obtain rfl := Except.error.inj same
    exact head _ rfl

omit [Ed25519] serves correct in
theorem finish_fine (w : Writer) (draw : Draw) (kind : RecordCode) (name : String) (valueCt : Option (List UInt8))
    (version : Nat) (writtenAt : Int) : Fine ((w.finish draw kind name valueCt version writtenAt).mapError .sealing) := by
  apply fine_sealing
  · unfold NameKey.encryptName
    split
    · intro e same
      obtain rfl := Except.error.inj same
      rfl
    · exact Fine.ok _
  · intro nameCt _
    exact Fine.ok _

omit [Digests] [Ed25519] serves correct in
theorem sealEnvelope_fine (draw : FixedBytes 32) (recipient : Key32) (envelope : List UInt8) :
    Fine ((sealEnvelope draw recipient envelope).mapError .sealing) := by
  unfold sealEnvelope
  split
  · intro e same
    obtain rfl := Except.error.inj same
    rfl
  · cases Crypto.ageEncrypt draw recipient envelope with
    | ok ct => exact Fine.ok ct
    | error why =>
      intro e same
      obtain rfl := Except.error.inj same
      rfl

omit [Crypto] [Digests] [Ed25519] serves correct in
theorem encodeEnvelope_fine (kind : RecordCode) (format : Option ConfigFormat) (ctx : EnvelopeContext) (name : String)
    (body : List UInt8) : Fine ((encodeEnvelope kind format ctx name body).mapError .sealing) := by
  unfold encodeEnvelope
  split
  · intro e same
    obtain rfl := Except.error.inj same
    rfl
  · exact Fine.ok _

omit serves correct [Ed25519] in
/-- A writer that holds its generation's key can fail to sign, but not to find its key. -/
theorem signing_fine {writer : WriterKey} {kind : RecordCode} (held : writer = (lineage.keys g).writerKey kind)
    (draw : Draw) (name : String) (format : ConfigFormat) (body : List UInt8) (version : Nat) (writtenAt : Int) :
    let w : Writer := ⟨lineage.descriptor g, (lineage.keys g).nameKey, writer⟩
    Fine ((match kind with
      | .secret => w.secret draw name body version writtenAt
      | .config => w.config draw name format body version writtenAt).mapError .sealing) ∧
      Fine ((w.tombstone draw kind name version writtenAt).mapError .sealing) := by
  subst held
  intro w
  have checked : w.check kind = .ok () := writer_check (lineage.names g)
  have check : Fine ((w.check kind).mapError .sealing) := by
    rw [checked]
    exact Fine.ok ()
  constructor
  · cases kind with
    | secret =>
      apply fine_sealing check
      intro _ _
      apply fine_sealing
      · exact fine_sealing (encodeEnvelope_fine _ _ _ _ _) fun envelope _ => sealEnvelope_fine _ _ envelope
      · intro ct _
        exact finish_fine w draw .secret name (some ct) version writtenAt
    | config =>
      apply fine_sealing check
      intro _ _
      apply fine_sealing
      · exact fine_sealing (encodeEnvelope_fine _ _ _ _ _) fun envelope _ => sealEnvelope_fine _ _ envelope
      · intro ct _
        exact finish_fine w draw .config name (some ct) version writtenAt
  · apply fine_sealing check
    intro _ _
    exact finish_fine w draw kind name none version writtenAt

omit [Crypto] [Digests] [Ed25519] serves correct in
theorem writerOf_held {kind : RecordCode} {full : FullBundle} {scope : Scope} {writer : WriterKey}
    (bundle : v.bundle = Bundle.forScope full scope) (held : Handle.writerOf v kind = some writer) :
    writer = full.writerKey kind := by
  unfold Handle.writerOf at held
  rw [bundle] at held
  cases kind <;> cases scope <;> cases held <;> rfl

theorem conflict_keeps (seen : lineage.Sees g v) (kind : RecordCode) (name : String) :
    Keeps handle lineage (handle.conflict v kind name) noted fun failed _ => failed.accuses = false := by
  apply Keeps.bind (Keeps.attempt (versionsKind_keeps serves correct seen kind name))
  intro result later fine
  cases result with
  | ok versions => rfl
  | error e => exact fine e rfl

theorem sendWrite_keeps (seen : lineage.Sees g v) (name : String) (written : WrittenRecord) (pre : Pre) :
    Keeps handle lineage (handle.sendWrite v name written pre) noted fun _ _ => True := by
  apply Keeps.ask
  intro now answers counted _ truthful
  split
  · next version answered =>
    rw [if_neg (not_not.mpr (truthful.write written pre version answered))]
    refine ⟨trivial, fun _ answer expected => ?_⟩
    obtain rfl : answer = .ok () := expected
    trivial
  · next e _ =>
    split
    · apply Keeps.bind (conflict_keeps serves correct seen written.kind name)
      intro failed later innocent
      exact Keeps.fail innocent
    · split
      · rfl
      · split
        · rfl
        · exact api_innocent e

theorem writeValue_keeps (seen : lineage.Sees g v) (kind : RecordCode) (name : String) (format : ConfigFormat)
    (body : List UInt8) (pre : Pre) (signing : Signing) :
    Keeps handle lineage (handle.writeValue v kind name format body pre signing) noted fun _ _ => True := by
  obtain ⟨descriptor, scope, bundle⟩ := seen
  unfold Handle.writeValue
  split
  · exact Keeps.fail rfl
  · next writer held =>
    apply Keeps.check
    · rw [descriptor, bundle, forScope_nameKey]
      exact (signing_fine (writerOf_held bundle held) signing.draw name format body pre.nextVersion signing.writtenAt).1
    · intro written _
      exact sendWrite_keeps serves correct ⟨descriptor, scope, bundle⟩ name written pre

theorem writeTombstone_keeps (seen : lineage.Sees g v) (kind : RecordCode) (name : String) (pre : Pre)
    (signing : Signing) : Keeps handle lineage (handle.writeTombstone v kind name pre signing) noted fun _ _ => True := by
  obtain ⟨descriptor, scope, bundle⟩ := seen
  unfold Handle.writeTombstone
  split
  · exact Keeps.fail rfl
  · next writer held =>
    apply Keeps.check
    · rw [descriptor, bundle, forScope_nameKey]
      exact (signing_fine (writerOf_held bundle held) signing.draw name .text [] pre.nextVersion signing.writtenAt).2
    · intro written _
      exact sendWrite_keeps serves correct ⟨descriptor, scope, bundle⟩ name written pre

/-! ### Refreshes -/

omit [Ed25519] serves correct in
theorem named_honest {now : Nat} (counted : Counted now) : SignedDescriptor.named (lineage.signed now) = now := by
  rw [SignedDescriptor.named, lineage.decodes counted.below]
  exact Lineage.descriptor_generation lineage now

/-- The descriptors an honest server answers with verify. -/
theorem descriptors_verify {generations : List Nat} (below : ∀ g ∈ generations, g < 2 ^ 32) :
    ((generations.map lineage.signed).mapM fun s => s.verifyFor handle.vaultId handle.ownerSignPub) =
      .ok (generations.map lineage.descriptor) := by
  induction generations with
  | nil => rfl
  | cons g rest inductionHypothesis =>
    have first : (lineage.signed g).verifyFor handle.vaultId handle.ownerSignPub = .ok (lineage.descriptor g) := by
      rw [serves.vaultId, serves.ownerSignPub]
      exact lineage.verifies correct (below g List.mem_cons_self)
    rw [List.map_cons, List.mapM_cons, first, inductionHypothesis fun g member => below g (List.mem_cons_of_mem _ member)]
    rfl

variable [Unsealing] (ideal : Ideal)

include ideal

/-- The candidate is of the generation that was answered. -/
theorem candidate_keeps : Keeps handle lineage handle.candidate noted fun view later =>
    Counted later ∧ lineage.Sees later view := by
  unfold Handle.candidate
  cases holds : handle.holder with
  | owner owner =>
    obtain rfl := serves.owner owner holds
    apply Keeps.request owner_innocent
    intro now answers s counted _ truthful answered
    obtain ⟨_, _, _, _, descriptor, _⟩ := truthful.status s answered
    have heard : noteGeneration noted (.ask .status) (.ok s) = now := by
      change SignedDescriptor.named s.descriptor = now
      rw [descriptor]
      exact named_honest counted
    rw [heard]
    obtain ⟨fine, sees⟩ := ownerView_honest correct ideal truthful counted answered
    cases verdict : ownerView lineage.owner s with
    | ok view => exact ⟨counted, sees view verdict⟩
    | error e => exact fine e verdict
  | token token =>
    apply Keeps.request api_innocent
    intro now answers me counted _ truthful answered
    obtain ⟨_, _, descriptor, _⟩ := truthful.tokenSelf me answered
    have heard : noteGeneration noted (.ask .tokenSelf) (.ok me) = now := by
      change SignedDescriptor.named me.descriptor = now
      rw [descriptor]
      exact named_honest counted
    rw [heard]
    obtain ⟨fine, sees⟩ := tokenView_honest correct ideal truthful counted (serves.token token holds) holds answered
    apply Keeps.check fine
    rintro ⟨view, signPub⟩ verdict
    obtain ⟨seen, mine⟩ := sees view signPub verdict
    change Keeps handle lineage (if signPub ≠ handle.ownerSignPub then _ else _) now _
    rw [if_neg (not_not.mpr (mine.trans serves.ownerSignPub.symm))]
    exact ⟨counted, seen⟩

omit ideal [Unsealing] in
theorem descriptorsAfter_keeps (after : Nat) : Keeps handle lineage (handle.descriptorsAfter after) noted
    fun served later => later = noted ∧ ∃ now, noted ≤ now ∧
      served = (List.range' (after + 1) (now - after)).map lineage.descriptor := by
  apply Keeps.request api_innocent
  intro now answers list counted later truthful answered
  have below : ∀ g ∈ List.range' (after + 1) (now - after), g < 2 ^ 32 := by
    intro g member
    have inside := List.mem_range'_1.mp member
    have below := counted.below
    omega
  rw [truthful.descriptors after list answered, Action.integrity, descriptors_verify serves correct below]
  exact ⟨rfl, now, later, rfl⟩

omit ideal [Unsealing] in
/-- The served descriptors lead from a pin that is not later to the generation that was
answered. -/
theorem checkDescriptorPin_keeps {p reached : Nat} (pinned : Counted p) (notLater : p ≤ reached) :
    Keeps handle lineage (handle.checkDescriptorPin (.of (lineage.descriptor p)) (lineage.descriptor reached)) reached
      fun _ later => later = reached := by
  unfold Handle.checkDescriptorPin
  have pin : (DescriptorPin.of (lineage.descriptor p)).generation = p := lineage.descriptor_generation p
  rw [pin, Lineage.descriptor_generation, if_neg (Nat.not_lt.mpr notLater)]
  by_cases same : reached = p
  · subst same
    rw [if_pos rfl, if_pos (show (lineage.descriptor reached).hash = (DescriptorPin.of (lineage.descriptor reached)).hash
      from rfl)]
    rfl
  · rw [if_neg same]
    apply Keeps.bind (descriptorsAfter_keeps serves correct p)
    rintro _ later ⟨rfl, now, upTo, rfl⟩
    have followed : Handle.followChain (lineage.descriptor later) _ _ = .ok _ :=
      followChain_honest pinned.positive notLater upTo
    apply Keeps.check
    · rw [followed]
      exact Fine.ok _
    intro last ends
    rw [followed] at ends
    obtain rfl := Except.ok.inj ends
    rw [if_neg (not_not.mpr rfl)]
    rfl

theorem refresh_keeps : Keeps handle lineage handle.refresh noted fun _ _ => True := by
  apply Keeps.bind (candidate_keeps serves correct ideal)
  rintro view later ⟨counted, seen⟩
  refine ⟨trivial, fun _ known expected => ?_⟩
  have adopts : Keeps handle lineage (Program.ask (.setView view) >>= fun _ => Program.ask (.setPin view.pin)) later
      fun _ _ => True := by
    refine ⟨⟨counted, seen⟩, fun _ _ _ => ⟨⟨counted, ?_⟩, fun _ _ _ => trivial⟩⟩
    rw [View.pin, seen.1]
    rfl
  cases known with
  | none => exact adopts
  | some pin =>
    obtain ⟨p, pinned, notLater, rfl⟩ := expected pin rfl
    change Keeps handle lineage (handle.checkDescriptorPin _ view.descriptor >>= _) later _
    rw [seen.1]
    apply Keeps.bind (checkDescriptorPin_keeps serves correct pinned notLater)
    rintro _ _ rfl
    exact adopts

/-- Every call but that which adopts pins keeps to its trust. -/
theorem call_keeps (call : HandleCall) (notPins : ∀ pins, call ≠ .setPins pins) :
    Keeps handle lineage (call.program handle) noted fun _ _ => True := by
  cases call with
  | get kind name version =>
    cases kind with
    | secret => exact Keeps.bind (get_keeps serves correct name version) fun _ _ _ => trivial
    | config => exact Keeps.bind (getConfig_keeps serves correct name version) fun _ _ _ => trivial
  | list kind pages =>
    apply Keeps.seeing
    intro v g _ seen
    have listed : Keeps handle lineage (Handle.listKind pages v kind) noted fun _ _ => True :=
      Keeps.bind (listPages_keeps correct seen kind pages none noted) fun _ _ _ => trivial
    exact Keeps.bind listed fun _ _ _ => trivial
  | versions kind name =>
    apply Keeps.seeing
    intro v g _ seen
    exact Keeps.bind (versionsKind_keeps serves correct seen kind name) fun _ _ _ => trivial
  | current kind name =>
    apply Keeps.seeing
    intro v g _ seen
    exact Keeps.bind (versionsKind_keeps serves correct seen kind name) fun _ _ _ => trivial
  | put kind name format body pre signing =>
    apply Keeps.seeing
    intro v g _ seen
    exact Keeps.bind (writeValue_keeps serves correct seen kind name format body pre signing) fun _ _ _ => trivial
  | delete kind name version signing =>
    apply Keeps.seeing
    intro v g _ seen
    exact Keeps.bind (writeTombstone_keeps serves correct seen kind name (.update version) signing) fun _ _ _ => trivial
  | refresh => exact Keeps.bind (refresh_keeps serves correct ideal) fun _ _ _ => trivial
  | setPins pins => exact absurd rfl (notPins pins)

end

/-! ## Runs -/

/-- What the threads share, and the generation the server was last seen at. -/
structure Observed where
  shared : Shared
  time : Nat

section

variable [Crypto] [Digests] [Ed25519] [Unsealing] (handle : Handle) (lineage : Lineage)

/-- The threads of a handle, answered at each moment from the generation the server is
at. -/
def observed : Rules Observed HandleCall (Nat × Answers) HandleOp Error Returned Nat where
  start call := call.program handle
  first := 0
  serve env op world := ((world.shared.perform env.2 op).1, ⟨(world.shared.perform env.2 op).2, env.1⟩)
  watch := { note := noteGeneration, allowed := fun _ _ => True }

abbrev ObservedThreads := System Observed HandleOp Error Returned Nat

abbrev ObservedEvent := Interaction.Event HandleCall (Nat × Answers)

/-- No pins are adopted, the server never goes back to an earlier generation, and it
answers truthfully. -/
def FromHonest (state : ObservedThreads) : ObservedEvent → Prop
  | .arrive call => ∀ pins, call ≠ .setPins pins
  | .advance _ env => Counted env.1 ∧ state.world.time ≤ env.1 ∧ Truthful handle lineage env.1 env.2

/-- No call is overtaken: when it checks a latest version, no later one is pinned under
the index; and when a refresh reads the pin, it is not of a later generation than the
refresh was answered. -/
def unovertaken (state : ObservedThreads) : ObservedEvent → Bool
  | .arrive _ => true
  | .advance index _ =>
    match state.flights[index]? with
    | some ⟨_, .perform (.checkVersion _ kind index got) _⟩ =>
      (state.world.shared.pins.versions kind index).all (· ≤ got)
    | some ⟨noted, .perform .pinned _⟩ => state.world.shared.pins.descriptor.all (·.generation ≤ noted)
    | _ => true

/-- The view and the pin are of generations of the vault, no call has heard of a later
generation than the server is at, and every call keeps its trust. -/
structure Faithful (state : ObservedThreads) : Prop where
  view : ∃ g, Counted g ∧ lineage.Sees g state.world.shared.view
  pin : ∀ pin, state.world.shared.pins.descriptor = some pin → ∃ g, Counted g ∧ pin = .of (lineage.descriptor g)
  noted : ∀ flight ∈ state.flights, flight.noted ≤ state.world.time
  trusting : Trusting (reliance handle lineage) (Ends fun _ _ => True) state

variable {handle lineage} {state : ObservedThreads}

omit [Ed25519] [Unsealing] in
/-- The next operation of a call is answered as the call may rely on. -/
theorem Faithful.expected (faithful : Faithful handle lineage state) {index : Nat} {env : Nat × Answers} {noted : Nat}
    {β : Type} {op : HandleOp β} (honest : FromHonest handle lineage state (.advance index env))
    (quiet : unovertaken state (.advance index env) = true) (performs : Performs state index noted op) :
    (reliance handle lineage).expected noted env op (state.world.shared.perform env.2 op).1 := by
  obtain ⟨rest, here⟩ := performs
  obtain ⟨counted, later, truthful⟩ := honest
  have heard : noted ≤ state.world.time := faithful.noted _ (List.mem_of_getElem? here)
  cases op with
  | view => exact faithful.view
  | setView | setPin | adopt => trivial
  | pinned =>
    simp only [unovertaken, here] at quiet
    intro pin found
    obtain ⟨g, inTime, rfl⟩ := faithful.pin pin found
    rw [show state.world.shared.pins.descriptor = some (.of (lineage.descriptor g)) from found] at quiet
    have notLater : (DescriptorPin.of (lineage.descriptor g)).generation ≤ noted := of_decide_eq_true quiet
    rw [DescriptorPin.of, Lineage.descriptor_generation] at notLater
    exact ⟨g, inTime, notLater, rfl⟩
  | checkVersion name kind slot got =>
    simp only [unovertaken, here] at quiet
    rcases checkVersion_cases state.world.shared kind slot got with ⟨passed, _, _⟩ | ⟨known, found, less, _⟩
    · exact passed
    · rw [found] at quiet
      exact absurd (of_decide_eq_true quiet : known ≤ got) (Nat.not_le_of_lt less)
  | ask query => exact ⟨counted, heard.trans later, truthful, rfl⟩

omit [Ed25519] [Unsealing] in
/-- What a call hears of is no later than the server is. -/
theorem noteGeneration_le {now noted : Nat} {answers : Answers} (counted : Counted now)
    (truthful : Truthful handle lineage now answers) (heard : noted ≤ now) (shared : Shared) {β : Type} (op : HandleOp β) :
    noteGeneration noted op (shared.perform answers op).1 ≤ now := by
  cases op with
  | ask query =>
    cases query with
    | status =>
      change noteGeneration noted (.ask .status) answers.status ≤ now
      cases answered : answers.status with
      | error e => exact heard
      | ok s =>
        obtain ⟨_, _, _, _, descriptor, _⟩ := truthful.status s answered
        change SignedDescriptor.named s.descriptor ≤ now
        rw [descriptor, named_honest counted]
    | tokenSelf =>
      change noteGeneration noted (.ask .tokenSelf) answers.tokenSelf ≤ now
      cases answered : answers.tokenSelf with
      | error e => exact heard
      | ok me =>
        obtain ⟨_, _, descriptor, _⟩ := truthful.tokenSelf me answered
        change SignedDescriptor.named me.descriptor ≤ now
        rw [descriptor, named_honest counted]
    | _ => exact heard
  | _ => exact heard

theorem Faithful.step (serves : lineage.Serves handle) (correct : Correct) (ideal : Ideal)
    (faithful : Faithful handle lineage state) {event : ObservedEvent} (honest : FromHonest handle lineage state event)
    (quiet : unovertaken state event = true) :
    Faithful handle lineage (Interaction.step (observed handle) state event) := by
  have trusting : Trusting (reliance handle lineage) (Ends fun _ _ => True)
      (Interaction.step (observed handle) state event) := by
    apply faithful.trusting.step (fun _ _ _ _ => rfl)
    · rintro call rfl
      exact call_keeps serves correct ideal call honest
    · rintro index env β noted op rfl performs
      exact faithful.expected honest quiet performs
  cases event with
  | arrive call =>
    refine ⟨faithful.view, faithful.pin, ?_, trusting⟩
    intro flight member
    rcases List.mem_append.mp member with old | new
    · exact faithful.noted flight old
    · obtain rfl := List.mem_singleton.mp new
      exact Nat.zero_le _
  | advance index env =>
    obtain ⟨counted, later, truthful⟩ := honest
    revert trusting
    simp only [Interaction.step, Interaction.advance]
    split
    · next noted β op rest here =>
      intro trusting
      have allowed := faithful.trusting.allowed ⟨rest, here⟩
      have heard : noted ≤ state.world.time := faithful.noted _ (List.mem_of_getElem? here)
      have notedAfter : ∀ flight ∈ state.flights.set index
          ⟨noteGeneration noted op (state.world.shared.perform env.2 op).1, rest (state.world.shared.perform env.2 op).1⟩,
          flight.noted ≤ env.1 := by
        intro flight member
        rcases List.mem_or_eq_of_mem_set member with old | rfl
        · exact (faithful.noted flight old).trans later
        · exact noteGeneration_le counted truthful (heard.trans later) _ op
      -- What keeps the view and the pin keeps everything.
      have keeps : (state.world.shared.perform env.2 op).2.view = state.world.shared.view →
          (state.world.shared.perform env.2 op).2.pins.descriptor = state.world.shared.pins.descriptor →
          Faithful handle lineage ⟨⟨(state.world.shared.perform env.2 op).2, env.1⟩, state.flights.set index
            ⟨noteGeneration noted op (state.world.shared.perform env.2 op).1,
              rest (state.world.shared.perform env.2 op).1⟩⟩ := by
        intro view pin
        refine ⟨?_, ?_, notedAfter, trusting⟩
        · rw [view]
          exact faithful.view
        · rw [pin]
          exact faithful.pin
      cases op with
      | view | pinned | ask => exact keeps rfl rfl
      | checkVersion name kind slot got =>
        obtain ⟨view, pin⟩ := checkVersion_view state.world.shared kind slot got
        exact keeps view pin
      | adopt pins => exact allowed.elim
      | setView next => exact ⟨⟨noted, allowed⟩, faithful.pin, notedAfter, trusting⟩
      | setPin pin =>
        refine ⟨faithful.view, fun known same => ?_, notedAfter, trusting⟩
        obtain rfl := Option.some.inj same
        exact ⟨noted, allowed⟩
    · intro trusting
      exact faithful

omit [Ed25519] [Unsealing] in
/-- A handle that was opened at a generation of the vault. -/
theorem Faithful.opened {view : View} (opened : ∃ g, Counted g ∧ lineage.Sees g view) (time : Nat) :
    Faithful handle lineage (⟨⟨.opened view, time⟩, []⟩ : ObservedThreads) := by
  refine ⟨opened, fun pin same => ?_, fun flight impossible => ?_, fun flight impossible => ?_⟩
  · obtain ⟨g, counted, seen⟩ := opened
    obtain rfl := Option.some.inj same
    exact ⟨g, counted, by rw [View.pin, seen.1]⟩
  · cases impossible
  · cases impossible

/-- Through a run of an honest server in which no call is overtaken. -/
theorem Faithful.run (serves : lineage.Serves handle) (correct : Correct) (ideal : Ideal) {events : List ObservedEvent}
    (faithful : Faithful handle lineage state)
    (honest : Machine.Throughout (Interaction.step (observed handle)) (FromHonest handle lineage) state events)
    (quiet : Machine.Throughout (Interaction.step (observed handle)) (fun state event => unovertaken state event = true)
      state events) :
    Faithful handle lineage (Machine.run (Interaction.step (observed handle)) state events) := by
  induction events generalizing state with
  | nil => exact faithful
  | cons event events inductionHypothesis =>
    exact inductionHypothesis (faithful.step serves correct ideal honest.1 quiet.1) honest.2 quiet.2

end

/-! ## A call that is overtaken -/

/-- The vault of the owner's handle. -/
def keptLineage : Lineage where
  owner := listedOwner
  keys := keptBundle
  createdAt _ := 1
  numbered _ := rfl
  low _ := by omega
  high _ := by omega

theorem keptLineage_descriptor (generation : Nat) :
    @Lineage.descriptor plain Backend.checksum keptLineage (generation + 1) = keptDescriptor (generation + 1) := by
  let _ := plain
  let _ := Backend.checksum
  induction generation with
  | zero => rfl
  | succ generation inductionHypothesis =>
    change (keptBundle (generation + 2)).descriptor _ (Descriptor.hash (Lineage.descriptor keptLineage (generation + 1))) 1 = _
    rw [inductionHypothesis]
    rfl

theorem keptLineage_signed {generation : Nat} (positive : 1 ≤ generation) :
    @Lineage.signed plain Backend.checksum keptLineage generation =
      @OwnerKeys.signDescriptor plain listedOwner (keptDescriptor generation) := by
  obtain ⟨before, rfl⟩ : ∃ before, generation = before + 1 := ⟨generation - 1, by omega⟩
  exact congrArg (@OwnerKeys.signDescriptor plain listedOwner) (keptLineage_descriptor before)

theorem kept_truthful {generation : Nat} (positive : 1 ≤ generation) :
    @Truthful plain Backend.checksum keptHandle keptLineage generation (keptAnswers generation) := by
  let _ := plain
  let _ := Backend.checksum
  refine ⟨?_, ?_, ?_, ?_, ?_, ?_, ?_⟩
  · intro s answered
    obtain rfl := Except.ok.inj answered
    refine ⟨rfl, rfl, rfl, rfl, (keptLineage_signed positive).symm, fun signed given => ⟨.fill 32 1, ?_⟩⟩
    change (sealOwnerBundle listedOwner (.fill 32 1) (keptBundle generation)).toOption = some signed at given
    change sealOwnerBundle listedOwner (.fill 32 1) (keptBundle generation) = .ok signed
    cases sealedBundle : sealOwnerBundle listedOwner (.fill 32 1) (keptBundle generation) with
    | error e =>
      rw [sealedBundle] at given
      cases given
    | ok bundle =>
      rw [sealedBundle] at given
      exact congrArg Except.ok (Option.some.inj given)
  · intro me impossible
    cases impossible
  · intro after list answered
    obtain rfl := Except.ok.inj answered
    apply List.map_congr_left
    intro g member
    have inside := List.mem_range'_1.mp member
    exact (keptLineage_signed (by omega)).symm
  · intro kind after page impossible
    cases impossible
  · intro kind index list impossible
    cases impossible
  · intro kind index version v impossible
    cases impossible
  · intro written pre version impossible
    cases impossible

/-- A version of the secret "A" is written by its generation's writer, under its index. -/
theorem kept_written {generation version : Nat} (positive : 1 ≤ generation) (fits : version < 2 ^ 64)
    {rec : WrittenRecord} (wrote : keptSecret generation version = .ok rec) :
    @Written plain Backend.checksum (@Lineage.descriptor plain Backend.checksum keptLineage generation)
        (keptBundle generation) .secret rec.served ∧
      rec.nameHmac = @NameKey.index plain (keptBundle generation).nameKey .secret "A" ∧ rec.version = version := by
  let _ := plain
  let _ := Backend.checksum
  obtain ⟨before, rfl⟩ : ∃ before, generation = before + 1 := ⟨generation - 1, by omega⟩
  obtain ⟨_, numbered, indexed⟩ := secret_ok wrote
  have fits : (⟨"A", version, 1, none, some [1]⟩ : OpenedRecord).Fits .secret :=
    ⟨fits, show (-2 ^ 63 : Int) ≤ 1 by decide, show (1 : Int) < 2 ^ 63 by decide, rfl⟩
  refine ⟨⟨⟨.fill 24 1, .fill 32 1⟩, ⟨"A", version, 1, none, some [1]⟩, rec, fits, ?_, rfl⟩, indexed, numbered⟩
  rw [keptLineage_descriptor]
  exact wrote

/-- Serving a version of the secret "A" is as truthful, if its writer wrote it. -/
theorem serving_truthful {generation version : Nat} (positive : 1 ≤ generation) (fits : version < 2 ^ 64) :
    @Truthful plain Backend.checksum keptHandle keptLineage generation (servingSecret generation version) := by
  let _ := plain
  let _ := Backend.checksum
  have kept := kept_truthful positive
  refine ⟨kept.status, kept.tokenSelf, kept.descriptors, kept.list, kept.versions, ?_, kept.write⟩
  intro kind index wanted v answered
  change (if kind = .secret ∧ index = (keptBundle generation).nameKey.index .secret "A" ∧ wanted.getD version = version then
    ((keptSecret generation version).map WrittenRecord.served).mapError fun _ => ApiError.transport
    else .error (.refused .notFound)) = .ok v at answered
  split at answered
  · next asked =>
    obtain ⟨rfl, rfl, same⟩ := asked
    cases wrote : keptSecret generation version with
    | error e =>
      rw [wrote] at answered
      cases answered
    | ok rec =>
      rw [wrote] at answered
      obtain rfl := Except.ok.inj answered
      obtain ⟨written, indexed, numbered⟩ := kept_written positive fits wrote
      refine ⟨written, indexed, ?_⟩
      rintro wanted rfl
      exact numbered.trans same.symm
  · cases answered

/-- An event of a run in which the server stays at a generation. -/
def Steady [Crypto] [Digests] (handle : Handle) (lineage : Lineage) (now : Nat) : ObservedEvent → Prop
  | .arrive call => ∀ pins, call ≠ .setPins pins
  | .advance _ env => env.1 = now ∧ Truthful handle lineage now env.2

theorem steady_honest [Crypto] [Digests] [Ed25519] [Unsealing] {handle : Handle} {lineage : Lineage} {now : Nat}
    (counted : Counted now) (events : List ObservedEvent) (steady : ∀ event ∈ events, Steady handle lineage now event)
    (state : ObservedThreads) (inTime : state.world.time ≤ now) :
    Machine.Throughout (Interaction.step (observed handle)) (FromHonest handle lineage) state events := by
  induction events generalizing state with
  | nil => trivial
  | cons event events inductionHypothesis =>
    have first := steady event List.mem_cons_self
    constructor
    · cases event with
      | arrive call => exact first
      | advance index env =>
        obtain ⟨rfl, truthful⟩ := first
        exact ⟨counted, inTime, truthful⟩
    · apply inductionHypothesis fun event member => steady event (List.mem_cons_of_mem _ member)
      cases event with
      | arrive call => exact inTime
      | advance index env =>
        obtain ⟨rfl, _⟩ := first
        simp only [Interaction.step, Interaction.advance]
        split
        · exact Nat.le_refl _
        · exact inTime

/-- The error a call ended with. -/
def failure {σ ν : Type} (state : System σ HandleOp Error Returned ν) (call : Nat) : Option Error :=
  match state.flights[call]? with
  | some ⟨_, .done (.error e)⟩ => some e
  | _ => none

/-- A call that reads the secret "A" at generation 1, and is served one version of it. -/
def readingAt (call version : Nat) : List ObservedEvent :=
  .arrive (.get .secret "A" none) :: List.replicate 2 (.advance call (1, servingSecret 1 version))

def checkingAt (call : Nat) : ObservedEvent := .advance call (1, keptAnswers 1)

/-- The first read is served version 1. Before it checks that, the secret is written
again, and the second read is served version 2 and returns. -/
def overtakenRead : List ObservedEvent := readingAt 0 1 ++ readingAt 1 2 ++ [checkingAt 1, checkingAt 0]

/-- The first refresh is answered generation 2. Before it reads the pin, the vault is
rotated again, and the second refresh is answered generation 3 and returns. -/
def overtakenRefresh : List ObservedEvent :=
  [.arrive .refresh, .arrive .refresh, .advance 0 (2, keptAnswers 2)] ++
    (List.replicate 5 (.advance 1 (3, keptAnswers 3)) ++ [.advance 0 (3, keptAnswers 3)])

end GalataVault.Client

import GalataVault.Client.Accusations
import GalataVault.Library.Paging
import Mathlib.Data.List.Lex

/-!
# Reading through a rotation

A rotation gives every record a new index. A call reads the view once, computes indexes
and cursors under its generation, and finds out that the vault has moved on from what it
is answered: an item of another generation, or a miss it checks. Two answers tell it
nothing: a page without items, and a refusal of an index that the allow-list does not
name any more. Here a call that is not given these is shown to be right about a record
that exists throughout, or to find that its view is stale.

What is noted of the call is when it was last answered.
-/

namespace GalataVault.Client

open Proto Interaction
open Server (ErrorCode VersionMeta)

/-! ## A record that exists -/

/-- The order in which the server lists indexes. -/
def listedBefore (left right : NameHmac) : Bool := !right.raw.le left.raw

theorem listedBefore_iff {left right : NameHmac} :
    listedBefore left right = true ↔ left.raw.bytes < right.raw.bytes := by
  unfold listedBefore FixedBytes.le
  rw [Bool.not_eq_true', decide_eq_false_iff_not]
  exact not_not

theorem listedBefore_strict : Paging.Strict listedBefore where
  irrefl index := by
    rw [Bool.eq_false_iff]
    intro less
    exact List.lt_irrefl _ (listedBefore_iff.mp less)
  trans first second third less more := by
    rw [listedBefore_iff] at less more ⊢
    exact List.lt_trans less more

/-- One page of the latest versions on a shelf. -/
def shelved (limit : Nat) (shelf : List SecretListItem) (after : Option NameHmac) : SecretList :=
  let items := Paging.page listedBefore SecretListItem.nameHmac limit shelf after
  ⟨items, if items.length = limit then items.getLast?.map SecretListItem.nameHmac else none⟩

/-- Whether a call asks for a record of a kind and name, or lists the kind. -/
def HandleCall.about (kind : RecordCode) (name : String) : HandleCall → Prop
  | .list listed _ => listed = kind
  | .versions asked wanted | .current asked wanted | .get asked wanted _ => asked = kind ∧ wanted = name
  | _ => False

/-- Whether a view holds the key a call opens what it reads with. -/
def HandleCall.readable (v : View) : HandleCall → Bool
  | .get .secret _ _ => v.bundle.vaultSecret.isSome
  | .get .config _ _ => v.bundle.configSecret.isSome
  | _ => true

/-- What a server that holds a record under an index answers a call about it. Of other
indexes it answers what it holds, that it holds nothing, or that the credential may not
read it. -/
def Supplies (answers : Answers) (kind : RecordCode) (index : NameHmac) : HandleCall → Prop
  | .list _ _ => ∃ shelf limit, 0 < limit ∧ Paging.Ordered listedBefore SecretListItem.nameHmac shelf ∧
      (∃ item ∈ shelf, item.nameHmac = index) ∧ ∀ after, answers.list kind after = .ok (shelved limit shelf after)
  | .versions _ _ | .current _ _ => (∃ list, answers.versions kind index = .ok list) ∧ ∀ other,
      (∃ list, list ≠ [] ∧ answers.versions kind other = .ok list) ∨
        answers.versions kind other = .error (.refused .notFound)
  | .get _ _ wanted => (∃ v, answers.record kind index wanted = .ok v ∧ v.valueCt.isSome) ∧ ∀ other,
      (∃ v, answers.record kind other wanted = .ok v) ∨ answers.record kind other wanted = .error (.refused .notFound) ∨
        answers.record kind other wanted = .error (.refused .forbidden)
  | _ => True

/-- What a call may end with: what is right of a record that exists, or that the view is
stale. -/
def Right (index : NameHmac) : HandleCall → Returned → Prop
  | .list _ _, .items items => items.countP (·.hmac = index) = 1
  | .versions _ _, .history list => list ≠ []
  | .current _ _, .pre pre => pre ≠ .create
  | .get _ _ _, .record opened => opened.value.isSome
  | _, _ => False

/-- That the view is stale, or that the pages a list was followed for are used up. -/
def Excused (e : Error) : Prop := e = .staleGeneration ∨ e = .unfinished

/-- A call ends with what is right, or finds that its view is stale. -/
def RightOrStale (index : NameHmac) (call : HandleCall) : Except Error Returned → Prop
  | .ok value => Right index call value
  | .error e => Excused e

/-- Whether an answer of another generation than the call's shows that it is: a page by
an item, a record's index by not being refused as one the credential may not read. -/
def revealing (g now : Nat) : {β : Type} → Query β → Except ApiError β → Bool
  | _, .list _ _, .ok page => now = g || !page.items.isEmpty
  | _, .record _ _ _, .error e => e.code ≠ some .forbidden
  | _, _, _ => true

section

variable [Crypto] [Digests]

/-- The index of a name in a generation. -/
def Lineage.index (lineage : Lineage) (g : Nat) (kind : RecordCode) (name : String) : NameHmac :=
  (lineage.keys g).nameKey.index kind name

/-- At a generation the server answers, and holds the record that a call is about. -/
structure Existing (lineage : Lineage) (kind : RecordCode) (name : String) (call : HandleCall) (now : Nat)
    (answers : Answers) : Prop where
  status : ∃ s, answers.status = .ok s
  holds : Supplies answers kind (lineage.index now kind name) call

variable (handle : Handle) (lineage : Lineage) (kind : RecordCode) (name : String) (call : HandleCall) (g : Nat)

/-- What the call is answered: a view of the generation `g`, that a latest version passes
its check, and what shows a rotation. -/
def HandleOp.Attended : {β : Type} → Nat → Nat × Answers → HandleOp β → β → Prop
  | _, _, env, .view, seen => g ≤ env.1 ∧ lineage.Sees g seen ∧ call.readable seen = true
  | _, _, _, .checkVersion _ _ _ _, checked => checked = .ok ()
  | _, noted, env, .ask query, answer => Counted env.1 ∧ noted ≤ env.1 ∧ Truthful handle lineage env.1 env.2 ∧
      Existing lineage kind name call env.1 env.2 ∧ revealing g env.1 query answer = true ∧ answer = env.2.answer query
  | _, _, _, _, _ => True

def attendance : Trust HandleOp Nat (Nat × Answers) where
  note _ env _ _ := env.1
  allowed _ _ := True
  expected := HandleOp.Attended handle lineage kind name call g

/-- An action that ends as it should when it is so answered. -/
abbrev Attends {α : Type} (action : Action α) (noted : Nat) (holds : α → Nat → Prop) : Prop :=
  action.Trusts (attendance handle lineage kind name call g) noted (Program.Outcome holds Excused)

variable {handle lineage kind name call g}

namespace Attends

variable {α β : Type} {noted : Nat}

theorem bind {first : Action α} {next : α → Action β} {middle : α → Nat → Prop} {holds : β → Nat → Prop}
    (head : Attends handle lineage kind name call g first noted middle)
    (tail : ∀ value later, middle value later → Attends handle lineage kind name call g (next value) later holds) :
    Attends handle lineage kind name call g (first >>= next) noted holds := Program.Trusts.andThen head tail

/-- A check of something of a generation: it ends the call, unless that is the view's. -/
theorem check (now : Nat) {result : Except Error α} {next : α → Action β} {holds : β → Nat → Prop}
    (told : Told now g result)
    (goes : ∀ value, now = g → result = .ok value → Attends handle lineage kind name call g (next value) noted holds) :
    Attends handle lineage kind name call g (Action.check result >>= next) noted holds := by
  by_cases current : now = g
  · obtain ⟨value, passed⟩ := told.current current
    rw [passed]
    exact goes value current passed
  · rw [told.moved current]
    exact .inl rfl

/-- One request, and what follows its answer. -/
theorem ask {query : Query α} {next : Except ApiError α → Action β} {holds : β → Nat → Prop}
    (goes : ∀ now answers, Counted now → noted ≤ now → Truthful handle lineage now answers →
      Existing lineage kind name call now answers → revealing g now query (answers.answer query) = true →
      Attends handle lineage kind name call g (next (answers.answer query)) now holds) :
    Attends handle lineage kind name call g (Program.ask (.ask query) >>= next) noted holds := by
  refine ⟨trivial, fun env answer expected => ?_⟩
  obtain ⟨counted, later, truthful, existing, shows, rfl⟩ := expected
  exact goes env.1 env.2 counted later truthful existing shows

/-- The check of a latest version passes. -/
theorem checkVersion {name' : String} {kind' : RecordCode} {slot : NameHmac} {got : Nat} {next : Unit → Action β}
    {holds : β → Nat → Prop} (goes : ∀ later, Attends handle lineage kind name call g (next ()) later holds) :
    Attends handle lineage kind name call g
      (Program.ask (.checkVersion name' kind' slot got) >>= fun checked => Action.check checked >>= next) noted holds := by
  refine ⟨trivial, fun env answer expected => ?_⟩
  obtain rfl : answer = .ok () := expected
  exact goes env.1

end Attends

end

/-! ## Parts of calls -/

section

variable [Crypto] [Digests] [Ed25519] {handle : Handle} {lineage : Lineage} (serves : lineage.Serves handle)
  (correct : Correct) {kind : RecordCode} {name : String} {call : HandleCall} {g noted : Nat} {v : View}

include correct

include serves in
/-- After a rotation a miss is found to be one. -/
theorem movedOn_attends (seen : lineage.Sees g v) (rotated : g < noted) :
    Attends handle lineage kind name call g (handle.movedOn v) noted fun moved _ => moved = some .staleGeneration := by
  have status : Attends handle lineage kind name call g handle.refreshStatus.attempt noted
      fun result _ => ∃ s, result = .ok s ∧ s.generation ≠ g := by
    apply Program.Trusts.attempt
    refine ⟨trivial, fun env answer expected => ?_⟩
    obtain ⟨counted, later, truthful, existing, _, rfl⟩ := expected
    obtain ⟨s, answered⟩ := existing.status
    obtain ⟨vaultId, signPub, _, generation, descriptor, _⟩ := truthful.status s answered
    rw [show env.2.answer .status = .ok s from answered]
    change (if s.ownerSignPub ≠ handle.ownerSignPub ∨ s.vaultId ≠ handle.vaultId then _ else _ : Action _).Trusts _ _ _
    rw [if_neg (by rw [vaultId, signPub, serves.vaultId, serves.ownerSignPub]; simp), descriptor,
      verifyFor_honest serves correct counted]
    refine ⟨s, rfl, ?_⟩
    rw [generation]
    omega
  apply Attends.bind status
  rintro _ later ⟨s, rfl, moved⟩
  change (if s.generation = v.descriptor.generation then none else some Error.staleGeneration) = some Error.staleGeneration
  rw [seen.1, Lineage.descriptor_generation, if_neg moved]

/-- An item is of the view's generation, or ends the call. -/
theorem checkListed_attends (seen : lineage.Sees g v) {now : Nat} (counted : Counted now) (listed : RecordCode)
    {record : SecretVersion} (written : Written (lineage.descriptor now) (lineage.keys now) listed record) (size : Nat) :
    Attends handle lineage kind name call g (Handle.checkListed v listed (record.listed size)) noted
      fun item _ => now = g ∧ item.hmac = (record.listed size).nameHmac := by
  obtain ⟨descriptor, scope, bundle⟩ := seen
  apply Attends.check now
  · rw [descriptor]
    exact verifyListed_told correct counted written size
  rintro _ rfl _
  obtain ⟨opened, named⟩ := openName_written correct counted written
  apply Attends.check now
  · rw [descriptor, bundle, forScope_nameKey, SecretVersion.listed, named]
    exact ⟨fun _ => ⟨opened, rfl⟩, fun moved => absurd rfl moved⟩
  rintro opened _ _
  apply Attends.checkVersion
  intro later
  exact ⟨rfl, rfl⟩

/-- A page with an item is of the view's generation, or ends the call; its items are
returned under their indexes. -/
theorem checkPage_attends (seen : lineage.Sees g v) {now : Nat} (counted : Counted now) (listed : RecordCode)
    (items : List SecretListItem) (honest : ∀ item ∈ items, ∃ record size,
      Written (lineage.descriptor now) (lineage.keys now) listed record ∧ item = record.listed size) (noted : Nat) :
    Attends handle lineage kind name call g (Handle.checkPage v listed items) noted
      fun checked _ => (items ≠ [] → now = g) ∧ checked.map (·.hmac) = items.map (·.nameHmac) := by
  induction items generalizing noted with
  | nil => exact ⟨fun filled => absurd rfl filled, rfl⟩
  | cons it rest inductionHypothesis =>
    obtain ⟨record, size, written, rfl⟩ := honest it List.mem_cons_self
    apply Attends.bind (checkListed_attends correct seen counted listed written size)
    rintro item later ⟨current, same⟩
    apply Attends.bind (inductionHypothesis (fun item member => honest item (List.mem_cons_of_mem _ member)) later)
    rintro checked later ⟨_, others⟩
    refine ⟨fun _ => current, ?_⟩
    rw [List.map_cons, List.map_cons, same, others]

omit [Crypto] [Digests] [Ed25519] correct in
theorem count_checked {items : List Item} {page : List SecretListItem} (index : NameHmac)
    (same : items.map (·.hmac) = page.map (·.nameHmac)) :
    items.countP (·.hmac = index) = page.countP (·.nameHmac = index) := by
  have counted := congrArg (List.countP (· = index)) same
  simpa [List.countP_map, Function.comp_def] using counted

/-- From a cursor on, the record is listed once if it is still to come, and not again if
it is not: whatever is written between two pages. -/
theorem listPages_attends (lists : ∃ listed pages, call = .list listed pages) (seen : lineage.Sees g v) (pages : Nat)
    (after : Option NameHmac) (noted : Nat) :
    Attends handle lineage kind name call g (Handle.listPages v kind pages after) noted fun items _ =>
      items.countP (·.hmac = lineage.index g kind name) =
        if Paging.ahead listedBefore after (lineage.index g kind name) then 1 else 0 := by
  obtain ⟨listed, bound, rfl⟩ := lists
  induction pages generalizing after noted with
  | zero => exact .inr rfl
  | succ pages inductionHypothesis =>
    apply Attends.ask
    intro now answers counted _ truthful existing shows
    obtain ⟨shelf, limit, room, ordered, present, served⟩ := existing.holds
    have answered := served after
    rw [show answers.answer (.list kind after) = .ok (shelved limit shelf after) from answered] at shows ⊢
    apply Attends.bind (checkPage_attends correct seen counted kind _ (truthful.list kind after _ answered) now)
    rintro items later ⟨filled, same⟩
    -- A page without items is one of the view's generation: the answer showed no other.
    obtain rfl : now = g := by
      by_cases none : (shelved limit shelf after).items = []
      · simpa [revealing, none] using shows
      · exact filled none
    have here := count_checked (lineage.index now kind name) same
    by_cases full : (Paging.page listedBefore SecretListItem.nameHmac limit shelf after).length = limit
    · obtain ⟨last, ends⟩ : ∃ last, (Paging.page listedBefore SecretListItem.nameHmac limit shelf after).getLast? =
          some last := by
        rw [← Option.isSome_iff_exists, List.getLast?_isSome]
        rintro empty
        rw [empty] at full
        exact Nat.ne_of_lt room full
      have next : (shelved limit shelf after).nextCursor = some last.nameHmac := by
        simp [shelved, full, ends]
      rw [next]
      apply Attends.bind (inductionHypothesis (some last.nameHmac) later)
      intro more later rest
      have whole := Paging.count_page listedBefore_strict ordered present ends
      change (items ++ more).countP _ = _
      rw [List.countP_append, here, rest]
      exact whole
    · have next : (shelved limit shelf after).nextCursor = none := by
        simp [shelved, full]
      rw [next]
      have short : (Paging.page listedBefore SecretListItem.nameHmac limit shelf after).length < limit :=
        Nat.lt_of_le_of_ne (List.length_take_le _ _) full
      have whole := Paging.count_last listedBefore_strict ordered present short
      exact here.trans whole

omit correct [Ed25519] in
theorem index_seen (seen : lineage.Sees g v) (kind : RecordCode) (name : String) :
    v.bundle.nameKey.index kind name = lineage.index g kind name := by
  obtain ⟨_, scope, bundle⟩ := seen
  rw [bundle, forScope_nameKey]
  rfl

omit [Crypto] [Digests] [Ed25519] correct in
theorem told_forM {α : Type} {now : Nat} {f : α → Except Error Unit} {list : List α} (filled : list ≠ [])
    (each : ∀ a ∈ list, Told now g (f a)) : Told now g (list.forM f) := by
  constructor
  · intro current
    clear filled
    induction list with
    | nil => exact ⟨(), rfl⟩
    | cons first rest inductionHypothesis =>
      obtain ⟨value, passed⟩ := (each first List.mem_cons_self).current current
      obtain ⟨done, others⟩ := inductionHypothesis fun a member => each a (List.mem_cons_of_mem _ member)
      change ∃ done, (f first >>= fun _ => rest.forM f) = .ok done
      rw [passed]
      exact ⟨done, others⟩
  · intro moved
    cases list with
    | nil => exact absurd rfl filled
    | cons first rest =>
      change (f first >>= fun _ => rest.forM f) = .error .staleGeneration
      rw [(each first List.mem_cons_self).moved moved]
      rfl

include serves in
/-- The history of a record that exists is not empty. -/
theorem versionsKind_attends (seen : lineage.Sees g v) (since : g ≤ noted)
    (asks : call = .versions kind name ∨ call = .current kind name) :
    Attends handle lineage kind name call g (handle.versionsKind v kind name) noted fun list _ => list ≠ [] := by
  apply Attends.ask
  intro now answers counted later truthful existing _
  rw [index_seen seen]
  have held : (∃ list, answers.versions kind (lineage.index now kind name) = .ok list) ∧ ∀ other,
      (∃ list, list ≠ [] ∧ answers.versions kind other = .ok list) ∨
        answers.versions kind other = .error (.refused .notFound) := by
    rcases asks with rfl | rfl
    · exact existing.holds
    · exact existing.holds
  rcases held.2 (lineage.index g kind name) with ⟨list, filled, answered⟩ | missing
  · rw [show answers.answer (.versions kind (lineage.index g kind name)) = .ok list from answered]
    apply Attends.check now
    · apply told_forM filled
      intro m member
      obtain ⟨record, writtenBy, size, written, indexed, rfl⟩ := truthful.versions kind _ list answered m member
      rw [seen.1, ← indexed]
      exact verifyMeta_told correct counted written writtenBy size
    rintro _ _ _
    exact filled
  · have rotated : g < now := by
      rcases Nat.lt_or_eq_of_le (since.trans later) with less | rfl
      · exact less
      · obtain ⟨list, answered⟩ := held.1
        rw [missing] at answered
        cases answered
    rw [show answers.answer (.versions kind (lineage.index g kind name)) = .error (.refused .notFound) from missing]
    apply Attends.bind (movedOn_attends serves correct seen rotated)
    rintro _ _ rfl
    exact .inl rfl

include serves in
/-- A record that exists is fetched with its value, or as the server holds it at another
generation. -/
theorem fetch_attends (seen : lineage.Sees g v) (since : g ≤ noted) {wanted : Option Nat} (asks : call = .get kind name wanted) :
    Attends handle lineage kind name call g (handle.fetch v kind name wanted) noted fun record _ => ∃ now, Counted now ∧
      Written (lineage.descriptor now) (lineage.keys now) kind record ∧ (now = g → record.valueCt.isSome) := by
  subst asks
  apply Attends.ask
  intro now answers counted later truthful existing shows
  rw [index_seen seen] at shows ⊢
  obtain ⟨⟨held, answered, valued⟩, others⟩ := existing.holds
  rcases others (lineage.index g kind name) with ⟨record, found⟩ | missing | refused
  · obtain ⟨written, indexed, numbered⟩ := truthful.record kind _ wanted record found
    have same : now = g → record.valueCt.isSome := by
      rintro rfl
      obtain rfl := Except.ok.inj (found.symm.trans answered)
      exact valued
    rw [show answers.answer (.record kind (lineage.index g kind name) wanted) = .ok record from found]
    change Attends handle lineage kind name _ g (if record.nameHmac ≠ lineage.index g kind name then _ else _) now _
    rw [if_neg (not_not.mpr indexed)]
    cases wanted with
    | some want =>
      change Attends handle lineage kind name _ g (if record.version ≠ want then _ else _) now _
      rw [if_neg (not_not.mpr (numbered want rfl))]
      exact ⟨now, counted, written, same⟩
    | none =>
      apply Attends.check now
      · rw [seen.1]
        exact verifyVersion_told correct counted written
      rintro _ _ _
      apply Attends.checkVersion
      intro later
      exact ⟨now, counted, written, same⟩
  · have rotated : g < now := by
      rcases Nat.lt_or_eq_of_le (since.trans later) with less | rfl
      · exact less
      · rw [missing] at answered
        cases answered
    rw [show answers.answer (.record kind (lineage.index g kind name) wanted) = .error (.refused .notFound) from missing]
    apply Attends.bind (movedOn_attends serves correct seen rotated)
    rintro _ _ rfl
    exact .inl rfl
  · rw [show answers.answer (.record kind (lineage.index g kind name) wanted) = .error (.refused .forbidden) from refused]
      at shows
    cases shows

include serves in
/-- A record that exists is returned with its value. -/
theorem opened_attends (seen : lineage.Sees g v) (since : g ≤ noted) {wanted : Option Nat}
    (asks : call = .get kind name wanted) {opens : SecretVersion → Except SealError OpenedRecord}
    {gone : OpenedRecord → Prop} [DecidablePred gone]
    (same : opens = openRecord (lineage.descriptor g) (lineage.keys g) kind)
    (there : ∀ r : OpenedRecord, r.Fits kind → r.value.isSome → ¬ gone r) :
    Attends handle lineage kind name call g (handle.fetch v kind name wanted >>= fun record =>
      Action.check ((opens record).mapError .sealing) >>= fun opened =>
        if gone opened then Program.fail .notFound else pure opened) noted fun opened _ => opened.value.isSome := by
  subst same
  apply Attends.bind (fetch_attends serves correct seen since asks)
  rintro record later ⟨now, counted, written, valued⟩
  apply Attends.check now (openRecord_told correct counted written)
  rintro opened rfl passed
  obtain ⟨r, opens, fits, value⟩ := openRecord_written correct counted written
  rw [opens] at passed
  obtain rfl := Except.ok.inj passed
  have some : r.value.isSome := by
    rw [← Option.not_isNone, value, Option.not_isNone]
    exact valued rfl
  rw [if_neg (there r fits some)]
  exact some

include serves in
theorem get_attends (name : String) (version : Option Nat) :
    Attends handle lineage .secret name (.get .secret name version) g (handle.get name version) noted
      fun opened _ => opened.value.isSome := by
  refine ⟨trivial, fun env v expected => ?_⟩
  obtain ⟨since, ⟨descriptor, scope, bundle⟩, readable⟩ := expected
  simp only [Program.bind]
  split
  · next missing =>
    rw [HandleCall.readable, missing] at readable
    cases readable
  · next vaultSecret held =>
    apply opened_attends serves correct ⟨descriptor, scope, bundle⟩ since rfl
    · rw [bundle] at held
      rw [descriptor, bundle, forScope_nameKey, forScope_vaultSecret held]
      rfl
    · intro r fits there
      rw [Option.isNone_eq_false_iff.mpr there]
      exact Bool.false_ne_true

include serves in
theorem getConfig_attends (name : String) (version : Option Nat) :
    Attends handle lineage .config name (.get .config name version) g (handle.getConfig name version) noted
      fun opened _ => opened.value.isSome := by
  refine ⟨trivial, fun env v expected => ?_⟩
  obtain ⟨since, ⟨descriptor, scope, bundle⟩, readable⟩ := expected
  simp only [Program.bind]
  split
  · next missing =>
    rw [HandleCall.readable, missing] at readable
    cases readable
  · next configSecret held =>
    apply opened_attends serves correct ⟨descriptor, scope, bundle⟩ since rfl
    · rw [bundle] at held
      rw [descriptor, bundle, forScope_nameKey, forScope_configSecret held]
      rfl
    · intro r fits there
      have formatted : r.format.isSome := by
        rw [fits.format, there]
        rfl
      rw [Option.isNone_eq_false_iff.mpr there, Option.isNone_eq_false_iff.mpr formatted]
      simp

variable [Unsealing]

include serves in
/-- A call about a record that exists ends as it should, once it has read a view of the
generation. -/
theorem call_attends (asks : call.about kind name) :
    (call.program handle).Trusts (attendance handle lineage kind name call g) noted
      (Program.Outcome (fun value _ => Right (lineage.index g kind name) call value) Excused) := by
  cases call with
  | put | delete | refresh | setPins => exact asks.elim
  | list listed pages =>
    obtain rfl : listed = kind := asks
    refine ⟨trivial, fun env v expected => ?_⟩
    obtain ⟨since, seen, _⟩ := expected
    have items : Attends handle lineage listed name (.list listed pages) g (Handle.listKind pages v listed) env.1
        fun items _ => items.countP (·.hmac = lineage.index g listed name) = 1 := by
      apply Attends.bind (listPages_attends correct ⟨listed, pages, rfl⟩ seen pages none env.1)
      intro items later once
      exact ((List.perm_insertionSort _ items).countP_eq _).trans once
    apply Attends.bind items
    intro items later once
    exact once
  | versions asked wanted =>
    obtain ⟨rfl, rfl⟩ := asks
    refine ⟨trivial, fun env v expected => ?_⟩
    obtain ⟨since, seen, _⟩ := expected
    apply Attends.bind (versionsKind_attends serves correct seen since (.inl rfl))
    intro list later filled
    exact filled
  | current asked wanted =>
    obtain ⟨rfl, rfl⟩ := asks
    refine ⟨trivial, fun env v expected => ?_⟩
    obtain ⟨since, seen, _⟩ := expected
    apply Attends.bind (versionsKind_attends serves correct seen since (.inr rfl))
    intro list later filled
    obtain ⟨last, ends⟩ : ∃ last, list.getLast? = some last := by
      rw [← Option.isSome_iff_exists, List.getLast?_isSome]
      exact filled
    change Pre.after list.getLast? ≠ .create
    rw [ends, Pre.after]
    split <;> simp
  | get asked wanted version =>
    obtain ⟨rfl, rfl⟩ := asks
    cases asked with
    | secret => exact Attends.bind (get_attends serves correct wanted version) fun _ _ there => there
    | config => exact Attends.bind (getConfig_attends serves correct wanted version) fun _ _ there => there

end

/-! ## Runs -/

section

variable [Crypto] [Digests] [Ed25519] [Unsealing] (handle : Handle) (lineage : Lineage) (kind : RecordCode) (name : String)
  (call : HandleCall) (g index : Nat)

abbrev runObserved (state : ObservedThreads) (events : List ObservedEvent) : ObservedThreads :=
  Machine.run (Interaction.step (observed handle)) state events

/-- Every event of a run is as `P` says in the state it meets. -/
abbrev Along (P : ObservedThreads → ObservedEvent → Prop) (state : ObservedThreads) (events : List ObservedEvent) : Prop :=
  Machine.Throughout (Interaction.step (observed handle)) P state events

/-- Whenever the call is answered, the record exists. -/
def Lasting (event : ObservedEvent) : Prop :=
  ∀ env, event = .advance index env → Existing lineage kind name call env.1 env.2

/-- The view the call reads is of the generation, and holds the key the call needs. -/
def views (state : ObservedThreads) : ObservedEvent → Bool
  | .arrive _ => true
  | .advance asked _ =>
    match state.flights[asked]? with
    | some ⟨_, .perform .view _⟩ =>
      asked ≠ index || (state.world.shared.view.descriptor.generation = g && call.readable state.world.shared.view)
    | _ => true

/-- No answer to the call hides that it is of another generation. -/
def revealed (state : ObservedThreads) : ObservedEvent → Bool
  | .arrive _ => true
  | .advance asked env =>
    match state.flights[asked]? with
    | some ⟨_, .perform (.ask query) _⟩ => asked ≠ index || revealing g env.1 query (env.2.answer query)
    | _ => true

/-- The view in force is of a generation the vault has reached, every thread is faithful,
and the call is on its way. -/
structure Attending (state : ObservedThreads) : Prop where
  faithful : Faithful handle lineage state
  view : ∃ reached, Counted reached ∧ reached ≤ state.world.time ∧ lineage.Sees reached state.world.shared.view
  tracks : Tracks (attendance handle lineage kind name call g)
    (Program.Outcome (fun value _ => Right (lineage.index g kind name) call value) Excused)
    (fun noted world => noted ≤ world.time) state index

variable {handle lineage kind name call g index} {state : ObservedThreads}

/-- The view in force stays one of a generation the vault has reached. -/
theorem reached_step (faithful : Faithful handle lineage state) {event : ObservedEvent}
    (honest : FromHonest handle lineage state event)
    (view : ∃ reached, Counted reached ∧ reached ≤ state.world.time ∧ lineage.Sees reached state.world.shared.view) :
    ∃ reached, Counted reached ∧ reached ≤ (Interaction.step (observed handle) state event).world.time ∧
      lineage.Sees reached (Interaction.step (observed handle) state event).world.shared.view := by
  cases event with
  | arrive call => exact view
  | advance index env =>
    obtain ⟨_, later, _⟩ := honest
    simp only [Interaction.step, Interaction.advance]
    split
    · next noted β op rest here =>
      have allowed := faithful.trusting.allowed ⟨rest, here⟩
      have heard : noted ≤ state.world.time := faithful.noted _ (List.mem_of_getElem? here)
      obtain ⟨reached, counted, inTime, seen⟩ := view
      have same : (state.world.shared.perform env.2 op).2.view = state.world.shared.view →
          ∃ reached, Counted reached ∧ reached ≤ env.1 ∧ lineage.Sees reached (state.world.shared.perform env.2 op).2.view := by
        intro same
        rw [same]
        exact ⟨reached, counted, inTime.trans later, seen⟩
      cases op with
      | setView next => exact ⟨noted, allowed.1, heard.trans later, allowed.2⟩
      | adopt pins => exact allowed.elim
      | view | pinned | ask | setPin => exact same rfl
      | checkVersion name kind slot got => exact same (checkVersion_view state.world.shared kind slot got).1
    · exact view

theorem reached_run (serves : lineage.Serves handle) (correct : Correct) (ideal : Ideal) {events : List ObservedEvent}
    (faithful : Faithful handle lineage state) (honest : Along handle (FromHonest handle lineage) state events)
    (quiet : Along handle (fun state event => unovertaken state event = true) state events)
    (view : ∃ reached, Counted reached ∧ reached ≤ state.world.time ∧ lineage.Sees reached state.world.shared.view) :
    ∃ reached, Counted reached ∧ reached ≤ (runObserved handle state events).world.time ∧
      lineage.Sees reached (runObserved handle state events).world.shared.view := by
  induction events generalizing state with
  | nil => exact view
  | cons event events inductionHypothesis =>
    exact inductionHypothesis (faithful.step serves correct ideal honest.1 quiet.1) honest.2 quiet.2
      (reached_step faithful honest.1 view)

theorem Attending.step (serves : lineage.Serves handle) (correct : Correct) (ideal : Ideal)
    (attending : Attending handle lineage kind name call g index state) {event : ObservedEvent}
    (honest : FromHonest handle lineage state event) (quiet : unovertaken state event = true)
    (lasts : Lasting lineage kind name call index event) (reads : views call g index state event = true)
    (shows : revealed g index state event = true) :
    Attending handle lineage kind name call g index (Interaction.step (observed handle) state event) := by
  refine ⟨attending.faithful.step serves correct ideal honest quiet, reached_step attending.faithful honest attending.view, ?_⟩
  apply attending.tracks.step
  · rintro env β stored op noted rfl performs inTime
    obtain ⟨counted, later, truthful⟩ := id honest
    have relied := attending.faithful.expected honest quiet performs
    obtain ⟨rest, here⟩ := performs
    refine ⟨?_, Nat.le_refl _⟩
    cases op with
    | setView | setPin | adopt | pinned => trivial
    | view =>
      obtain ⟨reached, _, before, seen⟩ := attending.view
      have generation : state.world.shared.view.descriptor.generation = reached := by
        rw [seen.1, Lineage.descriptor_generation]
      simp only [views, here] at reads
      obtain ⟨same, readable⟩ : reached = g ∧ call.readable state.world.shared.view = true := by
        simpa [generation] using reads
      subst same
      exact ⟨before.trans later, seen, readable⟩
    | checkVersion name' kind' slot got => exact relied
    | ask query =>
      simp only [revealed, here] at shows
      have shown : revealing g env.1 query (env.2.answer query) = true := by simpa using shows
      exact ⟨counted, inTime.trans later, truthful, lasts env rfl, shown, rfl⟩
  · intro noted inTime
    cases event with
    | arrive call => exact inTime
    | advance asked env =>
      simp only [Interaction.step, Interaction.advance]
      split
      · exact inTime.trans honest.2.1
      · exact inTime

/-- Through a run in which no answer to the call hides a rotation, the call is attended. -/
theorem Attending.run (serves : lineage.Serves handle) (correct : Correct) (ideal : Ideal) {events : List ObservedEvent}
    (attending : Attending handle lineage kind name call g index state)
    (honest : Along handle (FromHonest handle lineage) state events)
    (quiet : Along handle (fun state event => unovertaken state event = true) state events)
    (lasts : ∀ event ∈ events, Lasting lineage kind name call index event)
    (reads : Along handle (fun state event => views call g index state event = true) state events)
    (shows : Along handle (fun state event => revealed g index state event = true) state events) :
    Attending handle lineage kind name call g index (runObserved handle state events) := by
  induction events generalizing state with
  | nil => exact attending
  | cons event events inductionHypothesis =>
    have stepped := attending.step serves correct ideal honest.1 quiet.1 (lasts event List.mem_cons_self) reads.1 shows.1
    exact inductionHypothesis stepped honest.2 quiet.2 (fun event member => lasts event (List.mem_cons_of_mem _ member))
      reads.2 shows.2

/-- A call that arrives, with everything in order before it, is attended. -/
theorem arrives (serves : lineage.Serves handle) (correct : Correct) (ideal : Ideal) (asks : call.about kind name)
    (faithful : Faithful handle lineage state) (honest : FromHonest handle lineage state (.arrive call))
    (view : ∃ reached, Counted reached ∧ reached ≤ state.world.time ∧ lineage.Sees reached state.world.shared.view) :
    Attending handle lineage kind name call g state.flights.length
      (Interaction.step (observed handle) state (.arrive call)) := by
  refine ⟨faithful.step serves correct ideal honest rfl, view, ⟨0, call.program handle⟩, 0, ?_, Nat.zero_le _, ?_⟩
  · exact List.getElem?_concat_length
  · exact call_attends serves correct asks

end

/-! ## An allow-list that is rotated -/

/-- The handle of a token that may read the secret "A" only. -/
def listedHandle : Handle :=
  let _ := plain
  let _ := Backend.checksum
  ⟨.token ⟨⟨.fill 16 3⟩, listedOwner.vaultId, .fill 32 4⟩, listedOwner.vaultId, listedOwner.signPub⟩

/-- The index of the secret "A" in each generation. -/
def keptIndex (generation : Nat) : NameHmac :=
  let _ := plain
  (keptBundle generation).nameKey.index .secret "A"

/-- What the token sees of the vault. -/
def listedView (generation : Nat) : View :=
  ⟨keptDescriptor generation, Bundle.forScope (keptBundle generation) .read, some [keptIndex generation]⟩

/-- What the server answers the token at a generation: the secret under the index that its
allow-list names there, and a refusal of any other. -/
def listedAnswers (generation : Nat) : Answers :=
  { keptAnswers generation with
    status := .ok { keptStatus generation with tokens := none, ownerBundle := none }
    record := fun kind index wanted =>
      if kind = .secret ∧ index = keptIndex generation then (servingSecret generation 1).record kind index wanted
      else .error (.refused .forbidden) }

theorem listed_truthful {generation : Nat} (positive : 1 ≤ generation) :
    @Truthful plain Backend.checksum listedHandle keptLineage generation (listedAnswers generation) := by
  let _ := plain
  let _ := Backend.checksum
  have kept := kept_truthful positive
  have serving := serving_truthful positive (show 1 < 2 ^ 64 by decide)
  refine ⟨?_, ?_, kept.descriptors, kept.list, kept.versions, ?_, kept.write⟩
  · intro s answered
    obtain rfl := Except.ok.inj answered
    obtain ⟨vaultId, signPub, boxPub, now, descriptor, _⟩ := kept.status (keptStatus generation) rfl
    exact ⟨vaultId, signPub, boxPub, now, descriptor, fun signed impossible => by cases impossible⟩
  · intro me impossible
    cases impossible
  · intro kind index wanted v answered
    change (if kind = .secret ∧ index = keptIndex generation then (servingSecret generation 1).record kind index wanted
      else .error (.refused .forbidden)) = .ok v at answered
    split at answered
    · exact serving.record kind index wanted v answered
    · cases answered

/-- Whether the server serves the secret, with its value. -/
def servesKept (answers : Answers) (generation : Nat) : Bool :=
  match answers.record .secret (keptIndex generation) none with
  | .ok v => v.valueCt.isSome
  | .error _ => false

/-- Where the server serves the secret, it exists. -/
theorem listed_existing (generation : Nat) (served : servesKept (listedAnswers generation) generation = true) :
    @Existing plain keptLineage .secret "A" (.get .secret "A" none) generation (listedAnswers generation) := by
  let _ := plain
  refine ⟨⟨_, rfl⟩, ?_, ?_⟩
  · unfold servesKept at served
    split at served
    · next v answered => exact ⟨v, answered, served⟩
    · cases served
  · intro other
    change (∃ v, (if RecordCode.secret = .secret ∧ other = keptIndex generation then
        (servingSecret generation 1).record .secret other none else .error (.refused .forbidden)) = .ok v) ∨ _
    by_cases here : other = keptIndex generation
    · subst here
      unfold servesKept at served
      split at served
      · next v answered => exact .inl ⟨v, answered⟩
      · cases served
    · right
      right
      exact if_neg fun both => here both.2

/-- The token reads the secret, and is answered at the generations given. -/
def listedRead (generations : List Nat) : List ObservedEvent :=
  generations.map fun generation => .advance 0 (generation, listedAnswers generation)

end GalataVault.Client

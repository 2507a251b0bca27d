import GalataVault.Backend.Histories
import GalataVault.Client.Handle
import GalataVault.Library.Crash
import GalataVault.Server.Listing

/-!
# Copying a vault into a new one

A copy reads the history of every name of a vault, opens each version with that vault's
keys and writes it again to a new vault, where versions start from one. It keeps no record
of what it has done: a copy that was interrupted is started again, and skips as many
versions of a name as the new vault holds.

The new vault keeps to its own version limit, and a version it has pruned is not counted.
Where no history is longer than that limit, copies that are interrupted anywhere come to
the same; where one is, each copy writes versions again.
-/

namespace GalataVault.Owner

open Proto Relational Backend Interaction
open Server (versionMeta CoreError)
open Client (Pre)

/-! ## Keys and requests -/

/-- What the keys of an open vault do with names and records. `χ` is what a record holds: a
value, and a config's format; a tombstone holds nothing. -/
structure VaultKeys (χ : Type) where
  index : RecordKind → String → NameHmac
  nameOf : RecordKind → NameHmac → String
  openRecord : RecordKind → VersionRow → Option χ
  sealRecord : RecordKind → String → Option χ → Nat → Int → RecordWrite
  open_value : ∀ kind row, (openRecord kind row).isSome = row.valueCt.isSome
  seal_value : ∀ kind name held version writtenAt,
    (sealRecord kind name held version writtenAt).valueCt.isSome = held.isSome
  seal_version : ∀ kind name held version writtenAt, (sealRecord kind name held version writtenAt).version = version
  seal_writtenAt : ∀ kind name held version writtenAt,
    (sealRecord kind name held version writtenAt).writtenAt = writtenAt
  open_seal : ∀ kind name held version writtenAt (row : VersionRow),
    row.nameHmac = index kind name → row.version = version → row.writtenAt = writtenAt →
    row.nameCt = (sealRecord kind name held version writtenAt).nameCt →
    row.valueCt = (sealRecord kind name held version writtenAt).valueCt →
    row.generation = (sealRecord kind name held version writtenAt).generation →
    row.sig = (sealRecord kind name held version writtenAt).sig → openRecord kind row = held

variable {χ : Type}

/-- What a version holds, apart from how it is sealed. -/
structure HeldVersion (χ : Type) where
  version : Nat
  held : Option χ
  writtenAt : Int
  tombstone : Bool
  deriving DecidableEq

/-- What a vault's keys find in a version. -/
def VaultKeys.held (keys : VaultKeys χ) (kind : RecordKind) (row : VersionRow) : HeldVersion χ :=
  ⟨row.version, keys.openRecord kind row, row.writtenAt, row.tombstone⟩

/-- A vault that is copied, and the one it is copied into. -/
structure Copying (χ : Type) where
  source : Db
  old : VaultPk
  oldKeys : VaultKeys χ
  pk : VaultPk
  newKeys : VaultKeys χ
  ctx : Ctx
  limits : Limits
  /-- Every listed name opens, under the index it is listed with. -/
  readable : ∀ kind, ∀ h ∈ headShelf kind old source, oldKeys.index kind (oldKeys.nameOf kind h.nameHmac) = h.nameHmac
  /-- No two names that are copied have one index. -/
  apart : ∀ kind, ∀ h ∈ headShelf kind old source, ∀ h' ∈ headShelf kind old source,
    newKeys.index kind (oldKeys.nameOf kind h.nameHmac) = newKeys.index kind (oldKeys.nameOf kind h'.nameHmac) →
      oldKeys.nameOf kind h.nameHmac = oldKeys.nameOf kind h'.nameHmac

/-- The header a precondition sends. -/
def precondition : Pre → Precondition
  | .create | .revive _ => .ifNoneMatch
  | .update version => .ifMatch version

/-- One request of a copy. Reading leaves both vaults as they are. -/
inductive CopyOp : Type → Type 1 where
  | list (kind : RecordKind) : CopyOp (List String)
  | sourceVersions (kind : RecordKind) (name : String) : CopyOp (List Server.VersionMeta)
  | targetVersions (kind : RecordKind) (name : String) : CopyOp (List Server.VersionMeta)
  | fetch (kind : RecordKind) (name : String) (version : Nat) : CopyOp (Option VersionRow)
  | write (kind : RecordKind) (name : String) (pre : Pre) (written : RecordWrite) : CopyOp (Except CoreError Nat)

namespace Copying

/-- The names of a kind, sorted. -/
def names (c : Copying χ) (kind : RecordKind) : List String :=
  ((headShelf kind c.old c.source).map fun h => c.oldKeys.nameOf kind h.nameHmac).insertionSort fun a b => a ≤ b

variable [Digests] (c : Copying χ)

/-- A put, or a delete where the record is a tombstone. -/
def write (kind : RecordKind) (name : String) (pre : Pre) (written : RecordWrite) (db : Db) : Except CoreError Nat × Db :=
  let index := c.newKeys.index kind name
  match written.valueCt, pre with
  | some _, _ =>
    let answer := putRecord (.ok ()) c.pk kind index (precondition pre) written c.ctx c.limits db
    (answer.1.mapError .ofStore, answer.2)
  | none, .update live =>
    let answer := deleteRecord (.ok ()) c.pk kind index live written c.ctx c.limits db
    (answer.1.mapError .ofStore, answer.2)
  | none, _ => (.error (.invalid "a delete takes If-Match only"), db)

/-- What a request is answered, and the new vault's database after it. -/
def serve {β : Type} : CopyOp β → Db → β × Db
  | .list kind, db => (c.names kind, db)
  | .sourceVersions kind name, db =>
    ((recordVersions c.old kind (c.oldKeys.index kind name) c.source).map versionMeta, db)
  | .targetVersions kind name, db => ((recordVersions c.pk kind (c.newKeys.index kind name) db).map versionMeta, db)
  | .fetch kind name version, db => (recordVersion c.old kind (c.oldKeys.index kind name) version c.source, db)
  | .write kind name pre written, db => c.write kind name pre written db

/-! ## The copy -/

/-- The versions of a name that are not yet copied, one after the other. -/
def copyVersions (kind : RecordKind) (name : String) : List Nat → Pre → Nat → Program CopyOp CoreError Nat
  | [], _, copied => pure copied
  | n :: rest, pre, copied => do
    match ← Program.ask (.fetch kind name n) with
    | none => Program.fail { code := .notFound, message := "no such " ++ Server.noun kind }
    | some row =>
      let held := c.oldKeys.openRecord kind row
      let answer ← Program.ask
        (.write kind name pre (c.newKeys.sealRecord kind name held pre.nextVersion row.writtenAt))
      let written ← Program.done answer
      copyVersions kind name rest (if held.isSome then .update written else .revive written) (copied + 1)

/-- A leading tombstone has nothing to delete and is skipped. -/
def copyName (kind : RecordKind) (name : String) (copied : Nat) : Program CopyOp CoreError Nat := do
  let metas ← Program.ask (.sourceVersions kind name)
  let source := (metas.dropWhile (·.tombstone)).map (·.version)
  let target ← Program.ask (.targetVersions kind name)
  copyVersions c kind name (source.drop target.length) (Pre.after target.getLast?) copied

def copyNames (kind : RecordKind) : List String → Nat → Program CopyOp CoreError Nat
  | [], copied => pure copied
  | name :: rest, copied => do
    let copied ← copyName c kind name copied
    copyNames kind rest copied

/-- Copy every retained record, secrets first. Returns how many versions it wrote. -/
def copyFrom : Program CopyOp CoreError Nat := do
  let secrets ← Program.ask (.list .secret)
  let copied ← copyNames c .secret secrets 0
  let configs ← Program.ask (.list .config)
  copyNames c .config configs copied

/-! ## One write -/

variable {c} {kind : RecordKind} {name : String} {pre : Pre} {written : RecordWrite} {db : Db}

/-- What a write leaves of the new vault. -/
structure Wrote (c : Copying χ) (kind : RecordKind) (name : String) (written : RecordWrite) (db : Db)
    (answer : Except CoreError Nat) (after : Db) : Prop where
  lead : HeadsLead after
  refused : ∀ e, answer = .error e → ∀ any, after.tables any = db.tables any
  accepted : ∀ version, answer = .ok version → written.version = version ∧
    Appended db after kind c.pk (written.toInsert (c.newKeys.index kind name) version c.ctx.actor)
      (kind.maxVersions c.limits)

omit [Digests] in
theorem error_of_mapError {answer : Except StoreError Nat} {e : CoreError}
    (failed : answer.mapError CoreError.ofStore = .error e) : ∃ failure, answer = .error failure := by
  cases answer with
  | ok version => cases failed
  | error failure => exact ⟨failure, rfl⟩

theorem write_wrote (lead : HeadsLead db) (kind : RecordKind) (name : String) (pre : Pre) (written : RecordWrite) :
    Wrote c kind name written db (c.write kind name pre written db).1 (c.write kind name pre written db).2 := by
  let index := c.newKeys.index kind name
  unfold write
  split
  · next asked _ _ value given =>
    constructor
    · exact step_headsLead (⟨db, ()⟩ : World Unit)
        (.putRecord (.ok ()) c.pk kind index (precondition asked) written c.ctx c.limits) lead
    · intro e failed any
      obtain ⟨failure, refused⟩ := error_of_mapError failed
      exact putRecord_refused refused any
    · intro version answer
      exact putRecord_appended lead (except_mapError_ok answer)
  · next live given =>
    constructor
    · exact step_headsLead (⟨db, ()⟩ : World Unit)
        (.deleteRecord (.ok ()) c.pk kind index live written c.ctx c.limits) lead
    · intro e failed any
      obtain ⟨failure, refused⟩ := error_of_mapError failed
      exact deleteRecord_refused refused any
    · intro version answer
      exact deleteRecord_appended lead (except_mapError_ok answer)
  · exact ⟨lead, fun _ _ _ => rfl, fun version impossible => by cases impossible⟩

/-! ## What was copied -/

/-- The versions of a name that a copy writes. -/
def copied (c : Copying χ) (kind : RecordKind) (name : String) : List VersionRow :=
  (recordVersions c.old kind (c.oldKeys.index kind name) c.source).dropWhile (·.tombstone)

/-- What they hold, numbered from one. -/
def renumbered (c : Copying χ) (kind : RecordKind) (name : String) : List (HeldVersion χ) :=
  (c.copied kind name).mapIdx fun i row => { c.oldKeys.held kind row with version := i + 1 }

/-- What the new vault holds of a name. -/
def history (c : Copying χ) (kind : RecordKind) (name : String) (db : Db) : List (HeldVersion χ) :=
  (recordVersions c.pk kind (c.newKeys.index kind name) db).map (c.newKeys.held kind)

/-- No history that is copied is longer than the new vault's version limit. -/
def Fits (c : Copying χ) : Prop :=
  ∀ kind, ∀ name ∈ c.names kind, (c.copied kind name).length ≤ max 1 (kind.maxVersions c.limits)

omit [Digests] in
theorem names_apart {other : String} (listed : name ∈ c.names kind) (listed' : other ∈ c.names kind)
    (same : c.newKeys.index kind name = c.newKeys.index kind other) : name = other := by
  rw [names, (List.perm_insertionSort _ _).mem_iff, List.mem_map] at listed listed'
  obtain ⟨h, member, rfl⟩ := listed
  obtain ⟨h', member', rfl⟩ := listed'
  exact c.apart kind h member h' member' same

omit [Digests] in
theorem length_renumbered (c : Copying χ) (kind : RecordKind) (name : String) :
    (c.renumbered kind name).length = (c.copied kind name).length := List.length_mapIdx

omit [Digests] in
/-- The last of the first `k` versions is number `k`. -/
theorem last_renumbered {k : Nat} (upTo : k ≤ (c.copied kind name).length) :
    (((c.renumbered kind name).take k).getLast?.map (·.version)).getD 0 = k := by
  cases k with
  | zero => rfl
  | succ k =>
    obtain ⟨row, here⟩ : ∃ row, (c.copied kind name)[k]? = some row := ⟨_, List.getElem?_eq_getElem upTo⟩
    rw [List.getLast?_take, if_neg (Nat.succ_ne_zero k), renumbered, Nat.add_sub_cancel, List.getElem?_mapIdx, here]
    rfl

/-- A copy under way: of every listed name the new vault holds the first versions, and of
those that are done all. -/
structure Partial (c : Copying χ) (done : List (RecordKind × String)) (db : Db) : Prop where
  lead : HeadsLead db
  copies : ∀ kind, ∀ name ∈ c.names kind, ∃ k ≤ (c.copied kind name).length,
    c.history kind name db = (c.renumbered kind name).take k
  finished : ∀ kind name, (kind, name) ∈ done → name ∈ c.names kind ∧ c.history kind name db = c.renumbered kind name

variable {done : List (RecordKind × String)} {after : Db}

omit [Digests] in
theorem Partial.of_tables (state : Partial c done db) (lead : HeadsLead after)
    (same : ∀ any, after.tables any = db.tables any) : Partial c done after := by
  have unchanged : ∀ kind name, c.history kind name after = c.history kind name db := by
    intro kind name
    have lookups : ∀ version, recordVersion c.pk kind (c.newKeys.index kind name) version after =
        recordVersion c.pk kind (c.newKeys.index kind name) version db := by
      intro version
      simp only [recordVersion, same]
    exact congrArg (List.map _) (recordVersions_ext lookups)
  exact ⟨lead, by simpa only [unchanged] using state.copies, by simpa only [unchanged] using state.finished⟩

/-- An accepted write of the next version copies it, and touches no other name. -/
theorem Partial.wrote {k version : Nat} {row : VersionRow} (fits : c.Fits) (state : Partial c done db)
    (listed : name ∈ c.names kind) (reached : c.history kind name db = (c.renumbered kind name).take k)
    (next : (c.copied kind name)[k]? = some row)
    (wrote : Wrote c kind name
      (c.newKeys.sealRecord kind name (c.oldKeys.openRecord kind row) pre.nextVersion row.writtenAt) db (.ok version) after) :
    Partial c done after ∧ c.history kind name after = (c.renumbered kind name).take (k + 1) := by
  obtain ⟨signed, appended⟩ := wrote.accepted version rfl
  obtain ⟨short, here⟩ := List.getElem?_eq_some_iff.mp next
  have size : (recordVersions c.pk kind (c.newKeys.index kind name) db).length = k := by
    have length := congrArg List.length reached
    rw [history, List.length_map, List.length_take, length_renumbered] at length
    omega
  have room : (recordVersions c.pk kind (c.newKeys.index kind name) db).length < max 1 (kind.maxVersions c.limits) := by
    have limit := fits kind name listed
    omega
  -- The number assigned is the next one.
  have number : version = k + 1 := by
    have last := last_renumbered (Nat.le_of_lt short)
    rw [← reached, history, List.getLast?_map, Option.map_map] at last
    have assigned := appended.next
    rw [headVersion_last state.lead] at assigned
    have assigned : version = ((recordVersions c.pk kind (c.newKeys.index kind name) db).getLast?.map
      (·.version)).getD 0 + 1 := assigned
    rw [assigned]
    exact congrArg (· + 1) last
  have held : c.newKeys.held kind (((c.newKeys.sealRecord kind name (c.oldKeys.openRecord kind row) pre.nextVersion
      row.writtenAt).toInsert (c.newKeys.index kind name) version c.ctx.actor).cols c.pk).row =
      { c.oldKeys.held kind row with version := k + 1 } := by
    have sealedAs : version = pre.nextVersion := signed.symm.trans (c.newKeys.seal_version _ _ _ _ _)
    have opens := c.newKeys.open_seal kind name (c.oldKeys.openRecord kind row) pre.nextVersion row.writtenAt
      (((c.newKeys.sealRecord kind name (c.oldKeys.openRecord kind row) pre.nextVersion row.writtenAt).toInsert
        (c.newKeys.index kind name) version c.ctx.actor).cols c.pk).row rfl sealedAs
      (c.newKeys.seal_writtenAt _ _ _ _ _) rfl rfl rfl rfl
    have value : (c.newKeys.sealRecord kind name (c.oldKeys.openRecord kind row) pre.nextVersion
        row.writtenAt).valueCt.isNone = row.tombstone := by
      rw [row.tombstone_eq, ← Option.not_isSome, ← Option.not_isSome, c.newKeys.seal_value, c.oldKeys.open_value]
    unfold VaultKeys.held
    rw [opens]
    simp only [HeldVersion.mk.injEq, true_and]
    exact ⟨number, c.newKeys.seal_writtenAt _ _ _ _ _, value⟩
  have grown : c.history kind name after = (c.renumbered kind name).take (k + 1) := by
    have entry : (c.renumbered kind name)[k]? = some { c.oldKeys.held kind row with version := k + 1 } := by
      rw [renumbered, List.getElem?_mapIdx, next]
      rfl
    have appends : recordVersions c.pk kind (c.newKeys.index kind name) after =
        recordVersions c.pk kind (c.newKeys.index kind name) db ++ [_] := appended.grows room
    rw [List.take_add_one, entry, ← reached, history, appends, List.map_append, List.map_singleton, held]
    rfl
  have others : ∀ kind' name', name' ∈ c.names kind' → (kind', name') ≠ (kind, name) →
      c.history kind' name' after = c.history kind' name' db := by
    intro kind' name' listed' differs
    apply congrArg (List.map _)
    apply appended.created.others
    by_cases same : kind' = kind
    · subst same
      exact .inr fun index => differs (by rw [names_apart listed' listed index])
    · exact .inl same
  refine ⟨⟨wrote.lead, ?_, ?_⟩, grown⟩
  · intro kind' name' listed'
    by_cases here : (kind', name') = (kind, name)
    · obtain ⟨rfl, rfl⟩ := Prod.mk.inj here
      exact ⟨k + 1, short, grown⟩
    · rw [others kind' name' listed' here]
      exact state.copies kind' name' listed'
  · intro kind' name' member
    obtain ⟨listed', whole⟩ := state.finished kind' name' member
    by_cases here : (kind', name') = (kind, name)
    · -- A name that is done has no next version.
      obtain ⟨rfl, rfl⟩ := Prod.mk.inj here
      have lengths := congrArg List.length (whole.symm.trans reached)
      rw [List.length_take, length_renumbered] at lengths
      omega
    · rw [others kind' name' listed' here]
      exact ⟨listed', whole⟩

/-! ## Along the copy -/

omit [Digests] in
/-- A copied version is found by its number. -/
theorem fetch_copied {k : Nat} {row : VersionRow} (next : (c.copied kind name)[k]? = some row) :
    recordVersion c.old kind (c.oldKeys.index kind name) row.version c.source = some row := by
  have member : row ∈ c.copied kind name := List.mem_of_getElem? next
  exact recordVersions_mem.mp ((List.dropWhile_sublist _).mem member)

/-- The rest of a name's versions, from number `k`. The induction is on the versions left. -/
theorem copyVersions_ensures (fits : c.Fits) (listed : name ∈ c.names kind) (rest : List Nat) {k : Nat} (pre : Pre)
    (count : Nat) (state : Partial c done db) (reached : c.history kind name db = (c.renumbered kind name).take k)
    (left : rest = ((c.copied kind name).drop k).map (·.version)) :
    (copyVersions c kind name rest pre count).Ensures c.serve (Partial c done) db fun result after =>
      ∀ n, result = .ok n → Partial c ((kind, name) :: done) after := by
  induction rest generalizing k pre count db with
  | nil =>
    refine ⟨state, fun n _ => ⟨state.lead, state.copies, ?_⟩⟩
    intro kind' name' member
    rcases List.mem_cons.mp member with here | earlier
    · obtain ⟨rfl, rfl⟩ := Prod.mk.inj here
      have none : (c.copied kind' name').drop k = [] := List.map_eq_nil_iff.mp left.symm
      have upTo := List.drop_eq_nil_iff.mp none
      rw [← length_renumbered] at upTo
      exact ⟨listed, reached.trans (List.take_of_length_le upTo)⟩
    · exact state.finished kind' name' earlier
  | cons number rest inductionHypothesis =>
    cases ahead : (c.copied kind name).drop k with
    | nil =>
      rw [ahead] at left
      cases left
    | cons row later =>
      rw [ahead, List.map_cons, List.cons.injEq] at left
      obtain ⟨rfl, left⟩ := left
      have next : (c.copied kind name)[k]? = some row := by
        rw [← List.head?_drop, ahead]
        rfl
      have remains : (c.copied kind name).drop (k + 1) = later := by
        rw [← List.tail_drop, ahead]
        rfl
      have fetched := fetch_copied next
      rw [copyVersions]
      apply Program.Ensures.bind
      refine ⟨state, state, ?_⟩
      simp only [Program.Then, serve, fetched]
      apply Program.Ensures.bind
      let written := c.newKeys.sealRecord kind name (c.oldKeys.openRecord kind row) pre.nextVersion row.writtenAt
      have wrote : Wrote c kind name written db (c.write kind name pre written db).1 (c.write kind name pre written db).2 :=
        write_wrote state.lead kind name pre written
      let last := (c.write kind name pre written db).2
      cases answer : (c.write kind name pre written db).1 with
      | error e =>
        have same := wrote.refused e answer
        have state' : Partial c done last := state.of_tables wrote.lead same
        refine ⟨state, state', ?_⟩
        simp only [Program.Then, serve]
        rw [answer]
        exact ⟨state', fun n impossible => by cases impossible⟩
      | ok version =>
        rw [answer] at wrote
        obtain ⟨state', grown⟩ := state.wrote fits listed reached next wrote
        refine ⟨state, state', ?_⟩
        simp only [Program.Then, serve]
        rw [answer]
        exact inductionHypothesis _ _ state' grown (remains ▸ left)

/-- A name is copied as far as it was before, and then to its end. -/
theorem copyName_ensures (fits : c.Fits) (listed : name ∈ c.names kind) (count : Nat) (state : Partial c done db) :
    (copyName c kind name count).Ensures c.serve (Partial c done) db fun result after =>
      ∀ n, result = .ok n → Partial c ((kind, name) :: done) after := by
  obtain ⟨k, upTo, reached⟩ := state.copies kind name listed
  have size : (recordVersions c.pk kind (c.newKeys.index kind name) db).length = k := by
    have length := congrArg List.length reached
    rw [history, List.length_map, List.length_take, length_renumbered] at length
    omega
  rw [copyName]
  apply Program.Ensures.bind
  refine ⟨state, state, ?_⟩
  apply Program.Ensures.bind
  refine ⟨state, state, ?_⟩
  refine copyVersions_ensures fits listed _ _ count state reached ?_
  simp only [serve, List.length_map, size, List.map_drop, List.dropWhile_map, List.map_map]
  rfl

omit [Digests] in
theorem Partial.of_subset {fewer : List (RecordKind × String)} (state : Partial c done db) (within : fewer ⊆ done) :
    Partial c fewer db :=
  ⟨state.lead, state.copies, fun kind name member => state.finished kind name (within member)⟩

theorem copyNames_ensures (fits : c.Fits) (kind : RecordKind) (names : List String)
    (listed : ∀ name ∈ names, name ∈ c.names kind) (count : Nat) (state : Partial c done db) :
    (copyNames c kind names count).Ensures c.serve (Partial c []) db fun result after =>
      ∀ n, result = .ok n → Partial c (names.map (Prod.mk kind) ++ done) after := by
  induction names generalizing count done db with
  | nil => exact ⟨state.of_subset (List.nil_subset _), fun n _ => state⟩
  | cons name names inductionHypothesis =>
    apply Program.Ensures.bind
    have first := copyName_ensures fits (listed name List.mem_cons_self) count state
    apply (first.weaken fun db state => state.of_subset (List.nil_subset _)).mono
    rintro result after ended
    cases result with
    | error e => exact fun n impossible => by cases impossible
    | ok count =>
      have rest := inductionHypothesis (fun name member => listed name (List.mem_cons_of_mem _ member)) count
        (ended count rfl)
      apply rest.mono
      intro result last whole n same
      refine (whole n same).of_subset ?_
      intro p member
      simp only [List.map_cons, List.cons_append, List.mem_cons, List.mem_append] at member ⊢
      tauto

/-- A copy that ends has copied every name. -/
theorem copyFrom_ensures (fits : c.Fits) (state : Partial c [] db) :
    (copyFrom c).Ensures c.serve (Partial c []) db fun result after => ∀ n, result = .ok n →
      ∀ kind, ∀ name ∈ c.names kind, c.history kind name after = c.renumbered kind name := by
  rw [copyFrom]
  apply Program.Ensures.bind
  refine ⟨state, state, ?_⟩
  apply Program.Ensures.bind
  apply (copyNames_ensures fits .secret (c.names .secret) (fun _ member => member) 0 state).mono
  intro result middle ended
  cases result with
  | error e => exact fun n impossible => by cases impossible
  | ok count =>
    have secrets := ended count rfl
    apply Program.Ensures.bind
    refine ⟨secrets.of_subset (List.nil_subset _), secrets.of_subset (List.nil_subset _), ?_⟩
    apply (copyNames_ensures fits .config (c.names .config) (fun _ member => member) count secrets).mono
    intro result last whole n same kind name listed
    refine ((whole n same).finished kind name ?_).2
    cases kind with
    | secret => exact List.mem_append_right _ (List.mem_append_left _ (List.mem_map_of_mem listed))
    | config => exact List.mem_append_left _ (List.mem_map_of_mem listed)

/-! ## A copy of what is copied -/

/-- Where every name is copied, a copy writes nothing. -/
theorem copyFrom_nothing (whole : ∀ kind, ∀ name ∈ c.names kind, c.history kind name db = c.renumbered kind name) :
    (copyFrom c).Ensures c.serve (fun db' => db' = db) db fun result _ => result = .ok 0 := by
  have one : ∀ kind, ∀ name ∈ c.names kind, ∀ count,
      (copyName c kind name count).Ensures c.serve (fun db' => db' = db) db fun result db' => db' = db ∧ result = .ok count := by
    intro kind name listed count
    have size : (recordVersions c.pk kind (c.newKeys.index kind name) db).length = (c.copied kind name).length := by
      have length := congrArg List.length (whole kind name listed)
      rw [history, List.length_map, length_renumbered] at length
      exact length
    rw [copyName]
    apply Program.Ensures.bind
    refine ⟨rfl, rfl, ?_⟩
    apply Program.Ensures.bind
    refine ⟨rfl, rfl, ?_⟩
    have none : ((((recordVersions c.old kind (c.oldKeys.index kind name) c.source).map Server.versionMeta).dropWhile
        (·.tombstone)).map (·.version)).drop
        (((recordVersions c.pk kind (c.newKeys.index kind name) db).map Server.versionMeta)).length = [] := by
      rw [List.drop_eq_nil_iff, List.length_map, List.length_map, List.dropWhile_map, List.length_map, size]
      exact Nat.le_refl _
    simp only [Program.Then, serve]
    rw [none]
    exact ⟨rfl, rfl, rfl⟩
  have every : ∀ kind names, (∀ name ∈ names, name ∈ c.names kind) → ∀ count,
      (copyNames c kind names count).Ensures c.serve (fun db' => db' = db) db fun result db' => db' = db ∧ result = .ok count := by
    intro kind names listed count
    induction names with
    | nil => exact ⟨rfl, rfl, rfl⟩
    | cons name names inductionHypothesis =>
      apply Program.Ensures.bind
      apply (one kind name (listed name List.mem_cons_self) count).mono
      rintro result after ⟨rfl, rfl⟩
      exact inductionHypothesis fun name member => listed name (List.mem_cons_of_mem _ member)
  rw [copyFrom]
  apply Program.Ensures.bind
  refine ⟨rfl, rfl, ?_⟩
  apply Program.Ensures.bind
  apply (every .secret (c.names .secret) (fun _ member => member) 0).mono
  rintro result after ⟨rfl, rfl⟩
  apply Program.Ensures.bind
  refine ⟨rfl, rfl, ?_⟩
  exact (every .config (c.names .config) (fun _ member => member) 0).mono fun _ _ both => both.2

/-! ## A history that is too long -/

/-- No history of the new vault is longer than its limit. -/
structure Bounded (c : Copying χ) (db : Db) : Prop where
  lead : HeadsLead db
  short : ∀ kind name, (recordVersions c.pk kind name db).length ≤ max 1 (kind.maxVersions c.limits)

/-- Writes keep to the limit, whatever they prune. -/
theorem Bounded.wrote {answer : Except CoreError Nat} (state : Bounded c db)
    (wrote : Wrote c kind name written db answer after) : Bounded c after := by
  refine ⟨wrote.lead, fun kind' index => ?_⟩
  have before := state.short kind' index
  cases answer with
  | error e =>
    have lookups : ∀ version, recordVersion c.pk kind' index version after = recordVersion c.pk kind' index version db := by
      intro version
      simp only [recordVersion, wrote.refused e rfl]
    rw [recordVersions_ext lookups]
    exact before
  | ok version =>
    obtain ⟨_, appended⟩ := wrote.accepted version rfl
    by_cases same : kind' = kind
    · subst same
      have bound := appended.bounded index
      omega
    · rw [appended.created.others (.inl same)]
      exact before

/-- Every version that is left is written and counted. -/
theorem copyVersions_counts (kind : RecordKind) (name : String) (rest : List Nat) (pre : Pre) (count : Nat)
    (state : Bounded c db) :
    (copyVersions c kind name rest pre count).Ensures c.serve (Bounded c) db fun result after =>
      Bounded c after ∧ ∀ n, result = .ok n → n = count + rest.length := by
  induction rest generalizing pre count db with
  | nil =>
    refine ⟨state, state, fun n same => ?_⟩
    exact (Except.ok.inj same).symm
  | cons number rest inductionHypothesis =>
    rw [copyVersions]
    apply Program.Ensures.bind
    refine ⟨state, state, ?_⟩
    simp only [Program.Then, serve]
    cases fetched : recordVersion c.old kind (c.oldKeys.index kind name) number c.source with
    | none => exact ⟨state, state, fun n impossible => by cases impossible⟩
    | some row =>
      let written := c.newKeys.sealRecord kind name (c.oldKeys.openRecord kind row) pre.nextVersion row.writtenAt
      have state' := state.wrote (write_wrote (c := c) state.lead kind name pre written)
      apply Program.Ensures.bind
      refine ⟨state, state', ?_⟩
      simp only [Program.Then, serve]
      cases answer : (c.write kind name pre written db).1 with
      | error e =>
        exact ⟨state', state', fun n impossible => by cases impossible⟩
      | ok version =>
        apply (inductionHypothesis _ (count + 1) state').mono
        rintro result after ⟨bounded, counts⟩
        refine ⟨bounded, fun n same => ?_⟩
        rw [counts n same, List.length_cons]
        omega

/-- A name whose history is longer than the limit is never done. -/
theorem copyName_counts (kind : RecordKind) (name : String) (count : Nat) (state : Bounded c db) :
    (copyName c kind name count).Ensures c.serve (Bounded c) db fun result after =>
      Bounded c after ∧ ∀ n, result = .ok n → count ≤ n ∧
        (max 1 (kind.maxVersions c.limits) < (c.copied kind name).length → count < n) := by
  rw [copyName]
  apply Program.Ensures.bind
  refine ⟨state, state, ?_⟩
  apply Program.Ensures.bind
  refine ⟨state, state, ?_⟩
  refine (copyVersions_counts kind name _ _ count state).mono ?_
  rintro result after ⟨bounded, counts⟩
  refine ⟨bounded, fun n same => ?_⟩
  have size := counts n same
  have short := state.short kind (c.newKeys.index kind name)
  simp only [serve, List.length_drop, List.length_map, List.dropWhile_map] at size
  have source : ((recordVersions c.old kind (c.oldKeys.index kind name) c.source).dropWhile
    ((·.tombstone) ∘ Server.versionMeta)).length = (c.copied kind name).length := rfl
  omega

theorem copyNames_counts (kind : RecordKind) (names : List String) (count : Nat) (state : Bounded c db) :
    (copyNames c kind names count).Ensures c.serve (Bounded c) db fun result after =>
      Bounded c after ∧ ∀ n, result = .ok n → count ≤ n ∧
        ∀ name ∈ names, max 1 (kind.maxVersions c.limits) < (c.copied kind name).length → count < n := by
  induction names generalizing count db with
  | nil =>
    refine ⟨state, state, fun n same => ?_⟩
    obtain rfl := Except.ok.inj same
    exact ⟨Nat.le_refl _, fun name impossible => by cases impossible⟩
  | cons name names inductionHypothesis =>
    apply Program.Ensures.bind
    apply (copyName_counts kind name count state).mono
    rintro result middle ⟨state', first⟩
    cases result with
    | error e => exact ⟨state', fun n impossible => by cases impossible⟩
    | ok count' =>
      obtain ⟨atLeast, grows⟩ := first count' rfl
      apply (inductionHypothesis count' state').mono
      rintro result after ⟨bounded, rest⟩
      refine ⟨bounded, fun n same => ?_⟩
      obtain ⟨further, others⟩ := rest n same
      refine ⟨Nat.le_trans atLeast further, fun other member long => ?_⟩
      rcases List.mem_cons.mp member with rfl | later
      · exact Nat.lt_of_lt_of_le (grows long) further
      · exact Nat.lt_of_le_of_lt atLeast (others other later long)

theorem copyFrom_counts (state : Bounded c db) :
    (copyFrom c).Ensures c.serve (Bounded c) db fun result after => Bounded c after ∧ ∀ n, result = .ok n →
      ∀ kind, ∀ name ∈ c.names kind, max 1 (kind.maxVersions c.limits) < (c.copied kind name).length → 0 < n := by
  rw [copyFrom]
  apply Program.Ensures.bind
  refine ⟨state, state, ?_⟩
  apply Program.Ensures.bind
  apply (copyNames_counts .secret (c.names .secret) 0 state).mono
  rintro result middle ⟨state', secrets⟩
  cases result with
  | error e => exact ⟨state', fun n impossible => by cases impossible⟩
  | ok count =>
    obtain ⟨_, secrets⟩ := secrets count rfl
    apply Program.Ensures.bind
    refine ⟨state', state', ?_⟩
    apply (copyNames_counts .config (c.names .config) count state').mono
    rintro result after ⟨bounded, configs⟩
    refine ⟨bounded, fun n same kind name listed long => ?_⟩
    obtain ⟨further, configs⟩ := configs n same
    cases kind with
    | secret => exact Nat.lt_of_lt_of_le (secrets name listed long) further
    | config => exact Nat.lt_of_le_of_lt (Nat.zero_le count) (configs name listed long)

/-! ## Copies that are interrupted -/

/-- Where any number of copies, each interrupted or not, leave the new vault. -/
inductive Reached (c : Copying χ) (start : Db) : Db → Prop where
  | start : Reached c start start
  | again {db : Db} (earlier : Reached c start db) (requests : Nat) :
      Reached c start ((copyFrom c).cut c.serve requests db).2

/-- When a copy returns, the new vault holds what the old one does, less what its own limit
pruned, and another copy that returns has written nothing. -/
def Resumes (c : Copying χ) (start : Db) : Prop :=
  ∀ db, Reached c start db → ∀ requests count, ((copyFrom c).cut c.serve requests db).1 = some (.ok count) →
    (∀ kind, ∀ name ∈ c.names kind, c.history kind name ((copyFrom c).cut c.serve requests db).2 =
      (c.renumbered kind name).drop ((c.copied kind name).length - max 1 (kind.maxVersions c.limits))) ∧
    ∀ more again, ((copyFrom c).cut c.serve more ((copyFrom c).cut c.serve requests db).2).1 = some (.ok again) → again = 0

theorem Partial.cut (fits : c.Fits) {start : Db} (first : Partial c [] start) (reached : Reached c start db) :
    Partial c [] db := by
  induction reached with
  | start => exact first
  | again earlier requests inductionHypothesis => exact ((copyFrom_ensures fits inductionHypothesis).cut requests).1

/-- Where no request is refused, copies into an empty vault that are interrupted anywhere
come to the same, and a further one writes nothing, if and only if no history that is copied
is longer than the new vault's version limit. -/
theorem copyFrom_resumes_iff (c : Copying χ) {start : Db} (lead : HeadsLead start)
    (fresh : ∀ kind name, recordVersions c.pk kind name start = [])
    (unrefused : ∀ db, Reached c start db → ∀ requests e,
      ((copyFrom c).cut c.serve requests db).1 ≠ some (.error e)) :
    Resumes c start ↔ c.Fits := by
  constructor
  · intro resumes kind name listed
    by_contra long
    have bounded : Bounded c start := ⟨lead, fun kind name => by rw [fresh]; exact Nat.zero_le _⟩
    obtain ⟨requests, ended⟩ := Program.cut_ends c.serve (copyFrom c) start
    obtain ⟨result, returned⟩ := Option.isSome_iff_exists.mp ended
    cases result with
    | error e => exact unrefused start .start requests e returned
    | ok count =>
      obtain ⟨_, nothing⟩ := resumes start .start requests count returned
      -- A second copy from there returns, and has written something.
      let middle := ((copyFrom c).cut c.serve requests start).2
      have bounded' : Bounded c middle := ((copyFrom_counts bounded).cut requests).1
      obtain ⟨more, ended'⟩ := Program.cut_ends c.serve (copyFrom c) middle
      obtain ⟨result', returned'⟩ := Option.isSome_iff_exists.mp ended'
      cases result' with
      | error e => exact unrefused middle (.again .start requests) more e returned'
      | ok again =>
        have counts := (((copyFrom_counts bounded').cut more).2 _ returned').2 again rfl
        have written := counts kind name listed (Nat.lt_of_not_le long)
        have none := nothing more again returned'
        omega
  · intro fits db reached requests count returned
    have first : Partial c [] start := by
      refine ⟨lead, fun kind name listed => ⟨0, Nat.zero_le _, ?_⟩, fun kind name impossible => by cases impossible⟩
      rw [history, fresh]
      rfl
    have state := first.cut fits reached
    have whole := ((copyFrom_ensures fits state).cut requests).2 _ returned count rfl
    constructor
    · intro kind name listed
      have limit := fits kind name listed
      rw [whole kind name listed, Nat.sub_eq_zero_of_le limit, List.drop_zero]
    · intro more again returned'
      have nothing := ((copyFrom_nothing whole).cut more).2 _ returned'
      exact Except.ok.inj nothing

end Copying

/-! ## Copies by hand -/

/-- Keys that hide nothing: an index is the name's first character, and a ciphertext is what
it holds. -/
def openKeys : VaultKeys (List UInt8) where
  index _ name := ⟨.fill 32 (UInt8.ofNat (name.toList.headD 'A').toNat)⟩
  nameOf _ index := String.ofList [Char.ofNat (index.raw.bytes.headD 0).toNat]
  openRecord _ row := row.valueCt
  sealRecord _ _ held version writtenAt :=
    { nameCt := [], valueCt := held, generation := 1, version := version, writtenAt := writtenAt, sig := ⟨.fill 64 1⟩ }
  open_value _ _ := rfl
  seal_value _ _ _ _ _ := rfl
  seal_version _ _ _ _ _ := rfl
  seal_writtenAt _ _ _ _ _ := rfl
  open_seal _ _ _ _ _ _ _ _ _ _ value _ _ := value

/-- A vault with what calls left of it. -/
def vaultOf (calls : List (Call Unit)) : Db :=
  let _ := checksum
  (run ⟨Db.empty, ()⟩ (.createVault (.ok ()) (.filled 7) 1 :: calls)).db

/-- A copy of one version. -/
def copyOnce : Copying (List UInt8) where
  source := vaultOf [putFilled .ifNoneMatch 1]
  old := 1
  oldKeys := openKeys
  pk := 1
  newKeys := openKeys
  ctx := ⟨.owner, 4⟩
  limits := .default
  readable kind := by cases kind <;> decide +kernel
  apart kind := by cases kind <;> decide +kernel

/-- A copy of it has copied nothing or the whole, wherever it is interrupted, and is never
refused. -/
theorem copyFrom_resumes_iff_once :
    let _ := checksum
    copyOnce.Resumes (vaultOf []) ↔ copyOnce.Fits := by
  intro _
  let copied := ((Copying.copyFrom copyOnce).cut copyOnce.serve 6 (vaultOf [])).2
  have lead : HeadsLead (vaultOf []) := run_headsLead _ _
  have fresh : ∀ kind name, recordVersions copyOnce.pk kind name (vaultOf []) = [] := by
    intro kind name
    cases kind <;> rfl
  have ended : ((Copying.copyFrom copyOnce).cut copyOnce.serve 6 (vaultOf [])).1 = some (.ok 1) := by decide +kernel
  have early : ∀ n < 6, (((Copying.copyFrom copyOnce).cut copyOnce.serve n (vaultOf [])).2 = vaultOf [] ∨
      ((Copying.copyFrom copyOnce).cut copyOnce.serve n (vaultOf [])).2 = copied) ∧
        ((Copying.copyFrom copyOnce).cut copyOnce.serve n (vaultOf [])).1 = none := by decide +kernel
  have whole : ∀ kind, ∀ name ∈ copyOnce.names kind,
      copyOnce.history kind name copied = copyOnce.renumbered kind name := by
    intro kind
    cases kind <;> decide +kernel
  have late : ∀ {n}, 6 ≤ n → (Copying.copyFrom copyOnce).cut copyOnce.serve n (vaultOf []) =
      (Copying.copyFrom copyOnce).cut copyOnce.serve 6 (vaultOf []) := by
    intro n more
    exact Program.cut_after _ (by rw [ended]; rfl) more
  have either : ∀ db, Copying.Reached copyOnce (vaultOf []) db → db = vaultOf [] ∨ db = copied := by
    intro db reached
    induction reached with
    | start => exact .inl rfl
    | again earlier requests inductionHypothesis =>
      rcases inductionHypothesis with rfl | rfl
      · rcases Nat.lt_or_ge requests 6 with few | many
        · exact (early requests few).1
        · exact .inr (congrArg Prod.snd (late many))
      · exact .inr ((Copying.copyFrom_nothing whole).cut requests).1
  have unrefused : ∀ db, Copying.Reached copyOnce (vaultOf []) db → ∀ requests e,
      ((Copying.copyFrom copyOnce).cut copyOnce.serve requests db).1 ≠ some (.error e) := by
    intro db reached requests e refused
    rcases either db reached with rfl | rfl
    · rcases Nat.lt_or_ge requests 6 with few | many
      · cases (early requests few).2.symm.trans refused
      · rw [late many, ended] at refused
        cases refused
    · have nothing := ((Copying.copyFrom_nothing whole).cut requests).2 _ refused
      cases nothing
  exact Copying.copyFrom_resumes_iff copyOnce lead fresh unrefused

/-- A copy of two versions into a vault that retains one. -/
def copyNarrow : Copying (List UInt8) where
  source := vaultOf [putFilled .ifNoneMatch 1, putFilled (.ifMatch 1) 2]
  old := 1
  oldKeys := openKeys
  pk := 1
  newKeys := openKeys
  ctx := ⟨.owner, 4⟩
  limits := { Limits.default with maxVersions := 1 }
  readable kind := by cases kind <;> decide +kernel
  apart kind := by cases kind <;> decide +kernel

/-- The second copy writes the second version again. -/
theorem version_limit_copies_again :
    let _ := checksum
    ¬ copyNarrow.Resumes (vaultOf []) := by
  intro _ resumes
  obtain ⟨_, nothing⟩ := resumes (vaultOf []) .start 8 2 (by decide +kernel)
  have again := nothing 6 1 (by decide +kernel)
  cases again

end GalataVault.Owner

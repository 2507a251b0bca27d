import GalataVault.Backend.Metering
import GalataVault.Owner.Copying

/-!
# Copies under quotas

A copy writes the old versions of a name before it goes on to the next, so the new vault
passes through states that the old one never had. A name that is deleted is live until its
tombstone is copied, next to all the live names that are listed before it, and a value that
an old vault took before it was full comes after bytes that were added later.

A copy is refused by no quota if every put finds room: for the value, for one more live
name, and for the bytes of what is copied until then. One without that room never returns.
-/

namespace GalataVault.Owner

open Proto Relational Backend Interaction
open Server (CoreError)
open Client (Pre)

namespace Copying

variable {χ : Type}

/-! ## What is copied of a name -/

section Measures

variable (c : Copying χ) (kind : RecordKind) (name : String)

/-- What is written of a version that comes after `k` others. -/
def sealedAs (k : Nat) (row : VersionRow) : RecordWrite :=
  c.newKeys.sealRecord kind name (c.oldKeys.openRecord kind row) (k + 1) row.writtenAt

/-- The bytes of each copied version. -/
def weights : List Nat := (c.copied kind name).mapIdx fun k row => (c.sealedAs kind name k row).size

/-- The bytes that are retained of the first `k` versions. -/
def retained (k : Nat) : Nat := (((c.weights kind name).take k).drop (k - max 1 (kind.maxVersions c.limits))).sum

/-- The head after `k` versions. -/
def headAfter (k : Nat) : Option (Nat × Bool) :=
  ((c.copied kind name).take k).getLast?.map fun row => (k, row.tombstone)

def liveAfter (k : Nat) : Bool := (c.headAfter kind name k).any (!·.2)

end Measures

variable {c : Copying χ} {kind : RecordKind} {name : String}

/-- A version finds room after `k` others of its name, next to so many bytes and so many
live names. A tombstone needs none. -/
structure Admits (c : Copying χ) (kind : RecordKind) (name : String) (k : Nat) (row : VersionRow) (bytes live : Nat) :
    Prop where
  small : ∀ value, (c.sealedAs kind name k row).valueCt = some value → value.length ≤ kind.maxValue c.limits
  room : row.tombstone = false → c.liveAfter kind name k = true ∨ live < kind.maxLive c.limits
  total : row.tombstone = false → bytes + c.retained kind name (k + 1) ≤ c.limits.maxVaultBytes

/-- The bytes that names come to. -/
def bytesOf (c : Copying χ) (kind : RecordKind) (names : List String) : Nat :=
  (names.map fun name => c.retained kind name (c.copied kind name).length).sum

/-- How many of the names end live. -/
def liveOf (c : Copying χ) (kind : RecordKind) (names : List String) : Nat :=
  names.countP fun name => c.liveAfter kind name (c.copied kind name).length

/-- Every version of the names finds room, next to what the names before it come to. -/
def Room (c : Copying χ) (kind : RecordKind) (names : List String) (bytes live : Nat) : Prop :=
  ∀ before name later, names = before ++ name :: later → ∀ k row, (c.copied kind name)[k]? = some row →
    c.Admits kind name k row (bytes + c.bytesOf kind before) (live + c.liveOf kind before)

/-- Every version finds room, secrets first. -/
def Roomy (c : Copying χ) : Prop :=
  c.Room .secret (c.names .secret) 0 0 ∧ c.Room .config (c.names .config) (c.bytesOf .secret (c.names .secret)) 0

/-! ## Lists -/

theorem headAfter_next {k : Nat} {row : VersionRow} (next : (c.copied kind name)[k]? = some row) :
    c.headAfter kind name (k + 1) = some (k + 1, row.tombstone) := by
  simp [headAfter, List.take_add_one, next]

theorem weights_next {k : Nat} {row : VersionRow} (next : (c.copied kind name)[k]? = some row) :
    (c.weights kind name)[k]? = some (c.sealedAs kind name k row).size := by
  rw [weights, List.getElem?_mapIdx, next]
  rfl

/-- The window of the last `most` of the first `k` entries moves on by one. -/
theorem window_next {sizes : List Nat} {k most size : Nat} (next : sizes[k]? = some size) (some : 1 ≤ most) :
    let window := (sizes.take k).drop (k - most)
    (window ++ [size]).drop (window.length + 1 - most) = (sizes.take (k + 1)).drop (k + 1 - most) ∧
      (window.take (window.length + 1 - most)).sum + ((sizes.take (k + 1)).drop (k + 1 - most)).sum =
        window.sum + size := by
  intro window
  obtain ⟨short, _⟩ := List.getElem?_eq_some_iff.mp next
  have length : window.length = k - (k - most) := by
    rw [List.length_drop, List.length_take, Nat.min_eq_left (Nat.le_of_lt short)]
  have first : window ++ [size] = (sizes.take (k + 1)).drop (k - most) := by
    have upTo : k - most ≤ (sizes.take k).length := by
      rw [List.length_take]
      omega
    rw [List.take_add_one, next, Option.toList_some, List.drop_append_of_le_length upTo]
  have moved : (window ++ [size]).drop (window.length + 1 - most) = (sizes.take (k + 1)).drop (k + 1 - most) := by
    rw [first, List.drop_drop]
    congr 1
    omega
  refine ⟨moved, ?_⟩
  have upTo : window.length + 1 - most ≤ window.length := by omega
  have taken : (window ++ [size]).take (window.length + 1 - most) = window.take (window.length + 1 - most) :=
    List.take_append_of_le_length upTo
  rw [← moved, ← taken, List.sum_take_add_sum_drop, List.sum_append, List.sum_singleton]

/-! ## One write -/

/-- The new vault where `k` versions of a name are copied, next to so many bytes and so many
live names. What is still to do has no head, and of the other kind no name is live yet. -/
structure Filling (c : Copying χ) (kind : RecordKind) (name : String) (k bytes live : Nat)
    (later : List (RecordKind × String)) (db : Db) : Prop where
  lead : HeadsLead db
  head : db.loadHead kind c.pk (c.newKeys.index kind name) = c.headAfter kind name k
  history : (recordVersions c.pk kind (c.newKeys.index kind name) db).map VersionRow.size =
    ((c.weights kind name).take k).drop (k - max 1 (kind.maxVersions c.limits))
  bytes : db.bytesUsed c.pk = bytes + c.retained kind name k
  live : (db.liveHeads kind c.pk).length = live + if c.liveAfter kind name k then 1 else 0
  fresh : ∀ p ∈ later, db.loadHead p.1 c.pk (c.newKeys.index p.1 p.2) = none
  idle : kind = .secret → db.liveHeads .config c.pk = []

variable {k bytes live version : Nat} {later : List (RecordKind × String)} {row : VersionRow} {db : Db}

/-- What a write pruned and what it left, in bytes. -/
theorem Filling.freed (state : Filling c kind name k bytes live later db) (next : (c.copied kind name)[k]? = some row) :
    db.bytesAfter kind c.pk (c.newKeys.index kind name) (c.sealedAs kind name k row) c.limits =
      bytes + c.retained kind name (k + 1) := by
  have sums := (window_next (weights_next next) (Nat.le_max_left 1 (kind.maxVersions c.limits))).2
  rw [← state.history, List.length_map] at sums
  have before : c.retained kind name k =
      ((recordVersions c.pk kind (c.newKeys.index kind name) db).map VersionRow.size).sum := by
    rw [state.history]
    rfl
  have after : c.retained kind name (k + 1) = (((c.weights kind name).take (k + 1)).drop
    (k + 1 - max 1 (kind.maxVersions c.limits))).sum := rfl
  rw [Db.bytesAfter, freedBytes_history, state.bytes, max_comm, before, after]
  omega

/-- A put fits exactly where its version is admitted. -/
theorem Filling.fits_iff (state : Filling c kind name k bytes live later db) (next : (c.copied kind name)[k]? = some row)
    {value : List UInt8} (given : (c.sealedAs kind name k row).valueCt = some value) (kept : row.tombstone = false) :
    Backend.Fits db kind c.pk (c.newKeys.index kind name) value c.limits
        (db.bytesAfter kind c.pk (c.newKeys.index kind name) (c.sealedAs kind name k row) c.limits) ↔
      c.Admits kind name k row bytes live := by
  have count := state.live
  have room : ¬ (((c.headAfter kind name k).map (·.2)).getD true ∧
      kind.maxLive c.limits ≤ (db.liveHeads kind c.pk).length) ↔
        c.liveAfter kind name k = true ∨ live < kind.maxLive c.limits := by
    rw [count, liveAfter]
    cases c.headAfter kind name k with
    | none => simp
    | some head =>
      obtain ⟨number, dead⟩ := head
      cases dead <;> simp
  constructor
  · intro fits
    have open' := fits.room
    rw [state.head, room] at open'
    refine ⟨fun other same => ?_, fun _ => open', fun _ => (state.freed next) ▸ fits.total⟩
    obtain rfl := Option.some.inj (given.symm.trans same)
    exact fits.small
  · intro admits
    refine ⟨admits.small value given, ?_, (state.freed next) ▸ admits.total kept⟩
    rw [state.head, room]
    exact admits.room kept

/-- A version is written without a value exactly where it is a tombstone. -/
theorem sealedAs_isNone (c : Copying χ) (kind : RecordKind) (name : String) (k : Nat) (row : VersionRow) :
    (c.sealedAs kind name k row).valueCt.isNone = row.tombstone := by
  rw [row.tombstone_eq, sealedAs, ← Option.not_isSome, ← Option.not_isSome, c.newKeys.seal_value, c.oldKeys.open_value]

/-- An error that a quota's is told as is a quota's. -/
theorem ofStore_quota {failure : StoreError} {quota : Quota} (same : CoreError.ofStore failure = .ofStore (.quota quota)) :
    ∃ other, failure = .quota other := by
  have code := congrArg CoreError.code same
  cases failure with
  | quota other => exact ⟨other, rfl⟩
  | _ => cases quota <;> cases code

theorem quota_of_mapError {answer : Except StoreError Nat} {quota : Quota}
    (told : answer.mapError CoreError.ofStore = .error (.ofStore (.quota quota))) : ∃ other, answer = .error (.quota other) := by
  cases answer with
  | ok version => cases told
  | error failure =>
    obtain ⟨other, rfl⟩ := ofStore_quota (Except.error.inj told)
    exact ⟨other, rfl⟩

variable [Digests] {after : Db}

/-- A write that was metered has copied one more version. -/
theorem Filling.metered (state : Filling c kind name k bytes live later db) (next : (c.copied kind name)[k]? = some row)
    (apart : ∀ p ∈ later, p.1 = kind → c.newKeys.index p.1 p.2 ≠ c.newKeys.index kind name)
    (lead : HeadsLead after)
    (appended : Appended db after kind c.pk
      ((c.sealedAs kind name k row).toInsert (c.newKeys.index kind name) version c.ctx.actor) (kind.maxVersions c.limits))
    (metered : Metered db after kind c.pk
      ((c.sealedAs kind name k row).toInsert (c.newKeys.index kind name) version c.ctx.actor) (kind.maxVersions c.limits)) :
    version = k + 1 ∧ Filling c kind name (k + 1) bytes live later after := by
  obtain ⟨short, _⟩ := List.getElem?_eq_some_iff.mp next
  have number : version = k + 1 := by
    have assigned := appended.next
    rw [Db.headVersion] at assigned
    have assigned : version = ((db.loadHead kind c.pk (c.newKeys.index kind name)).map (·.1)).getD 0 + 1 := assigned
    rw [state.head] at assigned
    rw [assigned]
    cases k with
    | zero => rfl
    | succ k =>
      obtain ⟨earlier, here⟩ : ∃ earlier, (c.copied kind name)[k]? = some earlier :=
        ⟨_, List.getElem?_eq_getElem (Nat.lt_of_succ_lt short)⟩
      rw [headAfter_next here]
      rfl
  have dead := sealedAs_isNone c kind name k row
  have head : after.loadHead kind c.pk (c.newKeys.index kind name) = c.headAfter kind name (k + 1) := by
    have moved : after.loadHead kind c.pk (c.newKeys.index kind name) =
      some (version, (c.sealedAs kind name k row).valueCt.isNone) := appended.created.head
    rw [moved, headAfter_next next, number, dead]
  refine ⟨number, lead, head, ?_, ?_, ?_, ?_, ?_⟩
  case refine_1 =>
    obtain ⟨moved, _⟩ := window_next (weights_next next) (Nat.le_max_left 1 (kind.maxVersions c.limits))
    have grown := congrArg (List.map VersionRow.size) metered.history
    rw [List.map_drop, List.map_append] at grown
    rw [← moved, ← state.history, List.length_map, max_comm]
    exact grown
  case refine_2 =>
    have counted := metered.bytes
    rw [← state.freed next]
    exact counted
  case refine_3 =>
    have counted : (after.liveHeads kind c.pk).length + (if c.liveAfter kind name k then 1 else 0) =
        (db.liveHeads kind c.pk).length + if row.tombstone then 0 else 1 := by
      rw [liveAfter, ← state.head, ← dead]
      exact metered.live
    have now : c.liveAfter kind name (k + 1) = !row.tombstone := by
      rw [liveAfter, headAfter_next next]
      rfl
    have before := state.live
    rw [now]
    cases dies : row.tombstone with
    | true =>
      simp only [dies, if_true] at counted
      simp
      omega
    | false =>
      simp only [dies, Bool.false_eq_true, if_false] at counted
      simp
      omega
  case refine_4 =>
    intro p member
    rw [← state.fresh p member]
    by_cases same : p.1 = kind
    · rw [same]
      apply appended.created.heads
      intro hit
      exact apart p member same (same ▸ (Prod.mk.inj hit).2)
    · rw [Db.loadHead, Db.loadHead, appended.created.elsewhere p.1 same]
  case refine_5 =>
    rintro rfl
    rw [← state.idle rfl, Db.liveHeads, Db.liveHeads, appended.created.elsewhere .config (by decide)]

/-- A write that is accepted was admitted, and copied its version; one that a quota refuses
was not. -/
theorem Filling.write (state : Filling c kind name k bytes live later db) (next : (c.copied kind name)[k]? = some row)
    (apart : ∀ p ∈ later, p.1 = kind → c.newKeys.index p.1 p.2 ≠ c.newKeys.index kind name) (pre : Pre) :
    (∀ version, (c.write kind name pre (c.sealedAs kind name k row) db).1 = .ok version →
      version = k + 1 ∧ c.Admits kind name k row bytes live ∧
        Filling c kind name (k + 1) bytes live later (c.write kind name pre (c.sealedAs kind name k row) db).2) ∧
    ∀ quota, (c.write kind name pre (c.sealedAs kind name k row) db).1 = .error (.ofStore (.quota quota)) →
      ¬ c.Admits kind name k row bytes live := by
  let index := c.newKeys.index kind name
  let written := c.sealedAs kind name k row
  have dead : written.valueCt.isNone = row.tombstone := sealedAs_isNone c kind name k row
  unfold Copying.write
  split
  · next asked _ _ value given =>
    have kept : row.tombstone = false := by rw [← dead, given, Option.isNone_some]
    constructor
    · intro version answer
      have accepted := except_mapError_ok answer
      obtain ⟨fits, metered⟩ := putRecord_metered state.lead accepted
      have lead := step_headsLead (⟨db, ()⟩ : World Unit)
        (.putRecord (.ok ()) c.pk kind index (precondition asked) written c.ctx c.limits) state.lead
      obtain ⟨number, filled⟩ := state.metered next apart lead (putRecord_appended state.lead accepted).2 metered
      exact ⟨number, (state.fits_iff next given kept).mp (fits _ given), filled⟩
    · intro quota answer admits
      obtain ⟨other, refused⟩ := quota_of_mapError answer
      obtain ⟨value', given', excess⟩ := putRecord_quota refused
      exact excess ((state.fits_iff next given' kept).mpr admits)
  · next number none =>
    have gone : row.tombstone = true := by rw [← dead, none, Option.isNone_none]
    constructor
    · intro version answer
      have accepted := except_mapError_ok answer
      have lead := step_headsLead (⟨db, ()⟩ : World Unit)
        (.deleteRecord (.ok ()) c.pk kind index number written c.ctx c.limits) state.lead
      obtain ⟨assigned, filled⟩ := state.metered next apart lead (deleteRecord_appended state.lead accepted).2
        (deleteRecord_metered state.lead accepted)
      refine ⟨assigned, ⟨fun value given => ?_, fun kept => ?_, fun kept => ?_⟩, filled⟩
      · cases none.symm.trans given
      · cases gone.symm.trans kept
      · cases gone.symm.trans kept
    · intro quota answer admits
      obtain ⟨other, refused⟩ := quota_of_mapError answer
      exact deleteRecord_quota refused
  · constructor
    · intro version impossible
      cases impossible
    · intro quota impossible
      have code := congrArg CoreError.code (Except.error.inj impossible)
      cases quota <;> cases code

/-! ## Along the copy -/

/-- No two of the names have one index, so writing one leaves the others as they are. -/
def Apart (c : Copying χ) (kind : RecordKind) (name : String) (later : List (RecordKind × String)) : Prop :=
  ∀ p ∈ later, p.1 = kind → c.newKeys.index p.1 p.2 ≠ c.newKeys.index kind name

/-- The versions of a name that are left, from the `k`-th on. A copy that returns found room
for each; one that a quota refuses did not. -/
theorem copyVersions_fills (rest : List Nat) (pre : Pre) (count : Nat)
    (state : Filling c kind name k bytes live later db) (upTo : k ≤ (c.copied kind name).length)
    (numbered : pre.nextVersion = k + 1) (left : rest = ((c.copied kind name).drop k).map (·.version))
    (apart : c.Apart kind name later) :
    (copyVersions c kind name rest pre count).Ensures c.serve (fun _ => True) db fun result after =>
      (∀ n, result = .ok n → (∀ j row, k ≤ j → (c.copied kind name)[j]? = some row →
        c.Admits kind name j row bytes live) ∧
          Filling c kind name (c.copied kind name).length bytes live later after) ∧
      ∀ quota, result = .error (.ofStore (.quota quota)) →
        ∃ j row, (c.copied kind name)[j]? = some row ∧ ¬ c.Admits kind name j row bytes live := by
  induction rest generalizing k pre count db with
  | nil =>
    have none : (c.copied kind name).drop k = [] := List.map_eq_nil_iff.mp left.symm
    have ended : k = (c.copied kind name).length := Nat.le_antisymm upTo (List.drop_eq_nil_iff.mp none)
    refine ⟨trivial, fun n _ => ⟨fun j row further here => ?_, ended ▸ state⟩, fun quota impossible => by cases impossible⟩
    obtain ⟨short, _⟩ := List.getElem?_eq_some_iff.mp here
    omega
  | cons number rest inductionHypothesis =>
    cases ahead : (c.copied kind name).drop k with
    | nil =>
      rw [ahead] at left
      cases left
    | cons row later' =>
      rw [ahead, List.map_cons, List.cons.injEq] at left
      obtain ⟨rfl, left⟩ := left
      have next : (c.copied kind name)[k]? = some row := by
        rw [← List.head?_drop, ahead]
        rfl
      have remains : (c.copied kind name).drop (k + 1) = later' := by
        rw [← List.tail_drop, ahead]
        rfl
      obtain ⟨short, _⟩ := List.getElem?_eq_some_iff.mp next
      obtain ⟨accepts, refuses⟩ := state.write next apart pre
      rw [copyVersions]
      apply Program.Ensures.bind
      refine ⟨trivial, trivial, ?_⟩
      simp only [Program.Then, serve, fetch_copied next]
      apply Program.Ensures.bind
      refine ⟨trivial, trivial, ?_⟩
      simp only [Program.Then, serve, numbered]
      have written : c.newKeys.sealRecord kind name (c.oldKeys.openRecord kind row) (k + 1) row.writtenAt =
        c.sealedAs kind name k row := rfl
      rw [written]
      cases answer : (c.write kind name pre (c.sealedAs kind name k row) db).1 with
      | error e =>
        refine ⟨trivial, fun n impossible => (by cases impossible), ?_⟩
        rintro quota same
        cases same
        exact ⟨k, row, next, refuses quota answer⟩
      | ok version =>
        obtain ⟨rfl, admits, filled⟩ := accepts version answer
        have pre' : (if (c.oldKeys.openRecord kind row).isSome then Pre.update (k + 1) else .revive (k + 1)).nextVersion =
            k + 1 + 1 := by
          split <;> rfl
        apply (inductionHypothesis _ (count + 1) filled short pre' (remains ▸ left)).mono
        rintro result after ⟨returned, refused⟩
        refine ⟨fun n same => ⟨fun j row' further here => ?_, (returned n same).2⟩, refused⟩
        rcases Nat.eq_or_lt_of_le further with rfl | beyond
        · obtain rfl := Option.some.inj (next.symm.trans here)
          exact admits
        · exact (returned n same).1 j row' beyond here

/-- The new vault between two names: what is copied comes to so many bytes and live names. -/
structure Between (c : Copying χ) (kind : RecordKind) (bytes live : Nat) (later : List (RecordKind × String)) (db : Db) :
    Prop where
  lead : HeadsLead db
  bytes : db.bytesUsed c.pk = bytes
  live : (db.liveHeads kind c.pk).length = live
  fresh : ∀ p ∈ later, db.loadHead p.1 c.pk (c.newKeys.index p.1 p.2) = none
  idle : kind = .secret → db.liveHeads .config c.pk = []

omit [Digests] in
/-- A name that has no head has no history. -/
theorem recordVersions_headless (lead : HeadsLead db) {index : NameHmac} (none : db.loadHead kind c.pk index = none) :
    recordVersions c.pk kind index db = [] := by
  rw [List.eq_nil_iff_forall_not_mem]
  intro row member
  obtain ⟨head, dead, loaded, _⟩ := lead.largest kind c.pk index row.version row (recordVersions_mem.mp member)
  rw [none] at loaded
  cases loaded

omit [Digests] in
theorem retained_zero (c : Copying χ) (kind : RecordKind) (name : String) : c.retained kind name 0 = 0 := by
  simp [retained]

omit [Digests] in
theorem Between.starts (state : Between c kind bytes live ((kind, name) :: later) db) :
    Filling c kind name 0 bytes live later db where
  lead := state.lead
  head := state.fresh (kind, name) List.mem_cons_self
  history := by
    rw [recordVersions_headless state.lead (state.fresh (kind, name) List.mem_cons_self)]
    simp
  bytes := by rw [state.bytes, retained_zero, Nat.add_zero]
  live := state.live
  fresh p member := state.fresh p (List.mem_cons_of_mem _ member)
  idle := state.idle

omit [Digests] in
theorem Filling.ends (state : Filling c kind name (c.copied kind name).length bytes live later db) :
    Between c kind (bytes + c.bytesOf kind [name]) (live + c.liveOf kind [name]) later db where
  lead := state.lead
  bytes := by
    rw [state.bytes]
    simp [bytesOf]
  live := by
    rw [state.live]
    simp [liveOf, List.countP_cons]
  fresh := state.fresh
  idle := state.idle

/-- A name is copied from its beginning to its end, or a version of it finds no room. -/
theorem copyName_fills (count : Nat) (state : Between c kind bytes live ((kind, name) :: later) db)
    (apart : c.Apart kind name later) :
    (copyName c kind name count).Ensures c.serve (fun _ => True) db fun result after =>
      (∀ n, result = .ok n → (∀ j row, (c.copied kind name)[j]? = some row → c.Admits kind name j row bytes live) ∧
        Between c kind (bytes + c.bytesOf kind [name]) (live + c.liveOf kind [name]) later after) ∧
      ∀ quota, result = .error (.ofStore (.quota quota)) →
        ∃ j row, (c.copied kind name)[j]? = some row ∧ ¬ c.Admits kind name j row bytes live := by
  have none := recordVersions_headless state.lead (state.fresh (kind, name) List.mem_cons_self)
  rw [copyName]
  apply Program.Ensures.bind
  refine ⟨trivial, trivial, ?_⟩
  apply Program.Ensures.bind
  refine ⟨trivial, trivial, ?_⟩
  simp only [Program.Then, serve, none]
  refine (copyVersions_fills _ _ count state.starts (Nat.zero_le _) rfl ?_ apart).mono ?_
  · rw [List.dropWhile_map, List.map_map]
    rfl
  · rintro result after ⟨returned, refused⟩
    refine ⟨fun n same => ⟨fun j row here => ?_, ?_⟩, refused⟩
    · exact (returned n same).1 j row (Nat.zero_le _) here
    · exact (returned n same).2.ends

omit [Digests] in
theorem bytesOf_cons (names : List String) : c.bytesOf kind (name :: names) = c.bytesOf kind [name] + c.bytesOf kind names := by
  simp [bytesOf]

omit [Digests] in
theorem liveOf_cons (names : List String) : c.liveOf kind (name :: names) = c.liveOf kind [name] + c.liveOf kind names := by
  simp only [liveOf, List.countP_cons, List.countP_nil]
  omega

omit [Digests] in
/-- Names find room if the first does, and the others do next to it. -/
theorem room_cons {names : List String} : c.Room kind (name :: names) bytes live ↔
    (∀ k row, (c.copied kind name)[k]? = some row → c.Admits kind name k row bytes live) ∧
      c.Room kind names (bytes + c.bytesOf kind [name]) (live + c.liveOf kind [name]) := by
  constructor
  · intro room
    refine ⟨room [] name names rfl, fun before other later same k row here => ?_⟩
    rw [Nat.add_assoc, Nat.add_assoc, ← bytesOf_cons, ← liveOf_cons]
    exact room (name :: before) other later (congrArg (name :: ·) same) k row here
  · rintro ⟨first, rest⟩ before other later same k row here
    cases before with
    | nil =>
      obtain ⟨rfl, rfl⟩ := List.cons.inj same
      exact first k row here
    | cons earlier before =>
      rw [List.cons_append, List.cons.injEq] at same
      obtain ⟨rfl, same⟩ := same
      rw [bytesOf_cons, liveOf_cons, ← Nat.add_assoc, ← Nat.add_assoc]
      exact rest before other later same k row here

/-- Names are copied one after the other, or one of them finds no room. -/
theorem copyNames_fills (names : List String) (count : Nat) (distinct : names.Nodup)
    (listed : ∀ name ∈ names, name ∈ c.names kind) (others : ∀ p ∈ later, p.1 ≠ kind)
    (state : Between c kind bytes live (names.map (Prod.mk kind) ++ later) db) :
    (copyNames c kind names count).Ensures c.serve (fun _ => True) db fun result after =>
      (∀ n, result = .ok n → c.Room kind names bytes live ∧
        Between c kind (bytes + c.bytesOf kind names) (live + c.liveOf kind names) later after) ∧
      ∀ quota, result = .error (.ofStore (.quota quota)) → ¬ c.Room kind names bytes live := by
  induction names generalizing count bytes live db with
  | nil =>
    refine ⟨trivial, fun n _ => ⟨fun before name later impossible => ?_, state⟩, fun quota impossible => by cases impossible⟩
    exact absurd impossible.symm (List.append_ne_nil_of_right_ne_nil _ (List.cons_ne_nil _ _))
  | cons name names inductionHypothesis =>
    obtain ⟨once, distinct⟩ := List.nodup_cons.mp distinct
    have apart : c.Apart kind name (names.map (Prod.mk kind) ++ later) := by
      intro p member same index
      rcases List.mem_append.mp member with here | there
      · obtain ⟨other, among, rfl⟩ := List.mem_map.mp here
        have equal := names_apart (listed other (List.mem_cons_of_mem _ among)) (listed name List.mem_cons_self) index
        exact once (equal ▸ among)
      · exact others p there same
    apply Program.Ensures.bind
    apply (copyName_fills count state apart).mono
    rintro result middle ⟨returned, refused⟩
    cases result with
    | error e =>
      refine ⟨fun n impossible => (by cases impossible), fun quota same room => ?_⟩
      obtain ⟨j, row, here, full⟩ := refused quota same
      exact full ((room_cons.mp room).1 j row here)
    | ok count =>
      obtain ⟨first, state'⟩ := returned count rfl
      have further : ∀ name ∈ names, name ∈ c.names kind := fun name member => listed name (List.mem_cons_of_mem _ member)
      apply (inductionHypothesis count distinct further state').mono
      rintro result after ⟨returned', refused'⟩
      constructor
      · intro n same
        obtain ⟨rest, ended⟩ := returned' n same
        refine ⟨room_cons.mpr ⟨first, rest⟩, ?_⟩
        rw [bytesOf_cons, liveOf_cons, ← Nat.add_assoc, ← Nat.add_assoc]
        exact ended
      · intro quota same room
        exact refused' quota same (room_cons.mp room).2

omit [Digests] in
/-- No name is listed twice. -/
theorem names_nodup (c : Copying χ) (kind : RecordKind) : (c.names kind).Nodup := by
  have distinct : (headShelf kind c.old c.source).Pairwise fun a b => a.nameHmac ≠ b.nameHmac :=
    ((headShelf_perm kind c.old c.source).pairwise_iff fun differ => differ.symm).mpr (joinedHeads_distinct _ _ _)
  rw [names, (List.perm_insertionSort _ _).nodup_iff, List.Nodup, List.pairwise_map]
  refine distinct.imp_of_mem ?_
  intro a b first second differ same
  apply differ
  rw [← c.readable kind a first, ← c.readable kind b second, same]

/-- A copy that returns found room for every version, and one that a quota refuses did not. -/
theorem copyFrom_fills (state : Between c .secret 0 0
      ((c.names .secret).map (Prod.mk .secret) ++ (c.names .config).map (Prod.mk .config)) db) :
    (copyFrom c).Ensures c.serve (fun _ => True) db fun result _ =>
      (∀ n, result = .ok n → c.Roomy) ∧ ∀ quota, result = .error (.ofStore (.quota quota)) → ¬ c.Roomy := by
  rw [copyFrom]
  apply Program.Ensures.bind
  refine ⟨trivial, trivial, ?_⟩
  apply Program.Ensures.bind
  have others : ∀ p ∈ (c.names .config).map (Prod.mk RecordKind.config), p.1 ≠ RecordKind.secret := by
    intro p member
    obtain ⟨name, _, rfl⟩ := List.mem_map.mp member
    intro impossible
    cases impossible
  apply (copyNames_fills (c.names .secret) 0 (names_nodup c _) (fun _ member => member) others state).mono
  rintro result middle ⟨returned, refused⟩
  cases result with
  | error e => exact ⟨fun n impossible => (by cases impossible), fun quota same room => refused quota same room.1⟩
  | ok count =>
    obtain ⟨secrets, between⟩ := returned count rfl
    have configs : Between c .config (c.bytesOf .secret (c.names .secret)) 0
        ((c.names .config).map (Prod.mk .config) ++ []) middle := by
      constructor
      case lead => exact between.lead
      case bytes => rw [between.bytes, Nat.zero_add]
      case live => rw [between.idle rfl, List.length_nil]
      case fresh =>
        rw [List.append_nil]
        exact between.fresh
      case idle =>
        intro impossible
        cases impossible
    apply Program.Ensures.bind
    refine ⟨trivial, trivial, ?_⟩
    apply (copyNames_fills (c.names .config) count (names_nodup c _) (fun _ member => member)
      (fun p impossible => by cases impossible) configs).mono
    rintro result after ⟨returned', refused'⟩
    exact ⟨fun n same => ⟨secrets, (returned' n same).1⟩, fun quota same room => refused' quota same room.2⟩

/-! ## Into a new vault -/

/-- A new vault has no records, and counts nothing. -/
theorem created_between {before : Db} {disk : Except String Unit} {v : NewVault} {now : Int} {vault : VaultRow}
    (lead : HeadsLead before) (homed : Backend.Homed before) (accounted : Accounted before)
    (created : (createVault disk v now before).1 = .ok vault) (mine : vault.pk = c.pk) :
    Between c .secret 0 0 later (createVault disk v now before).2 := by
  have ran := write_accepted created
  have lead' := step_headsLead (⟨before, ()⟩ : World Unit) (.createVault disk v now) lead
  rcases createVaultBody_cases ran with ⟨impossible, _⟩ | ⟨row, vaults, descriptors, e, answer, loaded, fresh, inserted,
    described, audited⟩
  · cases impossible
  obtain rfl := Done.ok.inj answer
  have here : c.pk = before.nextPk := by
    rw [← mine]
    obtain ⟨cols, found, joined⟩ := Option.bind_eq_some_iff.mp loaded
    obtain ⟨_, _, rfl⟩ := Option.map_eq_some_iff.mp joined
    exact (Table.find?_eq_some.mp found).2
  have tables : ∀ kind, (createVault disk v now before).2.tables kind = before.tables kind := by
    intro kind
    exact (appendAudit_tables audited kind).trans (by cases kind <;> rfl)
  have absent : before.hasVault c.pk = false := by rw [here, Db.hasVault, before.nextPk_fresh]; rfl
  have headless : ∀ kind, ∀ h ∈ (before.tables kind).heads.rows, h.vaultPk ≠ c.pk := by
    intro kind h member same
    have present := homed.heads kind h member
    rw [same, absent] at present
    exact Bool.false_ne_true present
  have unversioned : ∀ kind, (createVault disk v now before).2.bytesIn kind c.pk = 0 := by
    intro kind
    have none : (createVault disk v now before).2.versionsIn kind c.pk = [] := by
      rw [Db.versionsIn, tables, Table.select, List.filter_eq_nil_iff]
      intro row member mine
      have present := homed.records kind row member
      rw [of_decide_eq_true mine, absent] at present
      exact Bool.false_ne_true present
    rw [Db.bytesIn, none]
    rfl
  have unheaded : ∀ kind, (createVault disk v now before).2.liveHeads kind c.pk = [] := by
    intro kind
    rw [Db.liveHeads, tables, Table.select, List.filter_eq_nil_iff]
    intro h member
    simp [headless kind h member]
  refine ⟨lead', ?_, ?_, ?_, fun _ => unheaded .config⟩
  · have counts := accounted.created homed inserted audited
    obtain ⟨cols, found, _⟩ := Db.loadVault_found loaded
    rw [← here] at found
    have count := counts c.pk cols found
    have bytes : (createVault disk v now before).2.bytesUsed c.pk = cols.bytesUsed := by
      rw [Db.bytesUsed]
      exact congrArg (fun row => (row.map VaultCols.bytesUsed).getD 0) found
    rw [bytes, count]
    exact Nat.add_eq_zero_iff.mpr ⟨unversioned .secret, unversioned .config⟩
  · rw [unheaded, List.length_nil]
  · intro p _
    rw [Db.loadHead, tables, Option.map_eq_none_iff, Table.find?_eq_none]
    intro h member same
    exact headless p.1 h member (Prod.mk.inj same).1

/-- Where every version finds room, no quota refuses a copy into a new vault; and where nothing
else fails a copy, only there. -/
theorem copyFrom_unrefused_iff {σ : Type} (c : Copying χ) (journal : σ) (calls : List (Call σ))
    {disk : Except String Unit} {v : NewVault} {now : Int} {vault : VaultRow}
    (created : (createVault disk v now (run ⟨Db.empty, journal⟩ calls).db).1 = .ok vault) (mine : vault.pk = c.pk) :
    let copy := (copyFrom c).alone c.serve (createVault disk v now (run ⟨Db.empty, journal⟩ calls).db).2
    (c.Roomy → ∀ quota, copy.1 ≠ .error (.ofStore (.quota quota))) ∧
      ((∀ e, copy.1 = .error e → ∃ quota, e = .ofStore (.quota quota)) →
        ((∀ quota, copy.1 ≠ .error (.ofStore (.quota quota))) ↔ c.Roomy)) := by
  intro copy
  have state : Between c .secret 0 0
      ((c.names .secret).map (Prod.mk .secret) ++ (c.names .config).map (Prod.mk .config)) _ :=
    created_between (run_headsLead journal calls) (run_homed journal calls) (run_accounted journal calls) created mine
  obtain ⟨returned, refused⟩ := (copyFrom_fills state).alone
  have enough : c.Roomy → ∀ quota, copy.1 ≠ .error (.ofStore (.quota quota)) :=
    fun room quota same => refused quota same room
  refine ⟨enough, fun otherwise => ⟨fun unrefused => ?_, enough⟩⟩
  cases answer : copy.1 with
  | error e =>
    obtain ⟨quota, rfl⟩ := otherwise e answer
    exact absurd answer (unrefused quota)
  | ok n => exact returned n answer

end Copying

/-! ## A full vault by hand -/

/-- Limits of one live name. -/
def oneName : Limits := { Limits.default with maxNames := 1 }

/-- One name is written and deleted, and then another one written, which is listed first. -/
def replaced : List (Call Unit) :=
  [.putRecord (.ok ()) 1 .secret ⟨.fill 32 66⟩ .ifNoneMatch (.filled 1 5) ⟨.owner, 2⟩ oneName,
    .deleteRecord (.ok ()) 1 .secret ⟨.fill 32 66⟩ 1 { RecordWrite.filled 2 5 with valueCt := none } ⟨.owner, 3⟩ oneName,
    .putRecord (.ok ()) 1 .secret ⟨.fill 32 65⟩ .ifNoneMatch (.filled 1 5) ⟨.owner, 4⟩ oneName]

/-- A copy of that vault under the same limits. -/
def copyReplaced : Copying (List UInt8) where
  source := vaultOf replaced
  old := 1
  oldKeys := openKeys
  pk := 1
  newKeys := openKeys
  ctx := ⟨.owner, 5⟩
  limits := oneName
  readable kind := by cases kind <;> decide +kernel
  apart kind := by cases kind <;> decide +kernel

/-- The vault took all three, and the copy of it is refused: the deleted name would be live
next to the other one. -/
theorem deleted_name_refused :
    let _ := checksum
    (vaultOf replaced).loadHead .secret 1 ⟨.fill 32 66⟩ = some (2, true) ∧
      (vaultOf replaced).loadHead .secret 1 ⟨.fill 32 65⟩ = some (1, false) ∧
      ((Copying.copyFrom copyReplaced).alone copyReplaced.serve (vaultOf [])).1 =
        .error (.ofStore (.quota .names)) := by
  decide +kernel

/-- Nothing else refuses it. -/
theorem copyFrom_unrefused_iff_replaced :
    let _ := checksum
    let start := (createVault (.ok ()) (.filled 7) 1 (run ⟨Db.empty, ()⟩ ([] : List (Call Unit))).db).2
    (∀ quota, ((Copying.copyFrom copyReplaced).alone copyReplaced.serve start).1 ≠ .error (.ofStore (.quota quota))) ↔
      copyReplaced.Roomy := by
  intro _ start
  have answer : ((createVault (.ok ()) (.filled 7) 1 (run ⟨Db.empty, ()⟩ ([] : List (Call Unit))).db).1.map (·.pk)).toOption =
      some 1 := by decide +kernel
  have refused : ((Copying.copyFrom copyReplaced).alone copyReplaced.serve start).1 = .error (.ofStore (.quota .names)) := by
    decide +kernel
  cases created : (createVault (.ok ()) (.filled 7) 1 (run ⟨Db.empty, ()⟩ ([] : List (Call Unit))).db).1 with
  | error e =>
    rw [created] at answer
    cases answer
  | ok vault =>
    rw [created] at answer
    have mine : vault.pk = copyReplaced.pk := Option.some.inj answer
    apply (Copying.copyFrom_unrefused_iff copyReplaced () [] created mine).2
    intro e failed
    exact ⟨.names, Except.error.inj (failed.symm.trans refused)⟩

end GalataVault.Owner

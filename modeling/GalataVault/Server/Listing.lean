import GalataVault.Backend.Reads
import GalataVault.Client.Completeness
import GalataVault.Server.Preconditions

/-!
# Listings

A listing serves the heads of a vault in the order of their indexes, each joined with the
version it names, a page at a time. The end of the list is inferred from a page that is not
full, so a list whose length is a multiple of the limit ends with an empty page. The join
leaves no head out, because in every database a run reaches a head is a stored version.
-/

namespace GalataVault.Backend

open Proto Relational
open Client (listedBefore listedBefore_iff listedBefore_strict)

/-! ## One order -/

theorem FixedBytes.le_iff {n : Nat} {left right : FixedBytes n} : left.le right = true ↔ left.bytes ≤ right.bytes := by
  rw [FixedBytes.le, decide_eq_true_eq]

/-- The order in which a page is sorted. -/
abbrev IndexLe (left right : HeadRow) : Prop := left.nameHmac.raw.le right.nameHmac.raw = true

instance : Std.Total IndexLe where
  total left right := by
    simp only [IndexLe, FixedBytes.le_iff]
    exact List.le_total _ _

instance : IsTrans HeadRow IndexLe where
  trans first second third := by
    simp only [IndexLe, FixedBytes.le_iff]
    exact List.le_trans

theorem listedBefore_of_le {left right : NameHmac} (le : left.raw.le right.raw = true) (differ : left ≠ right) :
    listedBefore left right = true := by
  rw [listedBefore_iff]
  rw [FixedBytes.le_iff] at le
  by_contra notBefore
  have same : left.raw.bytes = right.raw.bytes := List.le_antisymm le (List.not_lt.mp notBefore)
  apply differ
  cases left with
  | mk left =>
    cases right with
    | mk right =>
      cases left
      cases right
      cases same
      rfl

/-! ## The join -/

/-- A head with the columns of the version it names. -/
def joinHead (kind : RecordKind) (pk : VaultPk) (db : Db) (h : HeadCols) : Option HeadRow :=
  ((db.tables kind).records.find? (pk, h.nameHmac, h.currentVersion)).map fun s =>
    { nameHmac := h.nameHmac
      nameCt := s.row.nameCt
      version := h.currentVersion
      writtenAt := s.row.writtenAt
      size := (s.row.valueCt.map List.length).getD 0
      tombstone := h.tombstone
      generation := s.row.generation
      valueCtHash := s.ctHash
      sig := s.row.sig }

theorem joinHead_nameHmac {kind : RecordKind} {pk : VaultPk} {db : Db} {h : HeadCols} {row : HeadRow}
    (joined : joinHead kind pk db h = some row) : row.nameHmac = h.nameHmac := by
  obtain ⟨_, _, rfl⟩ := Option.map_eq_some_iff.mp joined
  rfl

/-- The heads of a vault, joined. -/
def joinedHeads (kind : RecordKind) (pk : VaultPk) (db : Db) : List HeadRow :=
  ((db.tables kind).heads.select fun h => h.vaultPk = pk).filterMap (joinHead kind pk db)

/-- The heads of a vault, joined and in the order of their indexes. -/
def headShelf (kind : RecordKind) (pk : VaultPk) (db : Db) : List HeadRow :=
  (joinedHeads kind pk db).insertionSort fun a b => a.nameHmac.raw.le b.nameHmac.raw

variable {db : Db} {kind : RecordKind} {pk : VaultPk}

/-- No two heads of a vault have one name. -/
theorem joinedHeads_distinct (kind : RecordKind) (pk : VaultPk) (db : Db) :
    (joinedHeads kind pk db).Pairwise fun a b => a.nameHmac ≠ b.nameHmac := by
  have keys : (db.tables kind).heads.rows.Pairwise fun a b => a.key ≠ b.key :=
    List.pairwise_map.mp (db.tables kind).heads.distinct
  rw [joinedHeads, List.pairwise_filterMap]
  refine (List.Pairwise.filter _ keys).imp_of_mem ?_
  intro a b first second differ left joinedLeft right joinedRight same
  have mineA := of_decide_eq_true (List.mem_filter.mp first).2
  have mineB := of_decide_eq_true (List.mem_filter.mp second).2
  rw [joinHead_nameHmac joinedLeft, joinHead_nameHmac joinedRight] at same
  exact differ (by rw [HeadCols.key, HeadCols.key, mineA, mineB, same])

theorem headShelf_perm (kind : RecordKind) (pk : VaultPk) (db : Db) :
    (headShelf kind pk db).Perm (joinedHeads kind pk db) :=
  List.perm_insertionSort _ _

/-- Sorted, and no index twice. -/
theorem ordered_of_sorted {rows : List HeadRow} (sorted : rows.Pairwise IndexLe)
    (distinct : rows.Pairwise fun a b => a.nameHmac ≠ b.nameHmac) :
    Paging.Ordered listedBefore HeadRow.nameHmac rows :=
  (sorted.and distinct).imp fun both => listedBefore_of_le both.1 both.2

theorem headShelf_ordered (kind : RecordKind) (pk : VaultPk) (db : Db) :
    Paging.Ordered listedBefore HeadRow.nameHmac (headShelf kind pk db) := by
  apply ordered_of_sorted
  · exact List.pairwise_insertionSort IndexLe _
  · refine ((headShelf_perm kind pk db).pairwise_iff ?_).mpr (joinedHeads_distinct kind pk db)
    exact fun differ same => differ same.symm

/-- What a listing selects is the part of the joined heads after the cursor. -/
theorem joined_after (kind : RecordKind) (pk : VaultPk) (after : Option NameHmac) (db : Db) :
    ((db.tables kind).heads.select fun h =>
        h.vaultPk = pk && (after.map fun n => !h.nameHmac.raw.le n.raw).getD true).filterMap (joinHead kind pk db) =
      (joinedHeads kind pk db).filter fun row => Paging.ahead listedBefore after row.nameHmac := by
  rw [joinedHeads, Table.select, Table.select, List.filter_filterMap, List.filterMap_filter, List.filterMap_filter]
  apply List.filterMap_congr
  intro h _
  by_cases mine : h.vaultPk = pk
  · cases joined : joinHead kind pk db h with
    | none => simp [mine]
    | some row =>
      cases after with
      | none => simp [mine, Paging.ahead, Option.filter]
      | some n => simp [mine, Paging.ahead, listedBefore, joinHead_nameHmac joined, Option.filter]
  · simp [mine]

/-- A listing is a page of the heads. -/
theorem listRecords_eq_page (pk : VaultPk) (kind : RecordKind) (after : Option NameHmac) (limit : Nat) (db : Db) :
    listRecords pk kind after limit db =
      Paging.page listedBefore HeadRow.nameHmac limit (headShelf kind pk db) after := by
  have selected := joined_after kind pk after db
  have listed : listRecords pk kind after limit db =
      (((joinedHeads kind pk db).filter fun row => Paging.ahead listedBefore after row.nameHmac).insertionSort
        fun a b => a.nameHmac.raw.le b.nameHmac.raw).take limit := by
    rw [← selected]
    rfl
  rw [listed, Paging.page]
  congr 1
  -- Both are the same heads in one strict order.
  let selects := fun row : HeadRow => Paging.ahead listedBefore after row.nameHmac
  have sorted : Paging.Ordered listedBefore HeadRow.nameHmac
      (((joinedHeads kind pk db).filter selects).insertionSort fun a b => a.nameHmac.raw.le b.nameHmac.raw) := by
    apply ordered_of_sorted
    · exact List.pairwise_insertionSort IndexLe _
    · refine ((List.perm_insertionSort _ _).pairwise_iff ?_).mpr ((joinedHeads_distinct kind pk db).filter _)
      exact fun differ same => differ same.symm
  have shelved : Paging.Ordered listedBefore HeadRow.nameHmac ((headShelf kind pk db).filter selects) :=
    List.Pairwise.filter _ (headShelf_ordered kind pk db)
  have same : (((joinedHeads kind pk db).filter selects).insertionSort
      fun a b => a.nameHmac.raw.le b.nameHmac.raw).Perm ((headShelf kind pk db).filter selects) :=
    (List.perm_insertionSort _ _).trans ((headShelf_perm kind pk db).symm.filter _)
  refine same.eq_of_pairwise ?_ sorted shelved
  intro a b _ _ less more
  exact absurd rfl (listedBefore_strict.ne (listedBefore_strict.trans _ _ _ less more))

/-! ## A whole listing -/

variable [Digests]

omit [Digests] in
/-- The shelf is a listing with room for every head. -/
theorem headShelf_eq_listRecords (kind : RecordKind) (pk : VaultPk) (db : Db) :
    headShelf kind pk db = listRecords pk kind none (db.tables kind).heads.rows.length db := by
  have fits : (headShelf kind pk db).length ≤ (db.tables kind).heads.rows.length :=
    calc (headShelf kind pk db).length
        = (joinedHeads kind pk db).length := (headShelf_perm kind pk db).length_eq
      _ ≤ ((db.tables kind).heads.select fun h => h.vaultPk = pk).length := List.length_filterMap_le _ _
      _ ≤ (db.tables kind).heads.rows.length := List.length_filter_le _ _
  have everything : (headShelf kind pk db).filter (fun row => Paging.ahead listedBefore none row.nameHmac) =
      headShelf kind pk db := List.filter_eq_self.mpr fun _ _ => rfl
  rw [listRecords_eq_page, Paging.page, everything, List.take_of_length_le fits]

/-- Where heads lead and hashes fit, the shelf holds the latest version of every name. -/
theorem headShelf_mem (lead : HeadsLead db) (hashed : Hashed db) {h : HeadRow} :
    h ∈ headShelf kind pk db ↔ ∃ row, latestRecord pk kind h.nameHmac db = some row ∧ h = row.listed := by
  rw [headShelf_eq_listRecords]
  constructor
  · exact listRecords_mem lead hashed
  · rintro ⟨row, latest, rfl⟩
    exact listRecords_shows hashed lead latest (fun _ absent => nomatch absent) (Nat.le_refl _)

omit [Digests] in
/-- The join leaves no head out. -/
theorem joinHead_some (lead : HeadsLead db) {h : HeadCols} (stored : h ∈ (db.tables kind).heads.rows)
    (mine : h.vaultPk = pk) : ((joinHead kind pk db h).map HeadRow.nameHmac) = some h.nameHmac := by
  have loaded : db.loadHead kind pk h.nameHmac = some (h.currentVersion, h.tombstone) := by
    have lookup : (db.tables kind).heads.find? (pk, h.nameHmac) = some h :=
      Table.find?_eq_some.mpr ⟨stored, by rw [HeadCols.key, mine]⟩
    rw [Db.loadHead, lookup]
    rfl
  obtain ⟨row, looked, _⟩ := lead.leads kind pk h.nameHmac h.currentVersion h.tombstone loaded
  obtain ⟨v, found, _⟩ := Option.map_eq_some_iff.mp looked
  rw [joinHead, found]
  rfl

omit [Digests] in
/-- The names on the shelf are those of the vault's heads. -/
theorem headShelf_names (lead : HeadsLead db) :
    ((headShelf kind pk db).map HeadRow.nameHmac).Perm
      (((db.tables kind).heads.select fun h => h.vaultPk = pk).map HeadCols.nameHmac) := by
  refine ((headShelf_perm kind pk db).map _).trans (List.Perm.of_eq ?_)
  rw [joinedHeads, List.map_filterMap, ← List.filterMap_eq_map]
  apply List.filterMap_congr
  intro h selected
  obtain ⟨stored, mine⟩ := List.mem_filter.mp selected
  exact joinHead_some lead stored (of_decide_eq_true mine)

/-- In every database a run reaches, the hashes fit. -/
theorem run_hashed {σ : Type} (journal : σ) (calls : List (Call σ)) : Hashed (run ⟨Db.empty, journal⟩ calls).db :=
  have empty : Hashed Db.empty := fun kind v member => by cases kind <;> cases member
  run_induction empty (fun world call hashed => (step_effect world call).hashed hashed) calls

end GalataVault.Backend

namespace GalataVault.Server

open Proto Backend
open Client (listedBefore listedBefore_iff listedBefore_strict)

variable {σ : Type} [Digests]

/-! ## The limit -/

/-- The number of items a request asks for, brought between one and the most a page holds. -/
def clamped (number : Option Nat) : Nat := number.elim defaultPage fun n => min (max n 1) maxPage

omit [Digests] in
theorem clamped_pos (number : Option Nat) : 0 < clamped number := by
  cases number with
  | none => decide
  | some n =>
    have : clamped (some n) = min (max n 1) 500 := rfl
    omega

/-- What the limit of a query is read as, where it is a number. -/
def asksFor (query : Option String) (number : Option Nat) : Prop :=
  (queryValue query "limit").mapM (fun text => parseUnsigned (2 ^ 64) text.toList) = some number

omit [Digests] in
theorem pageLimit_asked {query : Option String} {number : Option Nat} (asked : asksFor query number) (default most : Nat) :
    pageLimit query default most = .ok (number.elim default fun n => min (max n 1) most) := by
  unfold asksFor at asked
  unfold pageLimit
  cases value : queryValue query "limit" with
  | none =>
    rw [value] at asked
    cases asked
    rfl
  | some text =>
    rw [value] at asked
    obtain ⟨n, read, rfl⟩ := Option.map_eq_some_iff.mp asked
    simp only [read]
    rfl

omit [Digests] in
theorem pageLimit_clamped {query : Option String} {number : Option Nat} (asked : asksFor query number) :
    pageLimit query defaultPage maxPage = .ok (clamped number) := pageLimit_asked asked defaultPage maxPage

/-! ## The texts of the queries -/

omit [Digests] in
theorem parseName_toHex (name : NameHmac) : parseName (toHex name.raw.bytes) = .ok name := by
  rw [parseName, fromHex_toHex]

/-- A request for a number of items after a cursor. -/
def pageQuery (limit : String) (cursor : Option NameHmac) : Option String :=
  some (String.ofList ("limit=".toList ++ limit.toList ++
    cursor.elim [] fun c => "&after=".toList ++ (toHex c.raw.bytes).toList))

omit [Digests] in
theorem toHex_noAmpersand (bytes : List UInt8) : '&' ∉ (toHex bytes).toList := fun stands =>
  toHex_forall (P := (· ≠ '&')) (by decide) bytes _ stands rfl

/-- The pairs of the query. -/
def queryPairs (limit : String) (cursor : Option NameHmac) : List (List Char) :=
  ("limit=".toList ++ limit.toList) :: cursor.elim [] fun c => ["after=".toList ++ (toHex c.raw.bytes).toList]

omit [Digests] in
theorem pageQuery_pairs {limit : String} (plain : '&' ∉ limit.toList) (cursor : Option NameHmac) :
    (pageQuery limit cursor).map (·.toList.splitOn '&') = some (queryPairs limit cursor) := by
  have first : '&' ∉ "limit=".toList ++ limit.toList := by
    simpa using plain
  rw [pageQuery, Option.map_some, String.toList_ofList, queryPairs]
  cases cursor with
  | none =>
    change some ((("limit=".toList ++ limit.toList) ++ []).splitOn '&') = some [_]
    rw [List.append_nil, List.splitOn_eq_singleton first]
  | some c =>
    have second : '&' ∉ "after=".toList ++ (toHex c.raw.bytes).toList := by
      simpa using toHex_noAmpersand c.raw.bytes
    change some ((("limit=".toList ++ limit.toList) ++ '&' :: ("after=".toList ++ (toHex c.raw.bytes).toList)).splitOn '&') =
      some [_, _]
    rw [List.splitOn_append_cons_self, List.splitOn_eq_singleton first, List.splitOn_eq_singleton second]
    rfl

omit [Digests] in
theorem pageQuery_after {limit : String} (plain : '&' ∉ limit.toList) (cursor : Option NameHmac) :
    (queryValue (pageQuery limit cursor) "after").mapM parseName = .ok cursor := by
  have pairs := pageQuery_pairs plain cursor
  obtain ⟨text, query, split⟩ := Option.map_eq_some_iff.mp pairs
  rw [queryValue, query, Option.bind_some, split, queryPairs]
  cases cursor with
  | none => rfl
  | some c =>
    change (some (String.ofList (toHex c.raw.bytes).toList)).mapM parseName = _
    rw [String.ofList_toList]
    change some <$> parseName (toHex c.raw.bytes) = _
    rw [parseName_toHex]
    rfl

omit [Digests] in
theorem pageQuery_asksFor {limit : String} {n : Nat} (plain : '&' ∉ limit.toList)
    (read : parseUnsigned (2 ^ 64) limit.toList = some n) (cursor : Option NameHmac) :
    asksFor (pageQuery limit cursor) (some n) := by
  have pairs := pageQuery_pairs plain cursor
  obtain ⟨text, query, split⟩ := Option.map_eq_some_iff.mp pairs
  rw [asksFor, queryValue, query, Option.bind_some, split, queryPairs]
  change (some (String.ofList limit.toList)).mapM _ = _
  rw [String.ofList_toList]
  change some <$> parseUnsigned (2 ^ 64) limit.toList = _
  rw [read]
  rfl

/-! ## The handler -/

/-- That the handler answers a cursor with a page and a next cursor, and nothing else
happens. -/
def ServesPage (env : Env σ) (world : World σ) (caller : Caller) (kind : RecordKind)
    (query : Option NameHmac → Option String) (cursor : Option NameHmac) (rows : List HeadRow)
    (next : Option NameHmac) : Prop :=
  runAlone env (list caller kind (query cursor)) world = (.ok (.json 200 (.list rows next)), world)

theorem serves_page {env : Env σ} (world : World σ) (caller : Caller) (kind : RecordKind)
    {query : Option NameHmac → Option String} {number : Option Nat} {cursor : Option NameHmac}
    (healthy : env.disk = .ok ()) (after : (queryValue (query cursor) "after").mapM parseName = .ok cursor)
    (asked : asksFor (query cursor) number) :
    ServesPage env world caller kind query cursor
      (Paging.page listedBefore HeadRow.nameHmac (clamped number) (headShelf kind caller.vault.pk world.db) cursor)
      (Paging.cursorAfter HeadRow.nameHmac (clamped number)
        (Paging.page listedBefore HeadRow.nameHmac (clamped number) (headShelf kind caller.vault.pk world.db)
          cursor)) := by
  have read : perform env (.read (listRecords caller.vault.pk kind cursor (clamped number))) world =
      (.ok (listRecords caller.vault.pk kind cursor (clamped number) world.db), world) := by
    rw [perform, healthy]
    rfl
  unfold ServesPage list
  rw [after, pageLimit_clamped asked, ← listRecords_eq_page]
  change runAlone env
    (Handler.orError (perform env (.read (listRecords caller.vault.pk kind cursor (clamped number))) world).1 >>= _)
    (perform env (.read (listRecords caller.vault.pk kind cursor (clamped number))) world).2 = _
  rw [read]
  rfl

/-- In every database that a run reaches, following the cursors from the first request comes
to an end and yields every head of the vault once, in the order of the indexes, each with
the fields of the version it names. -/
theorem list_complete (journal : σ) (calls : List (Call σ)) {env : Env σ} (caller : Caller) (kind : RecordKind)
    {query : Option NameHmac → Option String} {number : Option Nat} (healthy : env.disk = .ok ())
    (after : ∀ cursor, (queryValue (query cursor) "after").mapM parseName = .ok cursor)
    (asked : ∀ cursor, asksFor (query cursor) number) :
    let world := run ⟨Db.empty, journal⟩ calls
    let names := ((world.db.tables kind).heads.select fun h => h.vaultPk = caller.vault.pk).map HeadCols.nameHmac
    ∃ pages, Paging.Follows (ServesPage env world caller kind query) none pages ∧
      pages.length = names.length / clamped number + 1 ∧
      (pages.flatten.map HeadRow.nameHmac).Perm names ∧
      (pages.flatten.Pairwise fun a b => a.nameHmac.raw.bytes < b.nameHmac.raw.bytes) ∧
      ∀ h ∈ pages.flatten, ∃ row, latestRecord caller.vault.pk kind h.nameHmac world.db = some row ∧
        h = row.listed := by
  intro world names
  have lead : HeadsLead world.db := run_headsLead journal calls
  have hashed : Hashed world.db := run_hashed journal calls
  have ordered := headShelf_ordered kind caller.vault.pk world.db
  obtain ⟨pages, follows, whole, count⟩ := Paging.follows_all listedBefore_strict ordered (clamped_pos number)
    (fun cursor => serves_page world caller kind healthy (after cursor) (asked cursor)) none
  have everything : pages.flatten = headShelf kind caller.vault.pk world.db :=
    whole.trans (List.filter_eq_self.mpr fun _ _ => rfl)
  have named : (pages.flatten.map HeadRow.nameHmac).Perm names := everything ▸ headShelf_names lead
  refine ⟨pages, follows, ?_, named, ?_, ?_⟩
  · rw [count, ← whole, ← named.length_eq, List.length_map]
  · rw [everything]
    exact ordered.imp listedBefore_iff.mp
  · intro h member
    rw [everything] at member
    exact (headShelf_mem lead hashed).mp member

omit [Digests] in
/-- Two secrets, two to a page: the second page is empty and the last. -/
theorem list_complete_two :
    let _ := checksum
    let world : World Unit := run ⟨Db.empty, ()⟩
      [.createVault (.ok ()) (.filled 7) 1, putNarrow 1 .ifNoneMatch 1, putNarrow 2 .ifNoneMatch 1]
    ∃ pages, Paging.Follows (ServesPage calm world firstOwner .secret (pageQuery "2")) none pages ∧
      pages.length = 2 ∧ pages.flatten.length = 2 := by
  intro _ world
  have two : ((world.db.tables .secret).heads.select fun h => h.vaultPk = firstOwner.vault.pk).length = 2 := by
    decide +kernel
  have healthy : calm.disk = .ok () := rfl
  have after : ∀ cursor, (queryValue (pageQuery "2" cursor) "after").mapM parseName = .ok cursor :=
    pageQuery_after (by decide)
  have asked : ∀ cursor, asksFor (pageQuery "2" cursor) (some 2) := pageQuery_asksFor (by decide) (by decide)
  obtain ⟨pages, follows, count, named, _, _⟩ := list_complete ()
    [.createVault (.ok ()) (.filled 7) 1, putNarrow 1 .ifNoneMatch 1, putNarrow 2 .ifNoneMatch 1] firstOwner .secret
    healthy after asked
  have size := named.length_eq
  rw [List.length_map, List.length_map] at size
  rw [List.length_map] at count
  exact ⟨pages, follows, count.trans (congrArg (· / clamped (some 2) + 1) two), size.trans two⟩

end GalataVault.Server

import GalataVault.Server.Listing
import GalataVault.Server.Numbers

/-!
# Pages of the audit log

The audit endpoint serves the rows after a number, in order, a page at a time. The number is
parsed as a `u64` and compared as an `i64`: from 2 ^ 63 on it is negative there, and every row
comes after it. Below that the pages are exact, because no vault has that many rows.
-/

namespace GalataVault.Server

open Proto Backend MachineInt

/-! ## What is asked for -/

/-- The number a query asks for rows after: the one it names, or zero. -/
def asksAfter (query : Option String) (after : Nat) : Prop :=
  ((queryValue query "after").mapM parseVersion).map (fun v => v.getD 0) = .ok after

/-- The most rows of a page. -/
def rowsAsked (number : Option Nat) : Nat := number.elim maxAuditPage fun n => min (max n 1) maxAuditPage

theorem rowsAsked_pos (number : Option Nat) : 0 < rowsAsked number := by
  cases number with
  | none => decide
  | some n =>
    change 0 < min (max n 1) maxAuditPage
    exact Nat.lt_min.mpr ⟨by omega, by decide⟩

/-! ## What is served -/

/-- Rows come in the order of their numbers. -/
abbrev Ascending (rows : List AuditRow) : Prop := rows.Pairwise fun a b => a.seq < b.seq

/-- The rows are the first of the vault's rows after a number. -/
def PageExact (db : Db) (pk : VaultPk) (after limit : Nat) (rows : List AuditRow) : Prop :=
  ∃ later, later.Perm ((db.log pk).filter fun r => after < r.seq) ∧ Ascending later ∧ rows = later.take limit

/-- The endpoint answers a number with these rows, and nothing else happens. A reader goes on
after the last of them, unless the page is short. -/
def ServesRows [Digests] {σ : Type} (env : Env σ) (world : World σ) (caller : Caller) (query : Nat → Option String)
    (limit : Nat) (after : Option Nat) (rows : List AuditRow) (next : Option Nat) : Prop :=
  (∃ head, runAlone env (audit caller (query (after.getD 0))) world = (.ok (.json 200 (.audit rows head)), world)) ∧
    next = Paging.cursorAfter AuditRow.seq limit rows

/-- The page after a number is exact, and a reader that goes on from there until a page is
short has read every later row once, in order. -/
structure AuditExact [Digests] {σ : Type} (env : Env σ) (world : World σ) (caller : Caller) (query : Nat → Option String)
    (limit after : Nat) : Prop where
  page : ∃ rows head, runAlone env (audit caller (query after)) world = (.ok (.json 200 (.audit rows head)), world) ∧
    PageExact world.db caller.vault.pk after limit rows
  whole : ∃ pages, Paging.Follows (ServesRows env world caller query limit) (some after) pages ∧
    pages.flatten.Perm ((world.db.log caller.vault.pk).filter fun r => after < r.seq) ∧ Ascending pages.flatten

section

variable [Digests] {σ : Type} {env : Env σ} {world : World σ} {caller : Caller} {query : Nat → Option String}
  {number : Option Nat} {after : Nat}

theorem audit_alone (healthy : env.disk = .ok ()) (parses : asksAfter (query after) after)
    (asked : asksFor (query after) number) :
    runAlone env (audit caller (query after)) world =
      (.ok (.json 200 (.audit (auditAfter caller.vault.pk after (rowsAsked number) world.db).1
        (auditAfter caller.vault.pk after (rowsAsked number) world.db).2)), world) := by
  have read {β : Type} (f : Db → β) : perform env (.read f) world = (.ok (f world.db), world) := by
    rw [perform, healthy]
    rfl
  -- Every scope may read the log.
  have may : caller.can .readAudit = true := by
    unfold Caller.can
    split <;> rfl
  unfold audit
  rw [if_neg (by rw [may]; exact Bool.noConfusion), parses, pageLimit_asked asked]
  change runAlone env
    (Handler.orError (perform env (.read fun db => (auditAfter caller.vault.pk after (rowsAsked number) db).1) world).1 >>= _)
    (perform env (.read fun db => (auditAfter caller.vault.pk after (rowsAsked number) db).1) world).2 = _
  rw [read]
  change runAlone env
    (Handler.orError (perform env (.read fun db => (auditAfter caller.vault.pk after (rowsAsked number) db).2) world).1 >>= _)
    (perform env (.read fun db => (auditAfter caller.vault.pk after (rowsAsked number) db).2) world).2 = _
  rw [read]
  rfl

/-! ## Exact pages -/

/-- The rows of a reached database, as they are queried. -/
structure Rows (db : Db) (pk : VaultPk) : Prop where
  served : db.auditOf pk = db.log pk
  ascending : Ascending (db.log pk)
  positive : ∀ row ∈ db.log pk, 0 < row.seq
  small : ∀ row ∈ db.log pk, row.seq < 2 ^ 63

theorem rows_of_run (journal : σ) (calls : List (Call σ)) (pk : VaultPk) : Rows (run ⟨Db.empty, journal⟩ calls).db pk := by
  have invariant := run_log journal calls
  have fits := run_fits journal calls
  generalize (run ⟨Db.empty, journal⟩ calls).db = db at *
  have numbered : (db.log pk).map (·.seq) = List.range' 1 (db.log pk).length := by
    cases found : db.vaults.find? pk with
    | none =>
      rw [invariant.chained.orphan pk found]
      rfl
    | some v => exact (invariant.chained.linked pk v found).seqs
  have within : ∀ row ∈ db.log pk, 1 ≤ row.seq ∧ row.seq < 1 + (db.log pk).length := by
    intro row member
    have listed : row.seq ∈ (db.log pk).map (·.seq) := List.mem_map_of_mem member
    rw [numbered] at listed
    exact List.mem_range'_1.mp listed
  refine ⟨invariant.served pk, ?_, fun row member => (within row member).1, ?_⟩
  · apply List.pairwise_map.mp
    rw [numbered]
    exact List.pairwise_lt_range'
  · intro row member
    have last := (within row member).2
    have stored := db.log_length_le pk
    have room : maxRows < 2 ^ 63 := by decide
    omega

omit [Digests] in
/-- In a database that an `i64` numbers the rows of, the page after a number that it holds is
a page of the shelf of all rows. -/
theorem auditAfter_eq_page {db : Db} {pk : VaultPk} (rows : Rows db pk) (small : after < 2 ^ 63) (limit : Nat) :
    (auditAfter pk after limit db).1 =
      Paging.page (fun a b => decide (a < b)) AuditRow.seq limit (db.log pk) (some after) := by
  rw [auditAfter_of_holds small, rows.served]
  rfl

omit [Digests] in
theorem seq_strict : Paging.Strict fun a b : Nat => decide (a < b) where
  irrefl k := by simp
  trans a b c first second := by
    rw [decide_eq_true_eq] at *
    omega

/-- Below 2 ^ 63 the endpoint is exact. -/
theorem auditExact_of_small (rows : Rows world.db caller.vault.pk) (healthy : env.disk = .ok ())
    (parses : ∀ n < 2 ^ 64, asksAfter (query n) n) (asked : ∀ n, asksFor (query n) number) (small : after < 2 ^ 63) :
    AuditExact env world caller query (rowsAsked number) after := by
  have answered {n : Nat} (below : n < 2 ^ 63) := @audit_alone _ _ env world caller query number n healthy
    (parses n (by omega)) (asked n)
  have sorted : Ascending ((world.db.log caller.vault.pk).filter fun r => after < r.seq) :=
    List.Pairwise.filter _ rows.ascending
  -- A reader that names no number reads from the first row on.
  have first : Paging.page (fun a b => decide (a < b)) AuditRow.seq (rowsAsked number) (world.db.log caller.vault.pk) none =
      Paging.page (fun a b => decide (a < b)) AuditRow.seq (rowsAsked number) (world.db.log caller.vault.pk) (some 0) := by
    unfold Paging.page
    rw [List.filter_congr]
    intro row member
    exact (decide_eq_true (rows.positive row member)).symm
  have serves (cursor : Option Nat) (below : cursor.getD 0 < 2 ^ 63) :
      ServesRows env world caller query (rowsAsked number) cursor
        (Paging.page (fun a b => decide (a < b)) AuditRow.seq (rowsAsked number) (world.db.log caller.vault.pk) cursor)
        (Paging.cursorAfter AuditRow.seq (rowsAsked number)
          (Paging.page (fun a b => decide (a < b)) AuditRow.seq (rowsAsked number) (world.db.log caller.vault.pk) cursor)) := by
    have answer := answered below
    have shown : (auditAfter caller.vault.pk (cursor.getD 0) (rowsAsked number) world.db).1 =
        Paging.page (fun a b => decide (a < b)) AuditRow.seq (rowsAsked number) (world.db.log caller.vault.pk) cursor := by
      rw [auditAfter_eq_page rows below]
      cases cursor with
      | none => exact first.symm
      | some n => rfl
    rw [shown] at answer
    exact ⟨⟨_, answer⟩, rfl⟩
  constructor
  · refine ⟨_, _, answered small, _, List.Perm.refl _, sorted, ?_⟩
    rw [auditAfter_eq_page rows small]
    rfl
  · have ordered : Paging.Ordered (fun a b => decide (a < b)) AuditRow.seq (world.db.log caller.vault.pk) :=
      rows.ascending.imp fun less => decide_eq_true less
    obtain ⟨pages, follows, whole, _⟩ := Paging.follows_served seq_strict ordered (rowsAsked_pos number) serves
      (fun row member => rows.small row member) (show (some after).getD 0 < 2 ^ 63 from small)
    have later : pages.flatten = (world.db.log caller.vault.pk).filter fun r => after < r.seq := whole
    refine ⟨pages, follows, List.Perm.of_eq later, ?_⟩
    rw [later]
    exact sorted

/-- A vault without rows has one page, which is empty. -/
theorem auditExact_of_nil (rows : Rows world.db caller.vault.pk) (healthy : env.disk = .ok ())
    (parses : asksAfter (query after) after) (asked : asksFor (query after) number)
    (empty : world.db.log caller.vault.pk = []) : AuditExact env world caller query (rowsAsked number) after := by
  have none : (auditAfter caller.vault.pk after (rowsAsked number) world.db).1 = [] := by
    rw [auditAfter, rows.served, empty]
    exact List.take_nil
  have answered := @audit_alone _ _ env world caller query number after healthy parses asked
  rw [none] at answered
  have positive := rowsAsked_pos number
  constructor
  · refine ⟨_, _, answered, [], ?_, List.Pairwise.nil, List.take_nil.symm⟩
    rw [empty]
    rfl
  · refine ⟨[[]], .last ⟨⟨_, answered⟩, ?_⟩, ?_, List.Pairwise.nil⟩
    · rw [Paging.cursorAfter, List.length_nil, if_neg (by omega)]
    · rw [empty]
      rfl

omit [Digests] in
/-- From 2 ^ 63 on the page begins with the vault's first row. -/
theorem auditAfter_of_large {db : Db} {pk : VaultPk} (rows : Rows db pk) (u64 : after < 2 ^ 64) (large : 2 ^ 63 ≤ after)
    (limit : Nat) : (auditAfter pk after limit db).1 = (db.log pk).take limit := by
  have negative : i64.wrap after = (after : Int) - 2 ^ 64 := by
    have span : (2 ^ 63 - -2 ^ 63 : Int) = 2 ^ 64 := by norm_num
    change -2 ^ 63 + ((after : Int) - -2 ^ 63) % (2 ^ 63 - -2 ^ 63) = _
    rw [span]
    omega
  rw [auditAfter, rows.served, List.filter_eq_self.mpr]
  intro row _
  rw [decide_eq_true_eq, negative]
  omega

theorem not_auditExact_of_large (rows : Rows world.db caller.vault.pk) (healthy : env.disk = .ok ())
    (parses : asksAfter (query after) after) (asked : asksFor (query after) number) (u64 : after < 2 ^ 64)
    (large : 2 ^ 63 ≤ after) (some_row : world.db.log caller.vault.pk ≠ []) :
    ¬ AuditExact env world caller query (rowsAsked number) after := by
  rintro ⟨⟨served, head, answer, later, none_later, _, page⟩, _⟩
  rw [audit_alone healthy parses asked] at answer
  have same : (auditAfter caller.vault.pk after (rowsAsked number) world.db).1 = served := by
    cases answer
    rfl
  rw [auditAfter_of_large rows u64 large] at same
  have passed : ((world.db.log caller.vault.pk).filter fun r => after < r.seq) = [] := by
    rw [List.filter_eq_nil_iff]
    intro row member
    have small := rows.small row member
    rw [decide_eq_true_eq]
    omega
  rw [passed] at none_later
  rw [none_later.eq_nil, List.take_nil] at page
  rw [page, List.take_eq_nil_iff] at same
  have positive := rowsAsked_pos number
  rcases same with zero | empty
  · omega
  · exact some_row empty

end

/-- In every database a run reaches, the audit endpoint is exact for a number and a limit, and
so is a reader that goes on from there, if and only if the number is below 2 ^ 63 or the vault
has no rows. -/
theorem audit_pages_exact_iff [Digests] {σ : Type} (journal : σ) (calls : List (Call σ)) {env : Env σ} (caller : Caller)
    {query : Nat → Option String} {number : Option Nat} {after : Nat} (healthy : env.disk = .ok ())
    (parses : ∀ n < 2 ^ 64, asksAfter (query n) n) (asked : ∀ n, asksFor (query n) number) (u64 : after < 2 ^ 64) :
    let world := run ⟨Db.empty, journal⟩ calls
    AuditExact env world caller query (rowsAsked number) after ↔
      after < 2 ^ 63 ∨ world.db.log caller.vault.pk = [] := by
  intro world
  have rows : Rows world.db caller.vault.pk := rows_of_run journal calls caller.vault.pk
  constructor
  · intro exactly
    by_contra neither
    rw [not_or, Nat.not_lt] at neither
    exact not_auditExact_of_large rows healthy (parses after u64) (asked after) u64 neither.1 neither.2 exactly
  · rintro (small | empty)
    · exact auditExact_of_small rows healthy parses asked small
    · exact auditExact_of_nil rows healthy (parses after u64) (asked after) empty

/-- A query for rows after a number. -/
def rowsQuery (after : Nat) : Option String := some (String.ofList ("after=".toList ++ (Nat.repr after).toList))

theorem rowsQuery_pairs (after : Nat) :
    (rowsQuery after).map (·.toList.splitOn '&') = some ["after=".toList ++ (Nat.repr after).toList] := by
  have plain : '&' ∉ "after=".toList ++ (Nat.repr after).toList := by
    rw [List.mem_append, not_or]
    refine ⟨by decide, fun member => ?_⟩
    rw [Nat.toList_repr] at member
    exact absurd (Nat.isDigit_of_mem_toDigits (by decide) (by decide) member) (by decide)
  rw [rowsQuery, Option.map_some, String.toList_ofList, List.splitOn_eq_singleton plain]

theorem rowsQuery_asksAfter : ∀ n < 2 ^ 64, asksAfter (rowsQuery n) n := by
  intro n small
  obtain ⟨text, query, split⟩ := Option.map_eq_some_iff.mp (rowsQuery_pairs n)
  rw [asksAfter, queryValue, query, Option.bind_some, split]
  change ((some (String.ofList (Nat.repr n).toList)).mapM parseVersion).map _ = _
  rw [String.ofList_toList]
  change (some <$> parseVersion (Nat.repr n)).map _ = _
  rw [parseVersion, parseUnsigned_repr small]
  rfl

theorem rowsQuery_asksFor (n : Nat) : asksFor (rowsQuery n) none := by
  obtain ⟨text, query, split⟩ := Option.map_eq_some_iff.mp (rowsQuery_pairs n)
  rw [asksFor, queryValue, query, Option.bind_some, split]
  rfl

/-- The vault that was just created has one row, and the reader that has read it is shown
nothing more. -/
theorem audit_pages_exact_of_creation :
    let _ := checksum
    let world : World Unit := run ⟨Db.empty, ()⟩ [.createVault (.ok ()) (.filled 7) 1]
    AuditExact calm world firstOwner rowsQuery (rowsAsked none) 1 := by
  intro _ world
  have healthy : calm.disk = .ok () := rfl
  exact (audit_pages_exact_iff () [.createVault (.ok ()) (.filled 7) 1] firstOwner healthy rowsQuery_asksAfter
    rowsQuery_asksFor (by decide)).mpr (.inl (by decide))

/-- The reader that asks for the rows after 2 ^ 63 is shown the first. -/
theorem first_row_after_the_last :
    let _ := checksum
    let world : World Unit := run ⟨Db.empty, ()⟩ [.createVault (.ok ()) (.filled 7) 1]
    rowsQuery (2 ^ 63) = some "after=9223372036854775808" ∧
      (∃ rows head, runAlone calm (audit firstOwner (rowsQuery (2 ^ 63))) world =
        (.ok (.json 200 (.audit rows head)), world) ∧ rows.map (·.seq) = [1]) ∧
      ¬ AuditExact calm world firstOwner rowsQuery (rowsAsked none) (2 ^ 63) := by
  intro _ world
  have healthy : calm.disk = .ok () := rfl
  have parses := rowsQuery_asksAfter (2 ^ 63) (by decide)
  have asked := rowsQuery_asksFor (2 ^ 63)
  have logged : (world.db.log firstOwner.vault.pk).map (·.seq) = [1] := by decide +kernel
  have some_row : world.db.log firstOwner.vault.pk ≠ [] := by
    intro empty
    rw [empty] at logged
    cases logged
  have rows : Rows world.db firstOwner.vault.pk := rows_of_run () _ _
  refine ⟨by decide +kernel, ⟨_, _, audit_alone healthy parses asked, ?_⟩, ?_⟩
  · decide +kernel
  · exact not_auditExact_of_large rows healthy parses asked (by decide) (Nat.le_refl _) some_row

end GalataVault.Server

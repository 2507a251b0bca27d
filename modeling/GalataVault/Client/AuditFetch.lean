import GalataVault.Backend.AuditLog
import GalataVault.Proto.History

/-!
# Fetching an audit chain while it grows

A client fetches a vault's chain one page at a time and verifies all of it at the
end, against the head of the last page. Each page's rows and its head are two
queries, and other requests may run before either of them.

Rows appended between two pages are on the next one. Rows appended between the
last page's two queries are on none, and the head is already past them: the client
is then shown a head that its rows do not reach.
-/

namespace GalataVault.Client

open Proto Backend HashChain

/-- The rows of a full page. -/
def auditPage : Nat := 1000

/-- What other requests do around one page: before its rows are read, and between
its rows and its head. -/
structure Round (σ : Type) where
  before : List (Call σ)
  between : List (Call σ)

def Round.calls {σ : Type} (round : Round σ) : List (Call σ) := round.before ++ round.between

/-- The rows of every page and the head of the last, with the store as that page's
rows were read and as its head was. -/
structure Fetched (σ : Type) where
  rows : List AuditRow
  head : Option ChainHead
  listed : World σ
  headed : World σ

section

variable [Digests] {σ : Type}

/-- Rows after `after`, page by page, until one is not full. Nothing is returned when
the rounds end first. A page never stops early: a server stores rows of the one
format, with the actions and actors it knows. -/
def auditRows (pk : VaultPk) : Nat → World σ → List (Round σ) → Option (Fetched σ)
  | _, _, [] => none
  | after, world, round :: rounds =>
    let listed := run world round.before
    let headed := run listed round.between
    let rows := (auditAfter pk after auditPage listed.db).1
    let head := (auditAfter pk after auditPage headed.db).2
    if rows.length < auditPage then some { rows := rows, head := head, listed := listed, headed := headed }
    else
      (auditRows pk ((rows.getLast?.map (·.seq)).getD after) headed rounds).map fun more =>
        { more with rows := rows ++ more.rows }

/-- Verify what was fetched against the head this client verified last time. -/
def verifyAudit (known : Option ChainHead) (fetched : Fetched σ) : Except ChainError Verified :=
  verifyRows known fetched.rows fetched.head none

/-! ## What a fetch returns -/

/-- The rows fetched after `base` complete the log as the last page's rows were read,
and the head is the vault's as it was read, which may be further on. -/
structure Fetched.Complete (fetched : Fetched σ) (pk : VaultPk) (base : List AuditRow) (mark : Mark Hash32)
    (finish head : Mark Hash32) (late : List AuditRow) : Prop where
  rows : base ++ fetched.rows = fetched.listed.db.auditOf pk
  linked : Linked auditFormat mark fetched.rows finish
  stored : fetched.listed.db.auditHeadOf pk = some ⟨finish.seq, finish.hash⟩
  bounded : finish.seq ≤ u64Max
  reported : fetched.head = some ⟨head.seq, head.hash⟩
  later : fetched.headed.db.auditOf pk = fetched.listed.db.auditOf pk ++ late
  continued : Linked auditFormat finish late head

/-- What the reads rely on of a reached store. -/
structure Audited (db : Db) : Prop where
  log : LogInvariant db
  fits : db.rowCount ≤ maxRows

theorem Audited.initial : Audited Db.empty := ⟨.initial, Nat.zero_le _⟩

theorem Audited.run {world : World σ} (audited : Audited world.db) (calls : List (Call σ)) : Audited (run world calls).db :=
  run_induction (P := Audited) audited
    (fun world call audited => ⟨((step_effect world call).log audited.log).1, step_rowCount world call audited.fits⟩) calls

/-- The stored head of a vault is the end of its log. -/
theorem Audited.auditHeadOf {db : Db} (audited : Audited db) {pk : VaultPk} {v : VaultCols}
    (found : db.vaults.find? pk = some v) : db.auditHeadOf pk = some ⟨v.mark.seq, v.mark.hash⟩ := by
  simp only [Db.auditHeadOf, found, Option.bind_some, audited.log.positive pk v found, if_true]
  rfl

/-- What a run appends to the log of a vault that stays. -/
theorem Audited.grows {world : World σ} (audited : Audited world.db) {pk : VaultPk} {v : VaultCols}
    (found : world.db.vaults.find? pk = some v) (calls : List (Call σ))
    (stays : ∀ part rest, calls = part ++ rest → (Backend.run world part).db.hasVault pk = true) :
    ∃ w more, (Backend.run world calls).db.vaults.find? pk = some w ∧
      (Backend.run world calls).db.log pk = world.db.log pk ++ more ∧ Linked auditFormat v.mark more w.mark := by
  have present := stays calls [] (List.append_nil _).symm
  obtain ⟨w, foundAfter⟩ := Option.isSome_iff_exists.mp present
  obtain ⟨_, more, grown, linked⟩ := run_grows audited.log calls stays v w found foundAfter
  exact ⟨w, more, foundAfter, grown, linked⟩

omit [Digests] in
/-- The number of the last row of a page is where the page ends. -/
theorem lastSeq_of_linked {mark finish : Mark Hash32} {rows : List AuditRow} [Digests]
    (linked : Linked auditFormat mark rows finish) : (rows.getLast?.map (·.seq)).getD mark.seq = finish.seq := by
  cases rows using List.reverseRecOn with
  | nil =>
    cases linked
    rfl
  | append_singleton rows row =>
    obtain ⟨_, _, rfl⟩ := linked.last
    simp only [List.getLast?_concat, Option.map_some, Option.getD_some]
    rfl

/-- A fetch returns the rows appended after the mark it starts from, up to the end of
the log as the last page's rows were read. The induction is on the rounds: a full
page is a piece of the log, and the next fetch starts where it ends. -/
theorem auditRows_complete {pk : VaultPk} {rounds : List (Round σ)} {world : World σ} {base more : List AuditRow}
    {mark : Mark Hash32} {v : VaultCols} {fetched : Fetched σ} (audited : Audited world.db)
    (found : world.db.vaults.find? pk = some v) (logged : world.db.log pk = base ++ more)
    (before : Linked auditFormat start base mark) (since : Linked auditFormat mark more v.mark)
    (stays : ∀ part rest, rounds.flatMap Round.calls = part ++ rest → (run world part).db.hasVault pk = true)
    (returned : auditRows pk mark.seq world rounds = some fetched) :
    ∃ finish head late, fetched.Complete pk base mark finish head late := by
  induction rounds generalizing world base more mark v fetched with
  | nil => cases returned
  | cons round rounds inductionHypothesis =>
    have calls : (round :: rounds).flatMap Round.calls =
        round.before ++ (round.between ++ rounds.flatMap Round.calls) := by
      rw [List.flatMap_cons, Round.calls, List.append_assoc]
    rw [calls] at stays
    -- The log as this page's rows are read.
    obtain ⟨v₁, appended, found₁, grown₁, linked₁⟩ := audited.grows found round.before fun part rest split =>
      stays part (rest ++ (round.between ++ rounds.flatMap Round.calls)) (by rw [← List.append_assoc part, ← split])
    have audited₁ := audited.run round.before
    have stays₁ : ∀ part rest, round.between ++ rounds.flatMap Round.calls = part ++ rest →
        (run (run world round.before) part).db.hasVault pk = true := by
      intro part rest split
      rw [← run_append]
      exact stays _ rest (by rw [split, List.append_assoc])
    -- The log as its head is read.
    obtain ⟨v₂, late, found₂, grown₂, linked₂⟩ := audited₁.grows found₁ round.between fun part rest split =>
      stays₁ part (rest ++ rounds.flatMap Round.calls) (by rw [← List.append_assoc part, ← split])
    have audited₂ := audited₁.run round.between
    have log₁ : (run world round.before).db.log pk = base ++ (more ++ appended) := by
      rw [grown₁, logged, List.append_assoc]
    have fresh : Linked auditFormat mark (more ++ appended) v₁.mark := since.append linked₁
    have page : (auditAfter pk mark.seq auditPage (run world round.before).db).1 = (more ++ appended).take auditPage := by
      have small : mark.seq < 2 ^ 63 := by
        have reached : v₁.mark.seq = mark.seq + (more ++ appended).length := fresh.finish_seq
        have stored := audited₁.log.seq_le audited₁.fits found₁
        have room : maxRows < 2 ^ 63 := by decide
        omega
      simp only [auditAfter_of_holds small, audited₁.log.after_head log₁ before fresh]
    rw [auditRows, page] at returned
    split at returned
    · next short =>
      have all : (more ++ appended).take auditPage = more ++ appended := by
        apply List.take_of_length_le
        rw [List.length_take] at short
        omega
      rw [all] at returned
      obtain rfl := Option.some.inj returned
      refine ⟨v₁.mark, v₂.mark, late, ?_, fresh, audited₁.auditHeadOf found₁, audited₁.log.bounded audited₁.fits found₁,
        audited₂.auditHeadOf found₂, ?_, linked₂⟩
      · rw [audited₁.log.served, log₁]
      · rw [audited₂.log.served, audited₁.log.served, grown₂]
    · next full =>
      obtain ⟨rest, fetchedRest, rfl⟩ := Option.map_eq_some_iff.mp returned
      have cut : more ++ appended = (more ++ appended).take auditPage ++ (more ++ appended).drop auditPage :=
        (List.take_append_drop _ _).symm
      generalize (more ++ appended).take auditPage = read at *
      generalize (more ++ appended).drop auditPage = unread at *
      rw [cut] at fresh log₁
      obtain ⟨middle, first, second⟩ := fresh.split
      rw [lastSeq_of_linked first] at fetchedRest
      obtain ⟨finish, head, later, complete⟩ := inductionHypothesis audited₂ found₂
        (by rw [grown₂, log₁, ← List.append_assoc base, List.append_assoc]) (before.append first)
        (second.append linked₂)
        (fun part rest split => by
          rw [← run_append, ← run_append]
          exact stays _ rest (by rw [split, List.append_assoc, List.append_assoc]))
        fetchedRest
      refine ⟨finish, head, later, ?_, first.append complete.linked, complete.stored, complete.bounded,
        complete.reported, complete.later, complete.continued⟩
      rw [← complete.rows, List.append_assoc]

/-! ## What the client makes of it -/

/-- Rows linked from a known head, or from the genesis, verify up to the comparison
with the head the server reported. -/
theorem verifyRows_linked {known serverHead : Option ChainHead} {rows : List AuditRow} {finish : Mark Hash32}
    (linked : Linked auditFormat (markOf known) rows finish) (bounded : finish.seq ≤ u64Max) (some_row : 0 < finish.seq)
    (served : ∀ head, known = some head → checkServerHead head serverHead = .ok ()) :
    verifyRows known rows serverHead none =
      if some ⟨finish.seq, finish.hash⟩ = serverHead then
        .ok { head := serverHead, rows := rows.length, unverifiable := none }
      else .error .headMismatch := by
  have verified : verifyChain (verifyBase known rows) rows = .ok (some ⟨finish.seq, finish.hash⟩) := by
    cases known with
    | some head => exact verifyChain_continues linked bounded
    | none =>
      have base : verifyBase none rows = none := by
        cases linked with
        | nil => rfl
        | cons number =>
          have first : auditFormat.seq _ = 0 + 1 := number
          simp only [verifyBase, Option.none_or, List.head?_cons, Option.map_eq_none_iff, Option.filter_eq_none_iff]
          intro row found later
          obtain rfl := Option.some.inj found
          have second := of_decide_eq_true later
          exact absurd first (Nat.ne_of_gt second)
      rw [base, verifyChain_linked linked bounded, headAt, if_pos some_row]
  by_cases reached : some ⟨finish.seq, finish.hash⟩ = serverHead
  · rw [if_pos reached]
    cases known with
    | none => simp [verifyRows, verified, reached, bind, Except.bind, pure, Except.pure]
    | some head => simp [verifyRows, verified, served head rfl, reached, bind, Except.bind, pure, Except.pure]
  · rw [if_neg reached]
    cases known with
    | none => simp [verifyRows, verified, reached, bind, Except.bind, throw, throwThe, MonadExceptOf.throw]
    | some head => simp [verifyRows, verified, served head rfl, reached, bind, Except.bind, throw, throwThe,
        MonadExceptOf.throw]

/-- What an honest server owes a client: the rows fetched verify, the verified head is
the stored head of a moment of the fetch, and the rows continue the log the client
had verified, which is the kept head's, or nothing. -/
def Fetched.Genuine (fetched : Fetched σ) (pk : VaultPk) (known : Option ChainHead) (kept : List AuditRow) : Prop :=
  ∃ verified, verifyAudit known fetched = .ok verified ∧ verified.head = fetched.listed.db.auditHeadOf pk ∧
    verified.head.isSome = true ∧ kept ++ fetched.rows = fetched.listed.db.auditOf pk

/-- The log a client has verified that keeps this head. -/
def verifiedLog (db : Db) (pk : VaultPk) : Option ChainHead → List AuditRow
  | none => []
  | some _ => db.auditOf pk

/-- The log a client has verified is linked up to the head it kept, and the rest of the
vault's log follows it. -/
theorem verifiedLog_linked {db : Db} (audited : Audited db) {pk : VaultPk} {v : VaultCols} {known : Option ChainHead}
    (found : db.vaults.find? pk = some v) (kept : ∀ head, known = some head → db.auditHeadOf pk = some head) :
    Linked auditFormat start (verifiedLog db pk known) (markOf known) ∧
      ∃ more, db.log pk = verifiedLog db pk known ++ more ∧ Linked auditFormat (markOf known) more v.mark := by
  have linked := audited.log.chained.linked pk v found
  cases known with
  | none => exact ⟨.nil _, db.log pk, rfl, linked⟩
  | some head =>
    have stored := audited.auditHeadOf found
    rw [kept head rfl] at stored
    obtain rfl := Option.some.inj stored
    have served := audited.log.served pk
    refine ⟨?_, [], ?_, .nil _⟩
    · change Linked auditFormat start (db.auditOf pk) v.mark
      rw [served]
      exact linked
    · change db.log pk = db.auditOf pk ++ []
      rw [served, List.append_nil]

/-- A fetch in which no row is appended between the last page's two queries verifies,
from any head kept earlier; one in which a row is appended there never does.

A client verified a vault's chain in an earlier store, or never; other requests ran
since, and run around each of its page's queries; the vault stays. -/
theorem honest_server_verifies {σ : Type} (journal : σ) (earlier since : List (Call σ)) (rounds : List (Round σ))
    (pk : VaultPk) (known : Option ChainHead) (fetched : Fetched σ)
    (kept : ∀ head, known = some head → (run ⟨Db.empty, journal⟩ earlier).db.auditHeadOf pk = some head)
    (stays : ∀ part rest, since ++ rounds.flatMap Round.calls = part ++ rest →
      (run ⟨Db.empty, journal⟩ (earlier ++ part)).db.hasVault pk = true)
    (returned : auditRows pk ((known.map (·.seq)).getD 0) (run ⟨Db.empty, journal⟩ (earlier ++ since)) rounds =
      some fetched) :
    fetched.Genuine pk known (verifiedLog (run ⟨Db.empty, journal⟩ earlier).db pk known) ↔
      fetched.headed.db.auditOf pk = fetched.listed.db.auditOf pk := by
  have audited : Audited (run ⟨Db.empty, journal⟩ earlier).db := Audited.run .initial earlier
  have stays' : ∀ part rest, since ++ rounds.flatMap Round.calls = part ++ rest →
      (run (run ⟨Db.empty, journal⟩ earlier) part).db.hasVault pk = true := by
    intro part rest split
    rw [← run_append]
    exact stays part rest split
  rw [run_append] at returned
  clear stays
  generalize run ⟨Db.empty, journal⟩ earlier = world at *
  obtain ⟨v, found⟩ := Option.isSome_iff_exists.mp (stays' [] _ rfl)
  obtain ⟨before, old, logged, linked⟩ := verifiedLog_linked audited found kept
  obtain ⟨v', more, found', grown, linked'⟩ := audited.grows found since fun part rest split =>
    stays' part (rest ++ rounds.flatMap Round.calls) (by rw [← List.append_assoc part, ← split])
  have asked : (known.map (·.seq)).getD 0 = (markOf known).seq := by cases known <;> rfl
  rw [asked] at returned
  obtain ⟨finish, head, late, complete⟩ := auditRows_complete (audited.run since) found'
    (by rw [grown, logged, List.append_assoc]) before (linked.append linked')
    (fun part rest split => by
      rw [← run_append]
      exact stays' _ rest (by rw [split, List.append_assoc]))
    returned
  have served : ∀ kept, known = some kept → checkServerHead kept fetched.head = .ok () := by
    rintro kept rfl
    rw [complete.reported]
    exact checkServerHead_continues (complete.linked.append complete.continued)
  have positive : 0 < finish.seq := by
    have stored := complete.stored
    obtain ⟨w, _, above⟩ := Option.bind_eq_some_iff.mp stored
    split at above
    · next some_row =>
      have same : w.auditSeq = finish.seq := congrArg ChainHead.seq (Option.some.inj above)
      omega
    · cases above
  have verdict := verifyRows_linked complete.linked complete.bounded positive served
  have counted := complete.continued.finish_seq
  constructor
  · rintro ⟨verified, accepted, _, _, _⟩
    rw [verifyAudit, verdict, complete.reported] at accepted
    split at accepted
    · next reached =>
      have same := congrArg ChainHead.seq (Option.some.inj reached)
      have none_late : late = [] := List.length_eq_zero_iff.mp (by simp only at same; omega)
      rw [complete.later, none_late, List.append_nil]
    · cases accepted
  · intro unmoved
    have none_late : late = [] := by
      have later := complete.later
      rw [unmoved] at later
      exact List.self_eq_append_right.mp later
    have reached : head = finish := by
      have continued := complete.continued
      rw [none_late] at continued
      cases continued
      rfl
    refine ⟨_, by rw [verifyAudit, verdict, complete.reported, reached, if_pos rfl], complete.stored.symm, rfl,
      complete.rows⟩

end

/-- A client that kept the head of a creation fetches the row of a put that ran before
its page was read. -/
theorem put_before_page_verifies :
    let created := @run checksum Unit ⟨Db.empty, ()⟩ [createThenPut.1]
    ∃ head fetched, created.db.auditHeadOf 1 = some head ∧
      @auditRows checksum Unit 1 head.seq created [⟨[createThenPut.2], []⟩] = some fetched ∧
      @Fetched.Genuine checksum Unit fetched 1 (some head) (created.db.auditOf 1) := by
  intro created
  have stored : (created.db.auditHeadOf 1).map (·.seq) = some 1 := by decide +kernel
  obtain ⟨head, kept, first⟩ := Option.map_eq_some_iff.mp stored
  have some_page : (@auditRows checksum Unit 1 1 created [⟨[createThenPut.2], []⟩]).isSome = true := by decide +kernel
  obtain ⟨fetched, returned⟩ := Option.isSome_iff_exists.mp some_page
  have unmoved : (@auditRows checksum Unit 1 1 created [⟨[createThenPut.2], []⟩]).map
      (fun fetched => decide (fetched.headed.db.auditOf 1 = fetched.listed.db.auditOf 1)) = some true := by
    decide +kernel
  rw [returned, Option.map_some, Option.some.injEq, decide_eq_true_eq] at unmoved
  have returned' : @auditRows checksum Unit 1 head.seq created [⟨[createThenPut.2], []⟩] = some fetched := by
    rw [first]
    exact returned
  refine ⟨head, fetched, kept, returned', ?_⟩
  refine (@honest_server_verifies checksum Unit () [createThenPut.1] [] [⟨[createThenPut.2], []⟩] 1 (some head) fetched
    (fun _ same => Option.some.inj same ▸ kept) ?_ returned').mpr unmoved
  intro part rest split
  have before : created.db.hasVault 1 = true := by decide +kernel
  have after : (@run checksum Unit ⟨Db.empty, ()⟩ [createThenPut.1, createThenPut.2]).db.hasVault 1 = true := by
    decide +kernel
  match part, split with
  | [], _ => exact before
  | [_], split =>
    obtain rfl := (List.cons.inj split).1
    exact after
  | _ :: _ :: _, split => simp [Round.calls] at split

/-- A put that runs between a page's rows and its head makes the client's verification
fail, though nobody changed a row. -/
theorem put_between_queries_fails :
    let created := @run checksum Unit ⟨Db.empty, ()⟩ [createThenPut.1]
    (@auditRows checksum Unit 1 0 created [⟨[], [createThenPut.2]⟩]).map (fun fetched =>
      (fetched.headed.db.hasVault 1, @verifyAudit checksum Unit none fetched)) = some (true, .error .headMismatch) := by
  decide +kernel

end GalataVault.Client

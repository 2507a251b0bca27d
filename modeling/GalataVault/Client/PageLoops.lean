import GalataVault.Client.AuditFetch
import GalataVault.Client.Threads
import GalataVault.Library.Paging
import GalataVault.Proto.Lines

/-!
# Loops over pages

A listing goes on from the cursor of a page for as long as it is given one, and an audit
fetch goes on from the last row of a full page. Neither loop requires that a position is
past the one before, and the rows are verified when all of them are there: how long a call
goes on is the server's to decide, whose availability is nothing the client protects. A
server that serves no position twice comes to an end, because there are only so many.
-/

namespace GalataVault.Client

open Proto Interaction

/-! ## Finitely many positions -/

instance : Finite NameHmac := by
  let bytes := fun (name : NameHmac) (i : Fin 32) => (name.raw.bytes.getD i 0).toBitVec.toFin
  apply Finite.of_injective bytes
  intro left right same
  have all : left.raw.bytes = right.raw.bytes := by
    apply List.ext_getElem (left.raw.size.trans right.raw.size.symm)
    intro i inside inside'
    have small : i < 32 := left.raw.size ▸ inside
    have here := congrFun same ⟨i, small⟩
    simp only [bytes, List.getD_eq_getElem _ _ inside, List.getD_eq_getElem _ _ inside'] at here
    exact UInt8.toBitVec_inj.mp (BitVec.toFin_inj.mp here)
  cases left
  cases right
  exact congrArg NameHmac.mk (FixedBytes.bytes_injective all)

/-! ## One client, any answers -/

/-- What a handle's threads share, and how many requests were sent. -/
structure Sending where
  shared : Shared
  requests : Nat

/-- Each request is answered by the next of a sequence of servers. -/
def inTurn (server : Nat → Answers) {β : Type} : HandleOp β → Sending → β × Sending
  | .ask query, sending =>
    ((server sending.requests).answer query, { sending with requests := sending.requests + 1 })
  | op, sending =>
    ((sending.shared.perform (server sending.requests) op).1,
      { sending with shared := (sending.shared.perform (server sending.requests) op).2 })

section Listing

variable [Crypto] [Digests] [Ed25519] [Unsealing] {server : Nat → Answers} {v : View} {kind : RecordCode}

/-! ## Listings -/

/-- The answers to a listing: each is to a request that goes on from the answer before. -/
def listAnswer (server : Nat → Answers) (kind : RecordCode) : Nat → Except ApiError SecretList
  | 0 => (server 0).list kind none
  | k + 1 => (server (k + 1)).list kind ((listAnswer server kind k).toOption.bind (·.nextCursor))

/-- The cursor an answer gives. -/
def cursorServed (server : Nat → Answers) (kind : RecordCode) (k : Nat) : Option NameHmac :=
  (listAnswer server kind k).toOption.bind (·.nextCursor)

omit [Crypto] [Digests] [Ed25519] [Unsealing] in
theorem listAnswer_asked (server : Nat → Answers) (kind : RecordCode) (k : Nat) :
    ∃ after, listAnswer server kind k = (server k).list kind after := by
  cases k with
  | zero => exact ⟨_, rfl⟩
  | succ k => exact ⟨_, rfl⟩

/-- The indexes on the page an answer holds. -/
def indexesServed (server : Nat → Answers) (kind : RecordCode) (k : Nat) : List NameHmac :=
  (listAnswer server kind k).toOption.elim [] fun page => page.items.map (·.nameHmac)

omit [Crypto] [Digests] [Ed25519] [Unsealing] in
theorem ne_unfinished_of_sealing {α : Type} {result : Except SealError α} {e : Error}
    (failed : result.mapError Error.sealing = .error e) : e ≠ .unfinished := by
  cases result with
  | ok value => cases failed
  | error failure =>
    obtain rfl : Error.sealing failure = e := Except.error.inj failed
    cases failure with
    | key k => cases k <;> exact fun same => by cases same
    | _ => exact fun same => by cases same

omit [Crypto] [Digests] [Ed25519] [Unsealing] in
theorem ne_unfinished_of_checkVersion {shared : Shared} {index : NameHmac} {got : Nat} {e : Error}
    (failed : (shared.checkVersion kind index got).1 = .error e) : e ≠ .unfinished := by
  unfold Shared.checkVersion at failed
  split at failed
  · cases failed
  · split at failed
    · obtain rfl := Except.error.inj failed
      exact fun same => by cases same
    · cases failed

/-- What a check of items comes to: nothing is sent, and what passes is right. -/
def Passes {α : Type} (server : Nat → Answers) (action : Action α) (sending : Sending) (right : α → Prop) : Prop :=
  ∃ result after, action.alone (inTurn server) sending = (result, after) ∧ after.requests = sending.requests ∧
    result ≠ .error .unfinished ∧ ∀ value, result = .ok value → right value

section Checks

variable {α β : Type} {sending : Sending}

omit [Crypto] [Digests] [Ed25519] [Unsealing] in
theorem Passes.done {result : Except Error α} (known : ∀ e, result = .error e → e ≠ .unfinished) :
    Passes server (.done result) sending fun value => result = .ok value :=
  ⟨result, sending, rfl, rfl, fun same => known _ same rfl, fun _ same => same⟩

omit [Crypto] [Digests] [Ed25519] [Unsealing] in
theorem Passes.pure {value : α} {right : α → Prop} (fine : right value) : Passes server (pure value) sending right := by
  refine ⟨.ok value, sending, rfl, rfl, ?_, ?_⟩
  · intro impossible
    cases impossible
  · intro other same
    obtain rfl := Except.ok.inj same
    exact fine

omit [Crypto] [Digests] [Ed25519] [Unsealing] in
theorem Passes.bind {first : Action α} {next : α → Action β} {right : α → Prop} {right' : β → Prop}
    (head : Passes server first sending right)
    (tail : ∀ value after, right value → Passes server (next value) after right') :
    Passes server (first >>= next) sending right' := by
  obtain ⟨result, middle, ran, silent, known, passed⟩ := head
  rcases Program.alone_bind (inTurn server) first next sending with
    ⟨e, failed, ranFirst, whole⟩ | ⟨value, through, ranFirst, whole⟩
  · obtain ⟨rfl, rfl⟩ := Prod.mk.inj (ran.symm.trans ranFirst)
    refine ⟨.error e, middle, whole, silent, ?_, ?_⟩
    · exact fun same => known (congrArg Except.error (Except.error.inj same))
    · intro value impossible
      cases impossible
  · obtain ⟨rfl, rfl⟩ := Prod.mk.inj (ran.symm.trans ranFirst)
    obtain ⟨result, last, ranNext, silentNext, knownNext, passedNext⟩ := tail value middle (passed value rfl)
    exact ⟨result, last, whole.trans ranNext, silentNext.trans silent, knownNext, passedNext⟩

end Checks

omit [Unsealing] in
theorem checkListed_passes (server : Nat → Answers) (v : View) (kind : RecordCode) (it : SecretListItem) (sending : Sending) :
    Passes server (Handle.checkListed v kind it) sending fun item => item.hmac = it.nameHmac := by
  apply Passes.bind (.done fun e failed => ne_unfinished_of_sealing failed)
  intro _ after _
  apply Passes.bind (.done fun e failed => ne_unfinished_of_sealing failed)
  intro name after _
  have asked : Passes server (Program.ask (.checkVersion name kind it.nameHmac it.version)) after
      fun checked : Except Error Unit => ∀ e, checked = .error e → e ≠ .unfinished := by
    let later : Sending := { after with shared := (after.shared.checkVersion kind it.nameHmac it.version).2 }
    refine ⟨.ok (after.shared.checkVersion kind it.nameHmac it.version).1, later, rfl, rfl, ?_, ?_⟩
    · intro impossible
      cases impossible
    · intro checked same e failed
      obtain rfl := Except.ok.inj same
      exact ne_unfinished_of_checkVersion failed
  apply Passes.bind asked
  intro checked after known
  apply Passes.bind (.done known)
  intro _ after _
  exact .pure rfl

omit [Unsealing] in
theorem checkPage_passes (server : Nat → Answers) (v : View) (kind : RecordCode) (items : List SecretListItem) (sending : Sending) :
    Passes server (Handle.checkPage v kind items) sending fun list =>
      list.map (·.hmac) = items.map (·.nameHmac) := by
  induction items generalizing sending with
  | nil => exact .pure rfl
  | cons it rest inductionHypothesis =>
    apply Passes.bind (checkListed_passes server v kind it sending)
    intro item after named
    apply Passes.bind (inductionHypothesis after)
    intro list after others
    apply Passes.pure
    rw [List.map_cons, List.map_cons, named, others]

omit [Crypto] [Digests] [Ed25519] [Unsealing] in
theorem ne_unfinished_of_api {e : ApiError} : Error.api e ≠ .unfinished := by
  intro same
  cases e with
  | refused code => cases code <;> cases same
  | _ => cases same

omit [Crypto] [Digests] [Ed25519] [Unsealing] in
/-- A request is the next one, and has its answer. -/
theorem ask_alone {β : Type} (server : Nat → Answers) (query : Query β) (onError : ApiError → Error) (sending : Sending) :
    (Action.ask query onError).alone (inTurn server) sending =
      (((server sending.requests).answer query).mapError onError,
        { sending with requests := sending.requests + 1 }) := by
  unfold Action.ask
  simp only [Program.ask, bind, Program.bind, Program.alone, inTurn]
  cases (server sending.requests).answer query with
  | ok value => rfl
  | error e => rfl

omit [Crypto] [Digests] [Ed25519] [Unsealing] in
theorem cursorServed_ok {k : Nat} {page : SecretList} (served : listAnswer server kind k = .ok page) :
    cursorServed server kind k = page.nextCursor := by
  rw [cursorServed, served]
  rfl

omit [Crypto] [Digests] [Ed25519] [Unsealing] in
theorem indexesServed_ok {k : Nat} {page : SecretList} (served : listAnswer server kind k = .ok page) :
    indexesServed server kind k = page.items.map (·.nameHmac) := by
  rw [indexesServed, served]
  rfl

/-- What a listing that is at request `start` comes to: each request but the last was given
a cursor, the last is at most request `m`, and what is returned is of the indexes on the
pages. -/
structure Listed (server : Nat → Answers) (kind : RecordCode) (m start : Nat) (result : Except Error (List Item))
    (last : Sending) : Prop where
  sent : start < last.requests
  upTo : last.requests ≤ m + 1
  given : ∀ j, start ≤ j → j + 1 < last.requests → (cursorServed server kind j).isSome = true
  known : result ≠ .error .unfinished
  indexes : ∀ list, result = .ok list →
    list.map (·.hmac) = (List.range' start (last.requests - start)).flatMap (indexesServed server kind)

omit [Crypto] [Digests] [Ed25519] [Unsealing] in
/-- The call ends with an error of its request. -/
theorem Listed.fails {m start : Nat} {last : Sending} {e : Error} (once : last.requests = start + 1) (upTo : start ≤ m)
    (known : e ≠ .unfinished) : Listed server kind m start (.error e) last where
  sent := by omega
  upTo := by omega
  given j atLeast below := by omega
  known same := known (Except.error.inj same)
  indexes list impossible := by cases impossible

omit [Crypto] [Digests] [Ed25519] [Unsealing] in
/-- The call ends with the items of its request. -/
theorem Listed.returns {m start : Nat} {last : Sending} {items : List Item} (once : last.requests = start + 1)
    (upTo : start ≤ m) (right : items.map (·.hmac) = indexesServed server kind start) :
    Listed server kind m start (.ok items) last where
  sent := by omega
  upTo := by omega
  given j atLeast below := by omega
  known impossible := by cases impossible
  indexes list same := by
    obtain rfl := Except.ok.inj same
    have one : last.requests - start = 1 := by omega
    rw [right, one]
    simp

omit [Crypto] [Digests] [Ed25519] [Unsealing] in
/-- The call goes on from its request, and ends with an error there. -/
theorem Listed.before {m start : Nat} {last : Sending} {e : Error}
    (gave : (cursorServed server kind start).isSome = true)
    (rest : Listed server kind m (start + 1) (.error e) last) : Listed server kind m start (.error e) last where
  sent := Nat.lt_of_succ_lt rest.sent
  upTo := rest.upTo
  given j atLeast below := by
    rcases Nat.eq_or_lt_of_le atLeast with rfl | later
    · exact gave
    · exact rest.given j later below
  known := rest.known
  indexes list impossible := by cases impossible

omit [Crypto] [Digests] [Ed25519] [Unsealing] in
/-- The call goes on from its request, and returns the items of it and of the rest. -/
theorem Listed.append {m start : Nat} {last : Sending} {items more : List Item}
    (gave : (cursorServed server kind start).isSome = true)
    (right : items.map (·.hmac) = indexesServed server kind start)
    (rest : Listed server kind m (start + 1) (.ok more) last) : Listed server kind m start (.ok (items ++ more)) last where
  sent := Nat.lt_of_succ_lt rest.sent
  upTo := rest.upTo
  given j atLeast below := by
    rcases Nat.eq_or_lt_of_le atLeast with rfl | later
    · exact gave
    · exact rest.given j later below
  known impossible := by cases impossible
  indexes list same := by
    obtain rfl := Except.ok.inj same
    have sent := rest.sent
    have count : last.requests - start = (last.requests - (start + 1)) + 1 := by omega
    rw [List.map_append, right, rest.indexes more rfl, count, List.range'_succ, List.flatMap_cons]

omit [Unsealing] in
/-- A listing ends at the latest with the first answer that gives no cursor. The induction
is on the requests that may still be sent. -/
theorem listPages_alone (v : View) (kind : RecordCode) {m : Nat} (ends : cursorServed server kind m = none)
    (pages : Nat) {after : Option NameHmac} {sending : Sending}
    (goesOn : (server sending.requests).list kind after = listAnswer server kind sending.requests)
    (upTo : sending.requests ≤ m) (room : m < sending.requests + pages) :
    ∃ result last, (Handle.listPages v kind pages after).alone (inTurn server) sending = (result, last) ∧
      Listed server kind m sending.requests result last := by
  induction pages generalizing after sending with
  | zero => omega
  | succ pages inductionHypothesis =>
    rw [Handle.listPages]
    have asked := ask_alone server (.list kind after) .api sending
    change _ = (((server sending.requests).list kind after).mapError _, _) at asked
    rw [goesOn] at asked
    rcases Program.alone_bind (inTurn server) (Action.ask (.list kind after) .api) _ sending with
      ⟨e, failed, ranAsk, whole⟩ | ⟨page, sent, ranAsk, whole⟩
    · obtain ⟨failure, rfl⟩ := Prod.mk.inj (asked.symm.trans ranAsk)
      refine ⟨_, _, whole, .fails rfl upTo ?_⟩
      cases answer : listAnswer server kind sending.requests with
      | ok page =>
        rw [answer] at failure
        cases failure
      | error e' =>
        rw [answer] at failure
        rw [← Except.error.inj failure]
        exact ne_unfinished_of_api
    · obtain ⟨answer, rfl⟩ := Prod.mk.inj (asked.symm.trans ranAsk)
      have served : listAnswer server kind sending.requests = .ok page := except_mapError_ok answer
      let next : Sending := { sending with requests := sending.requests + 1 }
      obtain ⟨result, checked, ranCheck, silent, known, right⟩ :=
        checkPage_passes server v kind page.items next
      rcases Program.alone_bind (inTurn server) (Handle.checkPage v kind page.items) _ next with
        ⟨e, failed, ranHere, ended⟩ | ⟨items, passed, ranHere, ended⟩
      · obtain ⟨rfl, rfl⟩ := Prod.mk.inj (ranCheck.symm.trans ranHere)
        exact ⟨_, _, whole.trans ended, .fails silent upTo fun same => known (congrArg _ same)⟩
      · obtain ⟨rfl, rfl⟩ := Prod.mk.inj (ranCheck.symm.trans ranHere)
        have indexes : items.map (·.hmac) = indexesServed server kind sending.requests :=
          (right items rfl).trans (indexesServed_ok served).symm
        have cursor := cursorServed_ok served
        cases given : page.nextCursor with
        | none =>
          refine ⟨.ok items, checked, whole.trans (ended.trans ?_), .returns silent upTo indexes⟩
          simp only [given]
          rfl
        | some following =>
          rw [given] at cursor
          have gave : (cursorServed server kind sending.requests).isSome = true := by rw [cursor]; rfl
          have notLast : sending.requests ≠ m := by
            intro same
            rw [same, ends] at cursor
            cases cursor
          have nextAnswer : (server checked.requests).list kind (some following) =
              listAnswer server kind checked.requests := by
            rw [silent, listAnswer, served]
            change _ = (server (sending.requests + 1)).list kind page.nextCursor
            rw [given]
          have atNext : checked.requests = sending.requests + 1 := silent
          obtain ⟨result, last, ranRest, listed⟩ := inductionHypothesis nextAnswer (by omega) (by omega)
          rw [atNext] at listed
          rcases Program.alone_bind (inTurn server) (Handle.listPages v kind pages (some following))
              (fun more => pure (items ++ more)) checked with ⟨e, failed, ranThere, stop⟩ | ⟨more, through, ranThere, stop⟩
          · obtain ⟨rfl, rfl⟩ := Prod.mk.inj (ranRest.symm.trans ranThere)
            refine ⟨.error e, last, whole.trans (ended.trans ?_), listed.before gave⟩
            simp only [given]
            exact stop
          · obtain ⟨rfl, rfl⟩ := Prod.mk.inj (ranRest.symm.trans ranThere)
            refine ⟨.ok (items ++ more), last, whole.trans (ended.trans ?_), listed.append gave indexes⟩
            simp only [given]
            exact stop

omit [Unsealing] in
/-- Where no cursor is served twice, a listing of enough pages ends, having sent at most one
request more than it was served distinct cursors, and returns each index as often as it was
on a page. -/
theorem listKind_ends (fresh : Paging.Fresh (cursorServed server kind)) (v : View) (shared : Shared) :
    ∃ bound, ∀ pages, bound < pages → ∃ result last,
      (Handle.listKind pages v kind).alone (inTurn server) ⟨shared, 0⟩ = (result, last) ∧
      result ≠ .error .unfinished ∧
      last.requests ≤ ((List.range last.requests).filterMap (cursorServed server kind)).dedup.length + 1 ∧
      ∀ items, result = .ok items →
        (items.map (·.hmac)).Perm ((List.range last.requests).flatMap (indexesServed server kind)) := by
  obtain ⟨m, ends, _⟩ := fresh.ends (Set.toFinite _)
  refine ⟨m, fun pages enough => ?_⟩
  let start : Sending := ⟨shared, 0⟩
  have first : (server start.requests).list kind none = listAnswer server kind start.requests := rfl
  have room : m < start.requests + pages := by simpa [start] using enough
  obtain ⟨result, last, ran, listed⟩ := listPages_alone v kind ends pages first (Nat.zero_le _) room
  have bounded := fresh.bounds fun j below => listed.given j (Nat.zero_le j) below
  rcases Program.alone_bind (inTurn server) (Handle.listPages v kind pages none)
      (fun items => pure (items.insertionSort fun a b : Item => a.name ≤ b.name)) start with
    ⟨e, failed, ranHere, whole⟩ | ⟨items, passed, ranHere, whole⟩
  · obtain ⟨rfl, rfl⟩ := Prod.mk.inj (ran.symm.trans ranHere)
    exact ⟨_, _, whole, fun same => listed.known (congrArg _ (Except.error.inj same)), bounded,
      fun items impossible => by cases impossible⟩
  · obtain ⟨rfl, rfl⟩ := Prod.mk.inj (ran.symm.trans ranHere)
    refine ⟨_, _, whole, ?_, bounded, fun sorted same => ?_⟩
    · intro impossible
      cases impossible
    obtain rfl := Except.ok.inj same
    have indexes := listed.indexes items rfl
    rw [Nat.sub_zero, ← List.range_eq_range'] at indexes
    exact ((List.perm_insertionSort _ items).map _).trans (.of_eq indexes)

end Listing

/-! ## Audit fetches -/

/-- One answer to a fetch. -/
structure AuditPage where
  rows : List AuditRow
  head : Option ChainHead
  stop : Option RowStop

/-- One request of a fetch. -/
inductive AuditOp : Type → Type 1 where
  | audit (after : Nat) : AuditOp (Except ApiError AuditPage)

abbrev AuditRows : Type := List AuditRow × Option ChainHead × Option RowStop

namespace Handle

def auditPage (after : Nat) : Program AuditOp Error AuditPage := do
  match ← Program.ask (.audit after) with
  | .ok page => pure page
  | .error e => if e.code = some .forbidden then Program.fail .forbidden else Program.fail (.api e)

/-- Rows after a number, stopping once `upTo` is reached, if it is given. -/
def auditRows (upTo : Option Nat) : Nat → Nat → Program AuditOp Error AuditRows
  | 0, _ => Program.fail .unfinished
  | pages + 1, after => do
    let page ← auditPage after
    let after := (page.rows.getLast?.map (·.seq)).getD after
    if page.stop.isSome then pure (page.rows, page.head, page.stop)
    else if page.rows.length < Client.auditPage ∨ upTo.any fun u => u ≤ after then pure (page.rows, page.head, none)
    else do
      let (rows, head, stop) ← auditRows upTo pages after
      pure (page.rows ++ rows, head, stop)

end Handle

/-- Each request is answered by the next of a sequence of servers. -/
def auditInTurn (server : Nat → Nat → Except ApiError AuditPage) {β : Type} : AuditOp β → Nat → β × Nat
  | .audit after, requests => (server requests after, requests + 1)

section Fetching

variable {server : Nat → Nat → Except ApiError AuditPage} {upTo : Option Nat} {after : Nat}

/-- The number after which each request asks. -/
def auditAsked (server : Nat → Nat → Except ApiError AuditPage) (after : Nat) : Nat → Nat
  | 0 => after
  | k + 1 => ((server k (auditAsked server after k)).toOption.bind fun page =>
      page.rows.getLast?.map (·.seq)).getD (auditAsked server after k)

/-- Whether a fetch goes on after a page. -/
def AuditPage.goesOn (page : AuditPage) (upTo : Option Nat) (after : Nat) : Prop :=
  page.stop.isSome = false ∧ ¬ (page.rows.length < auditPage ∨
    upTo.any (fun u => u ≤ (page.rows.getLast?.map (·.seq)).getD after) = true)

instance (page : AuditPage) (upTo : Option Nat) (after : Nat) : Decidable (page.goesOn upTo after) :=
  inferInstanceAs (Decidable (_ ∧ _))

/-- The number of the last row of a page after which a fetch goes on. -/
def seqServed (server : Nat → Nat → Except ApiError AuditPage) (upTo : Option Nat) (after k : Nat) : Option Nat :=
  (server k (auditAsked server after k)).toOption.bind fun page =>
    if page.goesOn upTo (auditAsked server after k) then page.rows.getLast?.map (·.seq) else none

/-- What a fetch that is at request `start` comes to: each request but the last was served a
number, and the last is at most request `m`. -/
structure Fetches (server : Nat → Nat → Except ApiError AuditPage) (upTo : Option Nat) (after m start : Nat)
    (result : Except Error AuditRows) (last : Nat) : Prop where
  sent : start < last
  ended : last ≤ m + 1
  given : ∀ j, start ≤ j → j + 1 < last → (seqServed server upTo after j).isSome = true
  known : result ≠ .error .unfinished

theorem Fetches.once {m start : Nat} {result : Except Error AuditRows} (ended : start ≤ m)
    (known : result ≠ .error .unfinished) : Fetches server upTo after m start result (start + 1) where
  sent := Nat.lt_succ_self start
  ended := Nat.succ_le_succ ended
  given j atLeast below := by omega
  known := known

theorem Fetches.goesOn {m start last : Nat} {result result' : Except Error AuditRows}
    (gave : (seqServed server upTo after start).isSome = true)
    (rest : Fetches server upTo after m (start + 1) result last) (known : result' ≠ .error .unfinished) :
    Fetches server upTo after m start result' last where
  sent := Nat.lt_of_succ_lt rest.sent
  ended := rest.ended
  given j atLeast below := by
    rcases Nat.eq_or_lt_of_le atLeast with rfl | later
    · exact gave
    · exact rest.given j later below
  known := known

/-- The error of an audit request. -/
def auditError (e : ApiError) : Error := if e.code = some .forbidden then .forbidden else .api e

theorem ne_unfinished_of_audit {e : ApiError} : auditError e ≠ .unfinished := by
  unfold auditError
  split
  · exact fun same => by cases same
  · exact ne_unfinished_of_api

/-- A request is the next one, and has its answer. -/
theorem auditPage_alone (server : Nat → Nat → Except ApiError AuditPage) (after start : Nat) :
    (Handle.auditPage after).alone (auditInTurn server) start = ((server start after).mapError auditError, start + 1) := by
  have runs : (Handle.auditPage after).alone (auditInTurn server) start =
      ((match server start after with
        | .ok page => pure page
        | .error e => if e.code = some .forbidden then Program.fail .forbidden else Program.fail (.api e) :
        Program AuditOp Error AuditPage)).alone (auditInTurn server) (start + 1) := rfl
  rw [runs]
  cases server start after with
  | ok page => rfl
  | error e =>
    change _ = (Except.error (auditError e), _)
    unfold auditError
    dsimp only
    split <;> rfl

/-- A fetch ends at the latest with the first answer that does not make it go on. The
induction is on the requests that may still be sent. -/
theorem auditRows_alone {m : Nat} (ends : seqServed server upTo after m = none) (pages : Nat) {start : Nat}
    (upToLast : start ≤ m) (room : m < start + pages) :
    ∃ result last, (Handle.auditRows upTo pages (auditAsked server after start)).alone (auditInTurn server) start =
      (result, last) ∧ Fetches server upTo after m start result last := by
  induction pages generalizing start with
  | zero => omega
  | succ pages inductionHypothesis =>
    rw [Handle.auditRows]
    have asked := auditPage_alone server (auditAsked server after start) start
    rcases Program.alone_bind (auditInTurn server) (Handle.auditPage (auditAsked server after start)) _ start with
      ⟨e, failed, ranAsk, whole⟩ | ⟨page, sent, ranAsk, whole⟩
    · obtain ⟨failure, rfl⟩ := Prod.mk.inj (asked.symm.trans ranAsk)
      refine ⟨_, _, whole, .once upToLast ?_⟩
      cases answer : server start (auditAsked server after start) with
      | ok page =>
        rw [answer] at failure
        cases failure
      | error e' =>
        rw [answer] at failure
        rw [← Except.error.inj failure]
        exact fun same => ne_unfinished_of_audit (Except.error.inj same)
    · obtain ⟨answer, rfl⟩ := Prod.mk.inj (asked.symm.trans ranAsk)
      have served : server start (auditAsked server after start) = .ok page := except_mapError_ok answer
      have seq : seqServed server upTo after start =
          if page.goesOn upTo (auditAsked server after start) then page.rows.getLast?.map (·.seq) else none := by
        rw [seqServed, served]
        rfl
      have next : auditAsked server after (start + 1) =
          (page.rows.getLast?.map (·.seq)).getD (auditAsked server after start) := by
        rw [auditAsked, served]
        rfl
      by_cases more : page.goesOn upTo (auditAsked server after start)
      · rw [if_pos more] at seq
        have gave : (seqServed server upTo after start).isSome = true := by
          have full : auditPage ≤ page.rows.length := Nat.le_of_not_lt fun short => more.2 (.inl short)
          have filled : page.rows ≠ [] := by
            intro empty
            rw [empty, auditPage, List.length_nil] at full
            omega
          rw [seq, List.getLast?_eq_some_getLast filled]
          rfl
        have notLast : start ≠ m := by
          rintro rfl
          rw [ends] at gave
          cases gave
        obtain ⟨result, last, ranRest, fetches⟩ := inductionHypothesis (Nat.lt_of_le_of_ne upToLast notLast) (by omega)
        rw [next] at ranRest
        rcases Program.alone_bind (auditInTurn server)
            (Handle.auditRows upTo pages ((page.rows.getLast?.map (·.seq)).getD (auditAsked server after start)))
            (fun rest => pure (page.rows ++ rest.1, rest.2.1, rest.2.2)) (start + 1) with
          ⟨e, failed, ranThere, stop⟩ | ⟨rest, through, ranThere, stop⟩
        · obtain ⟨rfl, rfl⟩ := Prod.mk.inj (ranRest.symm.trans ranThere)
          refine ⟨.error e, last, whole.trans ?_, fetches.goesOn gave fun same => fetches.known (congrArg _ (Except.error.inj same))⟩
          dsimp only
          rw [more.1, if_neg Bool.false_ne_true, if_neg more.2]
          exact stop
        · obtain ⟨rfl, rfl⟩ := Prod.mk.inj (ranRest.symm.trans ranThere)
          refine ⟨.ok (page.rows ++ rest.1, rest.2.1, rest.2.2), last, whole.trans ?_, fetches.goesOn gave ?_⟩
          · dsimp only
            rw [more.1, if_neg Bool.false_ne_true, if_neg more.2]
            exact stop
          · intro impossible
            cases impossible
      · -- The page stops early, is not full, or reaches the number.
        cases stopped : page.stop.isSome with
        | true =>
          refine ⟨.ok (page.rows, page.head, page.stop), start + 1, whole.trans ?_, .once upToLast ?_⟩
          · dsimp only
            rw [stopped, if_pos rfl]
            rfl
          · intro impossible
            cases impossible
        | false =>
          have last : page.rows.length < auditPage ∨
              upTo.any (fun u => u ≤ (page.rows.getLast?.map (·.seq)).getD (auditAsked server after start)) = true := by
            by_contra goesOn
            exact more ⟨stopped, goesOn⟩
          refine ⟨.ok (page.rows, page.head, none), start + 1, whole.trans ?_, .once upToLast ?_⟩
          · dsimp only
            rw [stopped, if_neg Bool.false_ne_true, if_pos last]
            rfl
          · intro impossible
            cases impossible

/-- Where no number is served twice, a fetch of enough pages ends, having sent at most one
request more than it was served distinct numbers to go on from. -/
theorem auditRows_ends (typed : ∀ k asked page, server k asked = .ok page → ∀ row ∈ page.rows, row.seq ≤ u64Max)
    (fresh : Paging.Fresh (seqServed server upTo after)) :
    ∃ bound, ∀ pages, bound < pages → ∃ result last,
      (Handle.auditRows upTo pages after).alone (auditInTurn server) 0 = (result, last) ∧
      result ≠ .error .unfinished ∧
      last ≤ ((List.range last).filterMap (seqServed server upTo after)).dedup.length + 1 := by
  have finite : {seq | ∃ n, seqServed server upTo after n = some seq}.Finite := by
    apply (Set.finite_le_nat u64Max).subset
    rintro seq ⟨n, served⟩
    obtain ⟨page, answer, gave⟩ := Option.bind_eq_some_iff.mp served
    split at gave
    · obtain ⟨row, last, rfl⟩ := Option.map_eq_some_iff.mp gave
      have answered : server n (auditAsked server after n) = .ok page := by
        cases reply : server n (auditAsked server after n) with
        | error e =>
          rw [reply] at answer
          cases answer
        | ok other =>
          rw [reply] at answer
          exact congrArg Except.ok (Option.some.inj answer)
      exact typed n _ page answered row (List.mem_of_getLast? last)
    · cases gave
  obtain ⟨m, ends, _⟩ := fresh.ends finite
  refine ⟨m, fun pages enough => ?_⟩
  have room : m < 0 + pages := by omega
  obtain ⟨result, last, ran, fetches⟩ := auditRows_alone ends pages (Nat.zero_le m) room
  exact ⟨result, last, ran, fetches.known, fresh.bounds fun j below => fetches.given j (Nat.zero_le j) below⟩

end Fetching

/-! ## Any server -/

/-- The first version of the secret as a listing shows it. -/
def keptItem : Except SealError SecretListItem :=
  let _ := Backend.checksum
  (keptSecret 1 1).map fun written =>
    { nameHmac := written.nameHmac, nameCt := ⟨written.nameCt⟩, version := written.version,
      writtenAt := written.writtenAt, size := 1, tombstone := written.valueCt.isNone, generation := written.generation,
      valueCtHash := Digests.sha256 (written.valueCt.getD []), sig := written.sig }

/-- Listings that hold the secret, each with the cursor it gives. -/
def listing (cursor : Nat → Option NameHmac) (request : Nat) : Answers :=
  { keptAnswers 1 with
    list := fun _ _ => (keptItem.map fun item => ⟨[item], cursor request⟩).mapError fun _ => .transport }

/-- A page of an empty vault's log. -/
def emptyPage : AuditPage := ⟨[], none, none⟩

/-- A server that gives one cursor for ever. -/
def sameCursor (cursor : NameHmac) : Answers := { keptAnswers 1 with list := fun _ _ => .ok ⟨[], some cursor⟩ }

theorem listPages_sameCursor [Crypto] [Digests] [Ed25519] (cursor : NameHmac) (v : View) (kind : RecordCode)
    (pages : Nat) (after : Option NameHmac) (sending : Sending) :
    (Handle.listPages v kind pages after).alone (inTurn fun _ => sameCursor cursor) sending =
      (.error .unfinished, { sending with requests := sending.requests + pages }) := by
  induction pages generalizing after sending with
  | zero => rfl
  | succ pages inductionHypothesis =>
    let next : Sending := { sending with requests := sending.requests + 1 }
    have rest := inductionHypothesis (some cursor) next
    have goesOn : (Handle.listPages v kind (pages + 1) after).alone (inTurn fun _ => sameCursor cursor) sending =
        (Handle.listPages v kind pages (some cursor) >>= fun more => pure ([] ++ more)).alone
          (inTurn fun _ => sameCursor cursor) next := rfl
    rcases Program.alone_bind (inTurn fun _ => sameCursor cursor) (Handle.listPages v kind pages (some cursor))
        (fun more => pure ([] ++ more)) next with ⟨e, last, ran, whole⟩ | ⟨more, last, ran, _⟩
    · obtain ⟨same, rfl⟩ := Prod.mk.inj (rest.symm.trans ran)
      obtain rfl := Except.error.inj same
      have count : sending.requests + 1 + pages = sending.requests + (pages + 1) := by omega
      rw [goesOn, whole]
      simp only [next, count]
    · cases (Prod.mk.inj (rest.symm.trans ran)).1

/-- A full page of one row. -/
def fullPage : AuditPage :=
  let _ := Backend.checksum
  ⟨List.replicate auditPage (firstRow 1), none, none⟩

theorem auditRows_fullPage (pages after requests : Nat) :
    (Handle.auditRows none pages after).alone (auditInTurn fun _ _ => .ok fullPage) requests =
      (.error .unfinished, requests + pages) := by
  have full : ∀ number, ¬ (fullPage.rows.length < auditPage ∨ (none : Option Nat).any (fun u => u ≤ number) = true) := by
    rintro number (short | reached)
    · have size : fullPage.rows.length = auditPage := List.length_replicate
      omega
    · cases reached
  induction pages generalizing after requests with
  | zero => rfl
  | succ pages inductionHypothesis =>
    rw [Handle.auditRows]
    have asked := auditPage_alone (fun _ _ => .ok fullPage) after requests
    rcases Program.alone_bind (auditInTurn fun _ _ => .ok fullPage) (Handle.auditPage after) _ requests with
      ⟨e, failed, ranAsk, whole⟩ | ⟨page, sent, ranAsk, whole⟩
    · cases (Prod.mk.inj (asked.symm.trans ranAsk)).1
    · obtain ⟨same, rfl⟩ := Prod.mk.inj (asked.symm.trans ranAsk)
      obtain rfl : fullPage = page := Except.ok.inj same
      have rest := inductionHypothesis ((fullPage.rows.getLast?.map (·.seq)).getD after) (requests + 1)
      rcases Program.alone_bind (auditInTurn fun _ _ => .ok fullPage)
          (Handle.auditRows none pages ((fullPage.rows.getLast?.map (·.seq)).getD after))
          (fun more => pure (fullPage.rows ++ more.1, more.2.1, more.2.2)) (requests + 1) with
        ⟨e, last, ran, stop⟩ | ⟨more, last, ran, _⟩
      · obtain ⟨ended, rfl⟩ := Prod.mk.inj (rest.symm.trans ran)
        obtain rfl := Except.error.inj ended
        have count : requests + 1 + pages = requests + (pages + 1) := by omega
        rw [whole, ← count]
        dsimp only
        rw [if_neg (full _)]
        exact stop
      · cases (Prod.mk.inj (rest.symm.trans ran)).1

end GalataVault.Client

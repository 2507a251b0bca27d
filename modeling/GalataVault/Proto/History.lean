import GalataVault.Proto.Verification

/-!
# What a kept head commits to

The bytes a row hash covers determine the row: every field has a fixed width or
announces its own presence. So a chain of rows is determined by where it starts
and where it ends, as long as no two of its rows collide under the hash.

A client keeps the head of each verification and starts the next from it. The
rows of all its verifications are one chain, and a server that has rewritten the
rows behind the kept head cannot serve a continuation of its new chain from it.
Two things remain out of reach of the next call: rows the client has verified and
does not fetch again, and a log that from the kept head on is in a newer format.
-/

namespace GalataVault.Proto

open HashChain

/-! ## The encoding of a row -/

theorem beBytes_length (width n : Nat) : (beBytes width n).length = width := by
  induction width generalizing n with
  | zero => rfl
  | succ width inductionHypothesis => simp [beBytes, inductionHypothesis]

/-- The bytes of a number are its digits, as far as they go. -/
theorem beBytes_mod {width n m : Nat} (same : beBytes width n = beBytes width m) :
    n % 256 ^ width = m % 256 ^ width := by
  induction width generalizing n m with
  | zero => simp [Nat.mod_one]
  | succ width inductionHypothesis =>
    obtain ⟨high, low⟩ := List.append_inj same (by rw [beBytes_length, beBytes_length])
    have lowest : n % 256 = m % 256 := by
      have := congrArg UInt8.toNat (List.cons.inj low).1
      simpa using this
    have highest := inductionHypothesis high
    rw [Nat.pow_succ, Nat.mul_comm, Nat.mod_mul, Nat.mod_mul, lowest, highest]

theorem beBytes_injective {width n m : Nat} (small : n < 256 ^ width) (small' : m < 256 ^ width)
    (same : beBytes width n = beBytes width m) : n = m := by
  have digits := beBytes_mod same
  rwa [Nat.mod_eq_of_lt small, Nat.mod_eq_of_lt small'] at digits

theorem beBytesI64_injective {i j : Int} (low : -2 ^ 63 ≤ i) (high : i < 2 ^ 63) (low' : -2 ^ 63 ≤ j)
    (high' : j < 2 ^ 63) (same : beBytesI64 i = beBytesI64 j) : i = j := by
  have width : (256 : Nat) ^ 8 = 2 ^ 64 := by decide
  have digits : (i % 2 ^ 64).toNat = (j % 2 ^ 64).toNat := by
    apply beBytes_injective _ _ same
    · rw [width]
      omega
    · rw [width]
      omega
  omega

/-- An optional field of a fixed length announces itself: it can be read off what it
starts. -/
theorem opt_append_inj {n : Nat} {left right : Option (List UInt8)} {rest more : List UInt8}
    (size : ∀ bytes ∈ left, bytes.length = n) (size' : ∀ bytes ∈ right, bytes.length = n)
    (same : opt left ++ rest = opt right ++ more) : left = right ∧ rest = more := by
  cases left with
  | none =>
    cases right with
    | none => exact ⟨rfl, (List.cons.inj same).2⟩
    | some bytes => exact absurd (List.cons.inj same).1 (by decide)
  | some bytes =>
    cases right with
    | none => exact absurd (List.cons.inj same).1 (by decide)
    | some bytes' =>
      have tail : bytes ++ rest = bytes' ++ more := (List.cons.inj same).2
      obtain ⟨rfl, rest⟩ := List.append_inj tail ((size bytes rfl).trans (size' bytes' rfl).symm)
      exact ⟨rfl, rest⟩

theorem AuditAction.code_injective {a b : AuditAction} (same : a.code = b.code) : a = b := by
  cases a <;> cases b <;> first | rfl | exact absurd same (by decide)

theorem AuditResult.code_injective {a b : AuditResult} (same : UInt8.ofNat a.code = UInt8.ofNat b.code) : a = b := by
  cases a <;> cases b <;> first | rfl | exact absurd same (by decide)

theorem FixedBytes.bytes_injective {n : Nat} {a b : FixedBytes n} (same : a.bytes = b.bytes) : a = b := by
  cases a
  cases b
  cases same
  rfl

theorem TokenId.bytes_injective {a b : TokenId} (same : a.raw.bytes = b.raw.bytes) : a = b :=
  congrArg TokenId.mk (FixedBytes.bytes_injective same)

theorem NameHmac.bytes_injective {a b : NameHmac} (same : a.raw.bytes = b.raw.bytes) : a = b :=
  congrArg NameHmac.mk (FixedBytes.bytes_injective same)

theorem Hash32.bytes_injective {a b : Hash32} (same : a.raw.bytes = b.raw.bytes) : a = b :=
  congrArg Hash32.mk (FixedBytes.bytes_injective same)

/-- The token id in an actor's field. -/
def Actor.field : Actor → Option (List UInt8)
  | .owner => none
  | .token id => some id.raw.bytes

theorem Actor.field_injective {a b : Actor} (same : a.field = b.field) : a = b := by
  cases a with
  | owner =>
    cases b with
    | owner => rfl
    | token id => cases same
  | token id =>
    cases b with
    | owner => cases same
    | token id' => exact congrArg Actor.token (TokenId.bytes_injective (Option.some.inj same))

namespace AuditRow

/-- The numbers of a row fit the types of their fields. -/
structure Sized (row : AuditRow) : Prop where
  seq : row.seq ≤ u64Max
  version : row.version ≤ u64Max
  ts : -2 ^ 63 ≤ row.ts ∧ row.ts < 2 ^ 63

/-- The same row, up to the hash it records. -/
def SameContent (left right : AuditRow) : Prop := { left with hash := right.hash } = right

theorem hashFields_field (row : AuditRow) :
    row.hashFields = beBytes 8 row.seq ++ (beBytesI64 row.ts ++ (opt row.actor.field ++
      (beBytes 2 row.action.code ++ (opt (row.nameHmac.map (·.raw.bytes)) ++
        ([UInt8.ofNat row.result.code] ++ (opt (row.subject.map (·.raw.bytes)) ++
          (beBytes 8 row.version ++ (opt (row.ctHash.map (·.raw.bytes)) ++ row.prev.raw.bytes)))))))) := by
  unfold hashFields
  cases row.actor <;> simp only [Actor.field, List.append_assoc]

/-- The hashed bytes of a row in the known format determine every field they cover. -/
theorem hashInput_injective {left right : AuditRow} (sized : left.Sized) (sized' : right.Sized)
    (known : left.v = rowFormat) (known' : right.v = rowFormat) (same : left.hashInput = right.hashInput) :
    left.SameContent right := by
  have fields : left.hashFields = right.hashFields := by
    rw [hashInput, hashInput, if_pos known, if_pos known'] at same
    exact (List.cons.inj (Option.some.inj same)).2
  have width {w n m : Nat} : (beBytes w n).length = (beBytes w m).length := by
    rw [beBytes_length, beBytes_length]
  have bytes {n : Nat} {α : Type} {x : Option α} (raw : α → FixedBytes n) :
      ∀ b ∈ x.map fun a => (raw a).bytes, b.length = n := by
    rintro b member
    obtain ⟨a, _, rfl⟩ := Option.map_eq_some_iff.mp member
    exact (raw a).size
  have actorBytes (actor : Actor) : ∀ b ∈ actor.field, b.length = 16 := by
    cases actor with
    | owner => simp [Actor.field]
    | token id =>
      rintro b member
      obtain rfl := Option.some.inj member
      exact id.raw.size
  have top : u64Max < 256 ^ 8 := by decide
  rw [hashFields_field, hashFields_field] at fields
  obtain ⟨seqs, fields⟩ := List.append_inj fields width
  obtain ⟨times, fields⟩ := List.append_inj fields width
  obtain ⟨actors, fields⟩ := opt_append_inj (actorBytes _) (actorBytes _) fields
  obtain ⟨actions, fields⟩ := List.append_inj fields width
  obtain ⟨names, fields⟩ := opt_append_inj (bytes NameHmac.raw) (bytes NameHmac.raw) fields
  obtain ⟨results, fields⟩ := List.append_inj fields rfl
  obtain ⟨subjects, fields⟩ := opt_append_inj (bytes TokenId.raw) (bytes TokenId.raw) fields
  obtain ⟨versions, fields⟩ := List.append_inj fields width
  obtain ⟨hashes, prevs⟩ := opt_append_inj (bytes Hash32.raw) (bytes Hash32.raw) fields
  obtain ⟨v, seq, ts, actor, action, nameHmac, subject, result, version, ctHash, prev, hash⟩ := left
  obtain ⟨v', seq', ts', actor', action', nameHmac', subject', result', version', ctHash', prev', hash'⟩ := right
  have sameSeq : seq = seq' :=
    beBytes_injective (Nat.lt_of_le_of_lt sized.seq top) (Nat.lt_of_le_of_lt sized'.seq top) seqs
  have sameVersion : version = version' :=
    beBytes_injective (Nat.lt_of_le_of_lt sized.version top) (Nat.lt_of_le_of_lt sized'.version top) versions
  have sameTs : ts = ts' := beBytesI64_injective sized.ts.1 sized.ts.2 sized'.ts.1 sized'.ts.2 times
  have coded (a : AuditAction) : a.code < 256 ^ 2 := by cases a <;> decide
  have sameAction : action = action' :=
    AuditAction.code_injective (beBytes_injective (coded action) (coded action') actions)
  have sameResult : result = result' := AuditResult.code_injective (List.cons.inj results).1
  have sameActor : actor = actor' := Actor.field_injective actors
  have sameName : nameHmac = nameHmac' := Option.map_injective (fun a b => NameHmac.bytes_injective) names
  have sameSubject : subject = subject' := Option.map_injective (fun a b => TokenId.bytes_injective) subjects
  have sameHash : ctHash = ctHash' := Option.map_injective (fun a b => Hash32.bytes_injective) hashes
  have samePrev : prev = prev' := Hash32.bytes_injective prevs
  have sameFormat : v = v' := known.trans known'.symm
  rw [SameContent, sameFormat, sameSeq, sameTs, sameActor, sameAction, sameName, sameSubject, sameResult, sameVersion,
    sameHash, samePrev]

end AuditRow

/-! ## What the verifier accepts -/

section Verifier

variable [Digests]

/-- The mark a head stands for. -/
def markOf : Option ChainHead → Mark Hash32
  | none => start
  | some head => ⟨head.seq, head.hash⟩

/-- The loop accepts linked logs only, and reports where they end. The induction is on
the rows; every check that passed is one part of the link. -/
theorem verifyLoop_ok {mark : Mark Hash32} {rows : List AuditRow} {head result : Option ChainHead}
    (at_mark : markOf head = mark) (accepted : verifyLoop (checkedSucc mark.seq) mark.hash head rows = .ok result) :
    Linked auditFormat mark rows (markOf result) ∧ (rows = [] → result = head) ∧
      (rows ≠ [] → ∃ last, result = some last ∧ last.seq ≤ u64Max) := by
  induction rows generalizing mark head with
  | nil =>
    obtain rfl := Except.ok.inj accepted
    rw [at_mark]
    exact ⟨.nil _, fun _ => rfl, fun some_row => absurd rfl some_row⟩
  | cons row rows inductionHypothesis =>
    rw [verifyLoop] at accepted
    split at accepted
    · cases accepted
    · next numbered =>
      split at accepted
      · cases accepted
      · next linked =>
        split at accepted
        · cases accepted
        · next expected known =>
          split at accepted
          · cases accepted
          · next intact =>
            have room : mark.seq < u64Max ∧ row.seq = mark.seq + 1 := by
              have succ := not_not.mp numbered
              unfold checkedSucc at succ
              split at succ
              · next below => exact ⟨below, Option.some.inj succ⟩
              · cases succ
            obtain ⟨tail, none_left, some_left⟩ :=
              inductionHypothesis (show markOf (some row.head) = ⟨row.seq, row.hash⟩ from rfl) accepted
            have hashed : row.expectedHash = some row.hash := by
              rw [known, not_not.mp intact]
            refine ⟨.cons room.2 (not_not.mp linked) hashed tail, fun empty => absurd empty (List.cons_ne_nil _ _), ?_⟩
            intro _
            by_cases more : rows = []
            · refine ⟨row.head, none_left more, ?_⟩
              change row.seq ≤ u64Max
              omega
            · exact some_left more

/-- What the verifier accepts is linked from where it starts to the head it reports. -/
theorem verifyChain_ok {known result : Option ChainHead} {rows : List AuditRow}
    (accepted : verifyChain known rows = .ok result) :
    Linked auditFormat (markOf known) rows (markOf result) ∧ (rows = [] → result = known) ∧
      (rows ≠ [] → ∃ last, result = some last ∧ last.seq ≤ u64Max) := by
  cases known with
  | none => exact verifyLoop_ok (show markOf none = start from rfl) accepted
  | some head => exact verifyLoop_ok (show markOf (some head) = ⟨head.seq, head.hash⟩ from rfl) accepted

/-- Linked rows that end within the counter are accepted, from any head. -/
theorem verifyChain_accepts {known : Option ChainHead} {rows : List AuditRow} {finish : Mark Hash32}
    (linked : Linked auditFormat (markOf known) rows finish) (bounded : finish.seq ≤ u64Max) (some_row : rows ≠ []) :
    verifyChain known rows = .ok (some ⟨finish.seq, finish.hash⟩) := by
  have accepted : verifyLoop (checkedSucc (markOf known).seq) (markOf known).hash known rows =
      .ok (some ⟨finish.seq, finish.hash⟩) := by
    rw [verifyLoop_linked linked bounded, if_neg some_row]
  cases known with
  | none => exact accepted
  | some head => exact accepted

/-- Verifying on from a verified head verifies the rows of both. -/
theorem verifyChain_append {known middle result : Option ChainHead} {rows more : List AuditRow}
    (first : verifyChain known rows = .ok middle) (second : verifyChain middle more = .ok result) :
    verifyChain known (rows ++ more) = .ok result := by
  obtain ⟨linked, none_first, _⟩ := verifyChain_ok first
  obtain ⟨linked', none_second, some_second⟩ := verifyChain_ok second
  by_cases none_more : more = []
  · rw [none_more, List.append_nil, none_second none_more]
    exact first
  · obtain ⟨last, rfl, bounded⟩ := some_second none_more
    exact verifyChain_accepts (linked.append linked') bounded (by simp [none_more])

/-! ## Logs without collisions -/

/-- No two different hashed inputs of the two logs have one hash. -/
def Separates (rows others : List AuditRow) : Prop :=
  ∀ left ∈ rows, ∀ right ∈ others, left.expectedHash = right.expectedHash → left.hashInput = right.hashInput

instance (rows others : List AuditRow) : Decidable (Separates rows others) :=
  inferInstanceAs (Decidable (∀ left ∈ rows, ∀ right ∈ others,
    left.expectedHash = right.expectedHash → left.hashInput = right.hashInput))

/-- Two rows that carry the hash of their contents, which does not collide, are one
row. -/
theorem row_of_hash {left right : AuditRow} (sized : left.Sized) (sized' : right.Sized)
    (intact : auditFormat.intact left) (intact' : auditFormat.intact right) (sameHash : left.hash = right.hash)
    (separates : left.expectedHash = right.expectedHash → left.hashInput = right.hashInput) : left = right := by
  change left.expectedHash = some left.hash at intact
  change right.expectedHash = some right.hash at intact'
  have known {row : AuditRow} (intact : row.expectedHash = some row.hash) : row.v = rowFormat := by
    by_contra unknown
    simp [AuditRow.expectedHash, AuditRow.hashInput, unknown] at intact
  have sameInput := separates (by rw [intact, intact', sameHash])
  have content := AuditRow.hashInput_injective sized sized' (known intact) (known intact') sameInput
  rw [AuditRow.SameContent, ← sameHash] at content
  exact content

/-- Two logs that are accepted from one base and end in one head are one log. -/
theorem verifyChain_unique {base head : Option ChainHead} {rows others : List AuditRow}
    (sized : ∀ row ∈ rows, row.Sized) (sized' : ∀ row ∈ others, row.Sized) (separates : Separates rows others)
    (accepted : verifyChain base rows = .ok head) (accepted' : verifyChain base others = .ok head) : rows = others := by
  refine Linked.unique ?_ (verifyChain_ok accepted).1 (verifyChain_ok accepted').1
  intro left member right member' intact intact' sameHash
  exact row_of_hash (sized left member) (sized' right member') intact intact' sameHash (separates left member right member')

/-! ## Verifications in turn -/

/-- What a server served to one verification. -/
structure Served where
  rows : List AuditRow
  head : Option ChainHead
  stop : Option RowStop

/-- Verifications in turn, each from the head of the one before. -/
def verifyInTurn (known : Option ChainHead) : List Served → Except ChainError (Option ChainHead)
  | [] => .ok known
  | served :: rest => do
    let verified ← verifyRows known served.rows served.head served.stop
    verifyInTurn verified.head rest

omit [Digests] in
theorem except_mapError_ok {ε δ α : Type} {given : Except ε α} {f : ε → δ} {value : α}
    (mapped : given.mapError f = .ok value) : given = .ok value := by
  cases given with
  | error e => cases mapped
  | ok other =>
    obtain rfl := Except.ok.inj mapped
    rfl

omit [Digests] in
theorem except_bind_ok {ε α β : Type} {first : Except ε α} {rest : α → Except ε β} {result : β}
    (ran : (first >>= rest) = .ok result) : ∃ value, first = .ok value ∧ rest value = .ok result := by
  cases first with
  | error failure => cases ran
  | ok value => exact ⟨value, rfl, ran⟩

/-- A verification that succeeds accepted its rows as a chain, and reached the
server's head unless reading the rows stopped. -/
theorem verifyRows_ok {known serverHead : Option ChainHead} {rows : List AuditRow} {stop : Option RowStop}
    {verified : Verified} (ran : verifyRows known rows serverHead stop = .ok verified) :
    verifyChain (verifyBase known rows) rows = .ok verified.head ∧ (stop = none → verified.head = serverHead) := by
  unfold verifyRows at ran
  have chained : ∃ head, verifyChain (verifyBase known rows) rows = .ok head ∧ verified.head = head ∧
      (stop = none → head = serverHead) := by
    -- With a kept head its check comes first; the rest is the same.
    cases known
    case' some => obtain ⟨_, _, ran⟩ := except_bind_ok ran
    all_goals
      obtain ⟨head, chained, ran⟩ := except_bind_ok ran
      refine ⟨head, chained, ?_⟩
      split at ran
      · split at ran
        · cases ran
        · next same =>
          cases ran
          exact ⟨rfl, fun _ => not_not.mp same⟩
      · cases ran
      · cases ran
        exact ⟨rfl, fun complete => by cases complete⟩
  obtain ⟨head, accepted, rfl, ends⟩ := chained
  exact ⟨accepted, ends⟩

/-- The rows of verifications in turn are one chain, accepted from the first base. The
induction is on the verifications; as long as nothing has been read, there is no
base to start from. -/
theorem verifyInTurn_chain {known head : Option ChainHead} {turns : List Served}
    (ran : verifyInTurn known turns = .ok head) :
    verifyChain (verifyBase known (turns.flatMap Served.rows)) (turns.flatMap Served.rows) = .ok head := by
  induction turns generalizing known with
  | nil =>
    obtain rfl := Except.ok.inj ran
    cases known <;> rfl
  | cons served turns inductionHypothesis =>
    obtain ⟨verified, verifies, rest⟩ := except_bind_ok ran
    obtain ⟨accepted, _⟩ := verifyRows_ok verifies
    have later := inductionHypothesis rest
    rw [List.flatMap_cons]
    cases read : served.rows with
    | nil =>
      rw [read] at accepted
      have unmoved := (verifyChain_ok accepted).2.1 rfl
      have same : verifyBase known [] = known := by cases known <;> rfl
      rw [unmoved, same] at later
      exact later
    | cons row rows =>
      rw [read] at accepted
      have moved := (verifyChain_ok accepted).2.2 (List.cons_ne_nil _ _)
      obtain ⟨last, reached, _⟩ := moved
      have base : verifyBase known (row :: rows ++ turns.flatMap Served.rows) = verifyBase known (row :: rows) := rfl
      rw [base]
      rw [reached] at accepted later
      exact verifyChain_append accepted later

/-- A kept head holds the rows up to it: if a log that the verifier accepts from the
first base serves, from the kept head on, a call that succeeds, and the call read
a row or was not stopped, then the log's rows up to there are the verified ones. -/
theorem kept_head_holds {base serverHead : Option ChainHead} {kept : ChainHead} {rows before after : List AuditRow}
    {stop : Option RowStop} {verified : Verified} (sized : ∀ row ∈ rows, row.Sized) (sized' : ∀ row ∈ before, row.Sized)
    (separates : Separates rows before) (accepted : verifyChain base rows = .ok (some kept))
    (rewritten : verifyChain base (before ++ after) = .ok serverHead)
    (next : verifyRows (some kept) after serverHead stop = .ok verified) (heard : stop = none ∨ after ≠ []) :
    before = rows := by
  obtain ⟨continued, ends⟩ := verifyRows_ok next
  obtain ⟨linked, none_read, some_read⟩ := verifyChain_ok continued
  obtain ⟨whole, none_whole, _⟩ := verifyChain_ok rewritten
  obtain ⟨middle, first, second⟩ := whole.split
  have kept_middle : markOf (some kept) = middle := by
    by_cases nothing : after = []
    · subst nothing
      have complete : stop = none := heard.resolve_right fun some_row => some_row rfl
      have reached : some kept = serverHead := (none_read rfl).symm.trans (ends complete)
      rw [reached]
      cases second
      rfl
    · exact Linked.start_unique nothing linked second
  rw [← kept_middle] at first
  symm
  refine Linked.unique ?_ (verifyChain_ok accepted).1 first
  intro left member right member' intact intact' sameHash
  exact row_of_hash (sized left member) (sized' right member') intact intact' sameHash (separates left member right member')

/-- What a verified chain commits to.

The hashed bytes determine a row of the known format up to its hash. Two lists of
rows without a collision between them that the verifier accepts from one base and
that end in one head are equal. The rows of verifications that succeed in turn,
each from the head of the one before, are one chain from the first base. And a
call from a kept head fails if the server has changed a row at or before it, its
log is still a chain from the first base to the head it reports, and the call is
not cut off before its first row by a newer format. -/
theorem audit_chain_binding :
    (∀ left right : AuditRow, left.Sized → right.Sized → left.v = rowFormat → right.v = rowFormat →
      left.hashInput = right.hashInput → left.SameContent right) ∧
    (∀ (base head : Option ChainHead) (rows others : List AuditRow), (∀ row ∈ rows, row.Sized) →
      (∀ row ∈ others, row.Sized) → Separates rows others → verifyChain base rows = .ok head →
      verifyChain base others = .ok head → rows = others) ∧
    (∀ (known head : Option ChainHead) (turns : List Served), verifyInTurn known turns = .ok head →
      verifyChain (verifyBase known (turns.flatMap Served.rows)) (turns.flatMap Served.rows) = .ok head) ∧
    (∀ (known serverHead : Option ChainHead) (kept : ChainHead) (turns : List Served) (before after : List AuditRow)
      (stop : Option RowStop), (∀ row ∈ turns.flatMap Served.rows, row.Sized) → (∀ row ∈ before, row.Sized) →
      Separates (turns.flatMap Served.rows) before → verifyInTurn known turns = .ok (some kept) →
      before ≠ turns.flatMap Served.rows →
      verifyChain (verifyBase known (turns.flatMap Served.rows)) (before ++ after) = .ok serverHead →
      (stop = none ∨ after ≠ []) → ∀ verified, verifyRows (some kept) after serverHead stop ≠ .ok verified) := by
  refine ⟨?_, ?_, ?_, ?_⟩
  · intro left right sized sized' known known' same
    exact AuditRow.hashInput_injective sized sized' known known' same
  · intro base head rows others sized sized' separates accepted accepted'
    exact verifyChain_unique sized sized' separates accepted accepted'
  · intro known head turns ran
    exact verifyInTurn_chain ran
  · intro known serverHead kept turns before after stop sized sized' separates ran changed rewritten heard verified next
    exact changed (kept_head_holds sized sized' separates (verifyInTurn_chain ran) rewritten next heard)

end Verifier

/-! ## A log of one row, and what it was rewritten to -/

/-- A digest that can be run by hand: it is filled with one byte of its input. -/
@[reducible] def byteDigest (index : Nat) : Digests where
  sha256 input := ⟨.fill 32 (input.getD index 0)⟩
  blake3DeriveKey _ input := ⟨.fill 32 (input.getD index 0)⟩

/-- The first row of a log, written at `ts`. -/
def firstRow [Digests] (ts : Int) : AuditRow := .fromEvent 1 ts genesis (.simple .owner .vaultCreate none .ok)

/-- A client that kept the head of the log rejects the rewritten log's head. -/
theorem rewritten_head_rejected :
    let _ := byteDigest 16
    verifyRows (some (firstRow 7).head) [] (some (firstRow 8).head) none ≠
      .ok { head := some (firstRow 8).head, rows := 0, unverifiable := none } :=
  let _ := byteDigest 16
  audit_chain_binding.2.2.2 none (some (firstRow 8).head) (firstRow 7).head
    [⟨[firstRow 7], some (firstRow 7).head, none⟩] [firstRow 8] [] none
    (by rintro row member; obtain rfl := List.mem_singleton.mp member; exact ⟨by decide, by decide, by decide⟩)
    (by rintro row member; obtain rfl := List.mem_singleton.mp member; exact ⟨by decide, by decide, by decide⟩)
    (by decide +kernel) (by decide +kernel) (by decide +kernel) (by decide +kernel) (.inl rfl) _

/-- Two changes at a kept head that the next call does not see. The log is rewritten
into another chain, and its next row is in a newer format: the call reads no row and
reports that it stopped. Or the row is changed and keeps its old hash: the log is no
chain any more, but the client does not fetch the row again. -/
theorem changes_behind_a_kept_head :
    let _ := byteDigest 16
    let kept := firstRow 7
    Separates [kept] [firstRow 8] ∧
      verifyInTurn none [⟨[kept], some kept.head, none⟩] = .ok (some kept.head) ∧
      firstRow 8 ≠ kept ∧ verifyChain none [firstRow 8] = .ok (some (firstRow 8).head) ∧
      verifyRows (some kept.head) [] (some ⟨2, genesis⟩) (some (.newerFormat (some 2) 2)) =
        .ok { head := some kept.head, rows := 0, unverifiable := some (.newerFormat (some 2) 2) } ∧
      { kept with ts := 8 } ≠ kept ∧
      verifyRows (some kept.head) [] (some { kept with ts := 8 }.head) none =
        .ok { head := some kept.head, rows := 0, unverifiable := none } := by
  decide +kernel

end GalataVault.Proto

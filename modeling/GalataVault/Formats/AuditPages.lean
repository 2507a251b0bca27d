import GalataVault.Proto.Verification

/-!
# Pages of audit rows

A page of rows is read from JSON up to the first row this build cannot verify: one in a
newer format, or one that names an action or an actor it does not know. The first kind
ends a verification, and the rows before it stand; the second refuses it. A head the
server reports is compared with the kept one first, whatever the rows are.

What JSON makes of a single row is a parameter; its formats and names are read here.
-/

namespace GalataVault.Formats

open Proto

/-! ## The code -/

/-- Every row format this build verifies. -/
def rowFormats : List Nat := [rowFormat]

/-- `serde_json::Value`. Of a number that is no unsigned integer nothing is read. -/
inductive Value where
  | null
  | bool (b : Bool)
  | unsigned (n : Nat)
  | number
  | string (s : String)
  | array (values : List Value)
  | object (fields : List (String × Value))

namespace Value

def get (key : String) : Value → Option Value
  | object fields => (fields.find? fun field => field.1 = key).map (·.2)
  | _ => none

def asU64 : Value → Option Nat
  | unsigned n => some n
  | _ => none

def asStr : Value → Option String
  | string s => some s
  | _ => none

end Value

def AuditAction.all : List AuditAction :=
  [.vaultCreate, .vaultRotate, .vaultDelete, .vaultExpire, .childrenWrite, .tokenMint, .tokenRevoke, .tokenReport,
    .tokenList, .secretPut, .secretDelete, .secretRead, .configWrite, .configDelete, .configRead]

/-- The wire name. -/
def AuditAction.asStr : AuditAction → String
  | .vaultCreate => "vault_create"
  | .vaultRotate => "vault_rotate"
  | .vaultDelete => "vault_delete"
  | .vaultExpire => "vault_expire"
  | .childrenWrite => "children_write"
  | .tokenMint => "token_mint"
  | .tokenRevoke => "token_revoke"
  | .tokenReport => "token_report"
  | .tokenList => "token_list"
  | .secretPut => "secret_put"
  | .secretDelete => "secret_delete"
  | .secretRead => "secret_read"
  | .configWrite => "config_write"
  | .configDelete => "config_delete"
  | .configRead => "config_read"

/-- The inverse of `asStr`. -/
def AuditAction.parse (s : String) : Option AuditAction := AuditAction.all.find? fun a => AuditAction.asStr a = s

def AuditAction.knows (name : String) : Bool := (AuditAction.parse name).isSome

def Actor.knows (name : String) : Bool := name = "owner" || name = "token"

/-- What `serde_json::from_value` makes of a row. -/
class RowJson where
  fromValue : Value → Except String AuditRow

/-- The name a field carries: a text, or the kind of an object. -/
def fieldName (value : Value) (field : String) : Option String :=
  (value.get field).bind fun v => v.asStr.or ((v.get "kind").bind Value.asStr)

/-- The unknown name a row carries, if one is the reason it does not parse. -/
def unknownName (value : Value) (field : String) (knows : String → Bool) : Option String :=
  (fieldName value field).filter fun name => !knows name

section

variable [RowJson]

/-- The loop of `read_rows`, with the rows read so far. -/
def readRowsFrom (rows : List AuditRow) : List Value → Except String (List AuditRow × Option RowStop)
  | [] => .ok (rows, none)
  | value :: rest =>
    let seq := (value.get "seq").bind Value.asU64
    match value.get "v" with
    | none => .error "an audit row has no format `v`"
    | some format =>
      match format.asU64 with
      | none => .error "an audit row's format `v` is not a number"
      | some v =>
        if rowFormat < v then .ok (rows, some (.newerFormat seq v))
        else
          match RowJson.fromValue value with
          | .ok row =>
            if row.v ∈ rowFormats then readRowsFrom (rows ++ [row]) rest
            else .error s!"audit row format {row.v} does not exist"
          | .error e =>
            match unknownName value "action" AuditAction.knows with
            | some action => .ok (rows, some (.unknownValue seq "action" action))
            | none =>
              match unknownName value "actor" Actor.knows with
              | some actor => .ok (rows, some (.unknownValue seq "actor" actor))
              | none => .error s!"an audit row is malformed: {e}"

/-- Read a page's rows as served: every row up to the first one this build cannot verify,
and where it stopped. -/
def readRows (values : List Value) : Except String (List AuditRow × Option RowStop) := readRowsFrom [] values

/-! ## Reading -/

/-- The format a value names as a row. -/
def formatOf (value : Value) : Option Nat := (value.get "v").bind Value.asU64

/-- The value is a row of a known format. -/
structure IsRow (value : Value) (row : AuditRow) : Prop where
  format : ∃ v, formatOf value = some v ∧ v ≤ rowFormat
  parses : RowJson.fromValue value = .ok row
  known : row.v ∈ rowFormats

/-- The value is a row in a newer format. -/
def IsNewer (value : Value) (v : Nat) : Prop := formatOf value = some v ∧ rowFormat < v

/-- The value is in a known format, does not parse, and names an action or an actor that is
not known. -/
structure IsUnknown (value : Value) : Prop where
  format : ∃ v, formatOf value = some v ∧ v ≤ rowFormat
  fails : ∃ e, RowJson.fromValue value = .error e
  unknown : (unknownName value "action" AuditAction.knows).isSome ∨ (unknownName value "actor" Actor.knows).isSome

omit [RowJson] in
theorem formatOf_eq_some_iff {value : Value} {v : Nat} :
    formatOf value = some v ↔ ∃ format, value.get "v" = some format ∧ format.asU64 = some v :=
  Option.bind_eq_some_iff

/-- Rows of a known format are read one by one. -/
theorem readRowsFrom_append {values rest : List Value} {read : List AuditRow} (rows : List AuditRow)
    (are : List.Forall₂ IsRow values read) : readRowsFrom rows (values ++ rest) = readRowsFrom (rows ++ read) rest := by
  induction are generalizing rows with
  | nil => rw [List.nil_append, List.append_nil]
  | @cons value row values read isRow _ inductionHypothesis =>
    obtain ⟨v, named, old⟩ := isRow.format
    obtain ⟨format, present, number⟩ := formatOf_eq_some_iff.mp named
    rw [List.cons_append, readRowsFrom]
    simp only [present, number, isRow.parses]
    rw [if_neg (by omega), if_pos isRow.known, inductionHypothesis, List.append_assoc, List.singleton_append]

theorem readRowsFrom_newer {value : Value} {v : Nat} (newer : IsNewer value v) (rows : List AuditRow) (rest : List Value) :
    readRowsFrom rows (value :: rest) = .ok (rows, some (.newerFormat ((value.get "seq").bind Value.asU64) v)) := by
  obtain ⟨format, present, number⟩ := formatOf_eq_some_iff.mp newer.1
  rw [readRowsFrom]
  simp only [present, number]
  rw [if_pos newer.2]

theorem readRowsFrom_unknown {value : Value} (unknown : IsUnknown value) (rows : List AuditRow) (rest : List Value) :
    ∃ seq field name, readRowsFrom rows (value :: rest) = .ok (rows, some (.unknownValue seq field name)) := by
  obtain ⟨v, named, old⟩ := unknown.format
  obtain ⟨format, present, number⟩ := formatOf_eq_some_iff.mp named
  obtain ⟨e, fails⟩ := unknown.fails
  rw [readRowsFrom]
  simp only [present, number, fails]
  rw [if_neg (by omega)]
  cases action : unknownName value "action" AuditAction.knows with
  | some name => exact ⟨_, _, _, rfl⟩
  | none =>
    obtain ⟨name, actor⟩ := Option.isSome_iff_exists.mp (unknown.unknown.resolve_left (by simp [action]))
    rw [actor]
    exact ⟨_, _, _, rfl⟩

end

/-! ## Verifying -/

section

variable [Digests]

/-- The comparison of the kept head with the server's, if there is a kept one. -/
def headCheck (known server : Option ChainHead) : Except ChainError Unit :=
  match known with
  | some k => checkServerHead k server
  | none => .ok ()

/-- The head at the last of the rows; the kept one where there is no row. -/
def headOf (known : Option ChainHead) (rows : List AuditRow) : Option ChainHead := (rows.getLast?.map AuditRow.head).or known

/-- The loop ends with the head of the last row. -/
theorem verifyLoop_head {expectedSeq : Option Nat} {expectedPrev : Hash32} {head finish : Option ChainHead}
    {rows : List AuditRow} (verified : verifyLoop expectedSeq expectedPrev head rows = .ok finish) :
    finish = headOf head rows := by
  induction rows generalizing expectedSeq expectedPrev head with
  | nil => exact (Except.ok.inj verified).symm
  | cons row rest inductionHypothesis =>
    rw [verifyLoop] at verified
    split at verified
    · cases verified
    · split at verified
      · cases verified
      · split at verified
        · cases verified
        · split at verified
          · cases verified
          · rw [inductionHypothesis verified]
            unfold headOf
            cases rest with
            | nil => rfl
            | cons next rest => simp [List.getLast?_cons]

/-- Rows that continue a head are numbered above it. -/
theorem verifyLoop_above {seq : Nat} {expectedPrev : Hash32} {head finish : Option ChainHead} {rows : List AuditRow}
    (verified : verifyLoop (checkedSucc seq) expectedPrev head rows = .ok finish) : ∀ row ∈ rows, seq < row.seq := by
  induction rows generalizing seq expectedPrev head with
  | nil => simp
  | cons row rest inductionHypothesis =>
    rw [verifyLoop] at verified
    split at verified
    · cases verified
    · next follows =>
      rw [ne_eq, not_not] at follows
      have above : seq < row.seq := by
        unfold checkedSucc at follows
        split at follows
        · have next := Option.some.inj follows
          omega
        · cases follows
      split at verified
      · cases verified
      · split at verified
        · cases verified
        · split at verified
          · cases verified
          · refine List.forall_mem_cons.mpr ⟨above, fun later member => ?_⟩
            exact Nat.lt_trans above (inductionHypothesis verified later member)

/-- What the chain of the rows comes to is the head at the last of them. -/
theorem verifyChain_head {known : Option ChainHead} {rows : List AuditRow} {head : Option ChainHead}
    (verified : verifyChain (verifyBase known rows) rows = .ok head) : head = headOf known rows := by
  have last := verifyLoop_head verified
  rw [last]
  cases rows with
  | nil => cases known <;> rfl
  | cons row rest =>
    unfold headOf
    obtain ⟨final, ends⟩ : ∃ final, (row :: rest).getLast? = some final := ⟨_, List.getLast?_eq_some_getLast (by simp)⟩
    rw [ends]
    rfl

/-- Rows that verify end at a head the kept one is not ahead of. -/
theorem headCheck_headOf {known : Option ChainHead} {rows : List AuditRow} {head : Option ChainHead}
    (verified : verifyChain (verifyBase known rows) rows = .ok head) : headCheck known (headOf known rows) = .ok () := by
  cases known with
  | none => rfl
  | some k =>
    unfold headOf headCheck
    cases ends : rows.getLast? with
    | none => simp [checkServerHead]
    | some last =>
      have base : verifyBase (some k) rows = some k := rfl
      rw [base] at verified
      have above := verifyLoop_above verified last (List.mem_of_getLast? ends)
      have notBehind : ¬ last.seq < k.seq := by omega
      have apart : ¬ (last.seq = k.seq ∧ last.hash ≠ k.hash) := fun same => by omega
      simp only [Option.map_some, Option.some_or, AuditRow.head, checkServerHead, if_neg notBehind, if_neg apart]

/-- What a verification comes to behind its chain, by where reading the rows stopped. -/
def outcome (server head : Option ChainHead) (count : Nat) : Option RowStop → Except ChainError Verified
  | none => if head ≠ server then .error .headMismatch else .ok ⟨head, count, none⟩
  | some (.unknownValue seq field name) => .error (.unknownValue seq field name)
  | some (.newerFormat seq v) => .ok ⟨head, count, some (.newerFormat seq v)⟩

/-- A verification checks the server's head, then the chain, and then where reading stopped. -/
theorem verifyRows_eq (known server : Option ChainHead) (rows : List AuditRow) (stop : Option RowStop) :
    verifyRows known rows server stop =
      (headCheck known server).bind fun _ =>
        (verifyChain (verifyBase known rows) rows).bind fun head => outcome server head rows.length stop := by
  unfold verifyRows headCheck
  cases known with
  | none =>
    cases verifyChain (verifyBase none rows) rows with
    | error e => rfl
    | ok head => cases stop with
      | none => rfl
      | some stopped => cases stopped <;> rfl
  | some k =>
    cases checkServerHead k server with
    | error e => rfl
    | ok _ =>
      cases verifyChain (verifyBase (some k) rows) rows with
      | error e => rfl
      | ok head => cases stop with
        | none => rfl
        | some stopped => cases stopped <;> rfl

theorem verifyRows_newer (known server : Option ChainHead) (rows : List AuditRow) (seq : Option Nat) (v : Nat) :
    verifyRows known rows server (some (.newerFormat seq v)) =
      (headCheck known server).bind fun _ =>
        (verifyChain (verifyBase known rows) rows).map fun head => ⟨head, rows.length, some (.newerFormat seq v)⟩ := by
  rw [verifyRows_eq]
  cases verifyChain (verifyBase known rows) rows <;> rfl

theorem verifyRows_whole (known server : Option ChainHead) (rows : List AuditRow) :
    verifyRows known rows server none =
      (headCheck known server).bind fun _ =>
        (verifyChain (verifyBase known rows) rows).bind fun head =>
          if head ≠ server then .error .headMismatch else .ok ⟨head, rows.length, none⟩ :=
  verifyRows_eq known server rows none

theorem verifyRows_unknown_eq (known server : Option ChainHead) (rows : List AuditRow) (seq : Option Nat)
    (field name : String) :
    verifyRows known rows server (some (.unknownValue seq field name)) =
      (headCheck known server).bind fun _ =>
        (verifyChain (verifyBase known rows) rows).bind fun _ => .error (.unknownValue seq field name) :=
  verifyRows_eq known server rows _

theorem verifyRows_unknown (known server : Option ChainHead) (rows : List AuditRow) (seq : Option Nat)
    (field name : String) : ∃ e, verifyRows known rows server (some (.unknownValue seq field name)) = .error e := by
  rw [verifyRows_unknown_eq]
  cases headCheck known server with
  | error e => exact ⟨e, rfl⟩
  | ok _ =>
    cases verifyChain (verifyBase known rows) rows with
    | error e => exact ⟨e, rfl⟩
    | ok head => exact ⟨_, rfl⟩

/-- With a server head at the last row, the rows verify exactly if their chain does. -/
theorem verifyRows_headOf (known : Option ChainHead) (rows : List AuditRow) (head : Option ChainHead) :
    verifyRows known rows (headOf known rows) none = .ok ⟨head, rows.length, none⟩ ↔
      verifyChain (verifyBase known rows) rows = .ok head := by
  rw [verifyRows_whole]
  constructor
  · intro verified
    cases check : headCheck known (headOf known rows) with
    | error e =>
      rw [check] at verified
      cases verified
    | ok _ =>
      rw [check] at verified
      cases chain : verifyChain (verifyBase known rows) rows with
      | error e =>
        rw [chain] at verified
        cases verified
      | ok reached =>
        rw [chain] at verified
        simp only [Except.bind] at verified
        split at verified
        · cases verified
        · exact congrArg Except.ok (Verified.mk.inj (Except.ok.inj verified)).1
  · intro chain
    have last := verifyChain_head chain
    rw [headCheck_headOf chain, chain]
    simp only [Except.bind]
    rw [if_neg (by simpa using last)]

variable [RowJson]

/-- **A newer row is neither tampered nor verified.** A page that begins with rows of the known
format and goes on with a row in a newer one is read as those rows, whatever follows. Where the
server's head is neither behind nor forked from the kept one, they verify to the same rows and
head as they do alone with the server's head at the last of them, and never to a head past it;
every error is the head's or the rows' own. An unknown action or actor refuses every
verification. -/
theorem newer_row_unverified :
    (∀ (values rest : List Value) (rows : List AuditRow) (newer : Value) (v : Nat), List.Forall₂ IsRow values rows →
        IsNewer newer v →
        readRows (values ++ newer :: rest) = .ok (rows, some (.newerFormat ((newer.get "seq").bind Value.asU64) v))) ∧
      (∀ (known server : Option ChainHead) (rows : List AuditRow) (seq : Option Nat) (v : Nat) (head : Option ChainHead),
        headCheck known server = .ok () →
        (verifyRows known rows server (some (.newerFormat seq v)) =
            .ok ⟨head, rows.length, some (.newerFormat seq v)⟩ ↔
          verifyRows known rows (headOf known rows) none = .ok ⟨head, rows.length, none⟩)) ∧
      (∀ (known server : Option ChainHead) (rows : List AuditRow) (seq : Option Nat) (v : Nat) (verified : Verified),
        verifyRows known rows server (some (.newerFormat seq v)) = .ok verified →
        verified = ⟨headOf known rows, rows.length, some (.newerFormat seq v)⟩) ∧
      (∀ (known server : Option ChainHead) (rows : List AuditRow) (seq : Option Nat) (v : Nat) (e : ChainError),
        verifyRows known rows server (some (.newerFormat seq v)) = .error e ↔
          headCheck known server = .error e ∨
            headCheck known server = .ok () ∧ verifyChain (verifyBase known rows) rows = .error e) ∧
      ∀ (values rest : List Value) (rows : List AuditRow) (unknown : Value), List.Forall₂ IsRow values rows →
        IsUnknown unknown →
        ∃ stop, readRows (values ++ unknown :: rest) = .ok (rows, some stop) ∧
          ∀ known server, ∃ e, verifyRows known rows server (some stop) = .error e := by
  refine ⟨?_, ?_, ?_, ?_, ?_⟩
  · intro values rest rows newer v are isNewer
    rw [readRows, readRowsFrom_append [] are, readRowsFrom_newer isNewer, List.nil_append]
  · intro known server rows seq v head accepted
    rw [verifyRows_headOf, verifyRows_newer, accepted]
    cases verifyChain (verifyBase known rows) rows with
    | error e => simp [Except.bind, Except.map]
    | ok reached => simp [Except.bind, Except.map]
  · intro known server rows seq v verified result
    rw [verifyRows_newer] at result
    cases check : headCheck known server with
    | error e =>
      rw [check] at result
      cases result
    | ok _ =>
      rw [check] at result
      cases chain : verifyChain (verifyBase known rows) rows with
      | error e =>
        rw [chain] at result
        cases result
      | ok head =>
        rw [chain] at result
        rw [← verifyChain_head chain]
        exact (Except.ok.inj result).symm
  · intro known server rows seq v e
    rw [verifyRows_newer]
    cases headCheck known server with
    | error e' => simp [Except.bind]
    | ok _ =>
      cases verifyChain (verifyBase known rows) rows with
      | error e' => simp [Except.bind, Except.map]
      | ok head => simp [Except.bind, Except.map]
  · intro values rest rows unknown are isUnknown
    obtain ⟨seq, field, name, read⟩ := readRowsFrom_unknown isUnknown ([] ++ rows) rest
    refine ⟨.unknownValue seq field name, ?_, fun known server => verifyRows_unknown known server rows seq field name⟩
    rw [readRows, readRowsFrom_append [] are, read, List.nil_append]

end

/-- A server that reports no head is behind every kept one, and is refused before any row is
looked at. -/
theorem verifyRows_behind :
    ¬ ∀ (_ : Digests) (known server : Option ChainHead) (rows : List AuditRow) (seq : Option Nat) (v : Nat)
        (head : Option ChainHead),
      verifyRows known rows server (some (.newerFormat seq v)) = .ok ⟨head, rows.length, some (.newerFormat seq v)⟩ ↔
        verifyRows known rows (headOf known rows) none = .ok ⟨head, rows.length, none⟩ := by
  intro same
  have digests : Digests := ⟨fun _ => genesis, fun _ _ => genesis⟩
  have alone := same digests (some ⟨1, genesis⟩) none [] none 2 (some ⟨1, genesis⟩)
  rw [verifyRows_newer, verifyRows_headOf] at alone
  have refused := alone.mpr rfl
  cases refused

end GalataVault.Formats

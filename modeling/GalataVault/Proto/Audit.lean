import GalataVault.Proto.Ids

/-!
# The audit chain

Every row of a vault's audit log carries the hash of the row before it, and its
own hash covers a fixed binary encoding of its other fields. This module is the
encoding, the construction of a row from an event, and the client's verifier.

A row in a format this build does not know is unverifiable, never tampered and
never verified; the verifier names each way a served list can fail. Reading a
page of rows from JSON is outside: `RowStop` is what that reading reports.
-/

namespace GalataVault.Proto

/-- The `prev` of a vault's first row. -/
def genesis : Hash32 := ⟨.fill 32 0⟩

/-- blake3's derive-key context for audit rows, in every row format. -/
def rowContext : String := "galata-vault v1 audit row"

/-- The row format a server writes. -/
def rowFormat : Nat := 1

/-- The largest `u64`. -/
def u64Max : Nat := 2 ^ 64 - 1

/-- `checked_add(1)` on a `u64`. -/
def checkedSucc (n : Nat) : Option Nat := if n < u64Max then some (n + 1) else none

inductive Actor where
  | owner
  | token (id : TokenId)
deriving DecidableEq

inductive AuditAction where
  | vaultCreate
  | vaultRotate
  | vaultDelete
  | vaultExpire
  | childrenWrite
  | tokenMint
  | tokenRevoke
  | tokenReport
  | tokenList
  | secretPut
  | secretDelete
  | secretRead
  | configWrite
  | configDelete
  | configRead
deriving DecidableEq

/-- Stable codes for the hash encoding. Code 3 is unassigned. -/
def AuditAction.code : AuditAction → Nat
  | vaultCreate => 1
  | vaultRotate => 2
  | vaultDelete => 4
  | vaultExpire => 5
  | childrenWrite => 6
  | tokenMint => 10
  | tokenRevoke => 11
  | tokenReport => 12
  | tokenList => 13
  | secretPut => 20
  | secretDelete => 21
  | secretRead => 22
  | configWrite => 30
  | configDelete => 31
  | configRead => 32

inductive AuditResult where
  | ok
  | refused
deriving DecidableEq

def AuditResult.code : AuditResult → Nat
  | ok => 0
  | refused => 1

/-- Everything a row records except its position in the chain. -/
structure AuditEvent where
  actor : Actor
  action : AuditAction
  nameHmac : Option NameHmac
  /-- The token an action was done to, where that differs from the actor. -/
  subject : Option TokenId
  result : AuditResult
  /-- The record version written or read; 0 where no version applies. -/
  version : Nat
  /-- SHA-256 of the ciphertext written or read; for a rotation, the new
  descriptor's hash. -/
  ctHash : Option Hash32
deriving DecidableEq

/-- An event with no version and no ciphertext hash. -/
def AuditEvent.simple (actor : Actor) (action : AuditAction) (nameHmac : Option NameHmac)
    (result : AuditResult) : AuditEvent where
  actor := actor
  action := action
  nameHmac := nameHmac
  subject := none
  result := result
  version := 0
  ctHash := none

/-- One row as stored and as served. -/
structure AuditRow where
  v : Nat
  seq : Nat
  ts : Int
  actor : Actor
  action : AuditAction
  nameHmac : Option NameHmac
  subject : Option TokenId
  result : AuditResult
  version : Nat
  ctHash : Option Hash32
  prev : Hash32
  hash : Hash32
deriving DecidableEq

structure ChainHead where
  seq : Nat
  hash : Hash32
deriving DecidableEq

/-- Where a served page stops being rows this build can verify. -/
inductive RowStop where
  | newerFormat (seq : Option Nat) (v : Nat)
  | unknownValue (seq : Option Nat) (field value : String)
deriving DecidableEq

inductive ChainError where
  | gap (expected got : Nat)
  | brokenLink (seq : Nat)
  | badHash (seq : Nat)
  | rollback (known server : Nat)
  | fork (seq : Nat)
  | headMismatch
  | unknownFormat (seq v : Nat)
  | unknownValue (seq : Option Nat) (field value : String)
deriving DecidableEq

/-- An optional field in the hash encoding: a presence byte, then the bytes. -/
def opt : Option (List UInt8) → List UInt8
  | none => [0]
  | some bytes => 1 :: bytes

section Rows

variable [Digests]

/-- blake3 in derive-key mode under the row context. -/
def rowHash (input : List UInt8) : Hash32 := Digests.blake3DeriveKey rowContext input

namespace AuditRow

/-- A row exactly as it was stored: its format, position, event and recorded hash. -/
def stored (v seq : Nat) (ts : Int) (prev hash : Hash32) (e : AuditEvent) : AuditRow where
  v := v
  seq := seq
  ts := ts
  actor := e.actor
  action := e.action
  nameHmac := e.nameHmac
  subject := e.subject
  result := e.result
  version := e.version
  ctHash := e.ctHash
  prev := prev
  hash := hash

/-- Every field after the format byte, in the order the row hash covers them. -/
def hashFields (row : AuditRow) : List UInt8 :=
  beBytes 8 row.seq ++ beBytesI64 row.ts ++
    (match row.actor with
      | .owner => opt none
      | .token id => opt (some id.raw.bytes)) ++
    beBytes 2 row.action.code ++ opt (row.nameHmac.map (·.raw.bytes)) ++
    [UInt8.ofNat row.result.code] ++ opt (row.subject.map (·.raw.bytes)) ++
    beBytes 8 row.version ++ opt (row.ctHash.map (·.raw.bytes)) ++ row.prev.raw.bytes

/-- The exact bytes the row hash covers; `none` for a format this build does not
know. -/
def hashInput (row : AuditRow) : Option (List UInt8) :=
  if row.v = rowFormat then some (UInt8.ofNat rowFormat :: row.hashFields) else none

/-- The hash the row should carry; `none` for a format this build does not know. -/
def expectedHash (row : AuditRow) : Option Hash32 := row.hashInput.map rowHash

/-- A row in the current format, built from an event, with its hash. -/
def fromEvent (seq : Nat) (ts : Int) (prev : Hash32) (e : AuditEvent) : AuditRow :=
  let row := stored rowFormat seq ts prev genesis e
  { row with hash := rowHash (UInt8.ofNat rowFormat :: row.hashFields) }

def head (row : AuditRow) : ChainHead := ⟨row.seq, row.hash⟩

/-- A freshly built row carries the hash a verifier recomputes: the hash field
itself is not covered. -/
theorem fromEvent_expectedHash (seq : Nat) (ts : Int) (prev : Hash32) (e : AuditEvent) :
    (fromEvent seq ts prev e).expectedHash = some (fromEvent seq ts prev e).hash := rfl

end AuditRow

/-- The loop of `verify_chain`: the sequence number and link the next row must
carry, and the head reached so far. -/
def verifyLoop (expectedSeq : Option Nat) (expectedPrev : Hash32) (head : Option ChainHead) :
    List AuditRow → Except ChainError (Option ChainHead)
  | [] => .ok head
  | row :: rest =>
    if some row.seq ≠ expectedSeq then .error (.gap (expectedSeq.getD u64Max) row.seq)
    else if row.prev ≠ expectedPrev then .error (.brokenLink row.seq)
    else match row.expectedHash with
      | none => .error (.unknownFormat row.seq row.v)
      | some expected =>
        if row.hash ≠ expected then .error (.badHash row.seq)
        else verifyLoop (checkedSucc row.seq) row.hash (some row.head) rest

/-- The sequence number a verifier expects after `known`. -/
def seqAfter (known : Option ChainHead) : Option Nat :=
  match known with
  | none => some 1
  | some head => checkedSucc head.seq

/-- The link a verifier expects after `known`. -/
def prevAfter (known : Option ChainHead) : Hash32 := (known.map (·.hash)).getD genesis

/-- Verify `rows`, ascending, as the continuation of `known`, or of the genesis.
Returns the new head. -/
def verifyChain (known : Option ChainHead) (rows : List AuditRow) :
    Except ChainError (Option ChainHead) :=
  verifyLoop (seqAfter known) (prevAfter known) known rows

/-- Compare the head a client verified earlier with the head the server reports
now. -/
def checkServerHead (known : ChainHead) (server : Option ChainHead) : Except ChainError Unit :=
  match server with
  | none => .error (.rollback known.seq 0)
  | some s =>
    if s.seq < known.seq then .error (.rollback known.seq s.seq)
    else if s.seq = known.seq ∧ s.hash ≠ known.hash then .error (.fork known.seq)
    else .ok ()

/-- What `verify_rows` established. -/
structure Verified where
  head : Option ChainHead
  rows : Nat
  unverifiable : Option RowStop
deriving DecidableEq

/-- Where verification starts: the known head, or the position the first served
row claims to follow. -/
def verifyBase (known : Option ChainHead) (rows : List AuditRow) : Option ChainHead :=
  known.or ((rows.head?.filter (fun r => decide (1 < r.seq))).map (fun r => ⟨r.seq - 1, r.prev⟩))

/-- The verification algorithm over every row a server served after `known`, the
head it reported last, and where reading the rows stopped, if it did. -/
def verifyRows (known : Option ChainHead) (rows : List AuditRow) (serverHead : Option ChainHead)
    (stop : Option RowStop) : Except ChainError Verified := do
  match known with
  | some k => checkServerHead k serverHead
  | none => pure ()
  let head ← verifyChain (verifyBase known rows) rows
  match stop with
  | none =>
    if head ≠ serverHead then throw .headMismatch
    else pure { head := head, rows := rows.length, unverifiable := none }
  | some (.unknownValue seq field value) => throw (.unknownValue seq field value)
  | some (.newerFormat seq v) =>
    pure { head := head, rows := rows.length, unverifiable := some (.newerFormat seq v) }

end Rows

end GalataVault.Proto

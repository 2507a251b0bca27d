import GalataVault.Server.Core

/-!
# The file journal

A directory beside the database with one file for each record, named by its
sequence number. A record is written to a temporary file, synced, renamed into
place, and the rename is made durable by syncing the directory; any of these may
fail, and the ones before the rename leave no record. A temporary file is no
record, and the next write of the same number starts it over.

A run of a server over such a journal is a sequence of store calls and of
replays, which is what opening the server does. A record's JSON form reads back
as the record.
-/

namespace GalataVault.Server

open Proto Backend Relational

/-- The records in the journal's directory. -/
structure FileJournal where
  records : Table JournalRecord.seq
deriving DecidableEq

/-- The step of a journal write at which the file system answers an error. -/
inductive Fault where
  | none
  | write (detail : String)
  | sync (detail : String)
  | rename (detail : String)
  | syncDir (detail : String)
deriving DecidableEq

namespace FileJournal

def empty : FileJournal := ⟨.empty⟩

/-- Durably store one record, or fail and so roll the operation back. -/
def put (fault : Fault) : CommitHook FileJournal := fun record journal =>
  match journal.records.insert record with
  | none => (.error s!"journal record {record.seq} already exists; is a second server writing?", journal)
  | some records =>
    match fault with
    | .write detail | .sync detail | .rename detail => (.error detail, journal)
    -- The record is in place by now, and stays.
    | .syncDir detail => (.error detail, ⟨records⟩)
    | .none => (.ok (), ⟨records⟩)

/-- Every record with a sequence above `after`, in sequence order. -/
def listAfter (after : Nat) (journal : FileJournal) : List JournalRecord :=
  (journal.records.select fun r => after < r.seq).insertionSort fun a b => a.seq ≤ b.seq

end FileJournal

section

variable [Digests]

/-- Replay records in order, until one fails. `disk` is what SQLite answers to the
commit of each. -/
def replayAll (disk : JournalRecord → Except String Unit) : List JournalRecord → Db → Except StoreError Unit × Db
  | [], db => (.ok (), db)
  | record :: records, db =>
    match replay (disk record) record db with
    | (.error failure, db) => (.error failure, db)
    | (.ok _, db) => replayAll disk records db

/-- The records a replay of the journal goes through. -/
def pending (db : Db) (journal : FileJournal) : List JournalRecord := journal.listAfter db.lastApplied

/-- Bring a database that may be behind the journal up to date; how many records
were replayed. -/
def replayJournal (disk : JournalRecord → Except String Unit) (db : Db) (journal : FileJournal) :
    Except StoreError Nat × Db :=
  let outcome := replayAll disk (pending db journal) db
  (outcome.1.map fun _ => (pending db journal).length, outcome.2)

/-- What happens to a server's database and journal: a call of the store, whose
record, if it has one, is put into the journal; or a replay. -/
inductive ServerEvent : Type 1 where
  | call {β : Type} (call : StoreCall β) (disk : Except String Unit) (fault : Fault)
  | replayJournal (disk : JournalRecord → Except String Unit)

/-- What a call of a server meets outside its database. -/
def journaled (disk : Except String Unit) (fault : Fault) : Env FileJournal where
  now := 0
  disk := disk
  hook := FileJournal.put fault

def serverStep (world : World FileJournal) : ServerEvent → World FileJournal
  | .call call disk fault => step world (call.call (journaled disk fault))
  | .replayJournal disk => { world with db := (replayJournal disk world.db world.journal).2 }

end

end GalataVault.Server

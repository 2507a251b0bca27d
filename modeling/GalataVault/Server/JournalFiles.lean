import Mathlib.Data.String.Basic
import GalataVault.Server.FileJournal
import GalataVault.Server.Numbers
import GalataVault.Formats.LossyText

/-!
# The files of the journal

The file journal's directory as the file system has it: files by the bytes of their
names, written through temporary files, and shared with whatever else writes into the
directory. A record's file is named by its sequence in twenty digits, so that names
order as numbers. Listing goes by the names alone: a file is a record if its name is an
unsigned number and an extension, whoever wrote it, and every other file is passed over.

Over a run of puts that fail anywhere, and of other programs that write and remove
files whose names are no record's, the directory holds the records of `FileJournal`, and
a listing returns exactly the ones asked for, whatever order the directory is read in.
-/

namespace GalataVault.Server

open Proto Backend Relational
open GalataVault.Formats (stripPrefix stripPrefix_eq_some_iff encode fromUtf8Lossy fromUtf8Lossy_encode)

/-! ## The code -/

/-- A record's JSON form, as it is written and as it is read back. -/
class JournalJson where
  toJson : JournalRecord → List UInt8
  fromJson : List UInt8 → Except String JournalRecord

/-- What precedes an ending. -/
def stripSuffix (ending s : List Char) : Option (List Char) :=
  if ending <:+ s then some (s.take (s.length - ending.length)) else none

/-- Zero-padded, so lexical order in the bucket is replay order. -/
def objectKey (seq : Nat) : String := "journal/" ++ String.ofList (padded 20 seq) ++ ".json"

/-- The sequence number in a journal object key (`journal/<seq>.json`). -/
def seqOf (key : String) : Option Nat := do
  let name ← stripPrefix "journal/".toList key.toList
  let number ← stripSuffix ".json".toList name
  parseUnsigned (2 ^ 64) number

/-- A file of the directory. -/
structure File where
  name : List UInt8
  content : List UInt8
deriving DecidableEq

/-- The files of the journal's directory. -/
abbrev Directory := Table File.name

/-- The key a file's name stands for. -/
def keyOf (name : List UInt8) : String := "journal/" ++ String.ofList (fromUtf8Lossy name)

def fileName (seq : Nat) : List UInt8 := encode (padded 20 seq ++ ".json".toList)

def tmpName (seq : Nat) : List UInt8 := encode (padded 20 seq ++ ".tmp".toList)

/-- A file of the directory as `read_dir` yields it: its name, and what reading it answers. -/
structure DirEntry where
  name : List UInt8
  content : Except String (List UInt8)

section

variable [JournalJson]

open JournalJson

def fileOf (record : JournalRecord) : File := ⟨fileName record.seq, toJson record⟩

/-- Durably store one record, or fail. `left` is what a write that fails leaves in the
temporary file, if it could be created. -/
def putFile (fault : Fault) (left : Option (List UInt8)) (record : JournalRecord) (dir : Directory) :
    Except String Unit × Directory :=
  if (dir.find? (fileName record.seq)).isSome then
    (.error s!"journal record {record.seq} already exists; is a second server writing?", dir)
  else
    let tmp := tmpName record.seq
    let written := dir.upsert ⟨tmp, toJson record⟩
    let renamed := (written.deleteWhere fun file => file.name = tmp).upsert (fileOf record)
    match fault with
    | .write detail =>
      match left with
      | none => (.error detail, dir)
      | some partly => (.error detail, dir.upsert ⟨tmp, partly⟩)
    | .sync detail | .rename detail => (.error detail, written)
    | .syncDir detail => (.error detail, renamed)
    | .none => (.ok (), renamed)

/-- The record of an entry whose name is a number above `after`. -/
def readEntry (after : Nat) : Except String DirEntry → Except String (Option JournalRecord)
  | .error detail => .error detail
  | .ok entry =>
    match seqOf (keyOf entry.name) with
    | none => .ok none
    | some seq =>
      if seq ≤ after then .ok none
      else
        match entry.content with
        | .error detail => .error detail
        | .ok bytes =>
          match fromJson bytes with
          | .error detail => .error s!"journal record {seq} is corrupt: {detail}"
          | .ok record => .ok (some record)

/-- The records of all entries, until one cannot be read. -/
def readEntries (after : Nat) : List (Except String DirEntry) → Except String (List JournalRecord)
  | [] => .ok []
  | entry :: rest =>
    match readEntry after entry with
    | .error detail => .error detail
    | .ok none => readEntries after rest
    | .ok (some record) => (readEntries after rest).map (record :: ·)

/-- Every record with a sequence above `after`, in sequence order. `entries` is what
reading the directory answers. -/
def listFiles (after : Nat) (entries : Except String (List (Except String DirEntry))) :
    Except String (List JournalRecord) :=
  match entries with
  | .error detail => .error detail
  | .ok entries => (readEntries after entries).map (List.insertionSort fun a b => a.seq ≤ b.seq)

/-! ## Runs -/

/-- What happens in the directory: a put, with the step at which it fails; or another
program writes a file or removes one. -/
inductive FileEvent where
  | put (record : JournalRecord) (fault : Fault) (left : Option (List UInt8))
  | write (file : File)
  | remove (name : List UInt8)

/-- A put's record has a sequence of 64 bits and is read back from its JSON form; other
programs use names that are no record's. -/
def FileEvent.Fits : FileEvent → Prop
  | .put record _ _ => record.seq < 2 ^ 64 ∧ fromJson (toJson record) = .ok record
  | .write file => seqOf (keyOf file.name) = none
  | .remove name => seqOf (keyOf name) = none

def fileStep (dir : Directory) : FileEvent → Directory
  | .put record fault left => (putFile fault left record dir).2
  | .write file => dir.upsert file
  | .remove name => dir.deleteWhere fun file => file.name = name

/-- The step of the records: other programs' files are none. -/
def recordStep (journal : FileJournal) : FileEvent → FileJournal
  | .put record fault _ => (FileJournal.put fault record journal).2
  | .write _ => journal
  | .remove _ => journal

/-- The directory after a run. -/
def directory (events : List FileEvent) : Directory := events.foldl fileStep .empty

/-- The records put in a run. -/
def putRecords (events : List FileEvent) : FileJournal := events.foldl recordStep .empty

/-- What reading the directory may answer for a file. -/
inductive Answered (file : File) : Except String DirEntry → Prop where
  | lost (detail : String) : Answered file (.error detail)
  | unread (detail : String) : Answered file (.ok ⟨file.name, .error detail⟩)
  | whole : Answered file (.ok ⟨file.name, .ok file.content⟩)

/-- A file that is read without an error. -/
def File.entry (file : File) : Except String DirEntry := .ok ⟨file.name, .ok file.content⟩

/-- Records are exactly the ones of a journal above a bound, each once, in ascending order. -/
def Listed (journal : FileJournal) (after : Nat) (records : List JournalRecord) : Prop :=
  records.Pairwise (fun r s => r.seq < s.seq) ∧ ∀ r, r ∈ records ↔ r ∈ journal.records.rows ∧ after < r.seq

/-- A listing after a run returns the records put in it above the bound, whatever order the
directory is read in; and where reading fails, it returns an error or no less. -/
def ListsExactly (events : List FileEvent) (after : Nat) : Prop :=
  ∀ files, files.Perm (directory events).rows →
    (∃ records, listFiles after (.ok (files.map File.entry)) = .ok records ∧ Listed (putRecords events) after records) ∧
    ∀ answers records, List.Forall₂ Answered files answers → listFiles after (.ok answers) = .ok records →
      Listed (putRecords events) after records

end

/-! ## Names -/

theorem stripSuffix_eq_some_iff {ending s rest : List Char} : stripSuffix ending s = some rest ↔ s = rest ++ ending := by
  unfold stripSuffix
  split
  · next stands =>
    obtain ⟨more, rfl⟩ := stands
    simp
  · next absent =>
    simp only [reduceCtorEq, false_iff]
    rintro rfl
    exact absent (List.suffix_append _ _)

/-- A key is of a record exactly if it is a number of 64 bits between the directory and the
extension. -/
theorem seqOf_eq_some_iff {key : String} {seq : Nat} :
    seqOf key = some seq ↔
      ∃ number, key.toList = "journal/".toList ++ (number ++ ".json".toList) ∧ parseUnsigned (2 ^ 64) number = some seq := by
  simp only [seqOf, Option.bind_eq_bind, Option.bind_eq_some_iff, stripPrefix_eq_some_iff, stripSuffix_eq_some_iff]
  constructor
  · rintro ⟨name, whole, number, rfl, read⟩
    exact ⟨number, whole, read⟩
  · rintro ⟨number, whole, read⟩
    exact ⟨_, whole, number, rfl, read⟩

theorem objectKey_toList (seq : Nat) :
    (objectKey seq).toList = "journal/".toList ++ (padded 20 seq ++ ".json".toList) := by
  simp [objectKey]

theorem seqOf_objectKey {seq : Nat} (small : seq < 2 ^ 64) : seqOf (objectKey seq) = some seq :=
  seqOf_eq_some_iff.mpr ⟨padded 20 seq, objectKey_toList seq, parseUnsigned_padded small⟩

theorem keyOf_fileName (seq : Nat) : keyOf (fileName seq) = objectKey seq := by
  rw [← String.toList_inj, objectKey_toList, keyOf, fileName, fromUtf8Lossy_encode]
  simp

/-- A temporary file is no record. -/
theorem seqOf_tmpName (seq : Nat) : seqOf (keyOf (tmpName seq)) = none := by
  cases read : seqOf (keyOf (tmpName seq)) with
  | none => rfl
  | some n =>
    obtain ⟨number, whole, _⟩ := seqOf_eq_some_iff.mp read
    have last := congrArg (fun text => text.reverse.head?) whole
    rw [keyOf, tmpName, fromUtf8Lossy_encode] at last
    simp at last

theorem fileName_injective : Function.Injective fileName := by
  intro m n same
  have keys : (objectKey m).toList = (objectKey n).toList := by rw [← keyOf_fileName, same, keyOf_fileName]
  rw [objectKey_toList, objectKey_toList, List.append_cancel_left_eq, List.append_cancel_right_eq] at keys
  exact padded_injective 20 keys

/-- What follows two texts of one length does not decide their order. -/
theorem append_lt_append_iff {left right tail : List Char} (same : left.length = right.length) :
    left ++ tail < right ++ tail ↔ left < right := by
  induction left generalizing right with
  | nil =>
    cases right with
    | nil => simp
    | cons d right => cases same
  | cons c left inductionHypothesis =>
    cases right with
    | nil => cases same
    | cons d right =>
      have lengths : left.length = right.length := Nat.succ.inj same
      rw [List.cons_append, List.cons_append, List.cons_lt_cons_iff, List.cons_lt_cons_iff,
        inductionHypothesis lengths]

/-- Keys order as their numbers. -/
theorem objectKey_lt_iff {seq other : Nat} (small : seq < 2 ^ 64) (least : other < 2 ^ 64) :
    objectKey seq < objectKey other ↔ seq < other := by
  have bound : 2 ^ 64 ≤ 10 ^ 20 := by norm_num
  have left : seq < 10 ^ 20 := Nat.lt_of_lt_of_le small bound
  have right : other < 10 ^ 20 := Nat.lt_of_lt_of_le least bound
  have same : (padded 20 seq).length = (padded 20 other).length := by
    rw [padded_length (by decide) left, padded_length (by decide) right]
  have start : ∀ x y : List Char, "journal/".toList ++ x < "journal/".toList ++ y ↔ x < y := by
    intro x y
    simp
  rw [String.lt_iff_toList_lt, objectKey_toList, objectKey_toList, start, append_lt_append_iff same,
    padded_lt_iff (by decide) left right]

section

variable [JournalJson]

open JournalJson

/-! ## The invariant -/

/-- The directory holds a journal's records: a file with a record's name is a record's file,
every record has its file, and every record is read back from it. -/
structure Holds (dir : Directory) (journal : FileJournal) : Prop where
  recorded : ∀ file ∈ dir.rows, ∀ seq, seqOf (keyOf file.name) = some seq → ∃ record ∈ journal.records.rows, file = fileOf record
  filed : ∀ record ∈ journal.records.rows, fileOf record ∈ dir.rows
  sized : ∀ record ∈ journal.records.rows, record.seq < 2 ^ 64
  readBack : ∀ record ∈ journal.records.rows, fromJson (toJson record) = .ok record

theorem seqOf_fileOf {record : JournalRecord} (small : record.seq < 2 ^ 64) :
    seqOf (keyOf (fileOf record).name) = some record.seq := by
  rw [fileOf, keyOf_fileName, seqOf_objectKey small]

theorem holds_empty : Holds .empty .empty where
  recorded := by simp [Table.empty]
  filed := by simp [FileJournal.empty, Table.empty]
  sized := by simp [FileJournal.empty, Table.empty]
  readBack := by simp [FileJournal.empty, Table.empty]

/-- A name that is no record's is not the name of a record's file. -/
theorem Holds.apart {dir : Directory} {journal : FileJournal} (holds : Holds dir journal) {name : List UInt8}
    (foreign : seqOf (keyOf name) = none) {record : JournalRecord} (member : record ∈ journal.records.rows) :
    (fileOf record).name ≠ name := by
  rintro rfl
  rw [seqOf_fileOf (holds.sized record member)] at foreign
  cases foreign

/-- A file whose name is no record's changes nothing. -/
theorem Holds.upsert_foreign {dir : Directory} {journal : FileJournal} (holds : Holds dir journal) {file : File}
    (foreign : seqOf (keyOf file.name) = none) : Holds (dir.upsert file) journal where
  recorded := by
    intro other member seq named
    obtain rfl | ⟨kept, _⟩ := Table.mem_upsert.mp member
    · rw [foreign] at named
      cases named
    · exact holds.recorded other kept seq named
  filed := fun record member => Table.mem_upsert.mpr (.inr ⟨holds.filed record member, holds.apart foreign member⟩)
  sized := holds.sized
  readBack := holds.readBack

theorem Holds.delete_foreign {dir : Directory} {journal : FileJournal} (holds : Holds dir journal) {name : List UInt8}
    (foreign : seqOf (keyOf name) = none) : Holds (dir.deleteWhere fun file => file.name = name) journal where
  recorded := fun file member => holds.recorded file (List.mem_filter.mp member).1
  filed := by
    intro record member
    refine List.mem_filter.mpr ⟨holds.filed record member, ?_⟩
    simpa using holds.apart foreign member
  sized := holds.sized
  readBack := holds.readBack

/-- A record with a sequence that no record has takes its file's place. -/
theorem Holds.store {dir : Directory} {journal after : FileJournal} (holds : Holds dir journal) {record : JournalRecord}
    (small : record.seq < 2 ^ 64) (readBack : fromJson (toJson record) = .ok record)
    (fresh : ∀ old ∈ journal.records.rows, old.seq ≠ record.seq)
    (stored : after.records.rows = journal.records.rows ++ [record]) : Holds (dir.upsert (fileOf record)) after where
  recorded := by
    intro file member seq named
    obtain rfl | ⟨kept, _⟩ := Table.mem_upsert.mp member
    · exact ⟨record, by simp [stored], rfl⟩
    · obtain ⟨old, recorded, same⟩ := holds.recorded file kept seq named
      exact ⟨old, by simp [stored, recorded], same⟩
  filed := by
    intro other member
    rw [stored, List.mem_append, List.mem_singleton] at member
    rw [Table.mem_upsert]
    obtain old | rfl := member
    · exact .inr ⟨holds.filed other old, fun same => fresh other old (fileName_injective same)⟩
    · exact .inl rfl
  sized := by
    intro other member
    rw [stored, List.mem_append, List.mem_singleton] at member
    obtain old | rfl := member
    · exact holds.sized other old
    · exact small
  readBack := by
    intro other member
    rw [stored, List.mem_append, List.mem_singleton] at member
    obtain old | rfl := member
    · exact holds.readBack other old
    · exact readBack

/-- A record's file is there exactly if the journal has a record of its sequence. -/
theorem Holds.taken_iff {dir : Directory} {journal : FileJournal} (holds : Holds dir journal) {seq : Nat}
    (small : seq < 2 ^ 64) :
    (dir.find? (fileName seq)).isSome = true ↔ ∃ old ∈ journal.records.rows, old.seq = seq := by
  rw [Option.isSome_iff_exists]
  constructor
  · rintro ⟨file, found⟩
    obtain ⟨member, named⟩ := Table.find?_eq_some.mp found
    have read : seqOf (keyOf file.name) = some seq := by rw [named, keyOf_fileName, seqOf_objectKey small]
    obtain ⟨record, recorded, rfl⟩ := holds.recorded file member seq read
    exact ⟨record, recorded, fileName_injective named⟩
  · rintro ⟨old, member, rfl⟩
    exact ⟨fileOf old, Table.find?_eq_some.mpr ⟨holds.filed old member, rfl⟩⟩

/-- A put of the files answers as one of the records, and keeps what the directory holds. -/
theorem putFile_refines {dir : Directory} {journal : FileJournal} (holds : Holds dir journal) {record : JournalRecord}
    (small : record.seq < 2 ^ 64) (readBack : fromJson (toJson record) = .ok record) (fault : Fault)
    (left : Option (List UInt8)) :
    (putFile fault left record dir).1 = (FileJournal.put fault record journal).1 ∧
      Holds (putFile fault left record dir).2 (FileJournal.put fault record journal).2 := by
  have foreign := seqOf_tmpName record.seq
  cases inserted : journal.records.insert record with
  | none =>
    obtain ⟨old, found⟩ := Table.insert_eq_none.mp inserted
    obtain ⟨member, same⟩ := Table.find?_eq_some.mp found
    have taken := (holds.taken_iff small).mpr ⟨old, member, same⟩
    simp only [putFile, taken, if_true, FileJournal.put, inserted]
    exact ⟨trivial, holds⟩
  | some records =>
    obtain ⟨fresh, appended⟩ := Table.insert_eq_some.mp inserted
    have free : ¬ (dir.find? (fileName record.seq)).isSome = true := by
      rw [holds.taken_iff small]
      rintro ⟨old, member, same⟩
      exact fresh old member same
    have written : Holds (dir.upsert ⟨tmpName record.seq, toJson record⟩) journal := holds.upsert_foreign foreign
    have cleared := written.delete_foreign foreign
    have renamed := @Holds.store _ _ journal ⟨records⟩ cleared record small readBack fresh appended
    simp only [putFile, free, FileJournal.put, inserted]
    cases fault with
    | none => exact ⟨rfl, renamed⟩
    | write detail =>
      cases left with
      | none => exact ⟨rfl, holds⟩
      | some partly => exact ⟨rfl, holds.upsert_foreign foreign⟩
    | sync detail => exact ⟨rfl, written⟩
    | rename detail => exact ⟨rfl, written⟩
    | syncDir detail => exact ⟨rfl, renamed⟩

theorem holds_step {dir : Directory} {journal : FileJournal} (holds : Holds dir journal) {event : FileEvent}
    (fits : event.Fits) : Holds (fileStep dir event) (recordStep journal event) := by
  cases event with
  | put record fault left => exact (putFile_refines holds fits.1 fits.2 fault left).2
  | write file => exact holds.upsert_foreign fits
  | remove name => exact holds.delete_foreign fits

/-- Over a run, the directory holds the records put. -/
theorem holds_of_run {events : List FileEvent} (fit : ∀ event ∈ events, event.Fits) :
    Holds (directory events) (putRecords events) := by
  have run : ∀ dir journal, Holds dir journal → Holds (events.foldl fileStep dir) (events.foldl recordStep journal) := by
    induction events with
    | nil => exact fun _ _ holds => holds
    | cons event events inductionHypothesis =>
      intro dir journal holds
      have first := holds_step holds (fit event List.mem_cons_self)
      exact inductionHypothesis (fun e member => fit e (List.mem_cons_of_mem event member)) _ _ first
  exact run .empty .empty holds_empty

/-! ## Listing -/

/-- An entry that is read is read as the whole file would be. -/
theorem readEntry_of_answered {after : Nat} {file : File} {answer : Except String DirEntry} (answered : Answered file answer)
    {found : Option JournalRecord} (read : readEntry after answer = .ok found) : readEntry after file.entry = .ok found := by
  cases answered with
  | lost detail => cases read
  | unread detail =>
    simp only [readEntry, File.entry] at read ⊢
    cases named : seqOf (keyOf file.name) with
    | none => simpa only [named] using read
    | some seq =>
      by_cases below : seq ≤ after
      · simpa only [named, below, if_true] using read
      · simp only [named, below, if_false, reduceCtorEq] at read
  | whole => exact read

/-- A listing that reaches its end has read every file it needed whole. -/
theorem readEntries_of_answered {after : Nat} {files : List File} {answers : List (Except String DirEntry)}
    (answered : List.Forall₂ Answered files answers) {records : List JournalRecord}
    (read : readEntries after answers = .ok records) : readEntries after (files.map File.entry) = .ok records := by
  induction answered generalizing records with
  | nil => exact read
  | @cons file answer files answers one rest inductionHypothesis =>
    rw [List.map_cons]
    cases first : readEntry after answer with
    | error detail => simp only [readEntries, first, reduceCtorEq] at read
    | ok found =>
      have whole := readEntry_of_answered one first
      cases found with
      | none =>
        simp only [readEntries, first, whole] at read ⊢
        exact inductionHypothesis read
      | some record =>
        simp only [readEntries, first, whole] at read ⊢
        cases more : readEntries after answers with
        | error detail => simp only [more, Except.map, reduceCtorEq] at read
        | ok others =>
          rw [inductionHypothesis more]
          rwa [more] at read

/-- What a file contributes to a listing. -/
def recordAbove (after : Nat) (file : File) : Option JournalRecord :=
  (seqOf (keyOf file.name)).bind fun seq => if seq ≤ after then none else (fromJson file.content).toOption

theorem Holds.readEntry {dir : Directory} {journal : FileJournal} (holds : Holds dir journal) (after : Nat) {file : File}
    (member : file ∈ dir.rows) : readEntry after file.entry = .ok (recordAbove after file) := by
  cases named : seqOf (keyOf file.name) with
  | none => simp only [Server.readEntry, File.entry, recordAbove, named, Option.bind_none]
  | some seq =>
    obtain ⟨record, recorded, rfl⟩ := holds.recorded file member seq named
    by_cases below : seq ≤ after
    · simp only [Server.readEntry, File.entry, recordAbove, named, Option.bind_some, below, if_true]
    · have read : fromJson (fileOf record).content = .ok record := holds.readBack record recorded
      simp only [Server.readEntry, File.entry, recordAbove, named, Option.bind_some, below, if_false, read]
      rfl

/-- Read whole, the directory yields what its files contribute. -/
theorem Holds.readEntries {dir : Directory} {journal : FileJournal} (holds : Holds dir journal) (after : Nat)
    {files : List File} (inside : ∀ file ∈ files, file ∈ dir.rows) :
    readEntries after (files.map File.entry) = .ok (files.filterMap (recordAbove after)) := by
  induction files with
  | nil => rfl
  | cons file files inductionHypothesis =>
    have first := holds.readEntry after (inside file List.mem_cons_self)
    have rest := inductionHypothesis fun f member => inside f (List.mem_cons_of_mem file member)
    cases found : recordAbove after file with
    | none =>
      rw [found] at first
      rw [List.map_cons, List.filterMap_cons_none found]
      simp only [Server.readEntries, first, rest]
    | some record =>
      rw [found] at first
      rw [List.map_cons, List.filterMap_cons_some found]
      simp only [Server.readEntries, first, rest]
      rfl

/-- A file contributes a record exactly if it is the file of one above the bound. -/
theorem Holds.recordAbove_eq_some {dir : Directory} {journal : FileJournal} (holds : Holds dir journal) {after : Nat}
    {file : File} (member : file ∈ dir.rows) {record : JournalRecord} :
    recordAbove after file = some record ↔
      record ∈ journal.records.rows ∧ after < record.seq ∧ file = fileOf record := by
  constructor
  · intro found
    obtain ⟨seq, named, rest⟩ := Option.bind_eq_some_iff.mp found
    obtain ⟨old, recorded, rfl⟩ := holds.recorded file member seq named
    have same : old.seq = seq := Option.some.inj ((seqOf_fileOf (holds.sized old recorded)).symm.trans named)
    subst same
    have read : fromJson (fileOf old).content = .ok old := holds.readBack old recorded
    by_cases below : old.seq ≤ after
    · simp [below] at rest
    · rw [if_neg below, read] at rest
      cases rest
      exact ⟨recorded, Nat.lt_of_not_le below, rfl⟩
  · rintro ⟨recorded, above, rfl⟩
    have read : fromJson (fileOf record).content = .ok record := holds.readBack record recorded
    rw [recordAbove, seqOf_fileOf (holds.sized record recorded), Option.bind_some, if_neg (Nat.not_le.mpr above), read]
    rfl

/-- Sorted, the contributions of the files are the records of the journal above the bound. -/
theorem Holds.listed {dir : Directory} {journal : FileJournal} (holds : Holds dir journal) (after : Nat)
    {files : List File} (order : files.Perm dir.rows) :
    Listed journal after ((files.filterMap (recordAbove after)).insertionSort fun a b => a.seq ≤ b.seq) := by
  have inside : ∀ file ∈ files, file ∈ dir.rows := fun file => order.mem_iff.mp
  have sorting := List.perm_insertionSort (fun a b : JournalRecord => a.seq ≤ b.seq) (files.filterMap (recordAbove after))
  -- Files have different names, so records of one sequence are of one file.
  have names : files.Pairwise fun f g => f.name ≠ g.name :=
    List.pairwise_map.mp ((order.map File.name).nodup_iff.mpr dir.distinct)
  have apart : (files.filterMap (recordAbove after)).Pairwise fun r s => r.seq ≠ s.seq := by
    refine List.pairwise_filterMap.mpr (names.imp_of_mem ?_)
    intro f g memberF memberG different r foundR s foundS same
    obtain ⟨_, _, rfl⟩ := (holds.recordAbove_eq_some (inside f memberF)).mp foundR
    obtain ⟨_, _, rfl⟩ := (holds.recordAbove_eq_some (inside g memberG)).mp foundS
    exact different (congrArg fileName same)
  constructor
  · have ascending := List.pairwise_insertionSort (fun a b : JournalRecord => a.seq ≤ b.seq)
      (files.filterMap (recordAbove after))
    have distinct := (sorting.pairwise_iff fun different => Ne.symm different).mpr apart
    exact (ascending.and distinct).imp fun both => Nat.lt_of_le_of_ne both.1 both.2
  · intro record
    rw [sorting.mem_iff, List.mem_filterMap]
    constructor
    · rintro ⟨file, member, found⟩
      obtain ⟨recorded, above, _⟩ := (holds.recordAbove_eq_some (inside file member)).mp found
      exact ⟨recorded, above⟩
    · rintro ⟨recorded, above⟩
      have filed := holds.filed record recorded
      exact ⟨fileOf record, order.mem_iff.mpr filed, (holds.recordAbove_eq_some filed).mpr ⟨recorded, above, rfl⟩⟩

theorem lists_exactly {events : List FileEvent} (fit : ∀ event ∈ events, event.Fits) (after : Nat) :
    ListsExactly events after := by
  intro files order
  have holds := holds_of_run fit
  have read := holds.readEntries after fun file => order.mem_iff.mp
  have listed := holds.listed after order
  refine ⟨⟨_, ?_, listed⟩, ?_⟩
  · rw [listFiles, read]
    rfl
  · intro answers records answered found
    rw [listFiles] at found
    cases answer : readEntries after answers with
    | error detail =>
      rw [answer] at found
      cases found
    | ok unsorted =>
      have whole := readEntries_of_answered answered answer
      rw [answer] at found
      cases found
      cases read.symm.trans whole
      exact listed

/-- Names order as numbers, and a listing returns exactly the records put above the bound,
past temporary files and every file whose name is no record's. -/
theorem journal_files_order :
    (∀ seq < 2 ^ 64, seqOf (objectKey seq) = some seq) ∧
      (∀ seq < 2 ^ 64, ∀ other < 2 ^ 64, (objectKey seq < objectKey other ↔ seq < other)) ∧
      ∀ events, (∀ event ∈ events, event.Fits) → ∀ after, ListsExactly events after :=
  ⟨fun _ small => seqOf_objectKey small, fun _ small _ least => objectKey_lt_iff small least,
    fun _ fit after => lists_exactly fit after⟩

end

/-! ## A directory -/

/-- The deletion of a vault. -/
def deletionRecord (seq : Nat) : JournalRecord := ⟨seq, 1700000000, .deleteVault ⟨.fill 16 7⟩⟩

/-- Deletions in JSON. -/
def deletionJson (record : JournalRecord) : List UInt8 :=
  match record.op with
  | .deleteVault id =>
    encode (s!"\x7b\"seq\":{record.seq},\"ts\":{record.ts},\"op\":\x7b\"kind\":\"delete_vault\",\"vault_id\":\"".toList ++
      (toHex id.raw.bytes).toList ++ "\"\x7d\x7d".toList)
  | _ => []

/-- The JSON of deletions with a one-digit sequence. -/
@[reducible] def deletionsJson : JournalJson where
  toJson := deletionJson
  fromJson bytes :=
    match (List.range 10).find? fun seq => bytes = deletionJson (deletionRecord seq) with
    | some seq => .ok (deletionRecord seq)
    | none => .error "expected value at line 1 column 1"

/-- Puts out of order, one that fails before the rename and is made again, and a foreign
file: both records are listed. -/
theorem journal_files_order_of_retry :
    let _ := deletionsJson
    ListsExactly [.put (deletionRecord 2) .none none, .put (deletionRecord 1) (.sync "No space left on device (os error 28)") none,
      .write ⟨encode "x.json".toList, []⟩, .put (deletionRecord 1) .none none] 0 := by
  intro _
  refine journal_files_order.2.2 _ ?_ 0
  intro event member
  fin_cases member
  · exact ⟨by decide, by decide +kernel⟩
  · exact ⟨by decide, by decide +kernel⟩
  · exact (by decide +kernel : seqOf (keyOf (encode "x.json".toList)) = none)
  · exact ⟨by decide, by decide +kernel⟩

/-- A copy of a record's file whose name is its number without the zeros is a record too. -/
theorem copied_record_listed :
    let _ := deletionsJson
    let events : List FileEvent := [.put (deletionRecord 1) .none none, .write ⟨encode "1.json".toList, deletionJson (deletionRecord 1)⟩]
    listFiles 0 (.ok ((directory events).rows.map File.entry)) = .ok [deletionRecord 1, deletionRecord 1] ∧
      (putRecords events).records.rows = [deletionRecord 1] ∧ ¬ ListsExactly events 0 := by
  intro _ events
  have twice : listFiles 0 (.ok ((directory events).rows.map File.entry)) = .ok [deletionRecord 1, deletionRecord 1] := by
    decide +kernel
  refine ⟨twice, by decide +kernel, ?_⟩
  intro exactly
  obtain ⟨records, found, ascending, _⟩ := (exactly _ (List.Perm.refl _)).1
  cases twice.symm.trans found
  exact absurd ascending (by decide)

end GalataVault.Server

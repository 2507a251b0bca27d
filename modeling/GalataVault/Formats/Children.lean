import Mathlib.Data.String.Basic
import GalataVault.Library.BinarySearch
import GalataVault.Proto.Lines

/-!
# The children record

A node knows its children by a record that lists them by segment. The list is kept sorted:
insertion finds its place by a binary search, which the other operations and the parser
keep possible. So the record is a finite map from segments, and its bytes depend on nothing
but the entries.

JSON is a parameter: what it writes, and what it reads.
-/

namespace GalataVault.Formats

open Proto

/-! ## The code -/

def childrenRecordVersion : Nat := 1

def maxSegmentLen : Nat := 63

/-- A lowercase letter or a digit. -/
def isSegmentStart (c : UInt8) : Bool := (97 ≤ c && c ≤ 122) || (48 ≤ c && c ≤ 57)

/-- What `Segment::new` checks of a text. -/
def validSegment (s : String) : Bool :=
  match utf8 s with
  | [] => false
  | first :: rest =>
    (first :: rest).length ≤ maxSegmentLen && isSegmentStart first && (first :: rest).all fun c => isSegmentStart c || c == 45

/-- One validated segment. -/
structure Segment where
  name : String
  valid : validSegment name = true
deriving DecidableEq

theorem Segment.name_injective : Function.Injective Segment.name := by
  rintro ⟨left, _⟩ ⟨right, _⟩ same
  cases same
  rfl

/-- Segments are ordered as their texts are. -/
instance : LinearOrder Segment := LinearOrder.lift' Segment.name Segment.name_injective

inductive ChildMode where
  | derived
  | sealed (keyCt : B64)
deriving DecidableEq

structure ChildEntry where
  seg : Segment
  createdAt : Int
  mode : ChildMode
deriving DecidableEq

structure ChildrenRecord where
  v : Nat
  children : List ChildEntry
deriving DecidableEq

inductive ChildrenError where
  | version (v : Nat)
  | duplicate (seg : String)
  /-- `Exists` in the source, which is a keyword here. -/
  | present (seg : String)
  | missing (seg : String)
  | json (why : String)
deriving DecidableEq

/-- What `serde_json` writes for a record, and what it reads from bytes. -/
class RecordJson where
  toVec : ChildrenRecord → Except String (List UInt8)
  fromSlice : List UInt8 → Except String ChildrenRecord

/-- The first entry whose neighbour has the same segment. -/
def firstDuplicate : List ChildEntry → Option ChildEntry
  | a :: b :: rest => if a.seg = b.seg then some a else firstDuplicate (b :: rest)
  | _ => none

/-- Replace the mode of the first entry for a segment. -/
def replaceMode (seg : Segment) (mode : ChildMode) : List ChildEntry → Option (List ChildEntry)
  | [] => none
  | c :: rest => if c.seg = seg then some ({ c with mode := mode } :: rest) else (replaceMode seg mode rest).map (c :: ·)

namespace ChildrenRecord

def new : ChildrenRecord := ⟨childrenRecordVersion, []⟩

def parse [RecordJson] (bytes : List UInt8) : Except ChildrenError ChildrenRecord :=
  match RecordJson.fromSlice bytes with
  | .error why => .error (.json why)
  | .ok record =>
    if record.v ≠ childrenRecordVersion then .error (.version record.v)
    else
      let children := record.children.mergeSort fun a b => decide (a.seg ≤ b.seg)
      match firstDuplicate children with
      | some w => .error (.duplicate w.seg.name)
      | none => .ok ⟨record.v, children⟩

/-- Canonical bytes: children sorted by segment. -/
def toBytes [RecordJson] (record : ChildrenRecord) : Except ChildrenError (List UInt8) :=
  (RecordJson.toVec record).mapError .json

def get (record : ChildrenRecord) (seg : Segment) : Option ChildEntry := record.children.find? fun c => c.seg = seg

/-- The result, and the record afterwards. -/
def insert (record : ChildrenRecord) (entry : ChildEntry) : Except ChildrenError Unit × ChildrenRecord :=
  match BinarySearch.search (fun c => compare c.seg entry.seg) record.children with
  | .ok _ => (.error (.present entry.seg.name), record)
  | .error place => (.ok (), { record with children := record.children.insertIdx place entry })

/-- Replace an existing child's mode. -/
def setMode (record : ChildrenRecord) (seg : Segment) (mode : ChildMode) : Except ChildrenError Unit × ChildrenRecord :=
  match replaceMode seg mode record.children with
  | none => (.error (.missing seg.name), record)
  | some children => (.ok (), { record with children := children })

def remove (record : ChildrenRecord) (seg : Segment) : Except ChildrenError ChildEntry × ChildrenRecord :=
  match record.children.findIdx? fun c => c.seg = seg with
  | none => (.error (.missing seg.name), record)
  | some place =>
    match record.children[place]? with
    | none => (.error (.missing seg.name), record)
    | some entry => (.ok entry, { record with children := record.children.eraseIdx place })

end ChildrenRecord

/-! ## The order -/

/-- The entries are sorted by segment, without duplicates. -/
def Ordered (record : ChildrenRecord) : Prop := BinarySearch.Sorted ChildEntry.seg record.children

/-- Sortedness depends on the segments alone. -/
theorem sorted_iff_map {children : List ChildEntry} :
    BinarySearch.Sorted ChildEntry.seg children ↔ (children.map ChildEntry.seg).Pairwise (· < ·) := by
  rw [List.pairwise_map]
  rfl

theorem firstDuplicate_eq_none {children : List ChildEntry} (none : firstDuplicate children = none) :
    ∀ front a b back, children = front ++ a :: b :: back → a.seg ≠ b.seg := by
  intro front
  induction front generalizing children with
  | nil =>
    rintro a b back rfl same
    simp [firstDuplicate, same] at none
  | cons c front inductionHypothesis =>
    rintro a b back rfl
    refine @inductionHypothesis (front ++ a :: b :: back) ?_ a b back rfl
    cases front with
    | nil =>
      simp only [List.nil_append, List.cons_append, firstDuplicate] at none ⊢
      split at none
      · cases none
      · exact none
    | cons d front =>
      simp only [List.cons_append, firstDuplicate] at none ⊢
      split at none
      · cases none
      · exact none

theorem firstDuplicate_of_sorted {children : List ChildEntry} (sorted : BinarySearch.Sorted ChildEntry.seg children) :
    firstDuplicate children = none := by
  induction children with
  | nil => rfl
  | cons a rest inductionHypothesis =>
    obtain ⟨below, tail⟩ := List.pairwise_cons.mp sorted
    cases rest with
    | nil => rfl
    | cons b rest =>
      rw [firstDuplicate, if_neg (ne_of_lt (below b (List.mem_cons_self ..))), inductionHypothesis tail]

theorem mergeSort_sorted (children : List ChildEntry) :
    (children.mergeSort fun a b => decide (a.seg ≤ b.seg)).Pairwise fun a b => a.seg ≤ b.seg := by
  have sorted := @List.pairwise_mergeSort _ (fun a b : ChildEntry => decide (a.seg ≤ b.seg))
    (fun a b c first second => decide_eq_true (le_trans (of_decide_eq_true first) (of_decide_eq_true second)))
    (fun a b => by simpa using le_total a.seg b.seg) children
  exact sorted.imp fun order => of_decide_eq_true order

section

variable [RecordJson]

theorem parse_ordered {bytes : List UInt8} {record : ChildrenRecord} (parsed : ChildrenRecord.parse bytes = .ok record) :
    Ordered record ∧ record.v = childrenRecordVersion := by
  unfold ChildrenRecord.parse at parsed
  split at parsed
  · cases parsed
  · next read _ =>
    split at parsed
    · cases parsed
    · next version =>
      dsimp only at parsed
      split at parsed
      · cases parsed
      · next distinct =>
        obtain rfl := Except.ok.inj parsed
        exact ⟨BinarySearch.sorted_of_le (mergeSort_sorted _) (firstDuplicate_eq_none distinct), not_not.mp version⟩

end

/-! ## The operations on the entries -/

theorem insertIdx_append {α : Type} (front back : List α) (a : α) :
    (front ++ back).insertIdx front.length a = front ++ a :: back := by
  induction front with
  | nil => rfl
  | cons b front inductionHypothesis =>
    rw [List.cons_append, List.length_cons, List.insertIdx_succ_cons, inductionHypothesis, List.cons_append]

/-- Replacing a mode keeps the segments. -/
theorem replaceMode_segments {seg : Segment} {mode : ChildMode} {children changed : List ChildEntry}
    (replaced : replaceMode seg mode children = some changed) :
    changed.map ChildEntry.seg = children.map ChildEntry.seg := by
  induction children generalizing changed with
  | nil => cases replaced
  | cons c rest inductionHypothesis =>
    rw [replaceMode] at replaced
    split at replaced
    · obtain rfl := Option.some.inj replaced
      rfl
    · obtain ⟨tail, more, rfl⟩ := Option.map_eq_some_iff.mp replaced
      rw [List.map_cons, List.map_cons, inductionHypothesis more]

theorem replaceMode_eq_none {seg : Segment} {mode : ChildMode} {children : List ChildEntry} :
    replaceMode seg mode children = none ↔ ∀ e ∈ children, e.seg ≠ seg := by
  induction children with
  | nil => simp [replaceMode]
  | cons c rest inductionHypothesis =>
    rw [replaceMode, List.forall_mem_cons]
    split
    · next same => simp [same]
    · next differs => simp [differs, inductionHypothesis]

/-- What stands in a sorted list after one mode was replaced. -/
theorem mem_replaceMode {seg : Segment} {mode : ChildMode} {children changed : List ChildEntry}
    (sorted : BinarySearch.Sorted ChildEntry.seg children) (replaced : replaceMode seg mode children = some changed)
    {old : ChildEntry} (there : old ∈ children) (named : old.seg = seg) (e : ChildEntry) :
    e ∈ changed ↔ e = { old with mode := mode } ∨ e ∈ children ∧ e.seg ≠ seg := by
  induction children generalizing changed with
  | nil => cases there
  | cons c rest inductionHypothesis =>
    obtain ⟨below, tail⟩ := List.pairwise_cons.mp sorted
    rw [replaceMode] at replaced
    split at replaced
    · next here =>
      obtain rfl := Option.some.inj replaced
      obtain rfl : old = c := by
        cases there with
        | head => rfl
        | tail _ later => exact absurd (here.trans named.symm) (ne_of_lt (below old later))
      have others : ∀ b ∈ rest, b.seg ≠ seg := fun b later => here ▸ ne_of_gt (below b later)
      simp only [List.mem_cons]
      constructor
      · rintro (first | later)
        · exact Or.inl first
        · exact Or.inr ⟨Or.inr later, others e later⟩
      · rintro (first | ⟨rfl | later, differs⟩)
        · exact Or.inl first
        · exact absurd here differs
        · exact Or.inr later
    · next elsewhere =>
      obtain ⟨more, replacedMore, rfl⟩ := Option.map_eq_some_iff.mp replaced
      have later : old ∈ rest := by
        cases there with
        | head => exact absurd named elsewhere
        | tail _ later => exact later
      rw [List.mem_cons, inductionHypothesis tail replacedMore later, List.mem_cons]
      constructor
      · rintro (rfl | first | ⟨member, differs⟩)
        · exact Or.inr ⟨Or.inl rfl, elsewhere⟩
        · exact Or.inl first
        · exact Or.inr ⟨Or.inr member, differs⟩
      · rintro (first | ⟨rfl | member, differs⟩)
        · exact Or.inr (Or.inl first)
        · exact Or.inl rfl
        · exact Or.inr (Or.inr ⟨member, differs⟩)

section

variable {record : ChildrenRecord} (ordered : Ordered record)
include ordered

/-- An entry is got exactly if it is there. -/
theorem get_eq_some_iff {seg : Segment} {entry : ChildEntry} :
    record.get seg = some entry ↔ entry ∈ record.children ∧ entry.seg = seg := by
  constructor
  · intro found
    exact ⟨List.mem_of_find?_eq_some found, by simpa using List.find?_some found⟩
  · rintro ⟨member, rfl⟩
    cases found : record.get entry.seg with
    | none =>
      have absent := List.find?_eq_none.mp found entry member
      simp at absent
    | some other =>
      have same : other.seg = entry.seg := by simpa using List.find?_some found
      rw [ordered.eq_of_key (List.mem_of_find?_eq_some found) member same]

/-- An insertion succeeds exactly for a segment that is not there. -/
theorem insert_new {entry : ChildEntry} (absent : ∀ e ∈ record.children, e.seg ≠ entry.seg) :
    (record.insert entry).1 = .ok () ∧ Ordered (record.insert entry).2 ∧ (record.insert entry).2.v = record.v ∧
      ∀ e, e ∈ (record.insert entry).2.children ↔ e = entry ∨ e ∈ record.children := by
  unfold ChildrenRecord.insert
  obtain ⟨i, e, _, stands, same⟩ | ⟨front, back, place, whole, below, above⟩ := BinarySearch.search_spec ordered entry.seg
  · exact absurd same (absent e (List.mem_of_getElem? stands))
  · rw [place]
    dsimp only
    have put : record.children.insertIdx front.length entry = front ++ entry :: back := by
      rw [whole, insertIdx_append]
    rw [put]
    refine ⟨rfl, ?_, rfl, ?_⟩
    · have parts := ordered
      unfold Ordered BinarySearch.Sorted at parts ⊢
      rw [whole] at parts
      obtain ⟨first, second, between⟩ := List.pairwise_append.mp parts
      refine List.pairwise_append.mpr ⟨first, List.pairwise_cons.mpr ⟨above, second⟩, ?_⟩
      intro a member b other
      cases other with
      | head => exact below a member
      | tail _ later => exact between a member b later
    · intro e
      rw [whole]
      simp only [List.mem_append, List.mem_cons]
      tauto

theorem insert_present {entry : ChildEntry} {old : ChildEntry} (there : old ∈ record.children) (same : old.seg = entry.seg) :
    record.insert entry = (.error (.present entry.seg.name), record) := by
  unfold ChildrenRecord.insert
  obtain ⟨i, e, found, _, _⟩ | ⟨front, back, _, whole, below, above⟩ := BinarySearch.search_spec ordered entry.seg
  · rw [found]
  · rw [whole] at there
    obtain before | after := List.mem_append.mp there
    · exact absurd same (ne_of_lt (below old before))
    · exact absurd same (ne_of_gt (above old after))

/-- A mode is replaced exactly for a segment that is there. -/
theorem setMode_present {seg : Segment} (mode : ChildMode) {old : ChildEntry} (there : old ∈ record.children)
    (named : old.seg = seg) :
    (record.setMode seg mode).1 = .ok () ∧ Ordered (record.setMode seg mode).2 ∧
      (record.setMode seg mode).2.v = record.v ∧
        ∀ e, e ∈ (record.setMode seg mode).2.children ↔ e = { old with mode := mode } ∨ e ∈ record.children ∧ e.seg ≠ seg := by
  unfold ChildrenRecord.setMode
  split
  · next missing => exact absurd named (replaceMode_eq_none.mp missing old there)
  · next changed replaced =>
    refine ⟨rfl, ?_, rfl, mem_replaceMode ordered replaced there named⟩
    unfold Ordered at ordered ⊢
    rw [sorted_iff_map] at ordered ⊢
    rwa [replaceMode_segments replaced]

omit ordered in
theorem setMode_missing {seg : Segment} (mode : ChildMode) (absent : ∀ e ∈ record.children, e.seg ≠ seg) :
    record.setMode seg mode = (.error (.missing seg.name), record) := by
  unfold ChildrenRecord.setMode
  rw [replaceMode_eq_none.mpr absent]

/-- An entry is removed exactly for a segment that is there. -/
theorem remove_present {seg : Segment} {old : ChildEntry} (there : old ∈ record.children) (named : old.seg = seg) :
    (record.remove seg).1 = .ok old ∧ Ordered (record.remove seg).2 ∧ (record.remove seg).2.v = record.v ∧
      ∀ e, e ∈ (record.remove seg).2.children ↔ e ∈ record.children ∧ e.seg ≠ seg := by
  unfold ChildrenRecord.remove
  cases position : record.children.findIdx? fun c => c.seg = seg with
  | none =>
    have absent := List.findIdx?_eq_none_iff.mp position old there
    simp [named] at absent
  | some place =>
    obtain ⟨inside, matched, _⟩ := List.findIdx?_eq_some_iff_getElem.mp position
    have found : record.children[place]? = some record.children[place] := List.getElem?_eq_getElem inside
    have same : record.children[place] = old :=
      ordered.eq_of_key (List.getElem_mem inside) there (by rw [named]; simpa using matched)
    dsimp only
    rw [found, same]
    refine ⟨rfl, List.Pairwise.sublist (List.eraseIdx_sublist _ _) ordered, rfl, ?_⟩
    have whole : record.children = record.children.take place ++ old :: record.children.drop (place + 1) := by
      rw [← same, List.getElem_cons_drop, List.take_append_drop]
    have parts := ordered
    unfold Ordered BinarySearch.Sorted at parts
    rw [whole] at parts
    obtain ⟨_, second, between⟩ := List.pairwise_append.mp parts
    intro e
    rw [List.eraseIdx_eq_take_drop_succ]
    conv => rhs; rw [whole]
    simp only [List.mem_append, List.mem_cons]
    constructor
    · rintro (before | after)
      · exact ⟨Or.inl before, named ▸ ne_of_lt (between e before old (List.mem_cons_self ..))⟩
      · exact ⟨Or.inr (Or.inr after), named ▸ ne_of_gt ((List.pairwise_cons.mp second).1 e after)⟩
    · rintro ⟨before | rfl | after, differs⟩
      · exact Or.inl before
      · exact absurd named differs
      · exact Or.inr after

omit ordered in
theorem remove_missing {seg : Segment} (absent : ∀ e ∈ record.children, e.seg ≠ seg) :
    record.remove seg = (.error (.missing seg.name), record) := by
  have nowhere : (record.children.findIdx? fun c => c.seg = seg) = none := by
    rw [List.findIdx?_eq_none_iff]
    exact fun e member => decide_eq_false (absent e member)
  unfold ChildrenRecord.remove
  rw [nowhere]

end

/-! ## The finite map -/

/-- A finite map from segments to entries. -/
abbrev ChildMap := Segment → Option ChildEntry

/-- The record holds the entries of the map, and no others. -/
def Represents (record : ChildrenRecord) (m : ChildMap) : Prop :=
  ∀ seg entry, m seg = some entry ↔ entry ∈ record.children ∧ entry.seg = seg

theorem Represents.absent {record : ChildrenRecord} {m : ChildMap} (represents : Represents record m) {seg : Segment}
    (none : m seg = none) : ∀ e ∈ record.children, e.seg ≠ seg := by
  intro e member same
  rw [(represents seg e).mpr ⟨member, same⟩] at none
  cases none

/-- A record that has one entry in place of those of its segment holds the map with it. -/
theorem Represents.put {record after : ChildrenRecord} {m : ChildMap} (represents : Represents record m)
    {entry : ChildEntry} {seg : Segment} (named : entry.seg = seg)
    (members : ∀ e, e ∈ after.children ↔ e = entry ∨ e ∈ record.children ∧ e.seg ≠ seg) :
    Represents after (Function.update m seg (some entry)) := by
  intro other e
  rw [members]
  by_cases same : other = seg
  · subst same
    rw [Function.update_self, Option.some.injEq]
    constructor
    · rintro rfl
      exact ⟨Or.inl rfl, named⟩
    · rintro ⟨rfl | ⟨_, differs⟩, called⟩
      · rfl
      · exact absurd called differs
  · rw [Function.update_of_ne same, represents other e]
    constructor
    · exact fun ⟨within, called⟩ => ⟨Or.inr ⟨within, fun clash => same (called.symm.trans clash)⟩, called⟩
    · rintro ⟨rfl | ⟨within, _⟩, called⟩
      · exact absurd (called.symm.trans named) same
      · exact ⟨within, called⟩

/-- A record without the entries of a segment holds the map without it. -/
theorem Represents.drop {record after : ChildrenRecord} {m : ChildMap} (represents : Represents record m) {seg : Segment}
    (members : ∀ e, e ∈ after.children ↔ e ∈ record.children ∧ e.seg ≠ seg) :
    Represents after (Function.update m seg none) := by
  intro other e
  rw [members]
  by_cases same : other = seg
  · subst same
    simp only [Function.update_self, reduceCtorEq, false_iff]
    exact fun ⟨⟨_, differs⟩, called⟩ => differs called
  · rw [Function.update_of_ne same, represents other e]
    constructor
    · exact fun ⟨within, called⟩ => ⟨⟨within, fun clash => same (called.symm.trans clash)⟩, called⟩
    · exact fun ⟨⟨within, _⟩, called⟩ => ⟨within, called⟩

section

variable [RecordJson]

/-- The records that a sequence of operations comes to from a new or a parsed record. -/
inductive Reachable : ChildrenRecord → Prop
  | new : Reachable ChildrenRecord.new
  | parse {bytes : List UInt8} {record : ChildrenRecord} : ChildrenRecord.parse bytes = .ok record → Reachable record
  | insert {record : ChildrenRecord} (entry : ChildEntry) : Reachable record → Reachable (record.insert entry).2
  | setMode {record : ChildrenRecord} (seg : Segment) (mode : ChildMode) :
    Reachable record → Reachable (record.setMode seg mode).2
  | remove {record : ChildrenRecord} (seg : Segment) : Reachable record → Reachable (record.remove seg).2

/-- Every operation keeps the order and the version. -/
theorem Reachable.ordered {record : ChildrenRecord} (reachable : Reachable record) :
    Ordered record ∧ record.v = childrenRecordVersion := by
  induction reachable with
  | new => exact ⟨List.Pairwise.nil, rfl⟩
  | parse parsed => exact parse_ordered parsed
  | @insert record entry _ inductionHypothesis =>
    by_cases there : ∃ e ∈ record.children, e.seg = entry.seg
    · obtain ⟨old, member, same⟩ := there
      rw [insert_present inductionHypothesis.1 member same]
      exact inductionHypothesis
    · push Not at there
      obtain ⟨_, order, version, _⟩ := insert_new inductionHypothesis.1 there
      exact ⟨order, version.trans inductionHypothesis.2⟩
  | @setMode record seg mode _ inductionHypothesis =>
    by_cases there : ∃ e ∈ record.children, e.seg = seg
    · obtain ⟨old, member, same⟩ := there
      obtain ⟨_, order, version, _⟩ := setMode_present inductionHypothesis.1 mode member same
      exact ⟨order, version.trans inductionHypothesis.2⟩
    · push Not at there
      rw [setMode_missing mode there]
      exact inductionHypothesis
  | @remove record seg _ inductionHypothesis =>
    by_cases there : ∃ e ∈ record.children, e.seg = seg
    · obtain ⟨old, member, same⟩ := there
      obtain ⟨_, order, version, _⟩ := remove_present inductionHypothesis.1 member same
      exact ⟨order, version.trans inductionHypothesis.2⟩
    · push Not at there
      rw [remove_missing there]
      exact inductionHypothesis

/-- What the operations do to the map. -/
structure ActsAsMap (record : ChildrenRecord) (m : ChildMap) : Prop where
  get : ∀ seg, record.get seg = m seg
  insertNew : ∀ entry, m entry.seg = none →
    (record.insert entry).1 = .ok () ∧ Represents (record.insert entry).2 (Function.update m entry.seg (some entry))
  insertPresent : ∀ entry old, m entry.seg = some old →
    record.insert entry = (.error (.present entry.seg.name), record)
  setModePresent : ∀ seg mode old, m seg = some old →
    (record.setMode seg mode).1 = .ok () ∧
      Represents (record.setMode seg mode).2 (Function.update m seg (some { old with mode := mode }))
  setModeMissing : ∀ seg mode, m seg = none → record.setMode seg mode = (.error (.missing seg.name), record)
  removePresent : ∀ seg old, m seg = some old →
    (record.remove seg).1 = .ok old ∧ Represents (record.remove seg).2 (Function.update m seg none)
  removeMissing : ∀ seg, m seg = none → record.remove seg = (.error (.missing seg.name), record)

omit [RecordJson] in
theorem acts_as_map {record : ChildrenRecord} (ordered : Ordered record) {m : ChildMap} (represents : Represents record m) :
    ActsAsMap record m where
  get := by
    intro seg
    apply Option.ext
    intro entry
    rw [get_eq_some_iff ordered, represents seg entry]
  insertNew := by
    intro entry none
    have apart := represents.absent none
    obtain ⟨done, _, _, members⟩ := insert_new ordered apart
    refine ⟨done, represents.put rfl fun e => (members e).trans (or_congr_right ?_)⟩
    exact (and_iff_left_of_imp (apart e)).symm
  insertPresent := by
    intro entry old there
    obtain ⟨member, named⟩ := (represents _ _).mp there
    exact insert_present ordered member named
  setModePresent := by
    intro seg mode old there
    obtain ⟨member, named⟩ := (represents _ _).mp there
    obtain ⟨done, _, _, members⟩ := setMode_present ordered mode member named
    exact ⟨done, represents.put named members⟩
  setModeMissing := fun _ mode none => setMode_missing mode (represents.absent none)
  removePresent := by
    intro seg old there
    obtain ⟨member, named⟩ := (represents _ _).mp there
    obtain ⟨done, _, _, members⟩ := remove_present ordered member named
    exact ⟨done, represents.drop members⟩
  removeMissing := fun _ none => remove_missing (represents.absent none)

/-- A sorted record is parsed from what reads back as it. -/
theorem parse_of_read {record : ChildrenRecord} {bytes : List UInt8} (ordered : Ordered record)
    (version : record.v = childrenRecordVersion) (read : RecordJson.fromSlice bytes = .ok record) :
    ChildrenRecord.parse bytes = .ok record := by
  have kept : (record.children.mergeSort fun a b => decide (a.seg ≤ b.seg)) = record.children :=
    List.mergeSort_of_pairwise (ordered.imp fun order => decide_eq_true (le_of_lt order))
  unfold ChildrenRecord.parse
  rw [read]
  dsimp only
  rw [if_neg (not_not.mpr version), kept, firstDuplicate_of_sorted ordered]

/-- **The children record is a finite map with one encoding.** After any operations on a new or
parsed record the entries are sorted by segment without duplicates, the operations are those
of a finite map, failing without change exactly on a present or missing segment, the record is
parsed from its bytes wherever JSON reads back what it wrote, and records with the same
entries have the same bytes. -/
theorem children_record_map (record : ChildrenRecord) (reachable : Reachable record) :
    Ordered record ∧ (∃ m, Represents record m) ∧ (∀ m, Represents record m → ActsAsMap record m) ∧
      (∀ bytes, record.toBytes = .ok bytes → RecordJson.fromSlice bytes = .ok record →
        ChildrenRecord.parse bytes = .ok record) ∧
      ∀ other, Reachable other → (∀ e, e ∈ record.children ↔ e ∈ other.children) → record.toBytes = other.toBytes := by
  obtain ⟨ordered, version⟩ := reachable.ordered
  refine ⟨ordered, ⟨record.get, fun _ _ => get_eq_some_iff ordered⟩, fun m represents => acts_as_map ordered represents,
    fun bytes _ read => parse_of_read ordered version read, ?_⟩
  intro other reachable' same
  obtain ⟨ordered', version'⟩ := reachable'.ordered
  have children := ordered.eq_of_mem_iff ordered' same
  have whole : record = other := by
    obtain ⟨v, entries⟩ := record
    obtain ⟨v', entries'⟩ := other
    cases children
    cases version
    cases version'
    rfl
  rw [whole]

end

theorem dev_valid : validSegment "dev" = true := by
  unfold validSegment
  rw [utf8_eq_data]
  decide +kernel

/-- A record with one derived child. -/
def oneChild : ChildrenRecord := ⟨1, [⟨⟨"dev", dev_valid⟩, 1, .derived⟩]⟩

def oneChildText : List UInt8 :=
  utf8 "\x7b\"v\":1,\"children\":[\x7b\"seg\":\"dev\",\"created_at\":1,\"mode\":\x7b\"kind\":\"derived\"\x7d\x7d]\x7d"

/-- JSON of that record, and of nothing else. -/
@[reducible] def oneChildJson : RecordJson where
  toVec := fun record => if record = oneChild then .ok oneChildText else .error ""
  fromSlice := fun bytes => if bytes = oneChildText then .ok oneChild else .error ""

theorem children_record_map_of_one_child :
    let _ := oneChildJson
    oneChild.toBytes = .ok oneChildText ∧ ChildrenRecord.parse oneChildText = .ok oneChild := by
  let _ := oneChildJson
  have reachable : Reachable oneChild := Reachable.insert ⟨⟨"dev", dev_valid⟩, 1, .derived⟩ .new
  have written : oneChild.toBytes = .ok oneChildText := by
    change (if oneChild = oneChild then Except.ok oneChildText else .error "").mapError ChildrenError.json = _
    rw [if_pos rfl]
    rfl
  exact ⟨written, (children_record_map oneChild reachable).2.2.2.1 oneChildText written (if_pos rfl)⟩

end GalataVault.Formats

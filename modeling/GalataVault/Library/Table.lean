import Mathlib.Data.List.Nodup
import Mathlib.Data.List.Dedup

/-!
# Tables with a primary key

A table is a finite list of rows in which no two rows have the same key. The
key is a function of the row, so one library serves every table of a schema;
distinctness is a field, so a state with a duplicate key cannot be written down.

The operations are the data-manipulation statements of a relational store:
selection and deletion under a predicate, a key-preserving update, an insertion
that is refused on a duplicate key, and the insertion that overwrites on one.
Rows stay in insertion order, which no law below depends on beyond selection
commuting with the statements. Ordering of query results is the caller's.
-/

namespace Relational

universe u v

/-- Rows with pairwise distinct keys. -/
structure Table {ρ : Type u} {κ : Type v} (key : ρ → κ) where
  rows : List ρ
  distinct : (rows.map key).Nodup

namespace Table

variable {ρ : Type u} {κ : Type v} {key : ρ → κ}

/-- A table is its list of rows. -/
@[ext] theorem ext {left right : Table key} (same : left.rows = right.rows) : left = right := by
  cases left
  cases right
  cases same
  rfl

instance [DecidableEq ρ] : DecidableEq (Table key) := fun left right =>
  decidable_of_iff (left.rows = right.rows) ⟨ext, fun same => same ▸ rfl⟩

/-- The table without rows. -/
def empty : Table key := ⟨[], List.nodup_nil⟩

/-- `SELECT … WHERE p`, in insertion order. -/
def select (table : Table key) (p : ρ → Bool) : List ρ := table.rows.filter p

/-- `DELETE … WHERE p`. -/
def deleteWhere (table : Table key) (p : ρ → Bool) : Table key where
  rows := table.rows.filter (fun row => !p row)
  distinct := (List.Sublist.map key List.filter_sublist).nodup table.distinct

/-- One row of `UPDATE … SET f WHERE p`. -/
def rewrite (p : ρ → Bool) (f : ρ → ρ) (row : ρ) : ρ := if p row then f row else row

theorem rewrite_key (p : ρ → Bool) (f : ρ → ρ) (keeps : ∀ row, key (f row) = key row) (row : ρ) :
    key (rewrite p f row) = key row := by
  unfold rewrite
  split
  · exact keeps row
  · rfl

/-- `UPDATE … SET f WHERE p`. The assignment leaves the key columns alone, and
says so where it is written. -/
def updateWhere (table : Table key) (p : ρ → Bool) (f : ρ → ρ)
    (keeps : ∀ row, key (f row) = key row := by intro row; rfl) : Table key where
  rows := table.rows.map (rewrite p f)
  distinct := by
    have same : (table.rows.map (rewrite p f)).map key = table.rows.map key := by
      rw [List.map_map]
      exact List.map_congr_left (fun row _ => rewrite_key p f keeps row)
    exact same ▸ table.distinct

variable [DecidableEq κ]

/-- The row with the given key. -/
def find? (table : Table key) (k : κ) : Option ρ := table.rows.find? (fun row => key row = k)

/-- Looking up by key finds exactly the rows of the table: at most one row has it. -/
theorem find?_eq_some {table : Table key} {k : κ} {row : ρ} :
    table.find? k = some row ↔ row ∈ table.rows ∧ key row = k := by
  constructor
  · intro found
    exact ⟨List.mem_of_find?_eq_some found, by simpa using List.find?_some found⟩
  · rintro ⟨member, rfl⟩
    cases found : table.find? (key row) with
    | none =>
      have absent := List.find?_eq_none.mp found row member
      simp at absent
    | some other =>
      have otherMember : other ∈ table.rows := List.mem_of_find?_eq_some found
      have sameKey : key other = key row := by simpa using List.find?_some found
      rw [List.inj_on_of_nodup_map table.distinct otherMember member sameKey]

/-- `INSERT`, refused when the key is taken. -/
def insert (table : Table key) (row : ρ) : Option (Table key) :=
  if fresh : key row ∈ table.rows.map key then none
  else some {
    rows := table.rows ++ [row]
    distinct := by
      rw [List.map_append, List.nodup_append]
      refine ⟨table.distinct, by simp, ?_⟩
      intro old present new single same
      simp only [List.map_cons, List.map_nil, List.mem_singleton] at single
      exact fresh (by rw [← single, ← same]; exact present) }

/-- `INSERT … ON CONFLICT (key) DO UPDATE`: the row takes the place of the one
with its key, or is appended. -/
def upsert (table : Table key) (row : ρ) : Table key :=
  if fresh : key row ∈ table.rows.map key then {
    rows := table.rows.map (fun old => if key old = key row then row else old)
    distinct := by
      have same : (table.rows.map (fun old => if key old = key row then row else old)).map key =
          table.rows.map key := by
        rw [List.map_map]
        refine List.map_congr_left (fun old _ => ?_)
        by_cases hit : key old = key row
        · simp [hit]
        · simp [hit]
      exact same ▸ table.distinct }
  else {
    rows := table.rows ++ [row]
    distinct := by
      rw [List.map_append, List.nodup_append]
      refine ⟨table.distinct, by simp, ?_⟩
      intro old present new single same
      simp only [List.map_cons, List.map_nil, List.mem_singleton] at single
      exact fresh (by rw [← single, ← same]; exact present) }

/-! ## What a lookup finds after a statement -/

theorem find?_eq_none {table : Table key} {k : κ} :
    table.find? k = none ↔ ∀ row ∈ table.rows, key row ≠ k := by
  simp [find?, List.find?_eq_none]

/-- An insertion succeeds exactly on a fresh key, and appends the row. -/
theorem insert_eq_some {table after : Table key} {row : ρ} :
    table.insert row = some after ↔
      (∀ old ∈ table.rows, key old ≠ key row) ∧ after.rows = table.rows ++ [row] := by
  unfold insert
  split
  · next taken =>
    obtain ⟨old, member, same⟩ := List.mem_map.mp taken
    constructor
    · simp
    · rintro ⟨fresh, _⟩
      exact absurd same (fresh old member)
  · next fresh =>
    rw [Option.some.injEq]
    constructor
    · rintro rfl
      exact ⟨fun old member same => fresh (List.mem_map.mpr ⟨old, member, same⟩), rfl⟩
    · rintro ⟨_, rows⟩
      exact ext rows.symm

/-- An insertion is refused exactly on a taken key. -/
theorem insert_eq_none {table : Table key} {row : ρ} :
    table.insert row = none ↔ ∃ old, table.find? (key row) = some old := by
  unfold insert
  split
  · next taken =>
    obtain ⟨old, member, same⟩ := List.mem_map.mp taken
    exact iff_of_true rfl ⟨old, find?_eq_some.mpr ⟨member, same⟩⟩
  · next fresh =>
    refine iff_of_false (Option.some_ne_none _) ?_
    rintro ⟨old, found⟩
    obtain ⟨member, same⟩ := find?_eq_some.mp found
    exact fresh (List.mem_map.mpr ⟨old, member, same⟩)

theorem find?_insert {table after : Table key} {row : ρ} (inserted : table.insert row = some after)
    (k : κ) : after.find? k = if key row = k then some row else table.find? k := by
  obtain ⟨fresh, rows⟩ := insert_eq_some.mp inserted
  split
  · next same =>
    exact find?_eq_some.mpr ⟨by simp [rows], same⟩
  · next differs =>
    simp [find?, rows, List.find?_append, differs]

theorem find?_updateWhere (table : Table key) (p : ρ → Bool) (f : ρ → ρ)
    (keeps : ∀ row, key (f row) = key row) (k : κ) :
    (table.updateWhere p f keeps).find? k = (table.find? k).map (rewrite p f) := by
  change (table.rows.map (rewrite p f)).find? _ = _
  rw [List.find?_map]
  have same : (fun row => decide (key row = k)) ∘ rewrite p f = fun row => decide (key row = k) :=
    funext fun row => by rw [Function.comp_apply, rewrite_key p f keeps]
  rw [same]
  rfl

theorem find?_deleteWhere (table : Table key) (p : ρ → Bool) (k : κ) :
    (table.deleteWhere p).find? k = (table.find? k).filter (fun row => !p row) := by
  cases found : table.find? k with
  | none =>
    rw [Option.filter_none, find?_eq_none]
    exact fun row member => find?_eq_none.mp found row (List.mem_of_mem_filter member)
  | some row =>
    obtain ⟨member, same⟩ := find?_eq_some.mp found
    rw [Option.filter_some]
    split
    · next kept => exact find?_eq_some.mpr ⟨List.mem_filter.mpr ⟨member, kept⟩, same⟩
    · next dropped =>
      rw [find?_eq_none]
      intro other otherMember otherSame
      obtain ⟨otherMember, otherKept⟩ := List.mem_filter.mp otherMember
      have equal : other = row :=
        List.inj_on_of_nodup_map table.distinct otherMember member (otherSame.trans same.symm)
      exact dropped (equal ▸ otherKept)

/-! ## What a selection returns after a statement -/

omit [DecidableEq κ] in
theorem select_deleteWhere (table : Table key) (p q : ρ → Bool) :
    (table.deleteWhere p).select q = (table.select q).filter (fun row => !p row) := by
  simp only [select, deleteWhere, List.filter_filter, Bool.and_comm]

theorem select_insert {table after : Table key} {row : ρ} (inserted : table.insert row = some after)
    (p : ρ → Bool) : after.select p = table.select p ++ [row].filter p := by
  rw [select, (insert_eq_some.mp inserted).2, List.filter_append]
  rfl

omit [DecidableEq κ] in
theorem select_and (table : Table key) (p q : ρ → Bool) :
    table.select (fun row => p row && q row) = (table.select p).filter q := by
  simp only [select, List.filter_filter, Bool.and_comm]

omit [DecidableEq κ] in
/-- An update that keeps rows where they are selected updates the selection. -/
theorem select_updateWhere (table : Table key) (p : ρ → Bool) (f : ρ → ρ) (keeps : ∀ row, key (f row) = key row)
    {q : ρ → Bool} (stays : ∀ row, q (f row) = q row) :
    (table.updateWhere p f keeps).select q = (table.select q).map (rewrite p f) := by
  have agree : q ∘ rewrite p f = q := by
    funext row
    rw [Function.comp_apply, rewrite]
    split
    · exact stays row
    · rfl
  change (table.rows.map (rewrite p f)).filter q = _
  rw [List.filter_map, agree]
  rfl

/-- Overwriting a row inside a selection overwrites it in the selection. -/
theorem select_upsert (table : Table key) {row : ρ} {q : ρ → Bool}
    (inside : ∀ old, key old = key row → q old = true) :
    (table.upsert row).select q =
      if (table.find? (key row)).isSome then
        (table.select q).map fun old => if key old = key row then row else old
      else table.select q ++ [row] := by
  have taken_iff : key row ∈ table.rows.map key ↔ (table.find? (key row)).isSome = true := by
    rw [Option.isSome_iff_exists, List.mem_map]
    exact exists_congr fun old => find?_eq_some.symm
  unfold upsert
  split
  · next taken =>
    have agree : q ∘ (fun old => if key old = key row then row else old) = q := by
      funext old
      rw [Function.comp_apply]
      split
      · next same => rw [inside row rfl, inside old same]
      · rfl
    rw [if_pos (taken_iff.mp taken)]
    simp only [select, List.filter_map]
    rw [agree]
  · next fresh =>
    rw [if_neg fun found => fresh (taken_iff.mpr found)]
    simp [select, List.filter_append, inside row rfl]

theorem find?_upsert (table : Table key) (row : ρ) (k : κ) :
    (table.upsert row).find? k = if key row = k then some row else table.find? k := by
  unfold upsert
  split
  · next taken =>
    obtain ⟨old, member, same⟩ := List.mem_map.mp taken
    split
    · next hit =>
      exact find?_eq_some.mpr ⟨List.mem_map.mpr ⟨old, member, by simp [same]⟩, hit⟩
    · next miss =>
      have agree : ∀ r : ρ, key (if key r = key row then row else r) = key r := by
        intro r
        split
        · next equal => exact equal.symm
        · rfl
      cases found : table.find? k with
      | none =>
        rw [find?_eq_none] at found ⊢
        intro r written
        obtain ⟨old, oldMember, rfl⟩ := List.mem_map.mp written
        rw [agree]
        exact found old oldMember
      | some r =>
        obtain ⟨rMember, rfl⟩ := find?_eq_some.mp found
        refine find?_eq_some.mpr ⟨List.mem_map.mpr ⟨r, rMember, if_neg (Ne.symm miss)⟩, rfl⟩
  · next fresh =>
    split
    · next hit => exact find?_eq_some.mpr ⟨by simp, hit⟩
    · next miss => simp [find?, List.find?_append, miss]

omit [DecidableEq κ] in
/-- Two deletions are one. -/
theorem deleteWhere_deleteWhere (table : Table key) (p q : ρ → Bool) :
    (table.deleteWhere p).deleteWhere q = table.deleteWhere (fun row => p row || q row) := by
  apply ext
  simp only [deleteWhere, List.filter_filter, Bool.not_or, Bool.and_comm]

/-! ## Selections a statement does not reach

A statement that only touches rows outside a selection leaves the selection as it
was. These are the frame rules of the statements. -/

omit [DecidableEq κ] in
theorem select_deleteWhere_off (table : Table key) {p q : ρ → Bool}
    (off : ∀ row ∈ table.rows, q row = true → p row = false) :
    (table.deleteWhere p).select q = table.select q := by
  rw [select_deleteWhere, List.filter_eq_self]
  intro row member
  obtain ⟨member, inside⟩ := List.mem_filter.mp member
  rw [off row member inside]
  rfl

omit [DecidableEq κ] in
theorem select_updateWhere_off (table : Table key) {p q : ρ → Bool} {f : ρ → ρ}
    (keeps : ∀ row, key (f row) = key row)
    (off : ∀ row, p row = true → q row = false ∧ q (f row) = false) :
    (table.updateWhere p f keeps).select q = table.select q := by
  have agree : ∀ row, q (rewrite p f row) = q row := by
    intro row
    unfold rewrite
    split
    · next hit => rw [(off row hit).1, (off row hit).2]
    · rfl
  change (table.rows.map (rewrite p f)).filter q = table.rows.filter q
  rw [List.filter_map, show q ∘ rewrite p f = q from funext agree]
  conv_rhs => rw [← List.map_id (table.rows.filter q)]
  refine List.map_congr_left fun row member => ?_
  have inside : q row = true := (List.mem_filter.mp member).2
  unfold rewrite
  split
  · next hit =>
    rw [(off row hit).1] at inside
    exact absurd inside Bool.false_ne_true
  · rfl

theorem select_insert_off {table after : Table key} {row : ρ} (inserted : table.insert row = some after)
    {q : ρ → Bool} (off : q row = false) : after.select q = table.select q := by
  rw [select_insert inserted]
  simp [off]

theorem select_upsert_off (table : Table key) {row : ρ} {q : ρ → Bool}
    (off : ∀ old, key old = key row → q old = false) : (table.upsert row).select q = table.select q := by
  unfold upsert
  split
  · have agree : ∀ old, q (if key old = key row then row else old) = q old := by
      intro old
      split
      · next same => rw [off row rfl, off old same]
      · rfl
    simp only [select, List.filter_map]
    rw [show q ∘ (fun old => if key old = key row then row else old) = q from funext agree]
    conv_rhs => rw [← List.map_id (table.rows.filter q)]
    refine List.map_congr_left fun old member => ?_
    have inside : q old = true := (List.mem_filter.mp member).2
    by_cases same : key old = key row
    · rw [off old same] at inside
      exact absurd inside Bool.false_ne_true
    · simp [same]
  · simp [select, List.filter_append, off row rfl]

/-- An upsert leaves its row and the rows of other keys. -/
theorem upsert_perm (table : Table key) (row : ρ) :
    (table.upsert row).rows.Perm (row :: table.rows.filter fun old => !decide (key old = key row)) := by
  unfold upsert
  split
  · next taken =>
    obtain ⟨old, member, same⟩ := List.mem_map.mp taken
    obtain ⟨before, after, split⟩ := List.append_of_mem member
    have distinct := table.distinct
    rw [split, List.map_append, List.map_cons, List.nodup_append, List.nodup_cons] at distinct
    obtain ⟨_, ⟨absentAfter, _⟩, apart⟩ := distinct
    -- No other row has the key, so the map and the filter leave the others alone.
    have othersBefore : ∀ r ∈ before, key r ≠ key row := fun r inside hit =>
      apart (key r) (List.mem_map_of_mem inside) (key old) (by simp) (hit.trans same.symm)
    have othersAfter : ∀ r ∈ after, key r ≠ key row := fun r inside hit =>
      absentAfter (same ▸ hit ▸ List.mem_map_of_mem inside)
    have mapped : ∀ rows : List ρ, (∀ r ∈ rows, key r ≠ key row) →
        (rows.map fun r => if key r = key row then row else r) = rows := by
      intro rows others
      conv_rhs => rw [← List.map_id rows]
      exact List.map_congr_left fun r inside => by simp [others r inside]
    have filtered : ∀ rows : List ρ, (∀ r ∈ rows, key r ≠ key row) →
        rows.filter (fun r => !decide (key r = key row)) = rows :=
      fun rows others => List.filter_eq_self.mpr fun r inside => by simp [others r inside]
    simp only [split, List.map_append, List.map_cons, if_pos same, List.filter_append]
    rw [List.filter_cons_of_neg (by simp [same]), mapped before othersBefore, mapped after othersAfter,
      filtered before othersBefore, filtered after othersAfter]
    exact List.perm_middle
  · next fresh =>
    have others : table.rows.filter (fun old => !decide (key old = key row)) = table.rows := by
      refine List.filter_eq_self.mpr fun old member => ?_
      have apart : key old ≠ key row := fun same => fresh (List.mem_map.mpr ⟨old, member, same⟩)
      simp [apart]
    rw [others]
    exact List.perm_append_singleton row table.rows

theorem mem_upsert {table : Table key} {row other : ρ} :
    other ∈ (table.upsert row).rows ↔ other = row ∨ other ∈ table.rows ∧ key other ≠ key row := by
  rw [(upsert_perm table row).mem_iff, List.mem_cons, List.mem_filter]
  simp

/-- How many rows an upsert leaves selected: the ones of other keys, and its own. -/
theorem select_upsert_length (table : Table key) (row : ρ) (q : ρ → Bool) :
    ((table.upsert row).select q).length =
      (table.select fun old => q old && !decide (key old = key row)).length + if q row then 1 else 0 := by
  have same := ((table.upsert_perm row).filter q).length_eq
  rw [List.filter_cons, List.filter_filter] at same
  rw [select, same]
  split
  · rw [List.length_cons]
    rfl
  · rfl

/-- A lookup sees only the selection its key falls in. -/
theorem find?_eq_of_select {left right : Table key} {q : ρ → Bool} (same : left.select q = right.select q)
    {k : κ} (inside : ∀ row, key row = k → q row = true) : left.find? k = right.find? k := by
  have narrow : ∀ table : Table key, table.find? k = (table.select q).find? (fun row => key row = k) := by
    intro table
    have agree : (fun row => decide (q row = true ∧ decide (key row = k) = true)) =
        fun row => decide (key row = k) := by
      funext row
      by_cases hit : key row = k
      · simp [hit, inside row hit]
      · simp [hit]
    rw [select, List.find?_filter, agree]
    rfl
  rw [narrow left, narrow right, same]

/-- A selection that fixes the key has the row with that key, or nothing. -/
theorem select_of_key (table : Table key) {q : ρ → Bool} {k : κ} (keyed : ∀ row, q row = true → key row = k) :
    table.select q = ((table.find? k).filter q).toList := by
  have distinct : ((table.select q).map key).Nodup :=
    (List.Sublist.map key List.filter_sublist).nodup table.distinct
  have found : ∀ row ∈ table.select q, table.find? k = some row ∧ q row = true := by
    intro row member
    obtain ⟨stored, selected⟩ := List.mem_filter.mp member
    exact ⟨find?_eq_some.mpr ⟨stored, keyed row selected⟩, selected⟩
  cases rows : table.select q with
  | nil =>
    cases lookup : table.find? k with
    | none => rfl
    | some row =>
      have unselected : q row ≠ true := fun selected => by
        have member : row ∈ table.select q := List.mem_filter.mpr ⟨(find?_eq_some.mp lookup).1, selected⟩
        rw [rows] at member
        exact absurd member List.not_mem_nil
      simp [unselected]
  | cons row rest =>
    rw [rows] at found distinct
    obtain ⟨lookup, selected⟩ := found row (List.mem_cons_self ..)
    cases rest with
    | nil =>
      rw [lookup, Option.filter_some, if_pos selected]
      rfl
    | cons other rest =>
      obtain ⟨again, _⟩ := found other (by simp)
      obtain rfl := Option.some.inj (lookup.symm.trans again)
      simp at distinct

/-- A selected row is one more than the others selected. -/
theorem select_length_of_find? {table : Table key} {k : κ} {row : ρ} (found : table.find? k = some row) {q : ρ → Bool}
    (selected : q row = true) :
    (table.select q).length = (table.select fun old => q old && !decide (key old = k)).length + 1 := by
  have parts := (List.filter_append_perm (fun old => decide (key old = k)) (table.select q)).length_eq
  rw [List.length_append] at parts
  have single : (table.select q).filter (fun old => decide (key old = k)) = [row] := by
    have keyed := table.select_of_key (q := fun old => decide (key old = k) && q old) (k := k) fun old hit => by
      simp only [Bool.and_eq_true, decide_eq_true_eq] at hit
      exact hit.1
    rw [found] at keyed
    rw [select, List.filter_filter]
    refine keyed.trans ?_
    simp [selected, (find?_eq_some.mp found).2]
  have rest : (table.select q).filter (fun old => !decide (key old = k)) =
      table.select fun old => q old && !decide (key old = k) := by
    rw [select, select, List.filter_filter]
    refine List.filter_congr fun old _ => Bool.and_comm _ _
  rw [single, rest, List.length_singleton] at parts
  omega

/-- Selecting the keys of some of the rows selects those rows. -/
theorem select_keys_perm (table : Table key) {picked : List ρ} (stored : ∀ row ∈ picked, row ∈ table.rows)
    (distinct : picked.Nodup) : (table.select fun row => picked.any fun p => key p = key row).Perm picked := by
  have rowsDistinct : table.rows.Nodup := List.Nodup.of_map key table.distinct
  refine (List.perm_ext_iff_of_nodup (rowsDistinct.filter _) distinct).mpr fun row => ?_
  simp only [List.mem_filter, List.any_eq_true, decide_eq_true_eq]
  constructor
  · rintro ⟨member, p, present, same⟩
    rw [← List.inj_on_of_nodup_map table.distinct (stored p present) member same]
    exact present
  · intro present
    exact ⟨stored row present, row, present, rfl⟩

end Table

end Relational

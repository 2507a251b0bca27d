import Mathlib.Data.Set.Finite.Basic
import Mathlib.Data.List.Dedup
import Mathlib.Data.List.Pairwise
import Mathlib.Order.Defs.Unbundled

/-!
# Reading page by page

A shelf of items in the order of their keys is read a page at a time: a page holds the
first items after a cursor, and the last of them is the next cursor. Between two pages
the shelf may change. An item that is on the shelf whenever a page is read is read
exactly once: what a page and the pages after it hold of its key does not depend on the
shelf the page is read from. Where the shelf stays as it is, the pages are the shelf.
-/

namespace Paging

variable {α κ : Type} (before : κ → κ → Bool) (key : α → κ)

/-- Whether a key is still to come after a cursor. -/
def ahead (cursor : Option κ) (k : κ) : Bool := cursor.all fun c => before c k

/-- The first items after a cursor. -/
def page (limit : Nat) (shelf : List α) (cursor : Option κ) : List α :=
  (shelf.filter fun item => ahead before cursor (key item)).take limit

/-- In the order of their keys, each key once. -/
def Ordered (shelf : List α) : Prop := shelf.Pairwise fun a b => before (key a) (key b) = true

/-- An order of the keys: no key comes before itself, or before one it comes after. -/
structure Strict : Prop where
  irrefl : ∀ k, before k k = false
  trans : ∀ a b c, before a b = true → before b c = true → before a c = true

variable {before} {key}

theorem Strict.ne (strict : Strict before) {a b : κ} (less : before a b = true) : a ≠ b := by
  rintro rfl
  rw [strict.irrefl] at less
  cases less

theorem Ordered.tail {a : α} {shelf : List α} (ordered : Ordered before key (a :: shelf)) : Ordered before key shelf :=
  (List.pairwise_cons.mp ordered).2

section Counting

variable [DecidableEq κ]

/-- Where no item has a key, it is counted zero times. -/
theorem count_absent {items : List α} {k : κ} (absent : ∀ item ∈ items, key item ≠ k) :
    items.countP (key · = k) = 0 := by
  rw [List.countP_eq_zero]
  intro item member
  simpa using absent item member

variable (strict : Strict before)

include strict

/-- On an ordered shelf a key is counted once. -/
theorem count_ordered {shelf : List α} {k : κ} (ordered : Ordered before key shelf)
    (present : ∃ item ∈ shelf, key item = k) : shelf.countP (key · = k) = 1 := by
  induction shelf with
  | nil =>
    obtain ⟨item, member, _⟩ := present
    cases member
  | cons first rest inductionHypothesis =>
    have earlier := (List.pairwise_cons.mp ordered).1
    by_cases here : key first = k
    · have absent : rest.countP (key · = k) = 0 :=
        count_absent fun item member same => strict.ne (earlier item member) (here.trans same.symm)
      simp [here, absent]
    · obtain ⟨item, member, same⟩ := present
      rcases List.mem_cons.mp member with rfl | later
      · exact absurd same here
      · have once := inductionHypothesis ordered.tail ⟨item, later, same⟩
        simp [here, once]

variable {shelf : List α} {k : κ} {cursor : Option κ} {limit : Nat} (ordered : Ordered before key shelf)
  (present : ∃ item ∈ shelf, key item = k)

include ordered present

/-- What is after a cursor holds a key of the shelf if it is still to come. -/
theorem count_after (cursor : Option κ) :
    (shelf.filter fun item => ahead before cursor (key item)).countP (key · = k) =
      if ahead before cursor k then 1 else 0 := by
  split
  · next coming =>
    apply count_ordered strict (List.Pairwise.filter _ ordered)
    obtain ⟨item, member, rfl⟩ := present
    exact ⟨item, List.mem_filter.mpr ⟨member, coming⟩, rfl⟩
  · next passed =>
    apply count_absent
    rintro item member rfl
    exact passed (List.mem_filter.mp member).2

/-- A page that is not full is the last one. -/
theorem count_last (short : (page before key limit shelf cursor).length < limit) :
    (page before key limit shelf cursor).countP (key · = k) = if ahead before cursor k then 1 else 0 := by
  rw [← count_after strict ordered present cursor, page, List.take_of_length_le]
  rw [page, List.length_take] at short
  omega

/-- What a page holds of a key, and what is still to come after its last item. -/
theorem count_page {last : α} (ends : (page before key limit shelf cursor).getLast? = some last) :
    (page before key limit shelf cursor).countP (key · = k) + (if ahead before (some (key last)) k then 1 else 0) =
      if ahead before cursor k then 1 else 0 := by
  have whole := count_after strict ordered present cursor
  have after : Ordered before key (shelf.filter fun item => ahead before cursor (key item)) :=
    List.Pairwise.filter _ ordered
  obtain ⟨front, shown⟩ := List.getLast?_eq_some_iff.mp ends
  have split := List.take_append_drop limit (shelf.filter fun item => ahead before cursor (key item))
  change page before key limit shelf cursor ++ _ = _ at split
  rw [← split, shown] at after
  rw [← split, List.countP_append] at whole
  obtain ⟨inOrder, _, acrossOrder⟩ := List.pairwise_append.mp after
  by_cases coming : before (key last) k = true
  · -- Every item of the page comes before the key.
    have absent : (page before key limit shelf cursor).countP (key · = k) = 0 := by
      apply count_absent
      intro item member
      rw [shown] at member
      rcases List.mem_append.mp member with earlier | same
      · have less := (List.pairwise_append.mp inOrder).2.2 item earlier last (by simp)
        exact strict.ne (strict.trans _ _ _ less coming)
      · obtain rfl := List.mem_singleton.mp same
        exact strict.ne coming
    have still : ahead before cursor k = true := by
      have member : last ∈ page before key limit shelf cursor := by simp [shown]
      have lastAhead := (List.mem_filter.mp (List.mem_of_mem_take member)).2
      cases cursor with
      | none => rfl
      | some c => exact strict.trans _ _ _ lastAhead coming
    rw [absent, if_pos (show ahead before (some (key last)) k = true from coming), if_pos still]
  · -- What is left on the shelf comes after it.
    have absent : ((shelf.filter fun item => ahead before cursor (key item)).drop limit).countP (key · = k) = 0 := by
      apply count_absent
      rintro item member rfl
      exact coming (acrossOrder last (by simp) item member)
    rw [absent] at whole
    rw [if_neg (show ¬ ahead before (some (key last)) k = true from coming)]
    exact whole

end Counting

/-! ## A shelf that stays as it is -/

/-- What follows the last item of a page is what the page left. -/
theorem filter_ahead_last (strict : Strict before) {shelf : List α} {cursor : Option κ} {limit : Nat} {last : α}
    (ordered : Ordered before key shelf) (ends : (page before key limit shelf cursor).getLast? = some last) :
    (shelf.filter fun item => ahead before (some (key last)) (key item)) =
      (shelf.filter fun item => ahead before cursor (key item)).drop limit := by
  obtain ⟨front, shown⟩ := List.getLast?_eq_some_iff.mp ends
  have lastShown : last ∈ page before key limit shelf cursor := by simp [shown]
  have lastAhead := (List.mem_filter.mp (List.mem_of_mem_take lastShown)).2
  have narrows : ∀ item, ahead before (some (key last)) (key item) = true → ahead before cursor (key item) = true := by
    intro item later
    cases cursor with
    | none => rfl
    | some c => exact strict.trans _ _ _ lastAhead later
  have again : (shelf.filter fun item => ahead before (some (key last)) (key item)) =
      (shelf.filter fun item => ahead before cursor (key item)).filter fun item =>
        ahead before (some (key last)) (key item) := by
    rw [List.filter_filter]
    apply List.filter_congr
    intro item _
    cases later : ahead before (some (key last)) (key item)
    · rfl
    · simp [narrows item later]
  have after : Ordered before key (shelf.filter fun item => ahead before cursor (key item)) :=
    List.Pairwise.filter _ ordered
  have split := List.take_append_drop limit (shelf.filter fun item => ahead before cursor (key item))
  change page before key limit shelf cursor ++ _ = _ at split
  rw [← split, shown] at after
  obtain ⟨inOrder, _, acrossOrder⟩ := List.pairwise_append.mp after
  have passed : (page before key limit shelf cursor).filter (fun item => ahead before (some (key last)) (key item)) = [] := by
    rw [List.filter_eq_nil_iff]
    intro item member later
    rw [shown] at member
    rcases List.mem_append.mp member with earlier | same
    · have less := (List.pairwise_append.mp inOrder).2.2 item earlier last (by simp)
      exact strict.ne (strict.trans _ _ _ less later) rfl
    · obtain rfl := List.mem_singleton.mp same
      exact strict.ne later rfl
  have coming : ((shelf.filter fun item => ahead before cursor (key item)).drop limit).filter
      (fun item => ahead before (some (key last)) (key item)) =
      (shelf.filter fun item => ahead before cursor (key item)).drop limit := by
    rw [List.filter_eq_self]
    intro item member
    exact acrossOrder last (by simp) item member
  have parts := congrArg (List.filter fun item => ahead before (some (key last)) (key item)) split
  rw [List.filter_append, passed, coming, List.nil_append] at parts
  exact again.trans parts.symm

/-- The next cursor after a page: its last key if it is full. -/
def cursorAfter (key : α → κ) (limit : Nat) (items : List α) : Option κ :=
  if items.length = limit then items.getLast?.map key else none

/-- The pages of a reader that asks for the page after a cursor, then for the one after the
cursor it is given, until it is given none. -/
inductive Follows (answers : Option κ → List α → Option κ → Prop) : Option κ → List (List α) → Prop where
  | last {cursor : Option κ} {items : List α} (answered : answers cursor items none) : Follows answers cursor [items]
  | next {cursor : Option κ} {items : List α} {following : κ} {pages : List (List α)}
      (answered : answers cursor items (some following)) (rest : Follows answers (some following) pages) :
      Follows answers cursor (items :: pages)

/-- A reader of a shelf that stays as it is comes to an end, and has read what is after the
cursor once, in order, if the cursors it comes to are served. Where the pages are full to the
end, an empty one comes last. -/
theorem follows_served (strict : Strict before) {shelf : List α} {limit : Nat} (ordered : Ordered before key shelf)
    (room : 0 < limit) {answers : Option κ → List α → Option κ → Prop} {served : Option κ → Prop}
    (serves : ∀ cursor, served cursor → answers cursor (page before key limit shelf cursor)
      (cursorAfter key limit (page before key limit shelf cursor)))
    (onShelf : ∀ item ∈ shelf, served (some (key item))) {cursor : Option κ} (begins : served cursor) :
    ∃ pages, Follows answers cursor pages ∧
      pages.flatten = (shelf.filter fun item => ahead before cursor (key item)) ∧
      pages.length = (shelf.filter fun item => ahead before cursor (key item)).length / limit + 1 := by
  -- Each full page leaves `limit` items less.
  generalize measure : (shelf.filter fun item => ahead before cursor (key item)).length = left
  induction left using Nat.strongRecOn generalizing cursor with
  | _ left inductionHypothesis =>
    have served := serves cursor begins
    have size : (page before key limit shelf cursor).length = min limit left := by
      rw [page, List.length_take, measure]
    by_cases full : limit ≤ left
    · have filled : (page before key limit shelf cursor).length = limit := by omega
      have some? : (page before key limit shelf cursor) ≠ [] := by
        intro empty
        rw [empty, List.length_nil] at filled
        omega
      have ends := List.getLast?_eq_some_getLast some?
      have remains := filter_ahead_last strict ordered ends
      have lastOnShelf := (List.mem_filter.mp (List.mem_of_mem_take (List.getLast_mem some?))).1
      rw [cursorAfter, if_pos filled, ends, Option.map_some] at served
      obtain ⟨pages, follows, whole, count⟩ := inductionHypothesis (left - limit) (by omega)
        (onShelf _ lastOnShelf) (by rw [remains, List.length_drop, measure])
      refine ⟨_ :: pages, .next served follows, ?_, ?_⟩
      · rw [List.flatten_cons, whole, remains]
        exact List.take_append_drop limit _
      · rw [List.length_cons, count, ← Nat.div_eq_sub_div room full]
    · have short : (page before key limit shelf cursor).length ≠ limit := by omega
      rw [cursorAfter, if_neg short] at served
      refine ⟨[page before key limit shelf cursor], .last served, ?_, ?_⟩
      · rw [List.flatten_cons, List.flatten_nil, List.append_nil, page, List.take_of_length_le]
        omega
      · rw [List.length_singleton, Nat.div_eq_of_lt (by omega)]

/-- Where every cursor is served, any may come first. -/
theorem follows_all (strict : Strict before) {shelf : List α} {limit : Nat} (ordered : Ordered before key shelf)
    (room : 0 < limit) {answers : Option κ → List α → Option κ → Prop}
    (serves : ∀ cursor, answers cursor (page before key limit shelf cursor)
      (cursorAfter key limit (page before key limit shelf cursor))) (cursor : Option κ) :
    ∃ pages, Follows answers cursor pages ∧
      pages.flatten = (shelf.filter fun item => ahead before cursor (key item)) ∧
      pages.length = (shelf.filter fun item => ahead before cursor (key item)).length / limit + 1 :=
  follows_served strict ordered room (fun cursor (_ : True) => serves cursor) (fun _ _ => trivial) trivial

/-! ## Positions that somebody else serves

A reader that goes on from whatever position it is given comes to an end if no position is
given twice and there are finitely many.
-/

section Positions

variable {positions : Nat → Option κ}

/-- While every answer so far gave a position, none was given twice. -/
def Fresh (positions : Nat → Option κ) : Prop :=
  ∀ i j, i < j → (∀ l ≤ j, (positions l).isSome = true) → positions i ≠ positions j

theorem Fresh.ends (fresh : Fresh positions) (finite : {k | ∃ n, positions n = some k}.Finite) :
    ∃ m, positions m = none ∧ ∀ j < m, (positions j).isSome = true := by
  by_cases ended : ∃ m, positions m = none
  · classical
    refine ⟨Nat.find ended, Nat.find_spec ended, fun j earlier => ?_⟩
    exact Option.isSome_iff_ne_none.mpr (Nat.find_min ended earlier)
  · have always : ∀ j, (positions j).isSome = true := fun j =>
      Option.isSome_iff_ne_none.mpr fun absent => ended ⟨j, absent⟩
    have injective : Function.Injective fun j => (positions j).get (always j) := by
      intro i j same
      have equal : positions i = positions j := by
        rw [← Option.some_get (always i), ← Option.some_get (always j)]
        exact congrArg some same
      rcases Nat.lt_trichotomy i j with less | rfl | more
      · exact absurd equal (fresh i j less fun l _ => always l)
      · rfl
      · exact absurd equal.symm (fresh j i more fun l _ => always l)
    have within : Set.range (fun j => (positions j).get (always j)) ⊆ {k | ∃ n, positions n = some k} := by
      rintro k ⟨j, rfl⟩
      exact ⟨j, (Option.some_get (always j)).symm⟩
    exact absurd (finite.subset within) (Set.infinite_range_of_injective injective)

/-- The first positions are that many, and no two are the same. -/
theorem Fresh.served (fresh : Fresh positions) {n : Nat} (given : ∀ j < n, (positions j).isSome = true) :
    ((List.range n).filterMap positions).length = n ∧ ((List.range n).filterMap positions).Nodup := by
  induction n with
  | zero => exact ⟨rfl, List.nodup_nil⟩
  | succ n inductionHypothesis =>
    obtain ⟨count, distinct⟩ := inductionHypothesis fun j less => given j (by omega)
    obtain ⟨last, here⟩ := Option.isSome_iff_exists.mp (given n (by omega))
    have grown : (List.range (n + 1)).filterMap positions = (List.range n).filterMap positions ++ [last] := by
      rw [List.range_succ, List.filterMap_append]
      simp [here]
    rw [grown]
    constructor
    · rw [List.length_append, count, List.length_singleton]
    · refine List.nodup_append.mpr ⟨distinct, List.nodup_singleton _, ?_⟩
      intro k earlier k' atLast same
      obtain ⟨i, less, gave⟩ := List.mem_filterMap.mp earlier
      rw [List.mem_range] at less
      rw [List.mem_singleton.mp atLast] at same
      exact fresh i n less (fun l upTo => given l (by omega)) (by rw [gave, here, same])

/-- One request more than the distinct positions given to the requests before. -/
theorem Fresh.bounds [DecidableEq κ] (fresh : Fresh positions) {n : Nat}
    (given : ∀ j, j + 1 < n → (positions j).isSome = true) :
    n ≤ ((List.range n).filterMap positions).dedup.length + 1 := by
  cases n with
  | zero => omega
  | succ n =>
    have earlier : ∀ j < n, (positions j).isSome = true := fun j less => given j (by omega)
    obtain ⟨count, distinct⟩ := fresh.served earlier
    have within : (List.range n).filterMap positions ⊆ ((List.range (n + 1)).filterMap positions).dedup := by
      intro k member
      rw [List.mem_dedup, List.range_succ, List.filterMap_append]
      exact List.mem_append_left _ member
    have fits := (distinct.subperm within).length_le
    omega

end Positions

end Paging

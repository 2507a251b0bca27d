import Mathlib.Data.List.Sort
import Mathlib.Order.Compare

/-!
# Binary search

The search keeps a range of positions and halves it until one is left. What is compared is
never outside the list. In a list that is strictly sorted by a key the search finds the
position of a key that is there, and otherwise the place where it belongs.
-/

namespace BinarySearch

variable {α κ : Type}

/-- Narrow the `size` positions from `base` to one. `fuel` bounds the number of halvings. -/
def narrow (compareAt : Nat → Ordering) : Nat → Nat → Nat → Nat
  | 0, base, _ => base
  | fuel + 1, base, size =>
    if 1 < size then
      let half := size / 2
      let mid := base + half
      narrow compareAt fuel (if compareAt mid = .gt then base else mid) (size - half)
    else base

/-- The position of an element that compares equal, or the position to insert one at. -/
def search (f : α → Ordering) (l : List α) : Except Nat Nat :=
  if l = [] then .error 0
  else
    let compareAt := fun i => (l[i]?).elim .eq f
    let base := narrow compareAt l.length 0 l.length
    match compareAt base with
    | .eq => .ok base
    | .lt => .error (base + 1)
    | .gt => .error base

section

variable [LinearOrder κ] (key : α → κ)

/-- The keys are strictly increasing. -/
def Sorted (l : List α) : Prop := l.Pairwise fun a b => key a < key b

variable {key}

theorem Sorted.le {l : List α} (sorted : Sorted key l) {i j : Nat} {a b : α} (order : i ≤ j) (first : l[i]? = some a)
    (second : l[j]? = some b) : key a ≤ key b := by
  obtain rfl | before := Nat.eq_or_lt_of_le order
  · rw [first] at second
    exact le_of_eq (congrArg key (Option.some.inj second))
  · obtain ⟨inside, rfl⟩ := List.getElem?_eq_some_iff.mp first
    obtain ⟨inside', rfl⟩ := List.getElem?_eq_some_iff.mp second
    exact le_of_lt (List.pairwise_iff_getElem.mp sorted i j inside inside' before)

/-- Elements with the same key are the same element. -/
theorem Sorted.eq_of_key {l : List α} (sorted : Sorted key l) {a b : α} (first : a ∈ l) (second : b ∈ l)
    (same : key a = key b) : a = b := by
  induction l with
  | nil => cases first
  | cons c rest inductionHypothesis =>
    obtain ⟨below, tail⟩ := List.pairwise_cons.mp sorted
    cases first with
    | head =>
      cases second with
      | head => rfl
      | tail _ later => exact absurd same (ne_of_lt (below b later))
    | tail _ earlier =>
      cases second with
      | head => exact absurd same (ne_of_gt (below a earlier))
      | tail _ later => exact inductionHypothesis tail earlier later

/-- Sorted lists with the same elements are the same list. -/
theorem Sorted.eq_of_mem_iff {left right : List α} (sorted : Sorted key left) (sorted' : Sorted key right)
    (same : ∀ a, a ∈ left ↔ a ∈ right) : left = right := by
  have irreflexive : Std.Irrefl fun a b : α => key a < key b := ⟨fun a => lt_irrefl (key a)⟩
  have antisymmetric : Std.Antisymm fun a b : α => key a < key b := ⟨fun a b before after => absurd before (lt_asymm after)⟩
  exact List.Pairwise.eq_of_mem_iff sorted sorted' same

/-- A sorted list without equal neighbours is strictly sorted. -/
theorem sorted_of_le {l : List α} (order : l.Pairwise fun a b => key a ≤ key b)
    (apart : ∀ front a b back, l = front ++ a :: b :: back → key a ≠ key b) : Sorted key l := by
  induction l with
  | nil => exact List.Pairwise.nil
  | cons a rest inductionHypothesis =>
    obtain ⟨below, tail⟩ := List.pairwise_cons.mp order
    have sorted := inductionHypothesis tail fun front c d back same => apart (a :: front) c d back (by rw [same]; rfl)
    refine List.pairwise_cons.mpr ⟨fun b member => ?_, sorted⟩
    cases rest with
    | nil => cases member
    | cons c rest =>
      have first : key a < key c := lt_of_le_of_ne (below c (List.mem_cons_self ..)) (apart [] a c rest rfl)
      cases member with
      | head => exact first
      | tail _ later => exact lt_trans first ((List.pairwise_cons.mp sorted).1 b later)

/-- What the search knows of a range: the first position is not above `k`, unless it is the
first of all, and what follows the range is above it. -/
structure Range (key : α → κ) (l : List α) (k : κ) (base size : Nat) : Prop where
  some : 0 < size
  inside : base + size ≤ l.length
  low : 0 < base → ∀ a, l[base]? = .some a → key a ≤ k
  high : ∀ j a, base + size ≤ j → l[j]? = .some a → k < key a

/-- Narrowing keeps what is known, down to a single position. -/
theorem narrow_range {l : List α} (sorted : Sorted key l) {k : κ} {fuel base size : Nat} (enough : size ≤ fuel + 1)
    (range : Range key l k base size) :
    Range key l k (narrow (fun i => (l[i]?).elim .eq fun a => compare (key a) k) fuel base size) 1 := by
  induction fuel generalizing base size with
  | zero =>
    obtain rfl : size = 1 := Nat.le_antisymm enough range.some
    exact range
  | succ fuel inductionHypothesis =>
    have some := range.some
    have inside := range.inside
    rw [narrow]
    split
    · next several =>
      have within : base + size / 2 < l.length := by omega
      have there : l[base + size / 2]? = .some l[base + size / 2] := List.getElem?_eq_getElem within
      dsimp only
      rw [there]
      split
      · next above =>
        -- the middle is above `k`, and with it all that follows
        have beyond : k < key l[base + size / 2] := compare_gt_iff_gt.mp above
        apply inductionHypothesis (by omega)
        exact
          { some := by omega
            inside := by omega
            low := range.low
            high := fun j a past stands => lt_of_lt_of_le beyond (sorted.le (by omega) there stands) }
      · next notAbove =>
        have notBeyond : key l[base + size / 2] ≤ k := not_lt.mp fun beyond => notAbove (compare_gt_iff_gt.mpr beyond)
        apply inductionHypothesis (by omega)
        exact
          { some := by omega
            inside := by omega
            low := fun _ a stands => by
              rw [there] at stands
              exact Option.some.inj stands ▸ notBeyond
            high := fun j a past stands => range.high j a (by omega) stands }
    · next single =>
      obtain rfl : size = 1 := by omega
      exact range

/-- What the search finds in a sorted list. -/
theorem search_spec {l : List α} (sorted : Sorted key l) (k : κ) :
    (∃ i a, search (fun a => compare (key a) k) l = .ok i ∧ l[i]? = some a ∧ key a = k) ∨
      ∃ front back, search (fun a => compare (key a) k) l = .error front.length ∧ l = front ++ back ∧
        (∀ a ∈ front, key a < k) ∧ ∀ a ∈ back, k < key a := by
  unfold search
  split
  · next empty =>
    subst empty
    exact Or.inr ⟨[], [], rfl, rfl, by simp, by simp⟩
  · next nonempty =>
    have positive : 0 < l.length := List.length_pos_iff.mpr nonempty
    have whole : Range key l k 0 l.length :=
      { some := positive
        inside := by omega
        low := fun impossible => absurd impossible (Nat.lt_irrefl 0)
        high := fun j a past stands => by
          rw [List.getElem?_eq_none (by omega)] at stands
          cases stands }
    have last := narrow_range sorted (Nat.le_succ l.length) whole
    dsimp only
    generalize narrow (fun i => (l[i]?).elim .eq fun a => compare (key a) k) l.length 0 l.length = base at last
    have inside := last.inside
    have there : l[base]? = some l[base] := List.getElem?_eq_getElem (by omega)
    have cut (n : Nat) := (List.take_append_drop n l).symm
    have later (n : Nat) (above : ∀ j a, n ≤ j → l[j]? = some a → k < key a) : ∀ a ∈ l.drop n, k < key a := by
      intro a member
      obtain ⟨j, stands⟩ := List.mem_iff_getElem?.mp member
      rw [List.getElem?_drop] at stands
      exact above (n + j) a (by omega) stands
    rw [there]
    cases order : compare (key l[base]) k with
    | eq =>
      refine Or.inl ⟨base, l[base], ?_, there, compare_eq_iff_eq.mp order⟩
      simp only [Option.elim_some, order]
    | lt =>
      have below := compare_lt_iff_lt.mp order
      refine Or.inr ⟨l.take (base + 1), l.drop (base + 1), ?_, cut _, ?_, later _ last.high⟩
      · simp only [Option.elim_some, order, List.length_take]
        rw [Nat.min_eq_left (by omega)]
      · intro a member
        obtain ⟨j, stands⟩ := List.mem_iff_getElem?.mp member
        rw [List.getElem?_take] at stands
        split at stands
        · exact lt_of_le_of_lt (sorted.le (by omega) stands there) below
        · cases stands
    | gt =>
      have beyond := compare_gt_iff_gt.mp order
      have first : base = 0 := by
        by_contra positive
        exact absurd (last.low (by omega) _ there) (not_le.mpr beyond)
      subst first
      refine Or.inr ⟨[], l, ?_, rfl, by simp, ?_⟩
      · simp only [Option.elim_some, order, List.length_nil]
      · intro a member
        obtain ⟨j, stands⟩ := List.mem_iff_getElem?.mp member
        exact lt_of_lt_of_le beyond (sorted.le (Nat.zero_le j) there stands)

end

end BinarySearch

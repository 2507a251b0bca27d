import Mathlib.Data.List.Infix
import Mathlib.Tactic.Common

/-!
# Occurrences of a pattern

Where a pattern stands in a list, and the first place that it stands. A pattern whose first
element stands nowhere else in it cannot overlap itself: of two occurrences the later stands
behind the earlier, so a scan that goes on behind a match passes none over.
-/

namespace Occurrences

variable {α : Type*}

/-- The pattern stands in the list between two parts. -/
def Stands (pattern before after text : List α) : Prop := text = before ++ pattern ++ after

theorem Stands.cons {pattern before after text : List α} (stands : Stands pattern before after text) (a : α) :
    Stands pattern (a :: before) after (a :: text) := congrArg (a :: ·) stands

section

variable [DecidableEq α]

/-- What stands before and after the first occurrence. -/
def first (pattern : List α) : List α → Option (List α × List α)
  | [] => if pattern = [] then some ([], []) else none
  | a :: text =>
    if pattern <+: a :: text then some ([], (a :: text).drop pattern.length)
    else (first pattern text).map fun parts => (a :: parts.1, parts.2)

/-- The first occurrence is one, and no other has less before it. -/
theorem first_eq_some {pattern text before after : List α} (found : first pattern text = some (before, after)) :
    Stands pattern before after text ∧
      ∀ front back, Stands pattern front back text → before.length ≤ front.length := by
  induction text generalizing before with
  | nil =>
    rw [first] at found
    split at found
    · next empty =>
      subst empty
      cases found
      exact ⟨rfl, fun front back _ => Nat.zero_le _⟩
    · cases found
  | cons a text inductionHypothesis =>
    rw [first] at found
    split at found
    · next here =>
      obtain ⟨rest, same⟩ := here
      simp only [Option.some.injEq, Prod.mk.injEq] at found
      obtain ⟨rfl, rfl⟩ := found
      refine ⟨?_, fun front back _ => Nat.zero_le _⟩
      rw [Stands, ← same, List.drop_left, List.nil_append]
    · next elsewhere =>
      obtain ⟨⟨front, back⟩, later, same⟩ := Option.map_eq_some_iff.mp found
      simp only [Prod.mk.injEq] at same
      obtain ⟨rfl, rfl⟩ := same
      obtain ⟨stands, least⟩ := inductionHypothesis later
      refine ⟨stands.cons a, fun other behind placed => ?_⟩
      cases other with
      | nil => exact absurd ⟨behind, placed.symm⟩ elsewhere
      | cons b other =>
        have tail : Stands pattern other behind text := (List.cons.inj placed).2
        exact Nat.succ_le_succ (least other behind tail)

theorem first_eq_none {pattern text : List α} (none : first pattern text = none) (before after : List α) :
    ¬ Stands pattern before after text := by
  induction text generalizing before with
  | nil =>
    rintro stands
    rw [first] at none
    split at none
    · cases none
    · next some =>
      have empty : before ++ pattern ++ after = [] := stands.symm
      simp only [List.append_eq_nil_iff] at empty
      exact some empty.1.2
  | cons a text inductionHypothesis =>
    rw [first] at none
    split at none
    · cases none
    · next elsewhere =>
      intro stands
      cases before with
      | nil => exact elsewhere ⟨after, stands.symm⟩
      | cons b before =>
        have tail : Stands pattern before after text := (List.cons.inj stands).2
        exact inductionHypothesis (Option.map_eq_none_iff.mp none) before tail

/-- The pattern stands somewhere exactly when the search finds it. -/
theorem first_isSome_iff {pattern text : List α} :
    (first pattern text).isSome = true ↔ ∃ before after, Stands pattern before after text := by
  cases found : first pattern text with
  | none => simpa using fun before after => first_eq_none found before after
  | some parts => simpa using ⟨parts.1, parts.2, (first_eq_some found).1⟩

end

/-- Two occurrences of a pattern that cannot overlap itself: the later stands behind the
earlier. The first element of the later one would otherwise stand inside the earlier. -/
theorem Stands.behind {head : α} {tail before after front back text : List α} (apart : head ∉ tail)
    (earlier : Stands (head :: tail) before after text) (later : Stands (head :: tail) front back text)
    (order : before.length < front.length) :
    ∃ between, front = before ++ (head :: tail) ++ between ∧ Stands (head :: tail) between back after := by
  have same : before ++ (head :: tail) ++ after = front ++ ((head :: tail) ++ back) := by
    rw [← List.append_assoc]
    exact earlier.symm.trans later
  obtain ⟨between, past, rest⟩ | ⟨inside, shorter, rest⟩ := List.append_eq_append_iff.mp same
  · exact ⟨between, past, rest.trans (List.append_assoc ..).symm⟩
  · cases inside with
    | nil => exact ⟨[], by simpa using shorter.symm, by simpa [Stands] using rest.symm⟩
    | cons first more =>
      -- The later occurrence begins inside the earlier one, at an element of its tail.
      obtain rfl : head = first := (List.cons.inj rest).1
      exfalso
      rw [List.append_eq_append_iff] at shorter
      obtain ⟨skipped, longer, within⟩ | ⟨skipped, longer, within⟩ := shorter
      · cases skipped with
        | nil => simp [longer] at order
        | cons other skipped =>
          obtain ⟨rfl, rfl⟩ : other = head ∧ tail = skipped ++ head :: more := by
            simpa [eq_comm] using within
          simp at apart
      · have size : before.length = front.length + skipped.length := by rw [longer, List.length_append]
        omega

end Occurrences

import Mathlib.Data.List.Forall2
import Mathlib.Data.UInt

/-!
# Comparisons without a branch

Two lists of bytes are compared by folding the XOR of every pair before anything is
decided. The fold is zero where the lists agree as far as both go, so on lists of one
length it decides equality.
-/

namespace Comparison

/-- The XOR of every pair, folded. -/
def differences (left right : List UInt8) : UInt8 := (left.zip right).foldl (fun acc xy => acc ||| (xy.1 ^^^ xy.2)) 0

theorem fold_eq_zero {pairs : List (UInt8 × UInt8)} {acc : UInt8} :
    pairs.foldl (fun acc xy => acc ||| (xy.1 ^^^ xy.2)) acc = 0 ↔ acc = 0 ∧ ∀ xy ∈ pairs, xy.1 = xy.2 := by
  induction pairs generalizing acc with
  | nil => simp
  | cons pair rest inductionHypothesis =>
    rw [List.foldl_cons, inductionHypothesis, List.forall_mem_cons, ← and_assoc]
    refine and_congr_left fun _ => ?_
    simp [UInt8.or_eq_zero_iff]

/-- On lists of one length the fold is zero only where they are equal. -/
theorem differences_eq_zero {left right : List UInt8} (size : left.length = right.length) :
    differences left right = 0 ↔ left = right := by
  have agree : differences left right = 0 ↔ List.Forall₂ (· = ·) left right := by
    rw [List.forall₂_iff_zip]
    simp only [differences, fold_eq_zero, true_and]
    exact ⟨fun each => ⟨size, fun member => each _ member⟩, fun each pair member => each.2 member⟩
  rw [agree, List.forall₂_eq_eq_eq]

end Comparison

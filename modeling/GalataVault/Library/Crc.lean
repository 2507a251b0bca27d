import Mathlib.Data.List.Basic
import Mathlib.Logic.Function.Iterate

/-!
# Cyclic redundancy checks

A check runs a register over a text, byte by byte, least significant bit first. A step of
the register loses nothing where the polynomial's first bit is set: what fell out is seen
in the first bit of the result. So two texts that differ in one byte only never leave the
same register.
-/

namespace Crc

variable {w : Nat}

/-- Shift one bit out of the register. A one that falls out brings the polynomial in. -/
def bitStep (polynomial crc : BitVec w) : BitVec w :=
  if crc.getLsbD 0 then (crc >>> 1) ^^^ polynomial else crc >>> 1

/-- Take one byte into the register. -/
def byteStep (polynomial crc : BitVec w) (byte : UInt8) : BitVec w :=
  (bitStep polynomial)^[8] (crc ^^^ byte.toBitVec.setWidth w)

/-- Run the register over a text. -/
def run (polynomial crc : BitVec w) (bytes : List UInt8) : BitVec w := bytes.foldl (byteStep polynomial) crc

@[simp] theorem run_append (polynomial crc : BitVec w) (front back : List UInt8) :
    run polynomial crc (front ++ back) = run polynomial (run polynomial crc front) back :=
  List.foldl_append

variable {polynomial : BitVec w}

/-- The first bit of the result is the bit that fell out. -/
theorem bitStep_first (positive : 0 < w) (first : polynomial.getLsbD (w - 1) = true) (crc : BitVec w) :
    (bitStep polynomial crc).getLsbD (w - 1) = crc.getLsbD 0 := by
  have shifted : (crc >>> 1).getLsbD (w - 1) = false := by
    rw [BitVec.getLsbD_ushiftRight]
    exact BitVec.getLsbD_of_ge _ _ (by omega)
  unfold bitStep
  split
  · next one => rw [BitVec.getLsbD_xor, shifted, first, one, Bool.false_xor]
  · next zero => rw [shifted, Bool.eq_false_iff.mpr zero]

theorem bitStep_injective (positive : 0 < w) (first : polynomial.getLsbD (w - 1) = true) :
    Function.Injective (bitStep polynomial) := by
  intro left right same
  have low : left.getLsbD 0 = right.getLsbD 0 := by
    rw [← bitStep_first positive first left, same, bitStep_first positive first right]
  have shifted : left >>> 1 = right >>> 1 := by
    unfold bitStep at same
    rw [low] at same
    split at same
    · exact BitVec.xor_left_inj polynomial |>.mp same
    · exact same
  apply BitVec.eq_of_getLsbD_eq
  intro i _
  cases i with
  | zero => exact low
  | succ i =>
    have bit := congrArg (fun crc => crc.getLsbD i) shifted
    simpa [BitVec.getLsbD_ushiftRight, Nat.add_comm 1 i] using bit

section

variable (wide : 8 ≤ w) (first : polynomial.getLsbD (w - 1) = true)
include wide first

theorem byteStep_injective (byte : UInt8) : Function.Injective (byteStep polynomial · byte) := by
  intro left right same
  have before := (bitStep_injective (by omega) first).iterate 8 same
  exact BitVec.xor_left_inj _ |>.mp before

/-- The byte is read back from the registers before and after it. -/
theorem byteStep_byte_injective (crc : BitVec w) : Function.Injective (byteStep polynomial crc) := by
  intro left right same
  have before := (bitStep_injective (by omega) first).iterate 8 same
  have widened : left.toBitVec.setWidth w = right.toBitVec.setWidth w := BitVec.xor_right_inj _ |>.mp before
  apply UInt8.toBitVec_inj.mp
  have narrowed := congrArg (BitVec.setWidth 8) widened
  rwa [BitVec.setWidth_setWidth_of_le _ wide, BitVec.setWidth_setWidth_of_le _ wide, BitVec.setWidth_eq,
    BitVec.setWidth_eq] at narrowed

theorem run_injective (bytes : List UInt8) : Function.Injective (run polynomial · bytes) := by
  induction bytes with
  | nil => exact fun _ _ same => same
  | cons byte rest inductionHypothesis =>
    exact fun _ _ same => byteStep_injective wide first byte (inductionHypothesis same)

/-- A change of one byte changes the register. -/
theorem run_one_byte {crc : BitVec w} {before after : List UInt8} {old new : UInt8}
    (same : run polynomial crc (before ++ old :: after) = run polynomial crc (before ++ new :: after)) : old = new := by
  rw [run_append, run_append] at same
  exact byteStep_byte_injective wide first _ (run_injective wide first after same)

end

end Crc

import Mathlib.Algebra.Order.Group.Unbundled.Int

/-!
# Fixed-width integers

An operation on machine integers has an exact result, and a type that may not hold it.
What happens then depends on how the program was built: it stops, or it goes on with the
result reduced to the type's range. A computation here carries both what it comes to and
whether every result on the way was held, so that one definition answers for both builds.
-/

namespace MachineInt

/-- The integers a type holds: from `low` up to and without `high`. -/
structure IntType where
  low : Int
  high : Int

def i64 : IntType := ⟨-2 ^ 63, 2 ^ 63⟩
def u32 : IntType := ⟨0, 2 ^ 32⟩

/-- Whether the type holds the integer. -/
def IntType.Holds (type : IntType) (n : Int) : Prop := type.low ≤ n ∧ n < type.high

/-- Decided by the distance from the least integer, which is a comparison of naturals. -/
theorem IntType.holds_iff (type : IntType) (n : Int) :
    type.low ≤ n ∧ (n - type.low).toNat < (type.high - type.low).toNat ↔ type.Holds n := by
  unfold Holds
  omega

instance (type : IntType) (n : Int) : Decidable (type.Holds n) := decidable_of_iff _ (type.holds_iff n)

/-- The integer of the type's range that a result wraps around to. -/
def IntType.wrap (type : IntType) (n : Int) : Int := type.low + (n - type.low) % (type.high - type.low)

theorem IntType.wrap_of_holds {type : IntType} {n : Int} (holds : type.Holds n) : type.wrap n = n := by
  obtain ⟨low, high⟩ := holds
  rw [wrap, Int.emod_eq_of_lt (by omega) (by omega)]
  omega

/-- What a build does with a result its type does not hold. -/
inductive Build where
  /-- Overflow checks are on: the program stops. -/
  | checked
  /-- Overflow checks are off: the result wraps around. -/
  | wrapping
deriving DecidableEq

/-- A computation over machine integers. -/
structure Calc (α : Type) where
  /-- What it comes to, unless the program stopped. -/
  outcome : Option α
  /-- Whether every result on the way was held by its type. -/
  held : Bool
deriving DecidableEq

namespace Calc

variable {α β : Type}

instance : Monad Calc where
  pure value := ⟨some value, true⟩
  bind first next :=
    match first.outcome with
    | none => ⟨none, first.held⟩
    | some value => ⟨(next value).outcome, first.held && (next value).held⟩

/-- The result of an operation whose exact result is `n`. -/
def result (build : Build) (type : IntType) (n : Int) : Calc Int :=
  if type.Holds n then ⟨some n, true⟩
  else
    match build with
    | .checked => ⟨none, false⟩
    | .wrapping => ⟨some (type.wrap n), false⟩

variable {build : Build} {type : IntType} {n : Int}

@[simp] theorem pure_held (value : α) : (pure value : Calc α).held = true := rfl

@[simp] theorem pure_outcome (value : α) : (pure value : Calc α).outcome = some value := rfl

/-- Where the type holds the exact result, the operation is exact in every build. -/
theorem result_of_holds (holds : type.Holds n) : result build type n = pure n := if_pos holds

theorem result_held : (result build type n).held = true ↔ type.Holds n := by
  unfold result
  by_cases holds : type.Holds n
  · simp [holds]
  · cases build <;> simp [holds]

@[simp] theorem bind_of_pure (value : α) (next : α → Calc β) : (pure value >>= next : Calc β) = next value := by
  change Calc.mk (next value).outcome (true && (next value).held) = next value
  rw [Bool.true_and]

/-- A sequence is exact only if its first part is. -/
theorem bind_held {first : Calc α} {next : α → Calc β} (held : (first >>= next).held = true) : first.held = true := by
  obtain ⟨outcome, exact⟩ := first
  cases outcome with
  | none => exact held
  | some value =>
    change (exact && (next value).held) = true at held
    exact (Bool.and_eq_true_iff.mp held).1

/-- A sequence that begins with one operation is exact only if the type holds that
operation's result, and then it goes on with the exact result. -/
theorem result_bind_held {next : Int → Calc β} :
    (result build type n >>= next).held = true ↔ type.Holds n ∧ (next n).held = true := by
  constructor
  · intro held
    have holds : type.Holds n := result_held.mp (bind_held held)
    rw [result_of_holds holds, bind_of_pure] at held
    exact ⟨holds, held⟩
  · intro held
    rw [result_of_holds held.1, bind_of_pure]
    exact held.2

end Calc

end MachineInt

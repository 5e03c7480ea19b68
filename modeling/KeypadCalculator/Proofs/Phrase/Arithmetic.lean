import KeypadCalculator.Evaluation
import KeypadCalculator.Proofs.Binary64.Nearest

/-!
The arithmetic of the operators by itself, with the numbers that it depends on: what
counts as zero, the hundred that a percentage is divided by, and the magnitude below
which a quotient is dropped. Applying an operator is this arithmetic.
-/

namespace KeypadCalculator

namespace Binary64

/-- The number is zero, of either sign. -/
def isNought (b : Binary64) : Bool :=
  b = ofUnits false 0 || b = ofUnits true 0

def hundred : Binary64 :=
  ofUnits false (100 * one)

/-- The magnitude is below `10 ^ -15`. -/
def isNegligible : Binary64 → Bool
  | .finite _ units _ => units * tenPow 15 < one
  | _ => false

theorem isZero_eq_isNought (b : Binary64) : b.isZero = b.isNought := by
  rw [Bool.eq_iff_iff]
  cases b with
  | finite negative units h =>
      cases negative <;> simp [isZero, isNought, ofUnits_eq_finite representable_zero]
  | infinite | notANumber => simp [isZero, isNought, ofUnits_eq_finite representable_zero]

/-- A hundred is a number of the format, so that it is not rounded. -/
theorem hundredth_eq (b : Binary64) : hundredth b = b.div hundred := by
  have hFormat := @representable_of_digits 100 (by decide) 1074 (by decide)
  have hExact := nearest_of_dvd Nat.one_pos hFormat.2
  rw [Nat.mul_one] at hExact
  rw [hundredth, hundred, ofQuotient]
  unfold one
  rw [hExact]

/-- The number nearest to `10 ^ -15` is above it. -/
theorem one_le_nearest_mul_fifteen : one ≤ nearest one (tenPow 15) * tenPow 15 := by
  decide +kernel

/-- No number is between `10 ^ -15` and the number that stands for it. -/
theorem isNoise_eq_isNegligible (b : Binary64) : isNoise b = b.isNegligible := by
  cases b with
  | finite negative units h =>
      have hPos : 0 < tenPow 15 := Nat.pow_pos (by decide)
      have hBelow := lt_nearest_iff hPos one_le_nearest_mul_fifteen h.2
      rw [isNoise, isNegligible]
      simp only [hBelow]
  | infinite negative => rfl
  | notANumber => rfl

end Binary64

namespace Operator

/-- The arithmetic of an operation on any two numbers. -/
def compute : Operator → Binary64 → Binary64 → Binary64
  | .add, a, b => a.add b
  | .subtract, a, b => a.sub b
  | .multiply, a, b => a.mul b
  | .divide, a, b => if (a.div b).isNegligible then Binary64.zero else a.div b
  | .modulo, a, b => a.rem b
  | .percent, _, b => b.div Binary64.hundred

/-- The fault of an operation whose right operand is zero. -/
def zeroFault? : Operator → Option Fault
  | .divide => some .divisionByZero
  | .modulo => some .moduloByZero
  | _ => none

/-- An operator fails where its right operand is zero, if it is one that does, and
computes anywhere else. -/
theorem apply_eq_compute (op : Operator) (a b : Binary64) :
    op.apply a b = match if b.isNought then op.zeroFault? else none with
      | some fault => .error fault
      | none => .ok (op.compute a b) := by
  rw [← b.isZero_eq_isNought]
  cases op with
  | divide =>
      rw [apply, compute, ← Binary64.isNoise_eq_isNegligible]
      cases b.isZero <;> rfl
  | modulo =>
      rw [apply, compute]
      cases b.isZero <;> rfl
  | percent =>
      rw [apply, compute, Binary64.hundredth_eq]
      cases b.isZero <;> rfl
  | add | subtract | multiply => cases b.isZero <;> rfl

end Operator

end KeypadCalculator

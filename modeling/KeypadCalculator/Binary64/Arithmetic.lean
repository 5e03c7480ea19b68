import KeypadCalculator.Binary64.Rounding

/-!
The arithmetic of binary64 numbers: each operation is exact in units and
rounded once.
-/

namespace KeypadCalculator.Binary64

/-- The signed whole number of units of a finite number. -/
def signedUnits (negative : Bool) (units : Nat) : Int :=
  if negative then -(units : Int) else units

def neg : Binary64 → Binary64
  | .finite negative units h => .finite (!negative) units h
  | .infinite negative => .infinite (!negative)
  | .notANumber => .notANumber

/-- A sum that vanishes is positive zero, unless both summands are negative
zeros. -/
def add : Binary64 → Binary64 → Binary64
  | .finite negative units _, .finite negative' units' _ =>
    let sum := signedUnits negative units + signedUnits negative' units'
    ofQuotient (decide (sum < 0) || (sum == 0 && negative && negative')) sum.natAbs 1
  | .infinite negative, .infinite negative' =>
    if negative = negative' then .infinite negative else .notANumber
  | .infinite negative, .finite .. => .infinite negative
  | .finite .., .infinite negative => .infinite negative
  | _, _ => .notANumber

def sub (a b : Binary64) : Binary64 :=
  add a (neg b)

def mul : Binary64 → Binary64 → Binary64
  | .finite negative units _, .finite negative' units' _ =>
    ofQuotient (negative ^^ negative') (units * units') one
  | .infinite negative, .infinite negative' => .infinite (negative ^^ negative')
  | .infinite negative, .finite negative' units _ =>
    if units = 0 then .notANumber else .infinite (negative ^^ negative')
  | .finite negative units _, .infinite negative' =>
    if units = 0 then .notANumber else .infinite (negative ^^ negative')
  | _, _ => .notANumber

def div : Binary64 → Binary64 → Binary64
  | .finite negative units _, .finite negative' units' _ =>
    if units' = 0 then
      if units = 0 then .notANumber else .infinite (negative ^^ negative')
    else ofQuotient (negative ^^ negative') (units * one) units'
  | .infinite negative, .finite negative' _ _ => .infinite (negative ^^ negative')
  | .finite negative _ _, .infinite negative' => ofUnits (negative ^^ negative') 0
  | _, _ => .notANumber

/-- The remainder of the division whose quotient is cut off towards zero. It
has the sign of the dividend, also where it is zero. -/
def rem : Binary64 → Binary64 → Binary64
  | .finite negative units _, .finite _ units' _ =>
    if units' = 0 then .notANumber else ofUnits negative (units % units')
  | .finite negative units h, .infinite _ => .finite negative units h
  | _, _ => .notANumber

/-- The whole number of ones nearest to a magnitude; a half goes away from
zero. -/
def roundHalfUp (units : Nat) : Nat :=
  (units + one / 2) / one

end KeypadCalculator.Binary64

import FlowPlan.Text.Basic

/-! # Binary floating point numbers

A number of sixty-four bits as what it stands for: a sign, a mantissa and an
exponent of two, or one of the values outside the reals. All arithmetic here
is exact arithmetic on natural numbers followed by one rounding to the nearest
number, where a tie goes to the even mantissa.
-/

namespace FlowPlan

/-- `finite negative mantissa exponent` is `mantissa * 2 ^ exponent` with the given sign. -/
inductive Binary64 where
  | finite (negative : Bool) (mantissa : Nat) (exponent : Int)
  | infinite (negative : Bool)
  | undefined
deriving DecidableEq, Repr, Inhabited

namespace Binary64

/-- The exponent of the smallest numbers. -/
def leastExponent : Int := -1074

/-- The exponent of the largest numbers. -/
def greatestExponent : Int := 971

/-- Mantissas stay below this bound. -/
def mantissaBound : Nat := Nat.pow 2 53

def zero (negative : Bool) : Binary64 := .finite negative 0 leastExponent

def isZero : Binary64 → Bool
  | .finite _ mantissa _ => mantissa = 0
  | _ => false

def isFinite : Binary64 → Bool
  | .finite .. => true
  | _ => false

/-- Equality of numbers: both zeros are the same number, and `undefined` equals nothing. -/
def numericallyEqual (left right : Binary64) : Bool :=
  left ≠ .undefined && (left = right || (left.isZero && right.isZero))

/-- The quotient rounded to the nearest natural number, a tie to the even one. -/
def roundQuotient (numerator denominator : Nat) : Nat :=
  let quotient := numerator / denominator
  let doubled := 2 * (numerator % denominator)
  if denominator < doubled || (denominator = doubled && quotient % 2 = 1) then quotient + 1
  else quotient

example : [1, 3, 5, 6, 7].map (roundQuotient · 2) = [0, 2, 2, 3, 4] := rfl

/-- `numerator / denominator` measured in units of `2 ^ exponent`, again as a quotient. -/
def scaled (numerator denominator : Nat) (exponent : Int) : Nat × Nat :=
  match exponent with
  | .ofNat shift => (numerator, denominator * Nat.pow 2 shift)
  | .negSucc shift => (numerator * Nat.pow 2 (shift + 1), denominator)

/-- The exponent at which a positive quotient is rounded: a full mantissa if the range allows it. -/
def roundingExponent (numerator denominator : Nat) : Int :=
  let estimate : Int := (numerator.log2 : Int) - (denominator.log2 : Int) - 52
  let exponent := max estimate leastExponent
  let (units, unit) := scaled numerator denominator exponent
  if 2 * (units / unit) < mantissaBound then max (exponent - 1) leastExponent else exponent

/-- The number nearest to `numerator / denominator`. -/
def ofQuotient (negative : Bool) (numerator denominator : Nat) : Binary64 :=
  if numerator = 0 then zero negative
  else
    let exponent := roundingExponent numerator denominator
    let (units, unit) := scaled numerator denominator exponent
    let rounded := roundQuotient units unit
    let (mantissa, exponent) :=
      if rounded < mantissaBound then (rounded, exponent) else (mantissaBound / 2, exponent + 1)
    if greatestExponent < exponent then .infinite negative
    else .finite negative mantissa exponent

def ofInt (value : Int) : Binary64 := ofQuotient (value < 0) value.natAbs 1

example : ofInt (-(2 ^ 53 + 1)) = .finite true (2 ^ 52) 1 := by decide +kernel
example : ofQuotient false 3 (2 ^ 1076) = .finite false 1 (-1074) := by decide +kernel

/-- The size of a finite number as a quotient of natural numbers. -/
def magnitude (mantissa : Nat) (exponent : Int) : Nat × Nat :=
  match exponent with
  | .ofNat shift => (mantissa * Nat.pow 2 shift, 1)
  | .negSucc shift => (mantissa, Nat.pow 2 (shift + 1))

end Binary64

end FlowPlan

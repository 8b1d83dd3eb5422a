import FlowPlan.Number.Decimal

/-! # The shortest numeral of a number

Of all decimals that round to a given number, the shortest one has the fewest
digits, and among those it is the nearest to the number. `shortest` finds it by
trying one digit, two digits and so on: if any decimal with that many digits
rounds to the number, then so does one of the two that enclose the number.

How the digits are laid out is a decision of each format. `plain` always
writes them in positional notation; `pointed` marks a whole number by `.0` and
changes to an exponent for very large and very small numbers.
-/

namespace FlowPlan

namespace Binary64

/-- The reals that round to a number, as integers in units of a quarter of the last place of
its mantissa. The distance to the next smaller number halves at a power of two. -/
structure Neighbourhood where
  least : Nat
  centre : Nat
  greatest : Nat
  closed : Bool

def neighbourhood (mantissa : Nat) (exponent : Int) : Neighbourhood :=
  let narrow := 2 * mantissa = mantissaBound && leastExponent < exponent
  { least := if narrow then 4 * mantissa - 1 else 4 * mantissa - 2
    centre := 4 * mantissa
    greatest := 4 * mantissa + 2
    closed := mantissa % 2 = 0 }

/-- The position of the leading digit of `numerator / denominator`: the greatest power of ten
not above it. -/
def decade (numerator denominator : Nat) : Int :=
  if denominator ≤ numerator then (Decimal.width (numerator / denominator) : Int) - 1
  else
    let width := Decimal.width (denominator / numerator)
    if numerator * Nat.pow 10 (width - 1) = denominator then 1 - (width : Int) else -(width : Int)

/-- Which of the two decimals around the number is taken when both are equally near. -/
inductive TieRule where
  | up
  | even
deriving DecidableEq, Repr

/-- The decimal with unit `10 ^ place` nearest to the number, if one of the two around it rounds
to the number. All comparisons are made in multiples of a common unit. -/
def nearestOnGrid? (rule : TieRule) (hood : Neighbourhood) (exponent place : Int) :
    Option Decimal :=
  let binary : Nat := match exponent - 2 with
    | .ofNat shift => Nat.pow 2 shift
    | .negSucc _ => 1
  let binaryUnder : Nat := match exponent - 2 with
    | .ofNat _ => 1
    | .negSucc shift => Nat.pow 2 (shift + 1)
  let ten : Nat := match place with
    | .ofNat power => Nat.pow 10 power
    | .negSucc _ => 1
  let tenUnder : Nat := match place with
    | .ofNat _ => 1
    | .negSucc power => Nat.pow 10 (power + 1)
  let unit := ten * binaryUnder
  let scale (quarters : Nat) := quarters * binary * tenUnder
  let centre := scale hood.centre
  let inside (digits : Nat) :=
    let value := digits * unit
    let least := scale hood.least
    let greatest := scale hood.greatest
    (least < value && value < greatest) || (hood.closed && (value = least || value = greatest))
  let below := centre / unit
  let above := below + 1
  let distanceBelow := centre - below * unit
  let distanceAbove := above * unit - centre
  match inside below, inside above with
  | false, false => none
  | true, false => some ⟨below, place⟩
  | false, true => some ⟨above, place⟩
  | true, true =>
    if distanceBelow < distanceAbove then some ⟨below, place⟩
    else if distanceAbove < distanceBelow then some ⟨above, place⟩
    else match rule with
      | .up => some ⟨above, place⟩
      | .even => some ⟨if below % 2 = 0 then below else above, place⟩

/-- The first hit when the unit shrinks from `10 ^ place` by one decimal place at a time. -/
def firstHit? (rule : TieRule) (hood : Neighbourhood) (exponent : Int) : Nat → Int → Option Decimal
  | 0, _ => none
  | attempts + 1, place =>
    match nearestOnGrid? rule hood exponent place with
    | some decimal => some decimal
    | none => firstHit? rule hood exponent attempts (place - 1)

end Binary64

namespace Decimal

/-- The same number without zeros at the end of its digits. -/
def trimZeros (decimal : Decimal) : Decimal :=
  if positive : decimal.digits ≠ 0 ∧ decimal.digits % 10 = 0 then
    trimZeros ⟨decimal.digits / 10, decimal.exponent + 1⟩
  else decimal
termination_by decimal.digits
decreasing_by exact Nat.div_lt_self (Nat.pos_of_ne_zero positive.1) (by decide)

end Decimal

namespace Binary64

/-- The shortest decimal that rounds to `mantissa * 2 ^ exponent`. Seventeen digits always
suffice. -/
def shortest (rule : TieRule) (mantissa : Nat) (exponent : Int) : Decimal :=
  if mantissa = 0 then ⟨0, 0⟩
  else
    let (numerator, denominator) := magnitude mantissa exponent
    let hood := neighbourhood mantissa exponent
    ((firstHit? rule hood exponent 17 (decade numerator denominator)).getD
      ⟨mantissa, exponent⟩).trimZeros

example : shortest .even 1 (-1074) = ⟨5, -324⟩ := by decide +kernel

/-- A tie between two shortest decimals: two units in front of the point and a quarter behind. -/
example : shortest .up (2 ^ 52 + 1) (-2) = ⟨11258999068426243, -1⟩ := by decide +kernel
example : shortest .even (2 ^ 52 + 1) (-2) = ⟨11258999068426242, -1⟩ := by decide +kernel

end Binary64

namespace Decimal

def digitText (decimal : Decimal) : Text := Nat.toDigits 10 decimal.digits

def zeros (count : Nat) : Text := List.replicate count '0'

/-- Positional notation, with a point only where a fraction follows. -/
def positional (decimal : Decimal) : Text :=
  let digits := decimal.digitText
  match decimal.exponent with
  | .ofNat count => if decimal.digits = 0 then digits else digits ++ zeros count
  | .negSucc places =>
    let places := places + 1
    if places < digits.length then
      digits.take (digits.length - places) ++ '.' :: digits.drop (digits.length - places)
    else '0' :: '.' :: zeros (places - digits.length) ++ digits

example : positional ⟨125, -3⟩ = "0.125".toList := by decide +kernel

def integerText (value : Int) : Text :=
  if value < 0 then '-' :: Nat.toDigits 10 value.natAbs else Nat.toDigits 10 value.natAbs

/-- Positional notation for numbers from `0.00001` to below `10 ^ 16`, where a whole number ends
in `.0`; all other numbers have one digit in front of the point and an exponent. -/
def pointed (decimal : Decimal) : Text :=
  let digits := decimal.digitText
  let point : Int := digits.length + decimal.exponent
  if decimal.digits = 0 then ['0', '.', '0']
  else if -5 < point && point ≤ 16 then
    if 0 ≤ decimal.exponent then decimal.positional ++ ['.', '0'] else decimal.positional
  else
    let mantissa := match digits with
      | [] => []
      | [digit] => [digit]
      | digit :: fraction => digit :: '.' :: fraction
    mantissa ++ 'e' :: integerText (point - 1)

example : pointed ⟨1, 3⟩ = "1000.0".toList := by decide +kernel
example : pointed ⟨1, 16⟩ = "1e16".toList := by decide +kernel

end Decimal

namespace Binary64

def signed (negative : Bool) (size : Text) : Text := if negative then '-' :: size else size

/-- Positional notation without an exponent; a tie of shortest decimals goes up. -/
def plain : Binary64 → Text
  | .finite negative mantissa exponent =>
    signed negative (shortest .up mantissa exponent).positional
  | .infinite negative => signed negative ['i', 'n', 'f']
  | .undefined => ['N', 'a', 'N']

/-- Always recognisable as a floating point number; a tie of shortest decimals goes to the even
digit. The values outside the reals begin with a point. -/
def pointed : Binary64 → Text
  | .finite negative mantissa exponent => signed negative (shortest .even mantissa exponent).pointed
  | .infinite negative => signed negative ['.', 'i', 'n', 'f']
  | .undefined => ['.', 'n', 'a', 'n']

end Binary64

end FlowPlan

import FlowPlan.Number.Binary64

/-! # Decimal numerals

Numerals with an optional sign, fraction and exponent of ten, and the words
for the values outside the reals. `Binary64.ofText?` reads one and rounds it to the
nearest number; it accepts no blank and no other character around the numeral.
-/

namespace FlowPlan

/-- `digits * 10 ^ exponent`. -/
structure Decimal where
  digits : Nat
  exponent : Int
deriving DecidableEq, Repr, Inhabited

namespace Decimal

def digitValue (c : Char) : Nat := c.toNat - '0'.toNat

/-- The number that a run of digits stands for, in front of which `value` was read. -/
def readDigits (value : Nat) (digits : Text) : Nat :=
  digits.foldl (fun sum digit => 10 * sum + digitValue digit) value

/-- An optional sign, and whether it is the minus sign. -/
def readSign : Text → Bool × Text
  | '-' :: rest => (true, rest)
  | '+' :: rest => (false, rest)
  | rest => (false, rest)

/-- The exponent part of a numeral, which is the whole of `text` or is missing. -/
def readExponent? (text : Text) : Option Int :=
  match text with
  | [] => some 0
  | marker :: rest =>
    if marker = 'e' || marker = 'E' then
      let (negative, digits) := readSign rest
      if digits.isEmpty || !digits.all Char.isDigit then none
      else
        let size : Int := readDigits 0 digits
        some (if negative then -size else size)
    else none

/-- An unsigned numeral: digits, perhaps a point among or around them, perhaps an exponent. -/
def ofText? (text : Text) : Option Decimal :=
  let whole := text.takeWhile Char.isDigit
  let afterWhole := text.dropWhile Char.isDigit
  let (fraction, afterFraction) :=
    match afterWhole with
    | '.' :: rest => (rest.takeWhile Char.isDigit, rest.dropWhile Char.isDigit)
    | rest => ([], rest)
  if whole.isEmpty && fraction.isEmpty then none
  else (readExponent? afterFraction).map fun exponent =>
    ⟨readDigits (readDigits 0 whole) fraction, exponent - fraction.length⟩

example : ofText? "12.50e3".toList = some ⟨1250, 1⟩ := by decide +kernel
example : ofText? ".".toList = none := by decide +kernel

/-- The count of decimal digits, one for zero. -/
def width (value : Nat) : Nat := (Nat.toDigits 10 value).length

/-- A numeral far outside the range of the numbers is decided by its order of magnitude
alone, so that no power of ten larger than the range is ever computed. -/
def toBinary64 (negative : Bool) (decimal : Decimal) : Binary64 :=
  let order : Int := decimal.exponent + width decimal.digits
  if decimal.digits = 0 || order < -330 then .zero negative
  else if 330 < order then .infinite negative
  else match decimal.exponent with
    | .ofNat power => .ofQuotient negative (decimal.digits * Nat.pow 10 power) 1
    | .negSucc power => .ofQuotient negative decimal.digits (Nat.pow 10 (power + 1))

end Decimal

namespace Binary64

/-- The words for the values outside the reals, without their sign and in lower case. -/
def ofWord? (negative : Bool) (word : Text) : Option Binary64 :=
  if word = ['i', 'n', 'f'] || word = ['i', 'n', 'f', 'i', 'n', 'i', 't', 'y'] then
    some (.infinite negative)
  else if word = ['n', 'a', 'n'] then some .undefined
  else none

/-- The number that a numeral or word stands for. -/
def ofText? (text : Text) : Option Binary64 :=
  let (negative, size) := Decimal.readSign text
  match Decimal.ofText? size with
  | some decimal => some (decimal.toBinary64 negative)
  | none => ofWord? negative (Text.lowered size)

example : ofText? "0.1".toList = some (ofQuotient false 1 10) := by decide +kernel
example : ofText? "1x".toList = none := by decide +kernel

end Binary64

end FlowPlan

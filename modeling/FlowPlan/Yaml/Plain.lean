import FlowPlan.Number.Decimal
import FlowPlan.Yaml.Basic

/-! # Plain scalars

A scalar without quotes stands for null, a boolean or a number if it has the
form of one, and otherwise for its own text. Whole numbers may be written in
base two, eight or sixteen; more digits behind a leading zero make a text.
-/

namespace FlowPlan.Yaml.Plain

def isNull (text : Text) : Bool :=
  text.isEmpty || text = "~".toList || text = "null".toList || text = "Null".toList ||
    text = "NULL".toList

def flag? (text : Text) : Option Bool :=
  if text = "true".toList || text = "True".toList || text = "TRUE".toList then some true
  else if text = "false".toList || text = "False".toList || text = "FALSE".toList then some false
  else none

/-! ## Whole numbers -/

def digit? (base : Nat) (c : Char) : Option Nat :=
  let value :=
    if c.isDigit then c.toNat - '0'.toNat
    else if 'a' ≤ c ∧ c ≤ 'f' then c.toNat - 'a'.toNat + 10
    else if 'A' ≤ c ∧ c ≤ 'F' then c.toNat - 'A'.toNat + 10
    else base
  if value < base then some value else none

/-- The number that nothing but digits stand for. -/
def natural? (base : Nat) (text : Text) : Option Nat :=
  if text.isEmpty then none
  else text.foldlM (fun sum c => (digit? base c).map (base * sum + ·)) 0

/-- A number with the mark of its base in front, or a decimal one. -/
def unsigned? (text : Text) : Option Nat :=
  match text with
  | '0' :: 'x' :: digits => natural? 16 digits
  | '0' :: 'o' :: digits => natural? 8 digits
  | '0' :: 'b' :: digits => natural? 2 digits
  | digits => natural? 10 digits

def withoutSign : Text → Text
  | '-' :: rest => rest
  | '+' :: rest => rest
  | text => text

/-- Digits behind a leading zero, as in a postal code. -/
def hasLeadingZero (text : Text) : Bool :=
  match withoutSign text with
  | '0' :: next :: rest => (next :: rest).all Char.isDigit
  | _ => false

def whole? (text : Text) : Option Int :=
  if hasLeadingZero text then none
  else match text with
    | '-' :: size => (unsigned? size).map fun n => -(n : Int)
    | '+' :: size => (unsigned? size).map Int.ofNat
    | size => (unsigned? size).map Int.ofNat

example : whole? "0x1F".toList = some 31 := by decide +kernel
example : whole? "007".toList = none := by decide +kernel

/-! ## Numbers of any size -/

def unsignedSpecial? (text : Text) : Bool :=
  text = ".inf".toList || text = ".Inf".toList || text = ".INF".toList

def float? (text : Text) : Option Binary64 :=
  if hasLeadingZero text then none
  else match text with
    | '+' :: size =>
      if unsignedSpecial? size then some (.infinite false) else finite? size
    | '-' :: size =>
      if unsignedSpecial? size then some (.infinite true)
      else (Decimal.ofText? size).bind fun decimal => onlyFinite (decimal.toBinary64 true)
    | size =>
      if unsignedSpecial? size then some (.infinite false)
      else if size = ".nan".toList || size = ".NaN".toList || size = ".NAN".toList then
        some .undefined
      else finite? size
where
  onlyFinite (x : Binary64) : Option Binary64 := if x.isFinite then some x else none
  finite? (size : Text) : Option Binary64 :=
    (Decimal.ofText? size).bind fun decimal => onlyFinite (decimal.toBinary64 false)

example : float? ".5".toList = some (.ofQuotient false 1 2) := by decide +kernel
example : float? "1e999".toList = none := by decide +kernel

/-! ## The meaning of a plain scalar

Whole numbers that fit into 64 bits have a meaning. Somewhat larger ones, up to
128 bits, are refused, and beyond that they are taken for fractional numbers.
-/

inductive Meaning where
  | value (value : Yaml)
  /-- A number that is too large to be kept exactly and too small to be rounded. -/
  | outOfRange

/-- A number of the given width in bits, with or without a sign. -/
def fits (width : Nat) (n : Int) : Bool :=
  -(Nat.pow 2 (width - 1) : Int) ≤ n && n < (Nat.pow 2 width : Int)

example : fits 8 (-128) = true := rfl
example : fits 8 256 = false := rfl

def ofWhole? (n : Int) : Option Meaning :=
  if fits 64 n then some (.value (.integer n))
  else if fits 128 n then some .outOfRange
  else none

def meaning (text : Text) : Meaning :=
  if isNull text then .value .null
  else match flag? text with
    | some flag => .value (.bool flag)
    | none =>
      match (whole? text).bind ofWhole? with
      | some meaning => meaning
      | none =>
        match float? text with
        | some x => .value (.float x)
        | none => .value (.string (String.ofList text))

/-- A text that stands for itself when it is written without quotes. -/
def readsAsText (text : Text) : Bool :=
  match meaning text with
  | .value (.string _) => true
  | _ => false

end FlowPlan.Yaml.Plain

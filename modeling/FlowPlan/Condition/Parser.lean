import FlowPlan.Condition.Reference
import FlowPlan.Condition.Printer

/-! # Reading conditions

An expression is a chain of `||` over chains of `&&` over operands. An operand
is an expression in parentheses, a negated operand, a comparison with a literal
or a call; every other text is kept as it is. A text is refused only if it is
blank or its quotes or parentheses do not match.
-/

namespace FlowPlan

/-- A text that is no expression. -/
structure ExpressionError where
  text : Text
  fault : ExpressionFault
deriving DecidableEq, Repr

namespace Text

/-- The body of a text that may be marked as an expression by `$` and doubled braces. -/
def expressionBody (text : Text) : Text :=
  let trimmed := trim text
  match (dropStart? ['$', '\x7b', '\x7b'] trimmed).bind (dropEnding? ['\x7d', '\x7d']) with
  | some body => trim body
  | none => trimmed

example : expressionBody " $\x7b\x7b a \x7d\x7d".toList = ['a'] := by decide +kernel

end Text

def Literal.ofText? (text : Text) : Option Literal :=
  if text = ['n', 'u', 'l', 'l'] then some .null
  else if text = Condition.trueText then some (.boolean true)
  else if text = Condition.falseText then some (.boolean false)
  else match text with
    | [] => none
    | head :: _ =>
      if head = '\'' then (Text.unquote? text).map .string
      else if head.isDigit || head = '-' || head = '.' then (Binary64.ofText? text).map .number
      else none

namespace Condition

variable {σ : Type} [Keyed σ]

/-- The comparators in the order in which a text is searched for them, so that the longer of two
that begin alike is found. -/
def searchOrder : List Comparator :=
  [.equal, .notEqual, .lessOrEqual, .greaterOrEqual, .less, .greater]

/-- The first comparator in search order that stands outside quotes and parentheses, with the
text on both of its sides. -/
def findComparator? (text : Text) : Option (Text × Comparator × Text) :=
  searchOrder.findSome? fun comparator =>
    (Nesting.cutAt? comparator.token .top text).map fun (front, back) => (front, comparator, back)

/-- A comparison with a literal on one of its sides; the literal is moved to the right. -/
def comparison? (scope : StepScope σ) (text : Text) : Option (Condition σ) :=
  match findComparator? text with
  | none => none
  | some (front, comparator, back) =>
    let left := Text.trim front
    let right := Text.trim back
    if left.isEmpty || right.isEmpty then none
    else match Literal.ofText? right with
      | some literal => some (.comparison left comparator literal (Text.sources scope left))
      | none => (Literal.ofText? left).map fun literal =>
        .comparison right comparator.flipped literal (Text.sources scope right)

/-- A word followed by its arguments in parentheses. -/
def call? (scope : StepScope σ) (text : Text) : Option (Condition σ) :=
  let name := text.takeWhile (· ≠ '(')
  if name.isEmpty || !name.all Text.isWordChar then none
  else (Text.unwrap? (text.dropWhile (· ≠ '('))).map fun inner =>
    let inner := Text.trim inner
    let arguments :=
      if inner.isEmpty then [] else (Text.splitAround [','] inner).map Text.trim
    .call name arguments
      (arguments.foldl (fun sum argument => Sources.union sum (Text.sources scope argument)) [])

/-- An operand that is neither in parentheses nor negated. -/
def leaf (scope : StepScope σ) (text : Text) : Condition σ :=
  ((comparison? scope text).or (call? scope text)).getD (.raw text (Text.sources scope text))

/-- What a negation applies to. A mark in front of a comparison belongs to the left side of the
comparison, and `!=` is no negation. -/
def negatedPart? (text : Text) : Option Text :=
  match text with
  | '!' :: rest =>
    let part := Text.trim rest
    if part.head? ≠ some '=' && ((Text.unwrap? part).isSome || (findComparator? part).isNone) then
      some part
    else none
  | _ => none

theorem length_negatedPart? {text part : Text} (negated : negatedPart? text = some part) :
    part.length < text.length := by
  unfold negatedPart? at negated
  split at negated
  · dsimp only at negated
    split at negated
    · cases negated
      have := Text.length_trim_le ‹Text›
      simp only [List.length_cons]
      omega
    · simp at negated
  · simp at negated

mutual

def ofOperand (scope : StepScope σ) (text : Text) : Condition σ :=
  match _unwrapped : Text.unwrap? text with
  | some inner => ofExpression scope (Text.trim inner)
  | none =>
    match _negated : negatedPart? text with
    | some part => (ofOperand scope part).negate
    | none => leaf scope text
termination_by 2 * text.length
decreasing_by
  · have := Text.length_unwrap? _unwrapped
    have := Text.length_trim_le inner
    omega
  · have := length_negatedPart? _negated
    omega

/-- The condition of a text whose quotes and parentheses match. -/
def ofExpression (scope : StepScope σ) (text : Text) : Condition σ :=
  let alternatives := (Text.splitAround ['|', '|'] text).attach.map fun alternative =>
    let factors := (Text.splitAround ['&', '&'] (Text.trim alternative.1)).attach.map fun factor =>
      ofOperand scope (Text.trim factor.1)
    (allOf factors).getD (.raw alternative.1 [])
  (anyOf alternatives).getD (.raw text [])
termination_by 2 * text.length + 1
decreasing_by
  have := Text.length_le_of_mem_splitAround alternative.2
  have := Text.length_trim_le alternative.1
  have := Text.length_le_of_mem_splitAround factor.2
  have := Text.length_trim_le factor.1
  omega

end

/-- The condition of an expression, which may be marked as one. -/
def parse (scope : StepScope σ) (text : Text) : Except ExpressionError (Condition σ) :=
  let body := Text.expressionBody text
  if body.isEmpty then .error ⟨text, .empty⟩
  else match Nesting.top.fault? body with
    | some fault => .error ⟨text, fault⟩
    | none => .ok (ofExpression scope body)

end Condition

end FlowPlan

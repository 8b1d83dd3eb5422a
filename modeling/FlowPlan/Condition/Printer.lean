import FlowPlan.Condition.Basic
import FlowPlan.List.Distinct
import FlowPlan.Text.Quoted

/-! # The text of a condition

`Condition.render` writes a condition with as few parentheses as reading it back
allows, and the relations between conditions that compare their texts.
-/

namespace FlowPlan

def Literal.render : Literal → Text
  | .string content => Text.quote content
  | .number value => if value.isZero then ['0'] else value.plain
  | .boolean value => Condition.booleanText value
  | .null => ['n', 'u', 'l', 'l']

namespace Condition

variable {σ : Type}

def parenthesized (wrap : Bool) (text : Text) : Text :=
  if wrap then '(' :: text ++ [')'] else text

/-- An operand of `connective` needs parentheses if it is a chain of the other connective, or an
opaque text in which the other connective occurs. -/
def wrapsUnder (connective : Connective) : Condition σ → Bool
  | .joined inner _ _ => inner ≠ connective
  | .raw text _ => Text.contains connective.other.token text
  | _ => false

/-- The pieces of text that an opaque operand of a negation must not show. -/
def operatorTokens : List Text :=
  [['&', '&'], ['|', '|'], ['=', '='], ['!', '='], ['<'], ['>']]

def wrapsUnderNegation : Condition σ → Bool
  | .comparison .. => true
  | .joined .. => true
  | .raw text _ => operatorTokens.any (Text.contains · text)
  | _ => false

def render : Condition σ → Text
  | .comparison left comparator right _ => left ++ ' ' :: comparator.token ++ ' ' :: right.render
  | .call name arguments _ => name ++ '(' :: Text.joinWith [',', ' '] arguments ++ [')']
  | .raw text _ => text
  | .negated inner => '!' :: parenthesized inner.wrapsUnderNegation inner.render
  | .joined connective left right =>
    parenthesized (left.wrapsUnder connective) left.render ++ ' ' :: connective.token ++
      ' ' :: parenthesized (right.wrapsUnder connective) right.render

def sameText (left right : Condition σ) : Bool := left.render = right.render

/-- The first of all conditions with one text. -/
def distinctByText (conditions : List (Condition σ)) : List (Condition σ) :=
  distinctBy sameText conditions

/-- The condition without repeated conjuncts. -/
def withDistinctConjuncts [Keyed σ] (condition : Condition σ) : Condition σ :=
  (allOf (distinctByText condition.conjuncts)).getD condition

/-- `negated` is the text `base` behind a negation, with or without parentheses. -/
def isNegationText (negated base : Text) : Bool :=
  match negated with
  | '!' :: rest => rest = base || rest = parenthesized true base
  | _ => false

def negates (left right : Condition σ) : Bool :=
  match left with
  | .negated inner => inner.render = right.render
  | _ => false

/-- The two can never both hold, nor both fail. Comparisons are complements only of
comparisons; all other conditions are compared by their texts. -/
def isComplementOf (left right : Condition σ) : Bool :=
  match left, right with
  | .comparison left comparator value _, .comparison left' comparator' value' _ =>
    left = left' && value.sameValue value' && comparator.opposite? = some comparator'
  | _, _ =>
    negates left right || negates right left ||
      isNegationText left.render right.render || isNegationText right.render left.render

end Condition

end FlowPlan

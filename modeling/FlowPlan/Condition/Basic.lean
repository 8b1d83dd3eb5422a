import FlowPlan.Number.Shortest

/-! # Conditions

A condition decides whether a step or a job runs. It is built from opaque
texts, comparisons with a literal and calls, joined by `&&`, `||` and `!`.
Each of its leaves records what it reads: steps and other jobs.

The type of steps is a parameter. The algebra never looks inside a step; it
only needs the number that tells steps apart.
-/

namespace FlowPlan

/-- Values that are told apart by a number alone. -/
class Keyed (σ : Type) where
  key : σ → Nat

export Keyed (key)

/-- What a condition or value can read. -/
inductive Source (σ : Type) where
  | step (step : σ)
  | job (id : String)

namespace Source

def step? {σ : Type} : Source σ → Option σ
  | .step read => some read
  | .job _ => none

def job? {σ : Type} : Source σ → Option String
  | .step _ => none
  | .job id => some id

/-- Steps come before jobs; steps are ordered by key and jobs by id. -/
def before {σ : Type} [Keyed σ] : Source σ → Source σ → Bool
  | .step left, .step right => key left < key right
  | .step _, .job _ => true
  | .job _, .step _ => false
  | .job left, .job right => left < right

instance {σ : Type} [Keyed σ] : BEq (Source σ) where
  beq
    | .step left, .step right => key left == key right
    | .job left, .job right => left == right
    | _, _ => false

end Source

/-- A set of sources: in increasing order and without repeats. -/
abbrev Sources (σ : Type) := List (Source σ)

namespace Sources

variable {σ : Type} [Keyed σ]

def insert (source : Source σ) : Sources σ → Sources σ
  | [] => [source]
  | head :: tail =>
    if source.before head then source :: head :: tail
    else if head.before source then head :: insert source tail
    else head :: tail

def union (left right : Sources σ) : Sources σ :=
  right.foldl (fun sum source => insert source sum) left

def ofList (members : List (Source σ)) : Sources σ := union [] members

def steps {σ : Type} (sources : Sources σ) : List σ := sources.filterMap Source.step?

def jobs {σ : Type} (sources : Sources σ) : List String := sources.filterMap Source.job?

end Sources

inductive Comparator where
  | equal
  | notEqual
  | less
  | lessOrEqual
  | greater
  | greaterOrEqual
deriving DecidableEq, Repr, Inhabited

namespace Comparator

def token : Comparator → Text
  | .equal => ['=', '=']
  | .notEqual => ['!', '=']
  | .less => ['<']
  | .lessOrEqual => ['<', '=']
  | .greater => ['>']
  | .greaterOrEqual => ['>', '=']

/-- The comparator with the opposite outcome. The ordering comparators have none: values of
different types cannot be ordered, and then neither `<` nor `>=` holds. -/
def opposite? : Comparator → Option Comparator
  | .equal => some .notEqual
  | .notEqual => some .equal
  | _ => none

/-- The comparator for exchanged sides. -/
def flipped : Comparator → Comparator
  | .less => .greater
  | .lessOrEqual => .greaterOrEqual
  | .greater => .less
  | .greaterOrEqual => .lessOrEqual
  | comparator => comparator

end Comparator

inductive Connective where
  | and
  | or
deriving DecidableEq, Repr, Inhabited

namespace Connective

def token : Connective → Text
  | .and => ['&', '&']
  | .or => ['|', '|']

def other : Connective → Connective
  | .and => .or
  | .or => .and

end Connective

/-- The right side of a comparison. -/
inductive Literal where
  | string (content : Text)
  | number (value : Binary64)
  | boolean (value : Bool)
  | null
deriving Repr, Inhabited

namespace Literal

/-- Equality of values, which for numbers is numerical. -/
def sameValue : Literal → Literal → Bool
  | .string left, .string right => left = right
  | .number left, .number right => left.numericallyEqual right
  | .boolean left, .boolean right => left = right
  | .null, .null => true
  | _, _ => false

end Literal

inductive Condition (σ : Type) where
  | comparison (left : Text) (comparator : Comparator) (right : Literal) (sources : List (Source σ))
  | call (name : Text) (arguments : List Text) (sources : List (Source σ))
  | joined (connective : Connective) (left right : Condition σ)
  | negated (inner : Condition σ)
  | raw (text : Text) (sources : List (Source σ))

namespace Condition

variable {σ : Type}

def trueText : Text := ['t', 'r', 'u', 'e']

def falseText : Text := ['f', 'a', 'l', 's', 'e']

def booleanText (value : Bool) : Text := if value then trueText else falseText

/-- The condition that always or never holds and reads nothing. -/
def constant (value : Bool) : Condition σ := .raw (booleanText value) []

def isTrue : Condition σ → Bool
  | .raw text _ => Text.trim text = trueText
  | _ => false

def isFalse : Condition σ → Bool
  | .raw text _ => Text.trim text = falseText
  | _ => false

section Sources

variable [Keyed σ]

/-- Everything that the leaves read. -/
def sources : Condition σ → Sources σ
  | .comparison _ _ _ sources => sources
  | .call _ _ sources => sources
  | .raw _ sources => sources
  | .joined _ left right => Sources.union left.sources right.sources
  | .negated inner => inner.sources

/-- Only a condition that reads no step may be handed to the dependencies of a step, which run
before it. -/
def isPropagatable (condition : Condition σ) : Bool := condition.sources.steps.isEmpty

/-- A constant that has replaced both operands and still reads what they read. -/
def collapsed (value : Bool) (left right : Condition σ) : Condition σ :=
  .raw (booleanText value) (Sources.union left.sources right.sources)

def conj (left right : Condition σ) : Condition σ :=
  if left.isTrue then right
  else if right.isTrue then left
  else if left.isFalse || right.isFalse then collapsed false left right
  else .joined .and left right

def disj (left right : Condition σ) : Condition σ :=
  if left.isTrue || right.isTrue then collapsed true left right
  else if left.isFalse then right
  else if right.isFalse then left
  else .joined .or left right

/-- The conjunction of all conditions from left to right, if there are any. -/
def allOf : List (Condition σ) → Option (Condition σ)
  | [] => none
  | head :: tail => some (tail.foldl conj head)

/-- The disjunction of all conditions from left to right, if there are any. -/
def anyOf : List (Condition σ) → Option (Condition σ)
  | [] => none
  | head :: tail => some (tail.foldl disj head)

end Sources

/-- The opposite condition. A negation is taken off, an equality and a constant are turned
round, and everything else is put under a negation. -/
def negate (condition : Condition σ) : Condition σ :=
  match condition with
  | .comparison left comparator right sources =>
    match comparator.opposite? with
    | some opposite => .comparison left opposite right sources
    | none => .negated condition
  | .negated inner => inner
  | .raw _ sources =>
    if condition.isTrue then .raw falseText sources
    else if condition.isFalse then .raw trueText sources
    else .negated condition
  | _ => .negated condition

/-- The operands of a chain of one connective, from left to right. -/
def operands (connective : Connective) (condition : Condition σ) : List (Condition σ) :=
  match condition with
  | .joined found left right =>
    if found = connective then left.operands connective ++ right.operands connective
    else [condition]
  | _ => [condition]

def conjuncts (condition : Condition σ) : List (Condition σ) := condition.operands .and

def disjuncts (condition : Condition σ) : List (Condition σ) := condition.operands .or

/-- Equality of structure, where steps are compared by key and number literals as numbers. -/
def same [Keyed σ] : Condition σ → Condition σ → Bool
  | .comparison left comparator right sources, .comparison left' comparator' right' sources' =>
    left = left' && comparator = comparator' && right.sameValue right' && sources == sources'
  | .call name arguments sources, .call name' arguments' sources' =>
    name = name' && arguments = arguments' && sources == sources'
  | .joined connective left right, .joined connective' left' right' =>
    connective = connective' && left.same left' && right.same right'
  | .negated inner, .negated inner' => inner.same inner'
  | .raw text sources, .raw text' sources' => text = text' && sources == sources'
  | _, _ => false

/-! ## The four status checks -/

def status (name : Text) : Condition σ := .call name [] []

def success : Condition σ := status ['s', 'u', 'c', 'c', 'e', 's', 's']

def failure : Condition σ := status ['f', 'a', 'i', 'l', 'u', 'r', 'e']

def always : Condition σ := status ['a', 'l', 'w', 'a', 'y', 's']

def cancelled : Condition σ := status ['c', 'a', 'n', 'c', 'e', 'l', 'l', 'e', 'd']

end Condition

end FlowPlan

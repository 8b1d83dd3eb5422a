import FlowPlan.Condition.Parser

/-! # Values

A value is an expression that is read for what it contains rather than for
whether it holds, such as the output of a step. It records what it reads, and
so do the conditions on it.
-/

namespace FlowPlan

structure Value (σ : Type) where
  expression : Text
  sources : Sources σ

namespace Value

variable {σ : Type}

/-- The expression marked as one, for places that take a string. -/
def template (value : Value σ) : Text :=
  ['$', '\x7b', '\x7b', ' '] ++ value.expression ++ [' ', '\x7d', '\x7d']

/-- A part of the value. -/
def property (value : Value σ) (name : Text) : Value σ :=
  { value with expression := value.expression ++ '.' :: name }

def compare (value : Value σ) (comparator : Comparator) (right : Literal) : Condition σ :=
  .comparison value.expression comparator right value.sources

/-- The outcome of a function with the value as its first argument. -/
def test (value : Value σ) (function : Text) (argument : Literal) : Condition σ :=
  .call function [value.expression, argument.render] value.sources

def startsWith (value : Value σ) (start : Literal) : Condition σ :=
  value.test ['s', 't', 'a', 'r', 't', 's', 'W', 'i', 't', 'h'] start

def endsWith (value : Value σ) (ending : Literal) : Condition σ :=
  value.test ['e', 'n', 'd', 's', 'W', 'i', 't', 'h'] ending

def contains (value : Value σ) (item : Literal) : Condition σ :=
  value.test ['c', 'o', 'n', 't', 'a', 'i', 'n', 's'] item

/-- The value taken as a condition. -/
def isTruthy (value : Value σ) : Condition σ := .raw value.expression value.sources

/-- The value of an expression, which may be marked as one. -/
def parse [Keyed σ] (scope : StepScope σ) (text : Text) : Except ExpressionError (Value σ) :=
  let body := Text.expressionBody text
  if body.isEmpty then .error ⟨text, .empty⟩ else .ok ⟨body, Text.sources scope body⟩

end Value

end FlowPlan

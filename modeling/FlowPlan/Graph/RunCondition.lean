import FlowPlan.Graph.Order

/-! # When the steps of a graph run

An action at the top level of a job runs under the condition declared for it.
Any other action runs when one of the contexts in which it was met holds and
its own condition does. Of a context, only those parts count that read nothing
but steps placed earlier: the others cannot be known when the action runs.
-/

namespace FlowPlan

namespace Graph

/-- Everything that the condition reads from steps has been placed. -/
def isKnown (placed : List Nat) (condition : Condition Step) : Bool :=
  condition.readActions.all fun action => placed.contains action.key

/-- The part of a context that is known, if any is. -/
def knownPart (placed : List Nat) (context : Condition Step) : Option (Condition Step) :=
  Condition.allOf (context.conjuncts.filter (isKnown placed))

/-- Any of the contexts, or nothing if one of them has no known part. -/
def anyContext (placed : List Nat) (contexts : List (Condition Step)) : Option (Condition Step) :=
  (contexts.mapM (knownPart placed)).bind Condition.simplifyAny

/-- The condition under which a node runs behind the placed steps. -/
def runCondition (graph : Graph) (placed : List Nat) (node : Node) : Option (Condition Step) :=
  match graph.declared? node.key with
  | some leaf => leaf.condition
  | none =>
    let context := if node.unconditional then none else anyContext placed node.contexts
    match context, node.step.ownCondition? with
    | some context, some own => some (context.conj own).withDistinctConjuncts
    | context, own => context.or own

/-- The conditions of the steps of an order that goes on behind the placed steps. -/
def runConditions (graph : Graph) (placed : List Nat) : List Nat → List (Option (Condition Step))
  | [] => []
  | key :: rest =>
    (graph.node? key).bind (graph.runCondition placed) ::
      graph.runConditions (placed ++ [key]) rest

end Graph

end FlowPlan

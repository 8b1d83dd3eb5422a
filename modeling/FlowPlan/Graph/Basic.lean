import FlowPlan.Condition.Simplify
import FlowPlan.Step

/-! # Step graphs

The graph of a job has one node for every action the job runs, in the order in
which they were discovered, and an index by which nodes are looked up. A node
knows which steps must run before it and collects the contexts under which the
job asks for its action.
-/

namespace FlowPlan

/-- `dependencies` and `orderings` are keys of other nodes: the former were pulled in for this node,
the latter only run before it. -/
structure Node where
  step : Step
  dependencies : List Nat := []
  orderings : List Nat := []
  contexts : List (Condition Step) := []
  unconditional : Bool := false

namespace Node

def key (node : Node) : Nat := node.step.key

/-- Adds a member to a list that has each member once. -/
def addOnce (members : List Nat) (key : Nat) : List Nat :=
  if members.contains key then members else members ++ [key]

def addDependency (node : Node) (key : Nat) : Node :=
  { node with dependencies := addOnce node.dependencies key }

def addOrdering (node : Node) (key : Nat) : Node :=
  { node with orderings := addOnce node.orderings key }

/-- Records that the action is asked for in a context. Without a context it is always asked for. -/
def addContext (node : Node) : Option (Condition Step) → Node
  | none => { node with unconditional := true }
  | some context =>
    if node.contexts.any (Condition.sameText · context) then node
    else { node with contexts := node.contexts ++ [context] }

/-- All that must run before this node, each once. -/
def predecessors (node : Node) : List Nat := node.orderings.foldl addOnce node.dependencies

end Node

/-- The nodes in the order of their discovery. The index leads from the key of a node to its place
among them; of several entries for a key the first one counts. -/
structure Arena where
  nodes : List Node := []
  index : List (Nat × Nat) := []

namespace Arena

/-- Where the node with the key stands. -/
def position? (arena : Arena) (key : Nat) : Option Nat := arena.index.lookup key

/-- Where the nodes with the keys stand, as far as there are such nodes. -/
def positions (arena : Arena) (keys : List Nat) : List Nat := keys.filterMap arena.position?

def node? (arena : Arena) (key : Nat) : Option Node :=
  (arena.position? key).bind (arena.nodes[·]?)

def contains (arena : Arena) (key : Nat) : Bool := (arena.position? key).isSome

/-- A node for the action behind all others. -/
def add (arena : Arena) (action : Step) : Arena where
  nodes := arena.nodes ++ [{ step := action }]
  index := (action.key, arena.nodes.length) :: arena.index

/-- The place of the action's node, which is added if there is none, and whether it was. -/
def ensure (arena : Arena) (action : Step) : Arena × Nat × Bool :=
  match arena.position? action.key with
  | some position => (arena, position, false)
  | none => (arena.add action, arena.nodes.length, true)

/-- Changes the node at a place. -/
def change (arena : Arena) (position : Nat) (changed : Node → Node) : Arena :=
  { arena with nodes := arena.nodes.modify position changed }

end Arena

/-- An action at the top level of a job, with the condition declared for it there. -/
structure DeclaredLeaf where
  key : Nat
  condition : Option (Condition Step)

/-- `roots` has for each top-level item the keys of its actions. -/
@[ext]
structure Graph extends Arena where
  roots : List (List Nat)
  declared : List DeclaredLeaf

namespace Graph

def declared? (graph : Graph) (key : Nat) : Option DeclaredLeaf :=
  graph.declared.find? (·.key = key)

end Graph

end FlowPlan

import FlowPlan.Graph.Basic

/-! # Walking through the items of a job

The walk goes through the top-level items, the children of groups and the
dependencies of items, and carries along the conditions under which it got
there. It yields one encounter after another: an action met in a context, or an
edge between two actions. The nodes of a graph are what the encounters leave.
-/

namespace FlowPlan

inductive Encounter where
  | visit (action : Step) (context : Option (Condition Step))
  | dependency (dependent target : Nat)
  | ordering (dependent target : Nat)

namespace Step

/-- The conditions handed to what a step depends on. Only those that read no step survive. If a
group does nothing unless one of its children's conditions holds, that is one more of them. -/
def dependencyScope (step : Step) (scope : List (Condition Step)) : List (Condition Step) :=
  let factors := (scope.flatMap Condition.conjuncts).filter Condition.isPropagatable
  let alternatives := step.children.mapM fun child =>
    child.condition.filter Condition.isPropagatable
  if step.children.isEmpty then factors
  else factors ++ (alternatives.bind Condition.simplifyAny).toList

/-- An edge from every action of this step to every action of `target`. -/
def edgesTo (step target : Step) (edge : Nat → Nat → Encounter) : List Encounter :=
  target.leaves.flatMap fun leaf => step.leaves.map fun dependent => edge dependent.key leaf.key

end Step

mutual

/-- What the walk meets from an item on, under the conditions in `scope`. -/
def Item.encounters (scope : List (Condition Step)) : Item → List Encounter
  | .place step condition dependencies predecessors =>
    let inner := scope ++ condition.toList
    step.encounters inner ++
      Item.dependencyEncounters step (step.dependencyScope inner) dependencies ++
      predecessors.flatMap fun predecessor => step.edgesTo predecessor.step .ordering

def Step.encounters (scope : List (Condition Step)) : Step → List Encounter
  | .action key id outputs content consumes =>
    [.visit (.action key id outputs content consumes) (Condition.allOf scope)]
  | .group _ _ _ _ children => Item.encountersAll scope children

def Item.encountersAll (scope : List (Condition Step)) : List Item → List Encounter
  | [] => []
  | item :: rest => item.encounters scope ++ Item.encountersAll scope rest

/-- What the walk meets in the dependencies of `dependent`, each followed by its edges. -/
def Item.dependencyEncounters (dependent : Step) (scope : List (Condition Step)) :
    List Item → List Encounter
  | [] => []
  | item :: rest =>
    item.encounters scope ++ dependent.edgesTo item.step .dependency ++
      Item.dependencyEncounters dependent scope rest

end

namespace Encounter

def isOrdering : Encounter → Bool
  | .ordering .. => true
  | _ => false

end Encounter

namespace Arena

/-- An edge that only orders is dropped unless both of its ends are there. -/
def record (arena : Arena) : Encounter → Arena
  | .visit action context =>
    let (arena, position, _) := arena.ensure action
    arena.change position (·.addContext context)
  | .dependency dependent target =>
    match arena.position? dependent with
    | some position => arena.change position (·.addDependency target)
    | none => arena
  | .ordering dependent target =>
    match arena.position? dependent with
    | some position =>
      if arena.contains target then arena.change position (·.addOrdering target) else arena
    | none => arena

/-- The nodes that a walk leaves. The edges that only order come last, when all nodes are known. -/
def ofEncounters (encounters : List Encounter) : Arena :=
  let reached := (encounters.filter fun encounter => !encounter.isOrdering).foldl record
    { nodes := [], index := [] }
  (encounters.filter Encounter.isOrdering).foldl record reached

end Arena

/-! ## Top-level actions -/

namespace Item

/-- The condition of the item together with the one of its action. -/
def declaredCondition (item : Item) : Option (Condition Step) :=
  match item.condition, item.step.ownCondition? with
  | some declared, some own => some (declared.conj own).withDistinctConjuncts
  | declared, own => declared.or own

end Item

namespace DeclaredLeaf

/-- An action declared again runs when either declaration would run it. -/
def also (leaf : DeclaredLeaf) (condition : Option (Condition Step)) : DeclaredLeaf :=
  { leaf with condition := match leaf.condition, condition with
    | some first, some second => Condition.simplifyAny [first, second]
    | _, _ => none }

def declare (leaves : List DeclaredLeaf) (item : Item) : List DeclaredLeaf :=
  let key := item.step.key
  let condition := item.declaredCondition
  if item.step.isGroup then leaves
  else if leaves.any (·.key = key) then
    leaves.map fun leaf => if leaf.key = key then leaf.also condition else leaf
  else leaves ++ [⟨key, condition⟩]

end DeclaredLeaf

end FlowPlan

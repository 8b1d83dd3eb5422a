import FlowPlan.Error
import FlowPlan.Value
import FlowPlan.Yaml.Basic

/-! # Steps and their placements

A step is an action or a group of placed steps. It is told apart from others by
its key alone and never changes: a condition or an edge belongs to an `Item`,
which places a step somewhere, so one step can be placed several times under
different conditions. Steps are built from the bottom up, and what a condition
reads are steps again.
-/

namespace FlowPlan

/-- What a single action does, and the condition that belongs to the action itself. -/
structure Action (σ : Type) where
  name : Option String := none
  uses : Option String := none
  run : Option String := none
  inputs : Yaml.Entries := []
  env : Yaml.Entries := []
  shell : Option String := none
  workingDirectory : Option String := none
  continueOnError : Option Bool := none
  timeoutMinutes : Option Nat := none
  condition : Option (Condition σ) := none
  extra : Yaml.Entries := []

mutual

/-- `consumes` lists the steps of other jobs whose artifacts an action uses. -/
inductive Step where
  | action (key : Nat) (id : Option String) (outputs : List String) (content : Action Step)
      (consumes : List Step)
  | group (key : Nat) (id : Option String) (outputs : List String) (name : Option String)
      (children : List Item)

/-- A step in its place. `dependencies` are pulled in and run before it; `predecessors` run before
it if something else pulls them in. -/
inductive Item where
  | place (step : Step) (condition : Option (Condition Step)) (dependencies : List Item)
      (predecessors : List Item)

end

namespace Step

def key : Step → Nat
  | .action key .. => key
  | .group key .. => key

instance : Keyed Step where
  key := Step.key

/-- Identity, as opposed to equality of contents. -/
def same (left right : Step) : Bool := left.key = right.key

def id? : Step → Option String
  | .action _ id .. => id
  | .group _ id .. => id

def outputs : Step → List String
  | .action _ _ outputs .. => outputs
  | .group _ _ outputs .. => outputs

def consumes : Step → List Step
  | .action _ _ _ _ consumes => consumes
  | .group .. => []

def action? : Step → Option (Action Step)
  | .action _ _ _ content _ => some content
  | .group .. => none

def children : Step → List Item
  | .action .. => []
  | .group _ _ _ _ children => children

def isGroup : Step → Bool
  | .action .. => false
  | .group .. => true

/-- The condition that goes with an action wherever it is placed. Groups have none. -/
def ownCondition? (step : Step) : Option (Condition Step) := step.action?.bind Action.condition

def source (step : Step) : Source Step := .step step

/-- The label of a step that has nothing else to be called by. -/
def keyLabel (key : Nat) : String := "step-" ++ toString key

/-- What the step is called in messages: its name, else what it uses, else its id. -/
def label (step : Step) : String :=
  let called : Option String := match step with
    | .action _ _ _ content _ => content.name.or content.uses
    | .group _ _ _ name _ => name
  (called.or step.id?).getD (keyLabel step.key)

end Step

namespace Item

def step : Item → Step
  | .place step .. => step

def condition : Item → Option (Condition Step)
  | .place _ condition .. => condition

def dependencies : Item → List Item
  | .place _ _ dependencies _ => dependencies

def predecessors : Item → List Item
  | .place _ _ _ predecessors => predecessors

/-- The step without condition or edges. -/
def ofStep (step : Step) : Item := .place step none [] []

/-- The same place under one more condition. -/
def when (item : Item) (condition : Condition Step) : Item :=
  .place item.step
    (some (match item.condition with
      | some existing => existing.conj condition
      | none => condition))
    item.dependencies item.predecessors

def dependsOn (item dependency : Item) : Item :=
  .place item.step item.condition (item.dependencies ++ [dependency]) item.predecessors

def comesAfter (item predecessor : Item) : Item :=
  .place item.step item.condition item.dependencies (item.predecessors ++ [predecessor])

end Item

mutual

/-- The actions inside a step, from left to right and as often as they occur. -/
def Step.actions : Step → List Step
  | .action key id outputs content consumes => [.action key id outputs content consumes]
  | .group _ _ _ _ children => Item.actionsAll children

def Item.actionsAll : List Item → List Step
  | [] => []
  | .place step _ _ _ :: rest => step.actions ++ Item.actionsAll rest

end

namespace Step

/-- The actions that a step comes down to, each once. -/
def leaves (step : Step) : List Step := distinctBy same step.actions

/-- An action with its outputs and consumed steps. Outputs are read through the id. -/
def ofAction (key : Nat) (id : Option String) (outputs : List String) (content : Action Step)
    (consumes : List Step) : Except PlanError Step :=
  let outputs := distinct outputs
  if !outputs.isEmpty && id.isNone then .error (.outputsWithoutId outputs)
  else .ok (.action key id outputs content (distinctBy same consumes))

def ofGroup (key : Nat) (id : Option String) (outputs : List String) (name : Option String)
    (children : List Item) : Except PlanError Step :=
  let outputs := distinct outputs
  if !outputs.isEmpty && id.isNone then .error (.outputsWithoutId outputs)
  else .ok (.group key id outputs name children)

/-- The value of a property of this step, for a step with an id. -/
def property? (step : Step) (path : Text) : Option (Value Step) :=
  step.id?.map fun id =>
    ⟨ReferenceRoot.steps.opening ++ id.toList ++ '.' :: path, [step.source]⟩

def outcome? (step : Step) : Option (Value Step) := step.property? "outcome".toList

/-- The value of a declared output. -/
def output? (step : Step) (name : String) : Option (Value Step) :=
  if step.outputs.contains name then step.property? ("outputs.".toList ++ name.toList) else none

end Step

/-- The condition of an action, narrowed by another one. -/
def Action.narrowed (action : Action Step) (condition : Condition Step) : Action Step :=
  { action with condition := some (match action.condition with
    | some existing => existing.conj condition
    | none => condition) }

end FlowPlan

import FlowPlan.Yaml.Basic

/-! # Definitions

What an author writes down: jobs made of steps, and a library of reusable steps
that jobs and other steps refer to by name. A definition is not yet a workflow.
Its steps name one another, in any order and possibly in circles, and its
conditions are still text.
-/

namespace FlowPlan

/-- A single name, a list of names, or nothing. What was written is kept apart from what it
means: a list of one name is not the same text as the name alone. -/
inductive NameList where
  | absent
  | single (name : String)
  | several (names : List String)
deriving DecidableEq, Repr

namespace NameList

def names : NameList → List String
  | .absent => []
  | .single name => [name]
  | .several names => names

def isEmpty (list : NameList) : Bool := list.names.isEmpty

end NameList

/-- What is written about a step, apart from the steps inside it. -/
structure StepSettings where
  id : Option String := none
  name : Option String := none
  uses : Option String := none
  run : Option String := none
  inputs : Yaml.Entries := []
  env : Yaml.Entries := []
  shell : Option String := none
  workingDirectory : Option String := none
  continueOnError : Option Bool := none
  timeoutMinutes : Option Nat := none
  condition : Option String := none
  outputs : List String := []
  dependsOn : NameList := .absent
  after : NameList := .absent
  /-- Steps of other jobs whose artifacts are used, as `job.step`. -/
  consumes : NameList := .absent
  /-- The library step that stands here. -/
  reusable : Option String := none
  extra : Yaml.Entries := []

/-- A step with `reusable` stands for a library step, one with `children` is a group, and any
other one is an action. -/
structure StepDefinition extends StepSettings where
  children : Option (List StepDefinition) := none

structure JobDefinition where
  name : Option String := none
  runsOn : Option Yaml := none
  condition : Option String := none
  needs : NameList := .absent
  permissions : Option Yaml := none
  environment : Option Yaml := none
  strategy : Option Yaml := none
  services : Option Yaml := none
  container : Option Yaml := none
  env : Yaml.Entries := []
  timeoutMinutes : Option Nat := none
  outputs : List (String × String) := []
  steps : List StepDefinition := []
  extra : Yaml.Entries := []

structure WorkflowDefinition where
  name : Option String := none
  on : Option Yaml := none
  permissions : Option Yaml := none
  env : Yaml.Entries := []
  concurrency : Option Yaml := none
  defaults : Option Yaml := none
  library : List (String × StepDefinition) := []
  jobs : List (String × JobDefinition) := []

/-- What a step is called in messages, if it has a name of any kind. -/
def StepDefinition.label? (definition : StepDefinition) : Option String :=
  definition.id.or (definition.name.or (definition.reusable.or definition.uses))

namespace WorkflowDefinition

def libraryStep? (definition : WorkflowDefinition) (name : String) : Option StepDefinition :=
  definition.library.lookup name

def job? (definition : WorkflowDefinition) (id : String) : Option JobDefinition :=
  definition.jobs.lookup id

end WorkflowDefinition

end FlowPlan

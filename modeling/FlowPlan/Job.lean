import FlowPlan.Graph.RunCondition

/-! # Jobs

A job places items and may declare outputs and the jobs it needs. Resolving it
puts the steps of its graph in order and attaches to each the condition under
which it runs.
-/

namespace FlowPlan

/-- What is said about a job as a whole. Apart from the condition it only passes through. -/
structure JobSettings where
  name : Option String := none
  runsOn : Option Yaml := none
  condition : Option (Condition Step) := none
  permissions : Option Yaml := none
  environment : Option Yaml := none
  strategy : Option Yaml := none
  services : Option Yaml := none
  container : Option Yaml := none
  env : Yaml.Entries := []
  timeoutMinutes : Option Nat := none
  extra : Yaml.Entries := []

structure Job where
  id : String
  settings : JobSettings := {}
  items : List Item := []
  outputs : List (String × Value Step) := []
  needs : List String := []

/-- A step in its final place, with the condition under which it runs and the job that runs it. -/
structure ResolvedStep where
  step : Step
  condition : Option (Condition Step)
  job : String

structure ResolvedJob where
  id : String
  needs : List String
  steps : List ResolvedStep

namespace Job

def addItem (job : Job) (item : Item) : Job := { job with items := job.items ++ [item] }

/-- An output replaces an earlier one with its name and goes to the end. -/
def addOutput (job : Job) (name : String) (value : Value Step) : Job :=
  { job with outputs := (job.outputs.filter (·.1 ≠ name)) ++ [(name, value)] }

def addNeed (job : Job) (need : String) : Job :=
  if job.needs.contains need then job else { job with needs := job.needs ++ [need] }

def source (job : Job) : Source Step := .job job.id

/-- The value of a property of this job, as other jobs read it. -/
def property (job : Job) (path : Text) : Value Step :=
  ⟨ReferenceRoot.needs.opening ++ job.id.toList ++ '.' :: path, [job.source]⟩

def result (job : Job) : Value Step := job.property "result".toList

/-- The value of a declared output, as other jobs read it. -/
def output? (job : Job) (name : String) : Option (Value Step) :=
  if job.outputs.any (·.1 = name) then some (job.property ("outputs.".toList ++ name.toList))
  else none

def graph (job : Job) : Graph := .ofItems job.items

def resolve (job : Job) : Except PlanError ResolvedJob := do
  let graph := job.graph
  let order ← graph.order
  let steps := (order.zip (graph.runConditions [] order)).filterMap fun (key, condition) =>
    (graph.node? key).map fun node => (⟨node.step, condition, job.id⟩ : ResolvedStep)
  return ⟨job.id, job.needs, steps⟩

end Job

namespace ResolvedJob

def runs (job : ResolvedJob) (step : Step) : Bool := job.steps.any (·.step.same step)

end ResolvedJob

end FlowPlan

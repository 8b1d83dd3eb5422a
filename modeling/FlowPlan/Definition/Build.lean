import FlowPlan.Definition.Names
import FlowPlan.Workflow

/-! # From definitions to workflows

Every position of a definition has one step, made when it is first asked for
and shared from then on, so a library step used in two jobs is the same step in
both. What a definition says about its place, a condition or an edge, goes into
the item that places the step. Only the condition of a library action belongs
to the action itself.

References may point forward. They are followed at once, and a position that is
come back to while it is still being worked on is an error. That also bounds the
work: each step on the way down takes up a position that was free before.
-/

namespace FlowPlan

inductive BuildError where
  | plan (error : PlanError)
  | definition (error : DefinitionError)
deriving DecidableEq, Repr

def BuildError.message : BuildError → String
  | .plan error => error.message
  | .definition error => "Definition error: " ++ error.message

/-- The steps made so far. -/
structure Construction where
  nextKey : Nat := 1
  built : List (Position × Step) := []
  warnings : List Warning := []

abbrev Building := ExceptT BuildError (StateM Construction)

namespace Building

def ofDefinition {α : Type} : Except DefinitionError α → Building α
  | .ok value => pure value
  | .error error => throw (.definition error)

def ofExpression {α : Type} (result : Except ExpressionError α) : Building α :=
  ofDefinition (result.mapError .expression)

def warn (warning : Warning) : Building Unit :=
  modify fun state => { state with warnings := state.warnings ++ [warning] }

/-- Makes a step with the next key. A step that cannot be made uses up no key. -/
def newStep (make : Nat → Except PlanError Step) : Building Step := do
  match make (← get).nextKey with
  | .ok step =>
    modify fun state => { state with nextKey := state.nextKey + 1 }
    return step
  | .error error => throw (.plan error)

/-- The step of a position, made by `make` if there is none yet. -/
def shared (position : Position) (make : Building Step) : Building Step := do
  match (← get).built.lookup position with
  | some step => return step
  | none =>
    let step ← make
    modify fun state => { state with built := (position, step) :: state.built }
    return step

end Building

/-- The positions whose steps are being made and those being placed, the latest first. -/
structure Underway where
  steps : List Position := []
  items : List Position := []

/-- The action that a definition describes, with the condition that belongs to it. -/
def StepDefinition.action (written : StepDefinition) (condition : Option (Condition Step)) :
    Action Step where
  name := written.name
  uses := written.uses
  run := written.run
  inputs := written.inputs
  env := written.env
  shell := written.shell
  workingDirectory := written.workingDirectory
  continueOnError := written.continueOnError
  timeoutMinutes := written.timeoutMinutes
  condition := condition
  extra := written.extra

/-- A condition written here belongs to the action, wherever it is placed. -/
def StepDefinition.ownsCondition (written : StepDefinition) (position : Position) : Bool :=
  position.isLibraryRoot && written.reusable.isNone && written.children.isNone

namespace WorkflowDefinition

variable (definition : WorkflowDefinition)

/-- How many positions are still free to be taken up. -/
def free (taken : List Position) : Nat :=
  ((definition.withPositions.map Prod.fst).filter (· ∉ taken)).length

theorem length_filter_cons_lt {taken members : List Position} {position : Position}
    (isMember : position ∈ members) (isFree : position ∉ taken) :
    (members.filter (· ∉ position :: taken)).length < (members.filter (· ∉ taken)).length := by
  rw [show members.filter (· ∉ position :: taken) =
      (members.filter (· ∉ taken)).filter (· ≠ position) by
    rw [List.filter_filter]
    exact List.filter_congr fun other _ => by simp]
  exact List.length_filter_lt_length_iff_exists.2
    ⟨position, List.mem_filter.2 ⟨isMember, by simpa using isFree⟩, by simp⟩

theorem free_cons_lt {taken : List Position} {position : Position} {step : StepDefinition}
    (found : definition.step? position = some step) (isFree : position ∉ taken) :
    definition.free (position :: taken) < definition.free taken := by
  exact length_filter_cons_lt (List.mem_map.2 ⟨_, mem_withPositions found, rfl⟩) isFree

def freeAll (underway : Underway) : Nat :=
  definition.free underway.steps + definition.free underway.items

/-- The circle that closes where `position` is come back to. -/
def circle (taken : List Position) (position : Position) : BuildError :=
  let way := position :: (taken.takeWhile (· ≠ position)).reverse ++ [position]
  .definition (.circular (way.map definition.labelAt))

mutual

/-- The step that is written at a position, without what its place says about it. -/
def stepAt (underway : Underway) (position : Position) : Building Step :=
  Building.shared position <|
    if _taken : position ∈ underway.steps then throw (definition.circle underway.steps position)
    else match _found : definition.step? position with
      | none => throw (.definition (.unknownStep position.text))
      | some written =>
        newStepAt { underway with steps := position :: underway.steps } position written
termination_by (definition.freeAll underway, 0)
decreasing_by
  have := definition.free_cons_lt _found _taken
  simp only [freeAll, Prod.lex_def]
  omega

def newStepAt (underway : Underway) (position : Position) (written : StepDefinition) :
    Building Step := do
  match written.reusable, written.children with
  | some name, _ => stepAt underway (← .ofDefinition (definition.resolveReusable name))
  | none, some children =>
    let items ← (List.range children.length).mapM fun index =>
      itemAt underway (position.child index)
    .newStep fun key => Step.ofGroup key written.id written.outputs written.name items
  | none, none =>
    let condition ← match written.condition with
      | some text =>
        if written.ownsCondition position then
          (conditionAt underway position text).map some
        else pure none
      | none => pure none
    let consumed ← written.consumes.names.mapM fun reference => do
      stepAt underway (← .ofDefinition (definition.resolveCrossJob reference))
    .newStep fun key =>
      Step.ofAction key written.id written.outputs (written.action condition) consumed
termination_by (definition.freeAll underway, 3)

/-- The step at a position in its place, with its condition and edges. -/
def itemAt (underway : Underway) (position : Position) : Building Item :=
  if _taken : position ∈ underway.items then throw (definition.circle underway.items position)
  else match _found : definition.step? position with
    | none => throw (.definition (.unknownStep position.text))
    | some written =>
      newItemAt { underway with items := position :: underway.items } position written
termination_by (definition.freeAll underway, 0)
decreasing_by
  have := definition.free_cons_lt _found _taken
  simp only [freeAll, Prod.lex_def]
  omega

def newItemAt (underway : Underway) (position : Position) (written : StepDefinition) :
    Building Item := do
  let start ← match written.reusable with
    | some name => itemAt underway (← .ofDefinition (definition.resolveReusable name))
    | none => (stepAt underway position).map Item.ofStep
  let conditional ← match written.condition with
    | some text =>
      if written.ownsCondition position then pure start
      else (conditionAt underway position text).map start.when
    | none => pure start
  let dependent ← written.dependsOn.names.foldlM (fun item name => do
    return item.dependsOn (← dependencyAt underway position.scope name)) conditional
  written.after.names.foldlM (fun item name => do
    let target ← .ofDefinition (definition.resolveName position.scope name)
    return item.comesAfter (.ofStep (← stepAt underway target))) dependent
termination_by (definition.freeAll underway, 3)

/-- A library step is depended on together with its own condition and edges. Any other step is
placed somewhere already and is depended on as it is. -/
def dependencyAt (underway : Underway) (scope : Scope) (name : String) : Building Item := do
  let target ← .ofDefinition (definition.resolveName scope name)
  if target.isLibraryRoot then itemAt underway target
  else (stepAt underway target).map Item.ofStep
termination_by (definition.freeAll underway, 1)

/-- A condition written at a position. It cannot read the step at the position itself. -/
def conditionAt (underway : Underway) (position : Position) (text : String) :
    Building (Condition Step) := do
  let scope ← scopeAt underway position.scope (some position) text
  .ofExpression (Condition.parse scope text.toList)
termination_by (definition.freeAll underway, 2)

/-- The steps that an expression reads, by their ids, but for the one at `current`. -/
def scopeAt (underway : Underway) (scope : Scope) (current : Option Position) (text : String) :
    Building (StepScope Step) := do
  let known ← (Text.referencedSteps text.toList).mapM fun id =>
    match definition.names.find? scope id with
    | some target =>
      if current = some target then pure none
      else (stepAt underway target).map fun step => some (id, step)
    | none => do
      .warn (.unknownStep text id)
      return none
  let steps := known.filterMap id
  return fun id => steps.lookup id
termination_by (definition.freeAll underway, 1)

end

def jobSettings (job : JobDefinition) (condition : Option (Condition Step)) : JobSettings where
  name := job.name
  runsOn := job.runsOn
  condition := condition
  permissions := job.permissions
  environment := job.environment
  strategy := job.strategy
  services := job.services
  container := job.container
  env := job.env
  timeoutMinutes := job.timeoutMinutes
  extra := job.extra

/-- The condition of a job reads other jobs but no steps. -/
def jobCondition (job : JobDefinition) : Building (Option (Condition Step)) :=
  match job.condition with
  | some text => (Building.ofExpression (Condition.parse .none text.toList)).map some
  | none => pure none

def jobAt (index : Nat) (id : String) (written : JobDefinition) : Building Job := do
  let settings := jobSettings written (← jobCondition written)
  let needing ← written.needs.names.foldlM (fun (job : Job) need =>
    if (definition.job? need).isSome then pure (job.addNeed need)
    else throw (.definition (.unknownJob need))) { id, settings }
  let items ← (List.range written.steps.length).mapM fun place =>
    definition.itemAt {} (.job index place)
  let outputs ← written.outputs.mapM fun (name, text) => do
    let scope ← definition.scopeAt {} (.job index) none text
    return (name, ← .ofExpression (Value.parse scope text.toList))
  let placed := items.foldl Job.addItem needing
  return outputs.foldl (fun job (name, value) => job.addOutput name value) placed

def workflowSettings : WorkflowSettings where
  name := definition.name
  on := definition.on
  permissions := definition.permissions
  env := definition.env
  concurrency := definition.concurrency
  defaults := definition.defaults

def construct : Building Workflow := do
  let jobs ← definition.jobs.zipIdx.mapM fun ((id, job), index) => definition.jobAt index id job
  return { settings := definition.workflowSettings, jobs }

/-- The workflow that a definition describes, and what was noticed on the way to it. -/
def build : Except BuildError Workflow × List Warning :=
  let (result, state) := definition.construct.run.run {}
  (result, state.warnings)

end WorkflowDefinition

end FlowPlan

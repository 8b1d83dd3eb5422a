import FlowPlan.Job

/-! # Workflows

A workflow is a list of jobs. Each job is resolved on its own; after that it is
known which job runs which step, and a job needs every other job that one of
its conditions, outputs or steps reads from.
-/

namespace FlowPlan

/-- What is said about a workflow as a whole and only passes through. -/
structure WorkflowSettings where
  name : Option String := none
  on : Option Yaml := none
  permissions : Option Yaml := none
  env : Yaml.Entries := []
  concurrency : Option Yaml := none
  defaults : Option Yaml := none

structure Workflow where
  settings : WorkflowSettings := {}
  jobs : List Job := []

/-- Something that is probably a mistake but does not stop the work. -/
inductive Warning where
  | unknownStep (expression : String) (id : String)
  | unownedArtifact (step job artifact : String)
  | unknownJob (job name : String)
deriving DecidableEq, Repr

namespace Warning

def message : Warning → String
  | .unknownStep expression id =>
    "Expression '" ++ expression ++ "' reads unknown step '" ++ id ++ "'"
  | .unownedArtifact step job artifact =>
    "Step '" ++ step ++ "' in job '" ++ job ++ "' consumes '" ++ artifact ++ "', which no job runs"
  | .unknownJob job name => "Job '" ++ job ++ "' references unknown job '" ++ name ++ "'"

end Warning

structure ResolvedWorkflow where
  jobs : List ResolvedJob
  warnings : List Warning

namespace ResolvedWorkflow

def job? (resolved : ResolvedWorkflow) (id : String) : Option ResolvedJob :=
  resolved.jobs.find? (·.id = id)

/-- The first job that runs the step. -/
def ownerAmong (jobs : List ResolvedJob) (step : Step) : Option String :=
  (jobs.find? (·.runs step)).map ResolvedJob.id

def owner? (resolved : ResolvedWorkflow) (step : Step) : Option String :=
  ownerAmong resolved.jobs step

end ResolvedWorkflow

namespace ResolvedJob

/-- The same job, where each step names the job that runs it. -/
def withOwners (jobs : List ResolvedJob) (job : ResolvedJob) : ResolvedJob :=
  { job with steps := job.steps.map fun resolved =>
      { resolved with job := (ResolvedWorkflow.ownerAmong jobs resolved.step).getD resolved.job } }

/-- Each step together with each action of another job that it consumes. -/
def consumptions (job : ResolvedJob) : List (Step × Step) :=
  job.steps.flatMap fun resolved =>
    (resolved.step.consumes.flatMap Step.leaves).map fun artifact => (resolved.step, artifact)

end ResolvedJob

namespace Workflow

def job? (workflow : Workflow) (id : String) : Option Job := workflow.jobs.find? (·.id = id)

/-- Every condition that decides over a job or one of its steps. -/
def conditionsOf (job : Job) (resolved : ResolvedJob) : List (Condition Step) :=
  job.settings.condition.toList ++
    job.graph.nodes.flatMap Node.contexts ++
    resolved.steps.flatMap fun step => step.condition.toList ++ step.step.ownCondition?.toList

/-- The ids of the jobs that a job reads from, known or not. -/
def jobsRead (jobs : List ResolvedJob) (job : Job) (resolved : ResolvedJob) : List String :=
  (conditionsOf job resolved).flatMap (·.sources.jobs) ++
    job.outputs.flatMap (·.2.sources.jobs) ++
    resolved.consumptions.filterMap fun (_, artifact) => ResolvedWorkflow.ownerAmong jobs artifact

def warningsFor (workflow : Workflow) (jobs : List ResolvedJob) (job : Job)
    (resolved : ResolvedJob) : List Warning :=
  let unowned := resolved.consumptions.filter fun (_, artifact) =>
    (ResolvedWorkflow.ownerAmong jobs artifact).isNone
  let unknown := (jobsRead jobs job resolved).filter fun name => (workflow.job? name).isNone
  unowned.map (fun (step, artifact) => .unownedArtifact step.label job.id artifact.label) ++
    (distinct (unknown.mergeSort fun left right => decide (left ≤ right))).map (.unknownJob job.id)

/-- The other jobs that a job reads from, in the order of declaration. -/
def inferredNeeds (workflow : Workflow) (jobs : List ResolvedJob) (job : Job)
    (resolved : ResolvedJob) : List String :=
  let read := jobsRead jobs job resolved
  (workflow.jobs.map Job.id).filter fun id => id ≠ job.id && read.contains id

/-- Declared needs first, then the inferred ones that were not declared. -/
def completeNeeds (declared inferred : List String) : List String :=
  inferred.foldl (fun needs need => if needs.contains need then needs else needs ++ [need]) declared

/-- Resolves every job and then completes what the jobs need of each other. -/
def resolve (workflow : Workflow) : Except PlanError ResolvedWorkflow := do
  let resolved ← workflow.jobs.mapM Job.resolve
  let jobs := resolved.map (ResolvedJob.withOwners resolved)
  let pairs := workflow.jobs.zip jobs
  return {
    jobs := pairs.map fun (job, resolvedJob) =>
      { resolvedJob with
        needs := completeNeeds resolvedJob.needs (workflow.inferredNeeds jobs job resolvedJob) }
    warnings := pairs.flatMap fun (job, resolvedJob) => workflow.warningsFor jobs job resolvedJob }

end Workflow

end FlowPlan

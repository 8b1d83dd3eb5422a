import FlowPlan.Definition.Basic

/-! # Fields of definitions

The fields that definitions are written with, in the order in which they are
written. A field has one main name, and some may also be given under another
one.
-/

namespace FlowPlan

inductive WorkflowField where
  | name
  | on
  | permissions
  | env
  | concurrency
  | defaults
  | library
  | jobs
deriving DecidableEq, Repr

inductive JobField where
  | name
  | runsOn
  | condition
  | needs
  | permissions
  | environment
  | strategy
  | services
  | container
  | env
  | timeoutMinutes
  | outputs
  | steps
deriving DecidableEq, Repr

inductive StepField where
  | id
  | name
  | uses
  | run
  | inputs
  | env
  | shell
  | workingDirectory
  | continueOnError
  | timeoutMinutes
  | condition
  | outputs
  | dependsOn
  | after
  | consumes
  | children
  | reusable
deriving DecidableEq, Repr

namespace WorkflowField

def all : List WorkflowField :=
  [.name, .on, .permissions, .env, .concurrency, .defaults, .library, .jobs]

def key : WorkflowField → String
  | .name => "name"
  | .on => "on"
  | .permissions => "permissions"
  | .env => "env"
  | .concurrency => "concurrency"
  | .defaults => "defaults"
  | .library => "steps"
  | .jobs => "jobs"

def ofKey? (key : String) : Option WorkflowField := all.find? (·.key = key)

theorem ofKey?_key (field : WorkflowField) : ofKey? field.key = some field := by
  cases field <;> decide +kernel

end WorkflowField

namespace JobField

def all : List JobField :=
  [.name, .runsOn, .condition, .needs, .permissions, .environment, .strategy, .services,
    .container, .env, .timeoutMinutes, .outputs, .steps]

def key : JobField → String
  | .name => "name"
  | .runsOn => "runs-on"
  | .condition => "if"
  | .needs => "needs"
  | .permissions => "permissions"
  | .environment => "environment"
  | .strategy => "strategy"
  | .services => "services"
  | .container => "container"
  | .env => "env"
  | .timeoutMinutes => "timeout-minutes"
  | .outputs => "outputs"
  | .steps => "steps"

/-- A second name for the same field. -/
def otherKey? : JobField → Option String
  | .runsOn => some "runs_on"
  | .timeoutMinutes => some "timeout_minutes"
  | _ => none

def ofKey? (key : String) : Option JobField :=
  all.find? fun field => field.key = key || field.otherKey? = some key

theorem ofKey?_key (field : JobField) : ofKey? field.key = some field := by
  cases field <;> decide +kernel

end JobField

namespace StepField

def all : List StepField :=
  [.id, .name, .uses, .run, .inputs, .env, .shell, .workingDirectory, .continueOnError,
    .timeoutMinutes, .condition, .outputs, .dependsOn, .after, .consumes, .children, .reusable]

def key : StepField → String
  | .id => "id"
  | .name => "name"
  | .uses => "uses"
  | .run => "run"
  | .inputs => "with"
  | .env => "env"
  | .shell => "shell"
  | .workingDirectory => "working-directory"
  | .continueOnError => "continue-on-error"
  | .timeoutMinutes => "timeout-minutes"
  | .condition => "if"
  | .outputs => "outputs"
  | .dependsOn => "depends_on"
  | .after => "after"
  | .consumes => "needs_steps"
  | .children => "steps"
  | .reusable => "step"

/-- A second name for the same field. -/
def otherKey? : StepField → Option String
  | .workingDirectory => some "working_directory"
  | .continueOnError => some "continue_on_error"
  | .timeoutMinutes => some "timeout_minutes"
  | .dependsOn => some "depends-on"
  | .consumes => some "needs-steps"
  | _ => none

def ofKey? (key : String) : Option StepField :=
  all.find? fun field => field.key = key || field.otherKey? = some key

theorem ofKey?_key (field : StepField) : ofKey? field.key = some field := by
  cases field <;> decide +kernel

end StepField

end FlowPlan

import FlowPlan.Definition.Field
import FlowPlan.Yaml.Tag

/-! # Writing definitions back

A definition is written with every one of its fields, in order and under its
main name, whether it was given or not. The fields it does not know follow in
the order in which they were read. Values that were kept as they are get the
tags of the next document.
-/

namespace FlowPlan

namespace Yaml

def ofOption {α : Type} (write : α → Yaml) : Option α → Yaml
  | none => .null
  | some value => write value

def ofNat (n : Nat) : Yaml := .integer n

def ofNames : NameList → Yaml
  | .absent => .null
  | .single name => .string name
  | .several names => .sequence (names.map .string)

/-- A value that may be left open with null. -/
def ofKept : Option Yaml → Yaml := ofOption handedOn

/-- Entries with names for keys. Of two entries with one name the later one counts. -/
def ofNamed {α : Type} (write : α → Yaml) (members : List (String × α)) : Yaml :=
  .mapping (members.foldl (fun entries (name, value) =>
    Entries.insert entries (.string name) (write value)) [])

end Yaml

open Yaml

/-- The value of a field; `children` holds the written steps of a group. -/
def StepSettings.fieldValue (step : StepSettings) (children : Yaml) : StepField → Yaml
  | .id => ofOption .string step.id
  | .name => ofOption .string step.name
  | .uses => ofOption .string step.uses
  | .run => ofOption .string step.run
  | .inputs => .mapping step.inputs.handedOn
  | .env => .mapping step.env.handedOn
  | .shell => ofOption .string step.shell
  | .workingDirectory => ofOption .string step.workingDirectory
  | .continueOnError => ofOption .bool step.continueOnError
  | .timeoutMinutes => ofOption ofNat step.timeoutMinutes
  | .condition => ofOption .string step.condition
  | .outputs => .sequence (step.outputs.map .string)
  | .dependsOn => ofNames step.dependsOn
  | .after => ofNames step.after
  | .consumes => ofNames step.consumes
  | .children => children
  | .reusable => ofOption .string step.reusable

/-- A whole step. -/
def StepSettings.toYaml (step : StepSettings) (children : Yaml) : Yaml :=
  let fields := StepField.all.map fun field =>
    (Yaml.string field.key, step.fieldValue children field)
  .mapping (fields ++ step.extra)

mutual

def StepDefinition.toYaml : StepDefinition → Yaml
  | ⟨settings, none⟩ => settings.toYaml .null
  | ⟨settings, some children⟩ => settings.toYaml (.sequence (StepDefinition.allToYaml children))

def StepDefinition.allToYaml : List StepDefinition → List Yaml
  | [] => []
  | step :: rest => step.toYaml :: StepDefinition.allToYaml rest

end

namespace JobDefinition

def fieldValue (job : JobDefinition) : JobField → Yaml
  | .name => ofOption .string job.name
  | .runsOn => ofKept job.runsOn
  | .condition => ofOption .string job.condition
  | .needs => ofNames job.needs
  | .permissions => ofKept job.permissions
  | .environment => ofKept job.environment
  | .strategy => ofKept job.strategy
  | .services => ofKept job.services
  | .container => ofKept job.container
  | .env => .mapping job.env.handedOn
  | .timeoutMinutes => ofOption ofNat job.timeoutMinutes
  | .outputs => ofNamed .string job.outputs
  | .steps => .sequence (StepDefinition.allToYaml job.steps)

def toYaml (job : JobDefinition) : Yaml :=
  .mapping (JobField.all.map (fun field => (.string field.key, job.fieldValue field)) ++ job.extra)

end JobDefinition

namespace WorkflowDefinition

def fieldValue (workflow : WorkflowDefinition) : WorkflowField → Yaml
  | .name => ofOption .string workflow.name
  | .on => ofKept workflow.on
  | .permissions => ofKept workflow.permissions
  | .env => .mapping workflow.env.handedOn
  | .concurrency => ofKept workflow.concurrency
  | .defaults => ofKept workflow.defaults
  | .library => ofNamed StepDefinition.toYaml workflow.library
  | .jobs => ofNamed JobDefinition.toYaml workflow.jobs

def toYaml (workflow : WorkflowDefinition) : Yaml :=
  .mapping (WorkflowField.all.map fun field => (.string field.key, workflow.fieldValue field))

end WorkflowDefinition

end FlowPlan

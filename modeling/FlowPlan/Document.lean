import FlowPlan.Workflow

/-! # Workflow documents

The document of a resolved workflow. Fields stand in a fixed order, fields
without a value are left out, and fields that only pass through never replace
one of the fixed ones.
-/

namespace FlowPlan

namespace Yaml.Entries

/-- A field with a name made of text, left out if it has no value. -/
def field (name : String) (value : Option Yaml) : Entries :=
  (value.map fun value => (.string name, value)).toList

/-- A field for a mapping, left out if the mapping is empty. -/
def mappingField (name : String) (entries : Entries) : Entries :=
  field name (if entries.isEmpty then none else some (.mapping entries))

end Yaml.Entries

open Yaml.Entries (field mappingField)

def Yaml.ofText (text : Text) : Yaml := .string (String.ofList text)

namespace Document

def conditionField (condition : Option (Condition Step)) : Yaml.Entries :=
  field "if" (condition.map fun condition => .ofText condition.render)

def stringField (name : String) (value : Option String) : Yaml.Entries :=
  field name (value.map .string)

def minutesField (minutes : Option Nat) : Yaml.Entries :=
  field "timeout-minutes" (minutes.map fun minutes => .integer minutes)

def ofStep (resolved : ResolvedStep) : Yaml :=
  let id := stringField "id" resolved.step.id?
  match resolved.step.action? with
  | none => .mapping id
  | some action =>
    let fixed :=
      id ++ stringField "name" action.name ++ conditionField resolved.condition ++
        stringField "uses" action.uses ++ mappingField "with" action.inputs ++
        stringField "run" action.run ++ stringField "shell" action.shell ++
        stringField "working-directory" action.workingDirectory ++ mappingField "env" action.env ++
        field "continue-on-error" (action.continueOnError.map .bool) ++
        minutesField action.timeoutMinutes
    .mapping (Yaml.Entries.addMissing fixed action.extra)

/-- One need is written as a string, several as a sequence. -/
def needsValue? : List String → Option Yaml
  | [] => none
  | [need] => some (.string need)
  | needs => some (.sequence (needs.map .string))

def outputEntries (outputs : List (String × Value Step)) : Yaml.Entries :=
  outputs.map fun (name, value) => (.string name, .ofText value.template)

def ofJob (job : Job) (resolved : ResolvedJob) : Yaml :=
  let settings := job.settings
  let fixed :=
    stringField "name" settings.name ++ field "runs-on" settings.runsOn ++
      field "needs" (needsValue? resolved.needs) ++ conditionField settings.condition ++
      field "permissions" settings.permissions ++ field "environment" settings.environment ++
      field "strategy" settings.strategy ++ field "services" settings.services ++
      field "container" settings.container ++ mappingField "env" settings.env ++
      minutesField settings.timeoutMinutes ++ mappingField "outputs" (outputEntries job.outputs)
  let entries := Yaml.Entries.addMissing fixed settings.extra
  .mapping (entries.insert (.string "steps") (.sequence (resolved.steps.map ofStep)))

def ofWorkflow (workflow : Workflow) (resolved : ResolvedWorkflow) : Yaml :=
  let settings := workflow.settings
  let jobs := resolved.jobs.foldl (fun (entries : Yaml.Entries) resolvedJob =>
    match workflow.job? resolvedJob.id with
    | some job => entries.insert (.string resolvedJob.id) (ofJob job resolvedJob)
    | none => entries) []
  .mapping
    (stringField "name" settings.name ++ field "on" settings.on ++
      field "permissions" settings.permissions ++ mappingField "env" settings.env ++
      field "concurrency" settings.concurrency ++ field "defaults" settings.defaults ++
      [(.string "jobs", .mapping jobs)])

end Document

end FlowPlan

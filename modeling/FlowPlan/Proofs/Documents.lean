import FlowPlan.Document
import FlowPlan.Proofs.BuiltJobs
import FlowPlan.Proofs.ExtraFields

/-! # What documents show

A document is looked into by the names of its fields. The fields of a rendered
job are those of the job, whatever extra fields stand beside them, so what the
document shows of a job is known from the job and from how it was resolved.
-/

namespace FlowPlan

namespace Yaml

/-! ## Looking into values -/

def field? (name : String) : Yaml → Option Yaml
  | .mapping entries => Entries.find? entries (.string name)
  | _ => none

def members : Yaml → List Yaml
  | .sequence members => members
  | _ => []

/-- The values of a mapping, without their keys. -/
def values : Yaml → List Yaml
  | .mapping entries => entries.map Prod.snd
  | _ => []

def string? : Yaml → Option String
  | .string text => some text
  | _ => none

theorem same_string {name : String} {other : Yaml} :
    (string name).same other = true ↔ other = .string name := by
  cases other <;> simp [same, eq_comm]

@[simp] theorem string?_ofText (text : Text) :
    (ofText text).string? = some (String.ofList text) := rfl

namespace Entries

variable {entries : Entries} {name : String}

theorem find?_append (front back : Entries) (name : Yaml) :
    find? (front ++ back) name = (find? front name).or (find? back name) := by
  rw [find?, List.find?_append, find?, find?]
  cases List.find? (fun entry => name.same entry.1) front <;> rfl

theorem find?_eq_none_iff {name : Yaml} :
    find? entries name = none ↔ hasKey entries name = false := by
  simp [find?, hasKey]

theorem find?_field (other : String) (value : Option Yaml) :
    find? (field other value) (.string name) = if name = other then value else none := by
  cases value <;> simp [field, find?, same]

theorem find?_addMissing {extra : Entries} (lacks : hasKey extra (.string name) = false) :
    find? (addMissing entries extra) (.string name) = find? entries (.string name) := by
  rw [addMissing]
  refine List.foldlRecOn (motive := fun sum => find? sum (.string name) =
    find? entries (.string name)) extra _ rfl fun sum same entry mem => ?_
  have other : find? [entry] (.string name) = none := by
    rw [find?_eq_none_iff]
    simpa [hasKey] using List.any_eq_false.mp lacks entry mem
  split
  · exact same
  · rw [find?_append, other, Option.or_none]
    exact same

theorem find?_cons (entry : Yaml × Yaml) (entries : Entries) (name : Yaml) :
    find? (entry :: entries) name =
      if name.same entry.1 then some entry.2 else find? entries name := by
  rw [find?, List.find?_cons]
  cases name.same entry.1 <;> rfl

theorem find?_insert_self (entries : Entries) (name : String) (value : Yaml) :
    find? (insert entries (.string name) value) (.string name) = some value := by
  have itself : (Yaml.string name).same (.string name) = true := same_string.mpr rfl
  rw [insert]
  split
  · rename_i present
    induction entries with
    | nil => cases present
    | cons head tail induction =>
        rw [List.map_cons, find?_cons]
        cases isHead : (Yaml.string name).same head.1 with
        | true => simp [isHead]
        | false =>
            have later : hasKey tail (.string name) = true := by
              simpa [hasKey, isHead] using present
            simpa [isHead] using induction later
  · rename_i absent
    rw [find?_append, find?_eq_none_iff.mpr (by simpa using absent), Option.none_or]
    simp [find?_cons, itself]

theorem find?_insert_of_ne (entries : Entries) {other : String} (different : name ≠ other)
    (value : Yaml) :
    find? (insert entries (.string other) value) (.string name) = find? entries (.string name) := by
  have distinguishes : ∀ key : Yaml, (Yaml.string other).same key = true →
      (Yaml.string name).same key = false := by
    intro key isOther
    rw [same_string.mp isOther]
    simpa [same] using different
  have replaced : find? (entries.map fun entry =>
      if (Yaml.string other).same entry.1 then (entry.1, value) else entry) (.string name) =
        find? entries (.string name) := by
    induction entries with
    | nil => rfl
    | cons head tail induction =>
        rw [List.map_cons, find?_cons, find?_cons, induction]
        cases isOther : (Yaml.string other).same head.1 with
        | true => simp [distinguishes head.1 isOther]
        | false => rfl
  rw [insert]
  split
  · exact replaced
  · rw [find?_append, find?_cons, distinguishes _ (same_string.mpr rfl)]
    exact Option.or_none

end Entries

end Yaml

/-! ## Rendered jobs -/

namespace Document

/-- The texts of a rendered job in which other jobs may be read: its condition, the conditions of
its steps and its outputs. -/
def shownTexts (job : Yaml) : List String :=
  ((job.field? "if").toList ++
    (job.field? "steps").toList.flatMap (fun steps =>
      steps.members.flatMap fun step => (step.field? "if").toList) ++
    (job.field? "outputs").toList.flatMap Yaml.values).filterMap Yaml.string?

/-- The jobs that a rendered job needs, in order. -/
def needs (job : Yaml) : List String :=
  match job.field? "needs" with
  | some (.string need) => [need]
  | some needs => needs.members.filterMap Yaml.string?
  | none => []

def job? (document : Yaml) (id : String) : Option Yaml :=
  (document.field? "jobs").bind (·.field? id)

/-- What a rendered job has in each of its fields. -/
def content? (job : Job) (resolved : ResolvedJob) : JobField → Option Yaml
  | .name => job.settings.name.map .string
  | .runsOn => job.settings.runsOn
  | .condition => job.settings.condition.map fun condition => .ofText condition.render
  | .needs => needsValue? resolved.needs
  | .permissions => job.settings.permissions
  | .environment => job.settings.environment
  | .strategy => job.settings.strategy
  | .services => job.settings.services
  | .container => job.settings.container
  | .env => if job.settings.env.isEmpty then none else some (.mapping job.settings.env)
  | .timeoutMinutes => job.settings.timeoutMinutes.map fun minutes => .integer minutes
  | .outputs =>
    if job.outputs.isEmpty then none else some (.mapping (outputEntries job.outputs))
  | .steps => some (.sequence (resolved.steps.map ofStep))

section Job

variable {job : Job} {resolved : ResolvedJob}
  (unknown : job.settings.extra.AreUnknown JobField.ofKey?)

include unknown

/-- No extra field gets in the way of a known one. -/
theorem field?_ofJob (field : JobField) :
    (ofJob job resolved).field? field.key = content? job resolved field := by
  have lacks : Yaml.Entries.hasKey job.settings.extra (.string field.key) = false :=
    unknown.hasKey_eq_false (by rw [JobField.ofKey?_key]; rfl)
  rw [ofJob, Yaml.field?]
  by_cases isSteps : field = .steps
  · subst isSteps
    exact Yaml.Entries.find?_insert_self _ _ _
  · have other : field.key ≠ "steps" := by
      revert isSteps
      cases field <;> decide
    rw [Yaml.Entries.find?_insert_of_ne _ other, Yaml.Entries.find?_addMissing lacks]
    cases field <;>
      simp [Yaml.Entries.find?_append, Yaml.Entries.find?_field, Yaml.Entries.mappingField,
        stringField, minutesField, conditionField, outputEntries, content?, JobField.key]
        at isSteps ⊢

theorem needs_ofJob : needs (ofJob job resolved) = resolved.needs := by
  have found : (ofJob job resolved).field? "needs" = needsValue? resolved.needs :=
    field?_ofJob unknown .needs
  rw [needs, found]
  cases resolved.needs with
  | nil => rfl
  | cons head tail =>
      cases tail with
      | nil => rfl
      | cons next rest =>
          have listed : ((head :: next :: rest).map Yaml.string).filterMap Yaml.string? =
              head :: next :: rest := by
            rw [List.filterMap_map]
            exact List.filterMap_some
          exact listed

end Job

theorem field?_if_ofStep {resolved : ResolvedStep} (covered : resolved.IsCovered) {shown : Yaml}
    (found : (ofStep resolved).field? "if" = some shown) :
    ∃ condition ∈ resolved.condition, shown = .ofText condition.render := by
  rw [ofStep] at found
  split at found
  · simp [Yaml.field?, Yaml.Entries.find?_field, stringField] at found
  · rename_i action isAction
    rw [Yaml.field?, Yaml.Entries.find?_addMissing (covered.step.lacks_if isAction)] at found
    simp [Yaml.Entries.find?_append, Yaml.Entries.find?_field, Yaml.Entries.mappingField,
      stringField, minutesField, conditionField] at found
    rcases found with ⟨condition, isCondition, rfl⟩
    exact ⟨condition, isCondition, rfl⟩

/-- Whatever a rendered job shows is the text of one of its conditions or outputs. -/
theorem shown_ofJob {job : Job} {resolved : ResolvedJob}
    (unknown : job.settings.extra.AreUnknown JobField.ofKey?)
    (covered : ∀ placed ∈ resolved.steps, placed.IsCovered) {text : String}
    (mem : text ∈ shownTexts (ofJob job resolved)) :
    (∃ condition ∈ job.settings.condition, text.toList = condition.render) ∨
      (∃ placed ∈ resolved.steps, ∃ condition ∈ placed.condition,
        text.toList = condition.render) ∨
      ∃ output ∈ job.outputs, text.toList = output.2.template := by
  have condition : (ofJob job resolved).field? "if" =
      job.settings.condition.map fun condition => .ofText condition.render :=
    field?_ofJob unknown .condition
  have steps : (ofJob job resolved).field? "steps" =
      some (.sequence (resolved.steps.map ofStep)) := field?_ofJob unknown .steps
  have outputs : (ofJob job resolved).field? "outputs" =
      if job.outputs.isEmpty then none else some (.mapping (outputEntries job.outputs)) :=
    field?_ofJob unknown .outputs
  rcases List.mem_filterMap.mp mem with ⟨shown, shownMem, isText⟩
  rcases List.mem_append.mp shownMem with inConditions | inOutputs
  · rcases List.mem_append.mp inConditions with inJob | inSteps
    · rw [condition] at inJob
      rcases Option.map_eq_some_iff.mp (Option.mem_toList.mp inJob) with ⟨stated, isStated, rfl⟩
      cases isText
      exact .inl ⟨stated, isStated, String.toList_ofList⟩
    · rw [steps] at inSteps
      rcases List.mem_flatMap.mp inSteps with ⟨listed, listedMem, inSteps⟩
      cases List.mem_singleton.mp listedMem
      rcases List.mem_flatMap.mp inSteps with ⟨step, stepMem, isShown⟩
      rcases List.mem_map.mp stepMem with ⟨placed, placedMem, rfl⟩
      rcases field?_if_ofStep (covered placed placedMem) (Option.mem_toList.mp isShown) with
        ⟨stated, isStated, rfl⟩
      cases isText
      exact .inr (.inl ⟨placed, placedMem, stated, isStated, String.toList_ofList⟩)
  · rw [outputs] at inOutputs
    rcases List.mem_flatMap.mp inOutputs with ⟨listed, listedMem, inOutputs⟩
    split at listedMem
    · cases listedMem
    · cases List.mem_singleton.mp listedMem
      rcases List.mem_map.mp inOutputs with ⟨entry, entryMem, rfl⟩
      rcases List.mem_map.mp entryMem with ⟨output, outputMem, rfl⟩
      cases isText
      exact .inr (.inr ⟨output, outputMem, String.toList_ofList⟩)

/-! ## Rendered workflows -/

/-- The jobs of a document, put in one after another. -/
def insertJob (workflow : Workflow) (entries : Yaml.Entries) (resolved : ResolvedJob) :
    Yaml.Entries :=
  match workflow.job? resolved.id with
  | some job => entries.insert (.string resolved.id) (ofJob job resolved)
  | none => entries

theorem job?_ofWorkflow (workflow : Workflow) (resolved : ResolvedWorkflow) (id : String) :
    job? (ofWorkflow workflow resolved) id =
      Yaml.Entries.find? (resolved.jobs.foldl (insertJob workflow) []) (.string id) := by
  have jobs : (ofWorkflow workflow resolved).field? "jobs" =
      some (.mapping (resolved.jobs.foldl (insertJob workflow) [])) := by
    rw [ofWorkflow, Yaml.field?]
    simp [Yaml.Entries.find?_append, Yaml.Entries.find?_field, Yaml.Entries.mappingField,
      stringField, Yaml.Entries.find?_cons, Yaml.same_string]
    rfl
  rw [job?, jobs]
  rfl

theorem find?_insertJob_of_ne (workflow : Workflow) (entries : Yaml.Entries)
    {resolved : ResolvedJob} {id : String} (other : id ≠ resolved.id) :
    Yaml.Entries.find? (insertJob workflow entries resolved) (.string id) =
      Yaml.Entries.find? entries (.string id) := by
  rw [insertJob]
  split
  · exact Yaml.Entries.find?_insert_of_ne entries other _
  · rfl

theorem find?_foldl_insertJob_of_not_mem (workflow : Workflow) {jobs : List ResolvedJob}
    {id : String} (absent : id ∉ jobs.map ResolvedJob.id) (entries : Yaml.Entries) :
    Yaml.Entries.find? (jobs.foldl (insertJob workflow) entries) (.string id) =
      Yaml.Entries.find? entries (.string id) := by
  induction jobs generalizing entries with
  | nil => rfl
  | cons head tail induction =>
      rw [List.map_cons, List.mem_cons, not_or] at absent
      rw [List.foldl_cons, induction absent.2, find?_insertJob_of_ne workflow entries absent.1]

/-- A job whose id no other one has is found under it. -/
theorem job?_ofWorkflow_of_unique {workflow : Workflow} {resolved : ResolvedWorkflow} {job : Job}
    {found : ResolvedJob} {before behind : List ResolvedJob}
    (listed : resolved.jobs = before ++ found :: behind)
    (unique : found.id ∉ behind.map ResolvedJob.id) (isJob : workflow.job? found.id = some job) :
    job? (ofWorkflow workflow resolved) found.id = some (ofJob job found) := by
  rw [job?_ofWorkflow, listed, List.foldl_append, List.foldl_cons,
    find?_foldl_insertJob_of_not_mem workflow unique, insertJob, isJob]
  exact Yaml.Entries.find?_insert_self _ _ _

end Document

end FlowPlan

import FlowPlan.Proofs.WrittenDefinitions

/-! # Definitions that are written back

Reading undoes writing, but for two things. A mapping has each key once, so of
jobs, library steps or outputs that have one name only the last one is written.
And a tag that has a mark of its own to lose loses it on the way.
-/

namespace FlowPlan

open Yaml

namespace JobDefinition

/-- The job without the outputs that are not written. -/
def merged (job : JobDefinition) : JobDefinition := { job with outputs := lastOfEach job.outputs }

variable {job : JobDefinition}

theorem toYaml_merged (job : JobDefinition) : job.merged.toYaml = job.toYaml := by
  have fields : job.merged.fieldValue = job.fieldValue := by
    funext field
    cases field with
    | outputs => exact ofNamed_lastOfEach _ job.outputs
    | _ => rfl
  rw [toYaml_eq, toYaml_eq, fields]
  rfl

theorem IsFit.merged (fit : job.IsFit) : job.merged.IsFit :=
  { fit with kept := { fit.kept with } }

theorem KeepsTags.merged (keeps : job.KeepsTags) : job.merged.KeepsTags :=
  { keeps with kept := { keeps.kept with } }

end JobDefinition

namespace WorkflowDefinition

/-- No tag that is kept in the definition loses a mark. -/
structure KeepsTags (definition : WorkflowDefinition) : Prop where
  kept : definition.Keeps Yaml.KeepsTags
  library : ∀ entry ∈ definition.library, entry.2.KeepsTags
  jobs : ∀ entry ∈ definition.jobs, entry.2.KeepsTags

/-- No two library steps, jobs or outputs of a job have one name. -/
structure HasDistinctNames (definition : WorkflowDefinition) : Prop where
  library : (definition.library.map Prod.fst).Nodup
  jobs : (definition.jobs.map Prod.fst).Nodup
  outputs : ∀ entry ∈ definition.jobs, (entry.2.outputs.map Prod.fst).Nodup

/-- A definition reads as it was written if its names are distinct. -/
theorem read_toYaml_of_isFit {definition : WorkflowDefinition} (fit : definition.IsFit)
    (keeps : definition.KeepsTags) (distinct : definition.HasDistinctNames) :
    read definition.toYaml = .ok definition := by
  have library : readNamed StepDefinition.read (ofNamed StepDefinition.toYaml definition.library) =
      .ok definition.library :=
    readNamed_ofNamed distinct.library
      (fun entry mem => (StepDefinition.isStable_and_read_toYaml (fit.library entry mem)
        (keeps.library entry mem)).1)
      (fun entry mem => (StepDefinition.isStable_and_read_toYaml (fit.library entry mem)
        (keeps.library entry mem)).2)
  have jobs : readNamed JobDefinition.read (ofNamed JobDefinition.toYaml definition.jobs) =
      .ok definition.jobs :=
    readNamed_ofNamed distinct.jobs
      (fun entry mem => JobDefinition.isStable_toYaml (fit.jobs entry mem) (keeps.jobs entry mem))
      (fun entry mem => JobDefinition.read_toYaml (fit.jobs entry mem) (keeps.jobs entry mem)
        (distinct.outputs entry mem))
  have assigned : WorkflowField.all.foldlM (fun record field =>
      assign record field (definition.fieldValue field)) {} = .ok definition := by
    simp only [WorkflowField.all, List.foldlM_cons, List.foldlM_nil, assign, fieldValue,
      readOptional_text, readEntries_handedOn fit.kept.env keeps.kept.env, library, jobs,
      readAny_ofKept fit.kept.on keeps.kept.on,
      readAny_ofKept fit.kept.permissions keeps.kept.permissions,
      readAny_ofKept fit.kept.concurrency keeps.kept.concurrency,
      readAny_ofKept fit.kept.defaults keeps.kept.defaults, bind, Except.bind]
    rfl
  have written : definition.toYaml =
      .mapping (recordEntries WorkflowField.key definition.fieldValue WorkflowField.all []) :=
    congrArg Yaml.mapping (List.append_nil _).symm
  have once : WorkflowField.all.Nodup := by decide
  rw [written]
  exact readFields_record WorkflowField.ofKey?_key (fun _ => definition) (fun _ _ _ _ => rfl) once
    assigned (Entries.areExtra_nil _)

/-! ## Repeated names -/

/-- The definition without what is not written. -/
def merged (definition : WorkflowDefinition) : WorkflowDefinition :=
  { definition with
    library := lastOfEach definition.library
    jobs := lastOfEach (definition.jobs.map fun entry => (entry.1, entry.2.merged)) }

theorem toYaml_merged (definition : WorkflowDefinition) :
    definition.merged.toYaml = definition.toYaml := by
  have jobs : ofNamed JobDefinition.toYaml definition.merged.jobs =
      ofNamed JobDefinition.toYaml definition.jobs := by
    rw [merged, ofNamed_lastOfEach, ofNamed, ofNamed, List.foldl_map]
    simp only [JobDefinition.toYaml_merged]
  have fields : definition.merged.fieldValue = definition.fieldValue := by
    funext field
    cases field with
    | library => exact ofNamed_lastOfEach _ definition.library
    | jobs => exact jobs
    | _ => rfl
  rw [toYaml, toYaml, fields]

variable {definition : WorkflowDefinition}

theorem exists_of_mem_merged {entry : String × JobDefinition} (mem : entry ∈ definition.merged.jobs) :
    ∃ before ∈ definition.jobs, entry.2 = before.2.merged := by
  rcases List.mem_map.mp (mem_of_mem_lastOfEach mem) with ⟨before, isBefore, rfl⟩
  exact ⟨before, isBefore, rfl⟩

theorem IsFit.merged (fit : definition.IsFit) : definition.merged.IsFit where
  kept := { fit.kept with }
  library entry mem := fit.library entry (mem_of_mem_lastOfEach mem)
  jobs entry mem := by
    rcases exists_of_mem_merged mem with ⟨before, isBefore, isMerged⟩
    exact isMerged ▸ (fit.jobs before isBefore).merged

theorem KeepsTags.merged (keeps : definition.KeepsTags) : definition.merged.KeepsTags where
  kept := { keeps.kept with }
  library entry mem := keeps.library entry (mem_of_mem_lastOfEach mem)
  jobs entry mem := by
    rcases exists_of_mem_merged mem with ⟨before, isBefore, isMerged⟩
    exact isMerged ▸ (keeps.jobs before isBefore).merged

theorem hasDistinctNames_merged : definition.merged.HasDistinctNames where
  library := nodup_lastOfEach definition.library
  jobs := nodup_lastOfEach _
  outputs entry mem := by
    rcases exists_of_mem_merged mem with ⟨before, _, isMerged⟩
    exact isMerged ▸ nodup_lastOfEach before.2.outputs

theorem merged_eq_iff : definition.merged = definition ↔ definition.HasDistinctNames := by
  constructor
  case mp => exact fun same => same ▸ hasDistinctNames_merged
  case mpr =>
    intro distinct
    have jobs : definition.jobs.map (fun entry => (entry.1, entry.2.merged)) = definition.jobs := by
      refine (List.map_congr_left fun entry mem => ?_).trans (List.map_id _)
      rw [JobDefinition.merged, lastOfEach_eq_self (distinct.outputs entry mem)]
      rfl
    rw [merged, lastOfEach_eq_self distinct.library, jobs, lastOfEach_eq_self distinct.jobs]

/-- A definition that was read and is written back can be read again, is then written just the same,
and is the one it was if no two of its library steps, its jobs or the outputs of a job have one
name. -/
theorem reads_as_written {value : Yaml} (isRead : read value = .ok definition)
    (keeps : definition.KeepsTags) :
    ∃ again, read definition.toYaml = .ok again ∧ again.toYaml = definition.toYaml ∧
      (again = definition ↔ definition.HasDistinctNames) := by
  rcases exists_of_bind_eq_ok isRead with ⟨entries, _, isRead⟩
  have fit := isFit_of_ofFields isRead
  refine ⟨definition.merged, ?_, definition.toYaml_merged, merged_eq_iff⟩
  rw [← definition.toYaml_merged]
  exact read_toYaml_of_isFit fit.merged keeps.merged hasDistinctNames_merged

end WorkflowDefinition

/-! ## A definition that is written back as it is, and two that are not -/

namespace Sample

def fields (entries : List (String × Yaml)) : Yaml :=
  .mapping (entries.map fun (name, value) => (.string name, value))

/-- Written with other names for fields, an extra field, and a step inside another one. -/
def plainValue : Yaml :=
  fields [("on", .tagged "push" .null), ("jobs", fields [("build", fields [
    ("runs_on", .string "linux"), ("owner", .string "team"),
    ("steps", .sequence [fields [("steps", .sequence [fields [
      ("run", .string "make"), ("depends-on", .string "setup"),
      ("env", fields [("LEVEL", .integer 2)])]])]])])])]

def makeStep : StepDefinition where
  run := some "make"
  env := [(.string "LEVEL", .integer 2)]
  dependsOn := .single "setup"

def buildJob : JobDefinition where
  runsOn := some (.string "linux")
  steps := [{ children := some [makeStep] }]
  extra := [(.string "owner", .string "team")]

def plainDefinition : WorkflowDefinition where
  on := some (.tagged "push" .null)
  jobs := [("build", buildJob)]

theorem read_plainValue : WorkflowDefinition.read plainValue = .ok plainDefinition := by
  rfl

theorem keepsTags_plainDefinition : plainDefinition.KeepsTags where
  kept := by
    constructor
    case on =>
      rintro _ ⟨⟩
      have keeps : nextTag "push" = "push" := by decide +kernel
      exact Everywhere.tagged_iff.mpr ⟨keeps, keepsTags_of_isTagFree rfl⟩
    case env => exact keepsTags_of_isTagFree rfl
    all_goals exact forall_mem_none
  library := List.forall_mem_nil _
  jobs := by
    have noTags : (Yaml.mapping []).KeepsTags := keepsTags_of_isTagFree rfl
    have ofMake : makeStep.KeepsTags := .mk ⟨noTags, keepsTags_of_isTagFree rfl⟩ forall_mem_none
    refine List.forall_mem_singleton.mpr ⟨?_, List.forall_mem_singleton.mpr (.mk ⟨noTags, noTags⟩ ?_)⟩
    · constructor
      case runsOn =>
        rintro _ ⟨⟩
        exact keepsTags_of_isTagFree rfl
      case env => exact noTags
      all_goals exact forall_mem_none
    · rintro _ ⟨⟩
      exact List.forall_mem_singleton.mpr ofMake

theorem reads_as_written_plain :
    WorkflowDefinition.read plainValue = .ok plainDefinition ∧
      WorkflowDefinition.read plainDefinition.toYaml = .ok plainDefinition := by
  rcases WorkflowDefinition.reads_as_written read_plainValue keepsTags_plainDefinition with
    ⟨again, isRead, _, same⟩
  have distinct : plainDefinition.HasDistinctNames :=
    ⟨.nil, List.nodup_singleton _, List.forall_mem_singleton.mpr .nil⟩
  rw [same.mpr distinct] at isRead
  exact ⟨read_plainValue, isRead⟩

/-- The keys of the jobs differ by a tag, so both jobs are read under one name. -/
def releasesValue : Yaml :=
  fields [("jobs", .mapping [(.string "release", fields [("name", .string "first")]),
    (.tagged "t" (.string "release"), fields [("name", .string "second")])])]

def bothReleases : WorkflowDefinition where
  jobs := [("release", { name := some "first" }), ("release", { name := some "second" })]

theorem read_releasesValue : WorkflowDefinition.read releasesValue = .ok bothReleases := by
  cbv

theorem same_names_are_written_once :
    WorkflowDefinition.read releasesValue = .ok bothReleases ∧
      WorkflowDefinition.read bothReleases.toYaml ≠ .ok bothReleases := by
  refine ⟨read_releasesValue, fun same => ?_⟩
  have one : WorkflowDefinition.read bothReleases.toYaml =
      .ok { jobs := [("release", { name := some "second" })] } := rfl
  have sameJobs := congrArg WorkflowDefinition.jobs (Except.ok.inj (one.symm.trans same))
  cases congrArg List.length sameJobs

def markedDefinition : WorkflowDefinition where
  on := some (.tagged "!a" .null)

theorem tag_loses_a_mark_each_time :
    WorkflowDefinition.read (fields [("on", .tagged "!!a" .null)]) = .ok markedDefinition ∧
      WorkflowDefinition.read markedDefinition.toYaml ≠ .ok markedDefinition := by
  refine ⟨rfl, fun same => ?_⟩
  have unmarked : WorkflowDefinition.read markedDefinition.toYaml =
      .ok { on := some (.tagged "a" .null) } := rfl
  have sameOn := congrArg WorkflowDefinition.on (Except.ok.inj (unmarked.symm.trans same))
  simp [markedDefinition] at sameOn

end Sample

end FlowPlan

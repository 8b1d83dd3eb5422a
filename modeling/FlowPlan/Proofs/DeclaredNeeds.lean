import Mathlib
import FlowPlan.Proofs.BuiltJobs
import FlowPlan.Proofs.Documents

/-! # Declared needs

A rendered job declares every other job that it reads. What it shows are
conditions and outputs that are covered, the sources of these are read from when
the workflow is resolved, and every job of the workflow among them is needed.

The document finds a job by its id. Where two jobs have one id, the first of
them is shown with the needs of the last one.
-/

namespace FlowPlan

/-! ## Jobs by their ids -/

theorem exists_of_forall₂_append_cons {α β : Type} {relation : α → β → Prop}
    {before behind : List α} {member : α} {others : List β}
    (related : List.Forall₂ relation (before ++ member :: behind) others) :
    ∃ first other rest, others = first ++ other :: rest ∧ List.Forall₂ relation before first ∧
      relation member other ∧ List.Forall₂ relation behind rest := by
  induction before generalizing others with
  | nil =>
      cases related with
      | cons holds later => exact ⟨[], _, _, rfl, .nil, holds, later⟩
  | cons head tail induction =>
      cases related with
      | cons holds later =>
          rcases induction later with ⟨first, other, rest, rfl, firstRelated, found, restRelated⟩
          exact ⟨_ :: first, other, rest, rfl, .cons holds firstRelated, found, restRelated⟩

theorem WorkflowDefinition.ids_of_isBuilt {definition : WorkflowDefinition}
    {entries : List (String × JobDefinition)} {jobs : List Job}
    (built : List.Forall₂ (fun written job => job.IsBuilt definition written) entries jobs) :
    jobs.map Job.id = entries.map Prod.fst := by
  induction built with
  | nil => rfl
  | cons isBuilt _ induction => rw [List.map_cons, List.map_cons, isBuilt.id, induction]

theorem Workflow.job?_of_first {workflow : Workflow} {job : Job} {before behind : List Job}
    (listed : workflow.jobs = before ++ job :: behind) (isFirst : job.id ∉ before.map Job.id) :
    workflow.job? job.id = some job := by
  have none : before.find? (·.id = job.id) = none := by
    rw [List.find?_eq_none]
    intro other mem same
    exact isFirst (List.mem_map.mpr ⟨other, mem, of_decide_eq_true same⟩)
  rw [job?, listed, List.find?_append, none, Option.none_or]
  exact List.find?_cons_of_pos (decide_eq_true rfl)

/-! ## Rendered jobs -/

namespace Document

/-- What the needs of a rendered job have to do with what is written about it and with what the
document of the job shows. -/
structure DeclaresReads (ids : List String) (written : String × JobDefinition) (job : Yaml) :
    Prop where
  covers : ∀ text ∈ shownTexts job, ∀ name, ⟨.needs, name⟩ ∈ Text.references text.toList →
    name ∈ ids → name ≠ written.1 → name ∈ needs job
  known : ∀ need ∈ needs job, need ∈ ids
  nodup : (needs job).Nodup
  explicitFirst : ∃ inferred, needs job = distinct written.2.needs.names ++ inferred ∧
    inferred.Sublist ids ∧ written.1 ∉ inferred

theorem declaresReads_ofJob {definition : WorkflowDefinition} {written : String × JobDefinition}
    {workflow : Workflow} {job : Job} {resolved : ResolvedJob}
    (unknown : written.2.ExtrasUnknown) (built : job.IsBuilt definition written)
    (ids : workflow.jobs.map Job.id = definition.jobs.map Prod.fst)
    (completes : workflow.Completes job resolved) :
    DeclaresReads (definition.jobs.map Prod.fst) written (ofJob job resolved) := by
  have settingsUnknown : job.settings.extra.AreUnknown JobField.ofKey? :=
    built.extra ▸ unknown.extra
  have stepsCovered := completes.steps built.items
  have order : ∃ inferred, resolved.needs = distinct written.2.needs.names ++ inferred ∧
      inferred.Sublist (definition.jobs.map Prod.fst) ∧ written.1 ∉ inferred := by
    rcases completes.needs with ⟨jobs, needs⟩
    rw [built.needs, Workflow.completeNeeds_eq] at needs
    refine ⟨_, needs, ?_, ?_⟩
    · rw [← ids]
      exact List.filter_sublist.trans ((distinctBy_sublist _ _).trans List.filter_sublist)
    · intro mem
      have inferred := mem_distinct.mp (List.mem_filter.mp mem).1
      exact (Workflow.mem_inferredNeeds.mp inferred).2.1 built.id.symm
  constructor <;> rw [needs_ofJob settingsUnknown]
  case covers =>
    intro text shown name reads declared other
    rw [← ids] at declared
    rw [← built.id] at other
    refine completes.mem_needs declared other fun jobs => ?_
    rcases shown_ofJob settingsUnknown stepsCovered shown with
      ⟨condition, isCondition, isText⟩ | ⟨placed, placedMem, condition, isCondition, isText⟩ |
        ⟨output, outputMem, isText⟩
    · rw [isText] at reads
      exact Workflow.mem_jobsRead_of_mem_conditionsOf
        (Workflow.mem_conditionsOf_of_settings isCondition)
        ((built.condition condition isCondition).cover_render.jobs name reads)
    · rw [isText] at reads
      have covered := (stepsCovered placed placedMem).condition condition isCondition
      exact Workflow.mem_jobsRead_of_mem_conditionsOf
        (Workflow.mem_conditionsOf_of_step placedMem isCondition)
        (covered.cover_render.jobs name reads)
    · rw [isText] at reads
      exact Workflow.mem_jobsRead_of_mem_outputs outputMem
        (built.outputs output outputMem name reads)
  case known =>
    intro need mem
    rcases order with ⟨inferred, needs, sublist, -⟩
    rw [needs, List.mem_append, mem_distinct] at mem
    exact mem.elim (built.known need) fun isInferred => sublist.subset isInferred
  case nodup =>
    rcases completes.needs with ⟨jobs, needs⟩
    rw [needs, built.needs]
    exact Workflow.nodup_completeNeeds (nodup_distinct _) _
  case explicitFirst => exact order

/-! ## Rendered workflows -/

/-- Whatever a definition says, each of its jobs is in the document of the workflow and declares
there what it reads, unless another job has its id. -/
theorem rendered_job_declares_reads {fields : List RawField} {definition : WorkflowDefinition}
    (read : WorkflowDefinition.ofFields fields = .ok definition) {workflow : Workflow}
    {warnings : List Warning} (built : definition.build = (.ok workflow, warnings))
    {resolved : ResolvedWorkflow} (resolves : workflow.resolve = .ok resolved)
    {written : String × JobDefinition} (mem : written ∈ definition.jobs)
    (unique : (definition.jobs.map Prod.fst).count written.1 = 1) :
    ∃ job, job? (ofWorkflow workflow resolved) written.1 = some job ∧
      DeclaresReads (definition.jobs.map Prod.fst) written job := by
  have unknown := WorkflowDefinition.extrasUnknown_of_ofFields read
  have isBuilt := WorkflowDefinition.isBuilt_of_build
    (WorkflowDefinition.lacksOtherIf unknown) built
  have completes := Workflow.completes_of_resolve resolves
  have ids := WorkflowDefinition.ids_of_isBuilt isBuilt
  rcases List.append_of_mem mem with ⟨before, behind, listed⟩
  have elsewhere : written.1 ∉ before.map Prod.fst ∧ written.1 ∉ behind.map Prod.fst := by
    rw [listed, List.map_append, List.map_cons, List.count_append, List.count_cons_self] at unique
    exact ⟨List.count_eq_zero.mp (by omega), List.count_eq_zero.mp (by omega)⟩
  rw [listed] at isBuilt
  rcases exists_of_forall₂_append_cons isBuilt with
    ⟨first, job, rest, jobs, firstBuilt, jobBuilt, restBuilt⟩
  rw [jobs] at completes
  rcases exists_of_forall₂_append_cons completes with
    ⟨_, found, later, resolvedJobs, _, foundCompletes, laterCompletes⟩
  have isFirst : workflow.job? job.id = some job := by
    apply Workflow.job?_of_first jobs
    rw [WorkflowDefinition.ids_of_isBuilt firstBuilt, jobBuilt.id]
    exact elsewhere.1
  have isLast : found.id ∉ later.map ResolvedJob.id := by
    rw [Workflow.ids_of_completes laterCompletes, WorkflowDefinition.ids_of_isBuilt restBuilt,
      foundCompletes.id, jobBuilt.id]
    exact elsewhere.2
  have shown := job?_ofWorkflow_of_unique resolvedJobs isLast (foundCompletes.id ▸ isFirst)
  rw [foundCompletes.id, jobBuilt.id] at shown
  exact ⟨_, shown, declaresReads_ofJob (unknown.jobs written mem) jobBuilt ids foundCompletes⟩

end Document

/-! ## A release that reads a check and a build -/

namespace Sample

open Condition (Derives)

/-- Only one of the two jobs that the job reads is declared. -/
def release : JobDefinition where
  condition := some "needs.check.result == 'success'"
  needs := .single "build"
  outputs := [("version", "needs.build.outputs.version")]

def checked : Condition Step :=
  .comparison "needs.check.result".toList .equal (.string "success".toList) [.job "check"]

def releaseJob : Job where
  id := "release"
  settings := { condition := some checked }
  outputs := [("version", ⟨"needs.build.outputs.version".toList, [.job "build"]⟩)]
  needs := ["build"]

def releaseEntries : Yaml.Entries :=
  [(.string "check", .mapping []), (.string "build", .mapping []),
    (.string "release", .mapping [
      (.string "if", .string "needs.check.result == 'success'"),
      (.string "needs", .string "build"),
      (.string "outputs", .mapping [(.string "version", .string "needs.build.outputs.version")])])]

theorem sources_checked :
    Text.sources (.none : StepScope Step) "needs.check.result == 'success'".toList =
      [.job "check"] := by
  cbv

theorem jobCondition_release : WorkflowDefinition.jobCondition release = pure (some checked) := by
  have name : Text.IsDottedName "needs.check.result".toList := by decide
  have comparison : Derives (.none : StepScope Step) .operand
      "needs.check.result == 'success'".toList
      (.comparison "needs.check.result".toList .equal (.string "success".toList)
        (Text.sources .none "needs.check.result == 'success'".toList)) :=
    .comparison name .blank .blank trivial rfl
  rw [sources_checked] at comparison
  have whole : Derives (.none : StepScope Step) (.chain .or) _ checked := .alone (.alone comparison)
  rcases Condition.reads_of_derives whole with ⟨phrase, reads⟩
  have parsed := Condition.parse_of_reads phrase reads (.plain .nil .nil)
  rw [List.nil_append, List.append_nil] at parsed
  rw [WorkflowDefinition.jobCondition, release]
  dsimp only
  rw [parsed]
  rfl

def releases : WorkflowDefinition where
  jobs := [("check", {}), ("build", {}), ("release", release)]

def releasing : Workflow where
  jobs := [{ id := "check" }, { id := "build" }, releaseJob]

def released : ResolvedWorkflow where
  jobs := [⟨"check", [], []⟩, ⟨"build", [], []⟩, ⟨"release", ["build", "check"], []⟩]
  warnings := []

theorem build_releases : releases.build = (.ok releasing, []) := by
  rw [WorkflowDefinition.build, WorkflowDefinition.construct]
  simp only [releases, List.zipIdx_cons, List.mapM_cons, WorkflowDefinition.jobAt,
    jobCondition_release]
  cbv

/-- The declared need stands in front of the one that is only read. -/
theorem rendered_job_declares_reads_release :
    ∃ job, Document.job? (Document.ofWorkflow releasing released) "release" = some job ∧
      Document.needs job = ["build", "check"] ∧
      Document.DeclaresReads ["check", "build", "release"] ("release", release) job := by
  have read : WorkflowDefinition.ofFields [(.ok "jobs", .ok (.mapping releaseEntries))] =
      .ok releases := rfl
  have resolves : releasing.resolve = .ok released := by
    cbv
  have mem : ("release", release) ∈ releases.jobs := .tail _ (.tail _ (.head _))
  rcases Document.rendered_job_declares_reads read build_releases resolves mem (by decide) with
    ⟨job, found, declares⟩
  refine ⟨job, found, ?_, declares⟩
  have shown : Document.job? (Document.ofWorkflow releasing released) "release" =
      some (Document.ofJob releaseJob ⟨"release", ["build", "check"], []⟩) := rfl
  rw [Option.some.inj (found.symm.trans shown)]
  rfl

/-! ## Two releases -/

/-- A tag keeps the second id apart from the first one until both are read as the same text. -/
def twoReleaseEntries : Yaml.Entries :=
  releaseEntries ++ [(.tagged "!t" (.string "release"), .mapping [])]

def twoReleases : WorkflowDefinition where
  jobs := releases.jobs ++ [("release", {})]

def releasingTwice : Workflow where
  jobs := releasing.jobs ++ [{ id := "release" }]

def releasedTwice : ResolvedWorkflow where
  jobs := released.jobs ++ [⟨"release", [], []⟩]
  warnings := []

theorem build_twoReleases : twoReleases.build = (.ok releasingTwice, []) := by
  rw [WorkflowDefinition.build, WorkflowDefinition.construct]
  simp only [twoReleases, releases, List.cons_append, List.nil_append, List.zipIdx_cons,
    List.mapM_cons, WorkflowDefinition.jobAt, jobCondition_release]
  cbv

/-- What is shown of two jobs with one id are the condition of the first one and the needs of the
second, so a job is read that is not declared. -/
theorem shared_id_hides_needs :
    WorkflowDefinition.ofFields [(.ok "jobs", .ok (.mapping twoReleaseEntries))] =
      .ok twoReleases ∧
    twoReleases.build = (.ok releasingTwice, []) ∧ releasingTwice.resolve = .ok releasedTwice ∧
    ∃ job, Document.job? (Document.ofWorkflow releasingTwice releasedTwice) "release" = some job ∧
      ¬ Document.DeclaresReads (twoReleases.jobs.map Prod.fst) ("release", release) job := by
  have resolves : releasingTwice.resolve = .ok releasedTwice := by
    cbv
  refine ⟨rfl, build_twoReleases, resolves,
    Document.ofJob releaseJob ⟨"release", [], []⟩, rfl, ?_⟩
  intro declares
  have shown : "needs.check.result == 'success'" ∈
      Document.shownTexts (Document.ofJob releaseJob ⟨"release", [], []⟩) := by
    decide +kernel
  have reads : ⟨.needs, "check"⟩ ∈
      Text.references "needs.check.result == 'success'".toList := by
    have references : Text.references "needs.check.result == 'success'".toList =
        [⟨.needs, "check"⟩] := by
      cbv
    rw [references]
    exact List.mem_singleton.mpr rfl
  have needed := declares.covers _ shown "check" reads (by decide) (by decide)
  exact absurd needed (by decide)

end Sample

end FlowPlan

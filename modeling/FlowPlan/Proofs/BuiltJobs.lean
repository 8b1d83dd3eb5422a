import FlowPlan.Proofs.CoveredConstruction
import FlowPlan.Proofs.Needs

/-! # Built jobs

A job is built from what is written about it. Its id and the fields that only
pass through are as written, and its needs are the written ones without repeats,
which all have to be jobs. Its items, its condition and its outputs are covered.
-/

namespace FlowPlan

open Building (Ensures EnsuresCovered)

/-! ## Values -/

/-- Every job that the text of the value names is one of its sources. -/
def Value.IsCovered {σ : Type} (value : Value σ) : Prop :=
  ∀ name, ⟨.needs, name⟩ ∈ Text.references value.template → .job name ∈ value.sources

/-- A value shows the references of the text from which it is read. -/
theorem Value.references_of_parse {σ : Type} [Keyed σ] {scope : StepScope σ} {text : Text}
    {value : Value σ} (parsed : parse scope text = .ok value) :
    Text.references value.template = Text.references text := by
  rw [parse] at parsed
  split at parsed
  · cases parsed
  · cases parsed
    -- The text of a value is never checked, so a string in it may be left open.
    have opening : ∀ c ∈ ['$', '\x7b', '\x7b', ' '], Text.IsSeparator c := by decide
    have closing : ∀ c ∈ [' ', '\x7d', '\x7d'], Text.IsSeparator c := by decide
    rw [template, Text.references_append_separators _ closing,
      Text.references_separators_append opening, Text.references_expressionBody]

theorem Value.isCovered_of_parse {σ : Type} [Keyed σ] {scope : StepScope σ} {text : Text}
    {value : Value σ} (parsed : parse scope text = .ok value) : value.IsCovered := by
  intro name mem
  rw [references_of_parse parsed, ← Text.references_expressionBody] at mem
  rw [parse] at parsed
  split at parsed
  · cases parsed
  · cases parsed
    exact Sources.job_mem_union_right [] (List.mem_filterMap.mpr ⟨_, mem, rfl⟩)

/-! ## Jobs -/

/-- What a job has from where it is written. -/
structure Job.IsBuilt (definition : WorkflowDefinition) (written : String × JobDefinition)
    (job : Job) : Prop where
  id : job.id = written.1
  needs : job.needs = distinct written.2.needs.names
  known : ∀ need ∈ written.2.needs.names, need ∈ definition.jobs.map Prod.fst
  extra : job.settings.extra = written.2.extra
  condition : ∀ condition ∈ job.settings.condition, condition.IsCovered
  items : ∀ item ∈ job.items, item.IsCovered
  outputs : ∀ output ∈ job.outputs, output.2.IsCovered

theorem Workflow.completeNeeds_append (declared first second : List String) :
    completeNeeds declared (first ++ second) =
      completeNeeds (completeNeeds declared first) second :=
  List.foldl_append

theorem Workflow.completeNeeds_nil (needs : List String) :
    completeNeeds [] needs = distinct needs := by
  rw [completeNeeds_eq, List.nil_append]
  exact List.filter_eq_self.mpr fun _ _ => rfl

theorem Job.addNeed_eq (job : Job) (need : String) :
    job.addNeed need = { job with needs := Workflow.completeNeeds job.needs [need] } := by
  rw [addNeed, Workflow.completeNeeds, List.foldl_cons, List.foldl_nil]
  split <;> rfl

namespace Job.IsBuilt

variable {definition : WorkflowDefinition} {written : String × JobDefinition} {job : Job}
  (built : job.IsBuilt definition written)

include built

theorem addItem {item : Item} (covered : item.IsCovered) :
    (job.addItem item).IsBuilt definition written :=
  { built with
    items := List.forall_mem_append.mpr ⟨built.items, List.forall_mem_singleton.mpr covered⟩ }

theorem addOutput (name : String) {value : Value Step} (covered : value.IsCovered) :
    (job.addOutput name value).IsBuilt definition written :=
  { built with
    outputs := List.forall_mem_append.mpr
      ⟨fun output kept => built.outputs output (List.mem_filter.mp kept).1,
        List.forall_mem_singleton.mpr covered⟩ }

end Job.IsBuilt

namespace WorkflowDefinition

variable {definition : WorkflowDefinition}

theorem mem_ids_of_isSome_job? {name : String} (known : (definition.job? name).isSome = true) :
    name ∈ definition.jobs.map Prod.fst := by
  rcases Option.isSome_iff_exists.mp known with ⟨job, found⟩
  exact List.mem_map.mpr ⟨(name, job), mem_of_lookup found, rfl⟩

theorem ensuresCovered_jobCondition (written : JobDefinition) :
    EnsuresCovered (jobCondition written) fun own => ∀ condition ∈ own, condition.IsCovered := by
  rw [jobCondition]
  cases written.condition with
  | none => exact .pure forall_mem_none
  | some text =>
      exact (Ensures.ofExpression _).map fun condition parsed _ mem =>
        Option.some.inj mem ▸ Condition.isCovered_of_parse parsed

/-- The needs are added one after another, and none twice. -/
theorem ensuresCovered_needing (id : String) (settings : JobSettings) (needs : List String) :
    EnsuresCovered (needs.foldlM (fun (job : Job) need =>
        if (definition.job? need).isSome then pure (job.addNeed need)
        else throw (.definition (.unknownJob need))) { id, settings })
      fun job => job = { id, settings, needs := Workflow.completeNeeds [] needs } ∧
        ∀ need ∈ needs, need ∈ definition.jobs.map Prod.fst := by
  apply Ensures.foldlM fun seen (job : Job) =>
    job = { id, settings, needs := Workflow.completeNeeds [] seen } ∧
      ∀ need ∈ seen, need ∈ definition.jobs.map Prod.fst
  · exact ⟨rfl, List.forall_mem_nil _⟩
  · rintro seen job ⟨rfl, known⟩ need _
    split
    · rename_i isKnown
      refine .pure ⟨?_, ?_⟩
      · rw [Job.addNeed_eq, Workflow.completeNeeds_append]
      · exact List.forall_mem_append.mpr
          ⟨known, List.forall_mem_singleton.mpr (mem_ids_of_isSome_job? isKnown)⟩
    · exact .throw _

theorem ensuresCovered_jobAt (plain : definition.LacksOtherIf) (index : Nat) (id : String)
    (written : JobDefinition) :
    EnsuresCovered (definition.jobAt index id written)
      fun job => job.IsBuilt definition (id, written) := by
  have covered := fun underway => definition.ensuresCovered_stepAt_and_itemAt plain underway
  rw [jobAt]
  refine (ensuresCovered_jobCondition written).bind fun own ownCovered => ?_
  refine (ensuresCovered_needing id _ written.needs.names).bind fun needing needingIs => ?_
  have needingBuilt : needing.IsBuilt definition (id, written) := by
    rcases needingIs with ⟨rfl, known⟩
    exact ⟨rfl, Workflow.completeNeeds_nil _, known, rfl, ownCovered, List.forall_mem_nil _,
      List.forall_mem_nil _⟩
  refine (Ensures.mapM_all fun place _ => (covered {}).2 (.job index place)).bind
    fun items itemsCovered => ?_
  have value : ∀ output ∈ written.outputs, EnsuresCovered (do
      let scope ← definition.scopeAt {} (.job index) none output.2
      return (output.1, ← .ofExpression (Value.parse scope output.2.toList)))
      fun output : String × Value Step => output.2.IsCovered := by
    intro output _
    refine (ensuresCovered_scopeAt (covered {}).1 (.job index) none output.2).bind
      fun scope _ => (Ensures.ofExpression _).bind fun value parsed => ?_
    exact .pure (Value.isCovered_of_parse parsed)
  refine (Ensures.mapM_all value).bind fun outputs outputsCovered => .pure ?_
  have placed : (items.foldl Job.addItem needing).IsBuilt definition (id, written) :=
    List.foldlRecOn items Job.addItem needingBuilt
      fun job built item mem => built.addItem (itemsCovered item mem)
  exact List.foldlRecOn outputs _ placed
    fun job built output mem => built.addOutput output.1 (outputsCovered output mem)

theorem ensuresCovered_construct (plain : definition.LacksOtherIf) :
    EnsuresCovered definition.construct fun workflow =>
      List.Forall₂ (fun written job => job.IsBuilt definition written) definition.jobs
        workflow.jobs := by
  rw [construct]
  have each : ∀ entry ∈ definition.jobs.zipIdx, EnsuresCovered
      (definition.jobAt entry.2 entry.1.1 entry.1.2)
      fun job => job.IsBuilt definition entry.1 :=
    fun entry _ => ensuresCovered_jobAt plain entry.2 entry.1.1 entry.1.2
  refine (Ensures.mapM each).bind fun jobs related => .pure ?_
  rw [← List.zipIdx_map_fst 0 definition.jobs]
  exact List.forall₂_map_left_iff.mpr related

/-- The jobs of a workflow are built from those of its definition, one from each. -/
theorem isBuilt_of_build (plain : definition.LacksOtherIf) {workflow : Workflow}
    {warnings : List Warning} (built : definition.build = (.ok workflow, warnings)) :
    List.Forall₂ (fun written job => job.IsBuilt definition written) definition.jobs
      workflow.jobs := by
  have nothing : Construction.IsCovered {} := List.forall_mem_nil _
  exact (ensuresCovered_construct plain {} nothing).2 workflow (congrArg Prod.fst built)

end WorkflowDefinition

end FlowPlan

import FlowPlan.Proofs.BuiltJobs
import FlowPlan.Proofs.SoundConstruction

/-! # Where built jobs come from

The items of a built job stand where they are written in it, one after another,
and whatever its outputs read has been looked for. What a job has to do with is
therefore among the steps that count in it.
-/

namespace FlowPlan

open Building (Reaches Secures)

/-- The job was built from what is written about the one with the number. -/
structure Construction.BuildsJob (construction : Construction) (definition : WorkflowDefinition)
    (index : Nat) (written : JobDefinition) (job : Job) : Prop where
  items : List.Forall₂
    (fun place item => construction.Places definition (.job index place) item)
    (List.range written.steps.length) job.items
  outputs : ∀ output ∈ job.outputs, ∀ id, ⟨.steps, id⟩ ∈ Text.references output.2.template →
    ∃ found, construction.Finds definition (.job index) none id found

namespace Construction.BuildsJob

variable {construction : Construction} {definition : WorkflowDefinition} {index : Nat}
  {written : JobDefinition} {job : Job} (builds : construction.BuildsJob definition index written job)

include builds

theorem places_getElem? {place : Nat} {item : Item} (found : job.items[place]? = some item) :
    construction.Places definition (.job index place) item := by
  rcases exists_getElem?_of_forall₂ builds.items found with ⟨number, inRange, places⟩
  have same : place = number := by
    rcases List.getElem?_eq_some_iff.mp inRange with ⟨bound, equal⟩
    exact (List.getElem_range bound).symm.trans equal
  exact same ▸ places

theorem placesAll : construction.PlacesAll definition index job.items := by
  intro item mem
  rcases List.mem_iff_getElem?.mp mem with ⟨place, found⟩
  exact ⟨place, builds.places_getElem? found⟩

end Construction.BuildsJob

namespace Job

theorem items_foldl_addItem (job : Job) (items : List Item) :
    (items.foldl addItem job).items = job.items ++ items := by
  induction items generalizing job with
  | nil => exact (List.append_nil _).symm
  | cons head tail induction =>
      rw [List.foldl_cons, induction, addItem, List.append_assoc, List.singleton_append]

theorem outputs_foldl_addItem (job : Job) (items : List Item) :
    (items.foldl addItem job).outputs = job.outputs := by
  induction items generalizing job with
  | nil => rfl
  | cons head tail induction => exact induction (job.addItem head)

theorem items_foldl_addOutput (job : Job) (outputs : List (String × Value Step)) :
    (outputs.foldl (fun job (name, value) => job.addOutput name value) job).items = job.items := by
  induction outputs generalizing job with
  | nil => rfl
  | cons head tail induction => exact induction (job.addOutput head.1 head.2)

/-- No output is there that was not there before or has been added. -/
theorem outputs_foldl_addOutput (job : Job) (outputs : List (String × Value Step)) :
    (outputs.foldl (fun job (name, value) => job.addOutput name value) job).outputs ⊆
      job.outputs ++ outputs := by
  induction outputs generalizing job with
  | nil => exact List.subset_append_left _ _
  | cons head tail induction =>
      intro output mem
      have before := induction (job.addOutput head.1 head.2) mem
      rcases List.mem_append.mp before with added | later
      · rcases List.mem_append.mp added with old | isNew
        · exact List.mem_append_left _ (List.mem_filter.mp old).1
        · rw [List.mem_singleton.mp isNew]
          exact List.mem_append_right _ List.mem_cons_self
      · exact List.mem_append_right _ (List.mem_cons_of_mem head later)

end Job

namespace WorkflowDefinition

variable {definition : WorkflowDefinition} {start : Construction}

theorem secures_jobCondition (written : JobDefinition) :
    Secures definition start (jobCondition written) fun _ _ => True := by
  rw [jobCondition]
  split
  · exact (Reaches.ofExpression _).map fun _ _ _ _ => trivial
  · exact .pure trivial

theorem secures_needing (id : String) (settings : JobSettings) (needs : List String) :
    Secures definition start (needs.foldlM (fun (job : Job) need =>
        if (definition.job? need).isSome then pure (job.addNeed need)
        else throw (.definition (.unknownJob need))) { id, settings })
      fun _ job => job.items = [] ∧ job.outputs = [] := by
  refine Reaches.foldlM ⟨rfl, rfl⟩ fun need _ state job _ isEmpty => ?_
  split
  · refine .pure ?_
    rw [Job.addNeed_eq]
    exact isEmpty
  · exact .throw _

theorem secures_jobAt (sound : start.IsSound definition) (index : Nat) (id : String)
    (written : JobDefinition) :
    Secures definition start (definition.jobAt index id written) fun state job =>
      state.BuildsJob definition index written job := by
  have gives : definition.GivesSteps {} ∧ definition.GivesItems {} := givesSteps_and_givesItems {}
  rw [jobAt]
  refine (secures_jobCondition written).bind fun first own advances _ => ?_
  refine (secures_needing id _ written.needs.names).bind fun second needing later isEmpty => ?_
  have secondSound := later.sound (advances.sound sound)
  have item : ∀ place ∈ List.range written.steps.length, ∀ state,
      second.Advances definition state →
        Secures definition state (definition.itemAt {} (.job index place)) fun state item =>
          state.Places definition (.job index place) item :=
    fun place _ state advances => gives.2 (.job index place) state (advances.sound secondSound)
  refine (Reaches.mapM (fun _ _ _ _ advances places => places.mono advances.grows) item).bind
    fun third items advances places => ?_
  have thirdSound := advances.sound secondSound
  have output : ∀ output ∈ written.outputs, ∀ state, third.Advances definition state →
      Secures definition state (do
        let scope ← definition.scopeAt {} (.job index) none output.2
        return (output.1, ← .ofExpression (Value.parse scope output.2.toList)))
        fun state (result : String × Value Step) =>
          ∀ id, ⟨.steps, id⟩ ∈ Text.references result.2.template →
            ∃ found, state.Finds definition (.job index) none id found := by
    intro output _ state advances
    refine (secures_scopeAt gives.1 (advances.sound thirdSound) (.job index) none output.2).bind
      fun middle scope _ finds => (Reaches.ofExpression _).bind fun after value later parsed => ?_
    refine .pure fun id mem => ⟨scope id, (finds id ?_).mono later.grows⟩
    exact Value.references_of_parse parsed.2 ▸ mem
  refine (Reaches.mapM ?_ output).bind fun fourth outputs later finds => .pure ?_
  · exact fun _ _ _ _ advances finds id mem =>
      (finds id mem).imp fun _ found => found.mono advances.grows
  · constructor
    case items =>
      rw [Job.items_foldl_addOutput, Job.items_foldl_addItem, isEmpty.1, List.nil_append]
      exact places.imp fun _ _ places => places.mono later.grows
    case outputs =>
      intro result mem
      have listed := Job.outputs_foldl_addOutput _ outputs mem
      rw [Job.outputs_foldl_addItem, isEmpty.2, List.nil_append] at listed
      rcases exists_of_mem_forall₂ finds listed with ⟨_, _, known⟩
      exact known

theorem secures_construct (sound : start.IsSound definition) :
    Secures definition start definition.construct fun state workflow =>
      List.Forall₂ (fun entry job => state.BuildsJob definition entry.2 entry.1.2 job)
        definition.jobs.zipIdx workflow.jobs := by
  rw [construct]
  have each : ∀ entry ∈ definition.jobs.zipIdx, ∀ state, start.Advances definition state →
      Secures definition state (definition.jobAt entry.2 entry.1.1 entry.1.2) fun state job =>
        state.BuildsJob definition entry.2 entry.1.2 job :=
    fun entry _ state advances => secures_jobAt (advances.sound sound) entry.2 entry.1.1 entry.1.2
  refine (Reaches.mapM ?_ each).bind fun state jobs _ built => .pure built
  intro before after entry job advances builds
  exact ⟨builds.items.imp fun _ _ places => places.mono advances.grows,
    fun output mem id shown =>
      (builds.outputs output mem id shown).imp fun _ found => found.mono advances.grows⟩

variable (definition) in
/-- All that has been made for the definition. -/
def construction : Construction := (definition.construct.run.run {}).2

variable (definition) in
theorem isSound_construction : definition.construction.IsSound definition :=
  have empty : ({} : Construction).IsSound definition := Construction.isSound_empty
  (secures_construct empty).1.sound empty

/-- Every job of a workflow was built in the construction, which knows what was warned of. -/
theorem buildsJob_of_build {workflow : Workflow} {warnings : List Warning}
    (built : definition.build = (.ok workflow, warnings)) :
    definition.construction.warnings = warnings ∧ ∀ index job, workflow.jobs[index]? = some job →
      ∃ written, definition.jobs[index]? = some written ∧
        definition.construction.BuildsJob definition index written.2 job := by
  have empty : ({} : Construction).IsSound definition := Construction.isSound_empty
  refine ⟨congrArg Prod.snd built, fun index job atIndex => ?_⟩
  have jobs := (secures_construct empty).2 workflow (congrArg Prod.fst built)
  rcases exists_getElem?_of_forall₂ jobs atIndex with ⟨⟨written, number⟩, isEntry, builds⟩
  rw [List.getElem?_zipIdx, Nat.zero_add] at isEntry
  rcases Option.map_eq_some_iff.mp isEntry with ⟨_, found, equal⟩
  cases equal
  exact ⟨written, found, builds⟩

end WorkflowDefinition

end FlowPlan

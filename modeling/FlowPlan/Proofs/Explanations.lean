import FlowPlan.Proofs.Failures
import FlowPlan.Proofs.Requirements

/-! # Why building fails

Each error has its cause in what the jobs need. Either a task that is needed is
come back to while it is being done, and then it requires itself, or something
is wrong with what is written for a task or for a job.
-/

namespace FlowPlan

open Building (FailsOnly)

/-! ## What is needed -/

def BuildError.IsCircular (error : BuildError) : Prop :=
  ∃ labels, error = .definition (.circular labels)

namespace WorkflowDefinition

/-- A job requires the task, at once or by way of other tasks. -/
def Needs (definition : WorkflowDefinition) (task : Task) : Prop :=
  ∃ index entry first, definition.jobs[index]? = some entry ∧
    definition.JobRequires index entry.2 first ∧ Relation.ReflTransGen definition.Requires first task

/-- The labels stand along a way of positions on which each one is needed for the one before it,
either all as items or all as steps, and which ends where it begins. -/
def ClosesCircle (definition : WorkflowDefinition) (labels : List String) : Prop :=
  ∃ (ask : Position → Task) (first : Position) (between : List Position),
    (ask = .item ∨ ask = .step) ∧
    labels = (first :: between ++ [first]).map definition.labelAt ∧
    (∀ position ∈ first :: between, definition.Needs (ask position)) ∧
    (first :: between ++ [first]).IsChain fun position next =>
      Relation.TransGen definition.Requires (ask position) (ask next)

/-- The error is a circle, or it is due to something that is not accepted. -/
inductive Explains (definition : WorkflowDefinition) : BuildError → Prop
  | circle {labels : List String} (closes : definition.ClosesCircle labels) :
      definition.Explains (.definition (.circular labels))
  | task {task : Task} {error : BuildError} (plain : ¬ error.IsCircular)
      (needed : definition.Needs task) (refused : ¬ definition.Accepts task) :
      definition.Explains error
  | job {entry : String × JobDefinition} {error : BuildError} (plain : ¬ error.IsCircular)
      (mem : entry ∈ definition.jobs) (refused : ¬ definition.AcceptsJob entry.2) :
      definition.Explains error

variable {definition : WorkflowDefinition}

theorem Needs.tail {task other : Task} (needed : definition.Needs task)
    (requires : definition.Requires task other) : definition.Needs other := by
  rcases needed with ⟨index, entry, first, isEntry, isFirst, leads⟩
  exact ⟨index, entry, first, isEntry, isFirst, leads.tail requires⟩

end WorkflowDefinition

/-- The positions that are underway are needed and lead to the task, each by way of those that came
after it. -/
structure Underway.LeadsTo (underway : Underway) (definition : WorkflowDefinition) (task : Task) :
    Prop where
  needed : definition.Needs task
  steps : ∀ position ∈ underway.steps, definition.Needs (.step position) ∧
    Relation.TransGen definition.Requires (.step position) task
  items : ∀ position ∈ underway.items, definition.Needs (.item position) ∧
    Relation.TransGen definition.Requires (.item position) task
  stepsLinked : underway.steps.Pairwise fun later earlier =>
    Relation.TransGen definition.Requires (.step earlier) (.step later)
  itemsLinked : underway.items.Pairwise fun later earlier =>
    Relation.TransGen definition.Requires (.item earlier) (.item later)

namespace Underway.LeadsTo

variable {underway : Underway} {definition : WorkflowDefinition}

theorem nothing {task : Task} (needed : definition.Needs task) :
    LeadsTo {} definition task :=
  ⟨needed, List.forall_mem_nil _, List.forall_mem_nil _, .nil, .nil⟩

theorem tail {task other : Task} (leads : underway.LeadsTo definition task)
    (requires : definition.Requires task other) : underway.LeadsTo definition other :=
  { leads with
    needed := leads.needed.tail requires
    steps := fun position mem => (leads.steps position mem).imp_right (·.tail requires)
    items := fun position mem => (leads.items position mem).imp_right (·.tail requires) }

variable {position : Position} {other : Task}

theorem below_item (leads : underway.LeadsTo definition (.item position))
    (requires : definition.Requires (.item position) other) :
    LeadsTo { underway with items := position :: underway.items } definition other :=
  { leads.tail requires with
    items := List.forall_mem_cons.mpr
      ⟨⟨leads.needed, .single requires⟩, (leads.tail requires).items⟩
    itemsLinked := leads.itemsLinked.cons fun earlier mem => (leads.items earlier mem).2 }

theorem below_step (leads : underway.LeadsTo definition (.step position))
    (requires : definition.Requires (.step position) other) :
    LeadsTo { underway with steps := position :: underway.steps } definition other :=
  { leads.tail requires with
    steps := List.forall_mem_cons.mpr
      ⟨⟨leads.needed, .single requires⟩, (leads.tail requires).steps⟩
    stepsLinked := leads.stepsLinked.cons fun earlier mem => (leads.steps earlier mem).2 }

end Underway.LeadsTo

namespace WorkflowDefinition

variable {definition : WorkflowDefinition} {underway : Underway}

/-- What stands before the first occurrence of a member, together with it. -/
theorem upto_first_prefix {α : Type} [DecidableEq α] {members : List α} {member : α}
    (mem : member ∈ members) : members.takeWhile (· ≠ member) ++ [member] <+: members := by
  rcases List.eq_append_cons_of_mem mem with ⟨before, after, rfl, notBefore⟩
  have all : ∀ other ∈ before, decide (other ≠ member) = true :=
    fun other isBefore => decide_eq_true fun same => notBefore (same ▸ isBefore)
  rw [List.takeWhile_append_of_pos all]
  exact ⟨after, by simp⟩

/-- Coming back to a position closes a circle of those that were taken up after it. -/
theorem explains_circle {ask : Position → Task} (isKind : ask = .item ∨ ask = .step)
    {taken : List Position} {position : Position} (mem : position ∈ taken)
    (needed : ∀ other ∈ taken, definition.Needs (ask other) ∧
      Relation.TransGen definition.Requires (ask other) (ask position))
    (linked : taken.Pairwise fun later earlier =>
      Relation.TransGen definition.Requires (ask earlier) (ask later)) :
    definition.Explains (definition.circle taken position) := by
  have isPrefix := upto_first_prefix mem
  have isWay : (position :: (taken.takeWhile (· ≠ position)).reverse ++ [position]).Pairwise
      fun other next => Relation.TransGen definition.Requires (ask other) (ask next) := by
    have back : (position :: (taken.takeWhile (· ≠ position) ++ [position])).Pairwise
        fun later earlier => Relation.TransGen definition.Requires (ask earlier) (ask later) :=
      (linked.sublist isPrefix.sublist).cons fun other inside =>
        (needed other (isPrefix.subset inside)).2
    have turned := List.pairwise_reverse.mpr back
    simpa using turned
  refine .circle ⟨ask, position, _, isKind, rfl, ?_, isWay.isChain⟩
  refine List.forall_mem_cons.mpr ⟨(needed position mem).1, fun other inside => ?_⟩
  have inTaken := List.takeWhile_subset _ (List.mem_reverse.mp inside)
  exact (needed other inTaken).1

/-! ## The stages -/

/-- The task fails with nothing but what explains it. -/
def FailsUnder (definition : WorkflowDefinition) (underway : Underway) : Task → Prop
  | .item position => FailsOnly definition.Explains (definition.itemAt underway position)
  | .step position => FailsOnly definition.Explains (definition.stepAt underway position)

/-- Whatever else goes wrong is explained. -/
def Blames (definition : WorkflowDefinition) : Prop :=
  ∀ error : BuildError, ¬ error.IsCircular → definition.Explains error

theorem blames_of_refused {task : Task} (needed : definition.Needs task)
    (refused : ¬ definition.Accepts task) : definition.Blames :=
  fun _ plain => .task plain needed refused

theorem blames_of_absent {ask : Position → Task} (isKind : ask = .item ∨ ask = .step)
    {position : Position} (needed : definition.Needs (ask position))
    (absent : ¬ ∃ written, definition.step? position = some written) : definition.Blames := by
  apply blames_of_refused needed
  rcases isKind with rfl | rfl
  · rintro ⟨written, found, _⟩
    exact absent ⟨written, found⟩
  · rintro ⟨written, found, _⟩
    exact absent ⟨written, found⟩

/-- An error that is no circle. -/
theorem Blames.explains (blames : definition.Blames) {error : DefinitionError}
    (plain : ∀ labels, error ≠ .circular labels) : definition.Explains (.definition error) := by
  apply blames
  rintro ⟨labels, same⟩
  exact plain labels (BuildError.definition.inj same)

theorem explains_resolveName {scope : Scope} {name : String}
    (blames : (¬ ∃ target, definition.names.find? scope name = some target) → definition.Blames)
    {error : DefinitionError} (failed : definition.resolveName scope name = .error error) :
    definition.Explains (.definition error) := by
  rw [resolveName] at failed
  split at failed
  · cases failed
  · rename_i absent
    cases failed
    have refused : ¬ ∃ target, definition.names.find? scope name = some target := by
      rintro ⟨_, found⟩
      cases absent.symm.trans found
    exact (blames refused).explains (by simp)

theorem explains_resolveReusable {name : String}
    (blames : (¬ ∃ written, definition.step? (.library name) = some written) → definition.Blames)
    {error : DefinitionError} (failed : definition.resolveReusable name = .error error) :
    definition.Explains (.definition error) := by
  rw [resolveReusable] at failed
  split at failed
  · cases failed
  · rename_i absent
    cases failed
    exact (blames fun found => absent (Option.isSome_iff_exists.mpr found)).explains (by simp)

theorem explains_resolveCrossJob {reference : String}
    (blames : (¬ ∃ target, definition.resolveCrossJob reference = .ok target) →
      definition.Blames)
    {error : DefinitionError} (failed : definition.resolveCrossJob reference = .error error) :
    definition.Explains (.definition error) := by
  have refused : definition.Blames := by
    apply blames
    rintro ⟨_, resolved⟩
    cases failed.symm.trans resolved
  apply refused.explains
  rintro labels rfl
  rw [resolveCrossJob] at failed
  split at failed
  · cases failed
  · dsimp only at failed
    split at failed
    · cases failed
    · split at failed <;> cases failed

theorem failsOnly_readAt {scope : Scope} {current : Option Position} {text id : String}
    (steps : ∀ target, definition.names.find? scope id = some target → current ≠ some target →
      FailsOnly definition.Explains (definition.stepAt underway target)) :
    FailsOnly definition.Explains (definition.readAt underway scope current text id) := by
  rw [readAt]
  cases found : definition.names.find? scope id with
  | none => exact (FailsOnly.warn _).bind fun _ => .pure none
  | some target =>
      dsimp only
      split
      · exact .pure none
      · rename_i other
        exact (steps target found other).map _

theorem failsOnly_scopeAt {scope : Scope} {current : Option Position} {text : String}
    (steps : ∀ target, definition.Asks scope current text target →
      FailsOnly definition.Explains (definition.stepAt underway target)) :
    FailsOnly definition.Explains (definition.scopeAt underway scope current text) := by
  rw [scopeAt_eq]
  have each : ∀ id ∈ Text.referencedSteps text.toList,
      FailsOnly definition.Explains (definition.readAt underway scope current text id) :=
    fun id mem => failsOnly_readAt fun target found other => steps target ⟨id, mem, found, other⟩
  exact (FailsOnly.mapM each).bind fun _ => .pure _

theorem failsOnly_parse {text : String} (blames : ¬ Readable text → definition.Blames)
    (scope : StepScope Step) :
    FailsOnly definition.Explains (Building.ofExpression (Condition.parse scope text.toList)) := by
  apply FailsOnly.ofExpression
  intro error failed
  have refused : ¬ Readable text := by
    intro readable
    rcases readable scope with ⟨condition, parsed⟩
    cases failed.symm.trans parsed
  exact (blames refused).explains (by simp)

theorem failsOnly_textAt {position : Position} {text : Option String}
    (blames : ∀ written ∈ text, ¬ Readable written → definition.Blames)
    (steps : ∀ written ∈ text, ∀ target,
      definition.Asks position.scope (some position) written target →
        FailsOnly definition.Explains (definition.stepAt underway target)) :
    FailsOnly definition.Explains (definition.textAt underway position text) := by
  cases text with
  | none => exact .pure none
  | some written =>
      rw [textAt, conditionAt]
      apply FailsOnly.map
      exact (failsOnly_scopeAt (steps written rfl)).bind (failsOnly_parse (blames written rfl))

theorem failsOnly_predecessorAt {scope : Scope} {name : String}
    (blames : (¬ ∃ target, definition.names.find? scope name = some target) → definition.Blames)
    (steps : ∀ target, definition.names.find? scope name = some target →
      FailsOnly definition.Explains (definition.stepAt underway target)) :
    FailsOnly definition.Explains (definition.predecessorAt underway scope name) :=
  .ofDefinition_bind (fun _ => explains_resolveName blames) fun target resolved =>
    (steps target (find?_of_resolveName resolved)).map Item.ofStep

theorem failsOnly_dependencyAt {scope : Scope} {name : String}
    (blames : (¬ ∃ target, definition.names.find? scope name = some target) → definition.Blames)
    (asked : ∀ target, definition.names.find? scope name = some target →
      definition.FailsUnder underway (.dependency target)) :
    FailsOnly definition.Explains (definition.dependencyAt underway scope name) := by
  rw [dependencyAt]
  apply FailsOnly.ofDefinition_bind fun _ => explains_resolveName blames
  intro target resolved
  have fails := asked target (find?_of_resolveName resolved)
  rw [Task.dependency] at fails
  cases isLibrary : target.isLibraryRoot with
  | true =>
      rw [isLibrary] at fails
      exact fails
  | false =>
      rw [isLibrary] at fails
      exact FailsOnly.map fails Item.ofStep

theorem exists_ofGroup {written : StepDefinition} (names : written.NamesOutputs) (key : Nat)
    (name : Option String) (items : List Item) :
    ∃ step, Step.ofGroup key written.id written.outputs name items = .ok step := by
  rw [Step.ofGroup]
  cases isId : written.id with
  | some id => simp
  | none => simp [names isId, distinct, distinctBy]

theorem exists_ofAction {written : StepDefinition} (names : written.NamesOutputs) (key : Nat)
    (content : Action Step) (consumed : List Step) :
    ∃ step, Step.ofAction key written.id written.outputs content consumed = .ok step := by
  rw [Step.ofAction]
  cases isId : written.id with
  | some id => simp
  | none => simp [names isId, distinct, distinctBy]

/-- A step that cannot be made has outputs but no id. -/
theorem failsOnly_newStep {written : StepDefinition} {make : Nat → Except PlanError Step}
    (makes : written.NamesOutputs → ∀ key, ∃ step, make key = .ok step)
    (blames : ¬ written.NamesOutputs → definition.Blames) :
    FailsOnly definition.Explains (Building.newStep make) := by
  apply FailsOnly.newStep
  intro key error failed
  have refused : ¬ written.NamesOutputs := by
    intro names
    rcases makes names key with ⟨step, made⟩
    cases failed.symm.trans made
  apply blames refused
  rintro ⟨_, same⟩
  cases same

section Asked

variable {position : Position} {written : StepDefinition}
  (found : definition.step? position = some written)

include found

theorem failsOnly_newItemAt (needed : definition.Needs (.item position))
    (asked : ∀ other, definition.Requires (.item position) other →
      definition.FailsUnder underway other) :
    FailsOnly definition.Explains (definition.newItemAt underway position written) := by
  have blames : ¬ definition.AcceptsItem position written → definition.Blames := by
    intro refused
    apply blames_of_refused needed
    rintro ⟨other, isOther, accepted⟩
    cases found.symm.trans isOther
    exact refused accepted
  have start : FailsOnly definition.Explains (definition.startAt underway position written) := by
    rw [startAt]
    cases reusable : written.reusable with
    | none => exact FailsOnly.map (asked _ (.own found reusable)) Item.ofStep
    | some name =>
        have requires : definition.Requires (.item position) (.item (.library name)) :=
          .placed found reusable
        apply FailsOnly.ofDefinition_bind
        case each =>
          exact fun error =>
            explains_resolveReusable (blames_of_absent (.inl rfl) (needed.tail requires))
        case second =>
          intro target resolved
          rw [eq_of_resolveReusable resolved]
          exact asked _ requires
  rw [newItemAt_eq]
  apply start.bind
  intro first
  apply FailsOnly.bind
  case first =>
    apply failsOnly_textAt
    case blames =>
      exact fun text isText unreadable => blames fun accepted => unreadable (accepted.text text isText)
    case steps => exact fun text isText target asks => asked _ (.stated found isText asks)
  intro condition
  apply FailsOnly.bind
  case first =>
    apply FailsOnly.mapM
    intro name named
    apply failsOnly_dependencyAt
    case blames => exact fun absent => blames fun accepted => absent (accepted.dependsOn name named)
    case asked => exact fun target isTarget => asked _ (.dependency found named isTarget)
  intro dependencies
  apply FailsOnly.bind
  case first =>
    apply FailsOnly.mapM
    intro name named
    apply failsOnly_predecessorAt
    case blames => exact fun absent => blames fun accepted => absent (accepted.after name named)
    case steps => exact fun target isTarget => asked _ (.after found named isTarget)
  exact fun predecessors => .pure _

theorem failsOnly_newStepAt (needed : definition.Needs (.step position))
    (asked : ∀ other, definition.Requires (.step position) other →
      definition.FailsUnder underway other) :
    FailsOnly definition.Explains (definition.newStepAt underway position written) := by
  have blames : ¬ definition.AcceptsStep position written → definition.Blames := by
    intro refused
    apply blames_of_refused needed
    rintro ⟨other, isOther, accepted⟩
    cases found.symm.trans isOther
    exact refused accepted
  rw [newStepAt_eq]
  split
  · rename_i name reusable
    have requires : definition.Requires (.step position) (.step (.library name)) :=
      .shared found reusable
    apply FailsOnly.ofDefinition_bind
    case each =>
      exact fun error =>
        explains_resolveReusable (blames_of_absent (.inr rfl) (needed.tail requires))
    case second =>
      intro target resolved
      rw [eq_of_resolveReusable resolved]
      exact asked _ requires
  · rename_i children isRoot isGroup
    apply FailsOnly.bind
    case first =>
      apply FailsOnly.mapM
      intro index mem
      exact asked _ (.child found isRoot isGroup (List.mem_range.mp mem))
    intro items
    exact failsOnly_newStep (fun names key => exists_ofGroup names key written.name items)
      fun unnamed => blames fun accepted => unnamed (accepted.outputs isRoot)
  · rename_i isRoot isAction
    apply FailsOnly.bind
    case first =>
      apply failsOnly_textAt
      case blames =>
        exact fun text isText unreadable =>
          blames fun accepted => unreadable (accepted.text isRoot isAction text isText)
      case steps =>
        exact fun text isText target asks => asked _ (.ownStated found isRoot isAction isText asks)
    intro own
    apply FailsOnly.bind
    case first =>
      apply FailsOnly.mapM
      intro reference refers
      apply FailsOnly.ofDefinition_bind
      case each =>
        exact fun error => explains_resolveCrossJob fun absent =>
          blames fun accepted => absent (accepted.consumes isRoot isAction reference refers)
      case second =>
        exact fun target resolved => asked _ (.consumed found isRoot isAction refers resolved)
    intro consumed
    exact failsOnly_newStep (fun names key => exists_ofAction names key _ consumed)
      fun unnamed => blames fun accepted => unnamed (accepted.outputs isRoot)

end Asked

/-! ## All tasks -/

/-- What is underway leads to the task, so coming back to any of it is a circle. -/
theorem failsUnder_of_leadsTo {task : Task} (leads : underway.LeadsTo definition task) :
    definition.FailsUnder underway task := by
  -- The induction is on how many positions are free to be taken up.
  induction free : definition.freeAll underway using Nat.strong_induction_on
    generalizing underway task with
  | _ count induction =>
      subst free
      cases task with
      | item position =>
          rw [FailsUnder, itemAt]
          split
          · rename_i taken
            exact .throw (explains_circle (.inl rfl) taken leads.items leads.itemsLinked)
          · rename_i isFree
            split
            · rename_i absent
              apply FailsOnly.throw
              exact (blames_of_absent (.inl rfl) leads.needed (by simp [absent])).explains (by simp)
            · rename_i written found
              have fewer := definition.free_cons_lt found isFree
              apply failsOnly_newItemAt found leads.needed
              intro other requires
              exact induction _ (by simp only [freeAll]; omega) (leads.below_item requires) rfl
      | step position =>
          rw [FailsUnder, stepAt]
          apply FailsOnly.shared
          split
          · rename_i taken
            exact .throw (explains_circle (.inr rfl) taken leads.steps leads.stepsLinked)
          · rename_i isFree
            split
            · rename_i absent
              apply FailsOnly.throw
              exact (blames_of_absent (.inr rfl) leads.needed (by simp [absent])).explains (by simp)
            · rename_i written found
              have fewer := definition.free_cons_lt found isFree
              apply failsOnly_newStepAt found leads.needed
              intro other requires
              exact induction _ (by simp only [freeAll]; omega) (leads.below_step requires) rfl

/-! ## Jobs -/

theorem failsOnly_jobAt {index : Nat} {entry : String × JobDefinition}
    (isEntry : definition.jobs[index]? = some entry) :
    FailsOnly definition.Explains (definition.jobAt index entry.1 entry.2) := by
  have blames : ¬ definition.AcceptsJob entry.2 → definition.Blames :=
    fun refused _ plain => .job plain (List.mem_of_getElem? isEntry) refused
  have fails : ∀ task, definition.JobRequires index entry.2 task → definition.FailsUnder {} task :=
    fun task requires => failsUnder_of_leadsTo (.nothing ⟨index, entry, task, isEntry, requires, .refl⟩)
  rw [jobAt]
  apply FailsOnly.bind
  case first =>
    rw [jobCondition]
    cases isText : entry.2.condition with
    | none => exact .pure none
    | some text =>
        apply FailsOnly.map
        apply failsOnly_parse
        exact fun unreadable => blames fun accepted => unreadable (accepted.condition text isText)
  intro condition
  apply FailsOnly.bind
  case first =>
    apply FailsOnly.foldlM
    intro need mem job
    split
    · exact .pure _
    · rename_i unknown
      apply FailsOnly.throw
      refine Blames.explains ?_ (by simp)
      exact blames fun accepted => unknown (accepted.needs need mem)
  intro needing
  apply FailsOnly.bind
  case first =>
    apply FailsOnly.mapM
    exact fun place mem => fails _ (.place (List.mem_range.mp mem))
  intro items
  apply FailsOnly.bind
  case first =>
    apply FailsOnly.mapM
    intro output mem
    apply (failsOnly_scopeAt fun target asks => fails _ (.output mem asks)).bind
    intro scope
    refine FailsOnly.bind ?_ fun value => .pure (output.1, value)
    apply FailsOnly.ofExpression
    intro error failed
    have refused : ¬ HasValue output.2 := by
      intro hasValue
      rcases hasValue scope with ⟨value, parsed⟩
      cases failed.symm.trans parsed
    refine Blames.explains ?_ (by simp)
    exact blames fun accepted => refused (accepted.outputs output mem)
  exact fun outputs => .pure _

/-- Nothing goes wrong without a cause. -/
theorem explains_of_build {error : BuildError} (failed : definition.build.1 = .error error) :
    definition.Explains error := by
  have fails : FailsOnly definition.Explains definition.construct := by
    rw [construct]
    refine FailsOnly.bind ?_ fun jobs => .pure _
    apply FailsOnly.mapM
    rintro ⟨entry, index⟩ mem
    exact failsOnly_jobAt (List.mem_zipIdx_iff_getElem?.mp mem)
  exact fails {} error failed

end WorkflowDefinition

end FlowPlan

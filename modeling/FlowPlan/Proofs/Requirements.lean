import FlowPlan.Proofs.ChronicledJobs

/-! # What building requires

To place what stands at a position and to make its step are two tasks. Each of
them is accepted or not by what is written there, and asks for other tasks. It
is grounded if nothing below it is refused and no way down from it is endless,
so no way from it comes back to it. All that a chronicle tells of is grounded.
-/

namespace FlowPlan

/-- To place an item at a position, or to make the step of a position. -/
inductive Task where
  | item (position : Position)
  | step (position : Position)
deriving DecidableEq

/-- A library step is depended on as an item, any other one as a step. -/
def Task.dependency (target : Position) : Task :=
  if target.isLibraryRoot then .item target else .step target

/-- Whether a text can be read does not depend on the steps that it reads. -/
theorem Condition.exists_parse {σ : Type} [Keyed σ] {scope : StepScope σ} {text : Text}
    {condition : Condition σ} (parsed : parse scope text = .ok condition) (other : StepScope σ) :
    ∃ another, parse other text = .ok another := by
  rw [parse] at parsed ⊢
  split at parsed
  · cases parsed
  · rename_i some
    rw [if_neg some]
    cases fault : Nesting.top.fault? (Text.expressionBody text) with
    | some => rw [fault] at parsed; cases parsed
    | none => exact ⟨_, rfl⟩

theorem Value.exists_parse {σ : Type} [Keyed σ] {scope : StepScope σ} {text : Text} {value : Value σ}
    (parsed : parse scope text = .ok value) (other : StepScope σ) :
    ∃ another, parse other text = .ok another := by
  rw [parse] at parsed ⊢
  split at parsed
  · cases parsed
  · rename_i some
    exact ⟨_, if_neg some⟩

/-- The text can be read as a condition, whatever steps it may read. -/
def Readable (text : String) : Prop :=
  ∀ scope : StepScope Step, ∃ condition, Condition.parse scope text.toList = .ok condition

/-- The text can be read as a value, whatever steps it may read. -/
def HasValue (text : String) : Prop :=
  ∀ scope : StepScope Step, ∃ value, Value.parse scope text.toList = .ok value

/-- Only a step with an id can have outputs. -/
def StepDefinition.NamesOutputs (written : StepDefinition) : Prop :=
  written.id = none → written.outputs = []

namespace WorkflowDefinition

/-- The text asks for the step at `target`, which is not the one at `current`. -/
def Asks (definition : WorkflowDefinition) (scope : Scope) (current : Option Position)
    (text : String) (target : Position) : Prop :=
  ∃ id ∈ Text.referencedSteps text.toList,
    definition.names.find? scope id = some target ∧ current ≠ some target

/-- The first task cannot be done without the second one. -/
inductive Requires (definition : WorkflowDefinition) : Task → Task → Prop
  | placed {position : Position} {written : StepDefinition} {name : String}
      (found : definition.step? position = some written) (reusable : written.reusable = some name) :
      definition.Requires (.item position) (.item (.library name))
  | own {position : Position} {written : StepDefinition}
      (found : definition.step? position = some written) (isRoot : written.reusable = none) :
      definition.Requires (.item position) (.step position)
  | stated {position target : Position} {written : StepDefinition} {text : String}
      (found : definition.step? position = some written)
      (isText : written.placeText? position = some text)
      (asks : definition.Asks position.scope (some position) text target) :
      definition.Requires (.item position) (.step target)
  | dependency {position target : Position} {written : StepDefinition} {name : String}
      (found : definition.step? position = some written) (named : name ∈ written.dependsOn.names)
      (isTarget : definition.names.find? position.scope name = some target) :
      definition.Requires (.item position) (.dependency target)
  | after {position target : Position} {written : StepDefinition} {name : String}
      (found : definition.step? position = some written) (named : name ∈ written.after.names)
      (isTarget : definition.names.find? position.scope name = some target) :
      definition.Requires (.item position) (.step target)
  | shared {position : Position} {written : StepDefinition} {name : String}
      (found : definition.step? position = some written) (reusable : written.reusable = some name) :
      definition.Requires (.step position) (.step (.library name))
  | child {position : Position} {written : StepDefinition} {children : List StepDefinition}
      {index : Nat} (found : definition.step? position = some written)
      (isRoot : written.reusable = none) (isGroup : written.children = some children)
      (isChild : index < children.length) :
      definition.Requires (.step position) (.item (position.child index))
  | ownStated {position target : Position} {written : StepDefinition} {text : String}
      (found : definition.step? position = some written) (isRoot : written.reusable = none)
      (isAction : written.children = none) (isText : written.ownText? position = some text)
      (asks : definition.Asks position.scope (some position) text target) :
      definition.Requires (.step position) (.step target)
  | consumed {position target : Position} {written : StepDefinition} {reference : String}
      (found : definition.step? position = some written) (isRoot : written.reusable = none)
      (isAction : written.children = none) (refers : reference ∈ written.consumes.names)
      (isTarget : definition.resolveCrossJob reference = .ok target) :
      definition.Requires (.step position) (.step target)

/-- What is written at the position can be read, and what it names is there. -/
structure AcceptsItem (definition : WorkflowDefinition) (position : Position)
    (written : StepDefinition) : Prop where
  text : ∀ text ∈ written.placeText? position, Readable text
  dependsOn : ∀ name ∈ written.dependsOn.names,
    ∃ target, definition.names.find? position.scope name = some target
  after : ∀ name ∈ written.after.names,
    ∃ target, definition.names.find? position.scope name = some target

/-- A step can be made from what is written at the position. -/
structure AcceptsStep (definition : WorkflowDefinition) (position : Position)
    (written : StepDefinition) : Prop where
  outputs : written.reusable = none → written.NamesOutputs
  text : written.reusable = none → written.children = none →
    ∀ text ∈ written.ownText? position, Readable text
  consumes : written.reusable = none → written.children = none →
    ∀ reference ∈ written.consumes.names,
      ∃ target, definition.resolveCrossJob reference = .ok target

/-- There is something written for the task, and nothing is wrong with it. -/
def Accepts (definition : WorkflowDefinition) : Task → Prop
  | .item position => ∃ written, definition.step? position = some written ∧
      definition.AcceptsItem position written
  | .step position => ∃ written, definition.step? position = some written ∧
      definition.AcceptsStep position written

/-- The task and all that it requires are accepted, and no way down from it is endless. -/
inductive Grounded (definition : WorkflowDefinition) : Task → Prop
  | intro {task : Task} (accepted : definition.Accepts task)
      (below : ∀ other, definition.Requires task other → definition.Grounded other) :
      definition.Grounded task

/-- A job places its steps, and its outputs ask for steps that they read. -/
inductive JobRequires (definition : WorkflowDefinition) (index : Nat) (job : JobDefinition) :
    Task → Prop
  | place {place : Nat} (inside : place < job.steps.length) :
      definition.JobRequires index job (.item (.job index place))
  | output {output : String × String} {target : Position} (mem : output ∈ job.outputs)
      (asks : definition.Asks (.job index) none output.2 target) :
      definition.JobRequires index job (.step target)

/-- What is written about the job as a whole can be read, and the jobs that it needs are there. -/
structure AcceptsJob (definition : WorkflowDefinition) (job : JobDefinition) : Prop where
  condition : ∀ text ∈ job.condition, Readable text
  needs : ∀ need ∈ job.needs.names, (definition.job? need).isSome = true
  outputs : ∀ output ∈ job.outputs, HasValue output.2

namespace Grounded

variable {definition : WorkflowDefinition} {task : Task}

theorem accepted (grounded : definition.Grounded task) : definition.Accepts task := by
  cases grounded with
  | intro accepted => exact accepted

/-- What is grounded does not require itself in a roundabout way. -/
theorem not_transGen (grounded : definition.Grounded task) :
    ¬ Relation.TransGen definition.Requires task task := by
  induction grounded with
  | intro _ _ induction =>
      intro circle
      rcases Relation.TransGen.head'_iff.mp circle with ⟨next, requires, back⟩
      exact induction next requires (Relation.TransGen.tail' back requires)

end Grounded

/-! ## Steps that are grounded -/

section Made

variable {definition : WorkflowDefinition} {position : Position} {written : StepDefinition}
  (found : definition.step? position = some written)

include found

theorem grounded_of_reference {name : String} (reusable : written.reusable = some name)
    (shared : definition.Grounded (.step (.library name))) : definition.Grounded (.step position) := by
  have noRoot : written.reusable ≠ none := fun isRoot => nomatch reusable.symm.trans isRoot
  constructor
  case accepted =>
    exact ⟨written, found, fun isRoot => absurd isRoot noRoot, fun isRoot => absurd isRoot noRoot,
      fun isRoot => absurd isRoot noRoot⟩
  case below =>
    intro task requires
    cases requires with
    | shared isWritten isReusable =>
        cases found.symm.trans isWritten
        cases reusable.symm.trans isReusable
        exact shared
    | child isWritten isRoot | ownStated isWritten isRoot | consumed isWritten isRoot =>
        cases found.symm.trans isWritten
        exact absurd isRoot noRoot

theorem grounded_of_group (isRoot : written.reusable = none) {children : List StepDefinition}
    (isGroup : written.children = some children) (names : written.NamesOutputs)
    (placed : ∀ index < children.length, definition.Grounded (.item (position.child index))) :
    definition.Grounded (.step position) := by
  have noAction : written.children ≠ none := fun isAction => nomatch isGroup.symm.trans isAction
  constructor
  case accepted =>
    exact ⟨written, found, fun _ => names, fun _ isAction => absurd isAction noAction,
      fun _ isAction => absurd isAction noAction⟩
  case below =>
    intro task requires
    cases requires with
    | shared isWritten reusable =>
        cases found.symm.trans isWritten
        cases isRoot.symm.trans reusable
    | child isWritten _ isSame isChild =>
        cases found.symm.trans isWritten
        cases isGroup.symm.trans isSame
        exact placed _ isChild
    | ownStated isWritten _ isAction | consumed isWritten _ isAction =>
        cases found.symm.trans isWritten
        exact absurd isAction noAction

theorem grounded_of_action (isRoot : written.reusable = none) (isAction : written.children = none)
    (names : written.NamesOutputs)
    (stated : ∀ text ∈ written.ownText? position, Readable text ∧ ∀ target,
      definition.Asks position.scope (some position) text target →
        definition.Grounded (.step target))
    (consumes : ∀ reference ∈ written.consumes.names,
      ∃ target, definition.resolveCrossJob reference = .ok target ∧
        definition.Grounded (.step target)) : definition.Grounded (.step position) := by
  constructor
  case accepted =>
    exact ⟨written, found, fun _ => names, fun _ _ text isText => (stated text isText).1,
      fun _ _ reference refers => (consumes reference refers).imp fun _ => And.left⟩
  case below =>
    intro task requires
    cases requires with
    | shared isWritten reusable =>
        cases found.symm.trans isWritten
        cases isRoot.symm.trans reusable
    | child isWritten _ isGroup =>
        cases found.symm.trans isWritten
        cases isAction.symm.trans isGroup
    | ownStated isWritten _ _ isText asks =>
        cases found.symm.trans isWritten
        exact (stated _ isText).2 _ asks
    | consumed isWritten _ _ refers isTarget =>
        cases found.symm.trans isWritten
        rcases consumes _ refers with ⟨target, resolved, grounded⟩
        cases isTarget.symm.trans resolved
        exact grounded

end Made

end WorkflowDefinition

/-! ## What a chronicle tells of -/

namespace StepTable

variable {definition : WorkflowDefinition} {table : StepTable}

/-- All steps of the table can be made. -/
def IsGrounded (table : StepTable) (definition : WorkflowDefinition) : Prop :=
  ∀ position step, (position, step) ∈ table → definition.Grounded (.step position)

theorem Supplies.grounded (all : table.IsGrounded definition) {scope : Scope}
    {current : Option Position} {id : String} {found : Option Step}
    (supplies : table.Supplies definition scope current id found) {target : Position}
    (isTarget : definition.names.find? scope id = some target) (other : current ≠ some target) :
    definition.Grounded (.step target) := by
  cases supplies with
  | unknown absent => cases isTarget.symm.trans absent
  | itself isOther same =>
      cases isTarget.symm.trans isOther
      exact absurd same other
  | step isOther _ mem =>
      cases isTarget.symm.trans isOther
      exact all _ _ mem

theorem IsScope.grounded (all : table.IsGrounded definition) {scope : Scope}
    {current : Option Position} {text : String} {known : StepScope Step}
    (isScope : table.IsScope definition scope current text known) {target : Position}
    (asks : definition.Asks scope current text target) : definition.Grounded (.step target) := by
  rcases asks with ⟨id, mem, isTarget, other⟩
  exact (isScope.inside id mem).grounded all isTarget other

/-- A condition that has been read could be read, and the steps that it asks for are there. -/
theorem grounded_of_reads (all : table.IsGrounded definition) {position : Position}
    {text : Option String} {condition : Option (Condition Step)}
    (stated : Option.Rel (table.Reads definition position) text condition) :
    ∀ written ∈ text, Readable written ∧ ∀ target,
      definition.Asks position.scope (some position) written target →
        definition.Grounded (.step target) := by
  intro written isText
  cases stated with
  | none => cases isText
  | some reads =>
      cases isText
      rcases reads with ⟨known, isScope, parsed⟩
      exact ⟨Condition.exists_parse parsed, fun _ asks => isScope.grounded all asks⟩

theorem IsItemAt.grounded (all : table.IsGrounded definition) {position : Position} {item : Item}
    (isItem : table.IsItemAt definition position item) : definition.Grounded (.item position) := by
  induction isItem with
  | @place position written start condition dependencies predecessors found _ own stated dependsOn
      _ other after referenceInduction libraryInduction =>
    have reads := grounded_of_reads all stated
    constructor
    case accepted =>
      refine ⟨written, found, fun text isText => (reads text isText).1, ?_, ?_⟩
      · intro name named
        rcases exists_of_mem_forall₂ dependsOn.flip named with ⟨entry, _, resolved⟩
        exact ⟨entry.1, WorkflowDefinition.find?_of_resolveName resolved⟩
      · intro name named
        rcases exists_of_mem_forall₂ after.flip named with ⟨entry, _, resolved, _⟩
        exact ⟨entry.1, WorkflowDefinition.find?_of_resolveName resolved⟩
    case below =>
      intro task requires
      cases requires with
      | placed isWritten reusable =>
          cases found.symm.trans isWritten
          exact referenceInduction _ reusable
      | own isWritten isRoot =>
          cases found.symm.trans isWritten
          rcases own isRoot with ⟨step, mem, _⟩
          exact all _ _ mem
      | stated isWritten isText asks =>
          cases found.symm.trans isWritten
          exact (reads _ isText).2 _ asks
      | dependency isWritten named isTarget =>
          cases found.symm.trans isWritten
          rcases exists_of_mem_forall₂ dependsOn.flip named with ⟨entry, entryMem, resolved⟩
          cases isTarget.symm.trans (WorkflowDefinition.find?_of_resolveName resolved)
          rw [Task.dependency]
          cases isLibrary : entry.1.isLibraryRoot with
          | true => exact libraryInduction entry entryMem isLibrary
          | false =>
              rcases other entry entryMem isLibrary with ⟨step, mem, _⟩
              exact all _ _ mem
      | after isWritten named isTarget =>
          cases found.symm.trans isWritten
          rcases exists_of_mem_forall₂ after.flip named with ⟨entry, _, resolved, mem⟩
          cases isTarget.symm.trans (WorkflowDefinition.find?_of_resolveName resolved)
          exact all _ _ mem

theorem namesOutputs_of_ofGroup {written : StepDefinition} {key : Nat} {name : Option String}
    {items : List Item} {step : Step}
    (made : Step.ofGroup key written.id written.outputs name items = .ok step) :
    written.NamesOutputs := by
  intro isNone
  rw [Step.ofGroup, isNone] at made
  cases listed : written.outputs with
  | nil => rfl
  | cons => rw [listed] at made; cases made

theorem namesOutputs_of_ofAction {written : StepDefinition} {key : Nat} {content : Action Step}
    {consumed : List Step} {step : Step}
    (made : Step.ofAction key written.id written.outputs content consumed = .ok step) :
    written.NamesOutputs := by
  intro isNone
  rw [Step.ofAction, isNone] at made
  cases listed : written.outputs with
  | nil => rfl
  | cons => rw [listed] at made; cases made

theorem IsMadeFor.grounded (all : table.IsGrounded definition) {position : Position}
    {written : StepDefinition} (found : definition.step? position = some written) {step : Step}
    (made : table.IsMadeFor definition position written step) :
    definition.Grounded (.step position) := by
  cases made with
  | reference reusable mem =>
      exact WorkflowDefinition.grounded_of_reference found reusable (all _ _ mem)
  | group isRoot isGroup placed made =>
      apply WorkflowDefinition.grounded_of_group found isRoot isGroup (namesOutputs_of_ofGroup made)
      intro index isChild
      rcases exists_of_mem_forall₂ placed.flip (List.mem_range.mpr isChild) with ⟨item, _, isItem⟩
      exact isItem.grounded all
  | action isRoot isAction stated consumes made =>
      apply WorkflowDefinition.grounded_of_action found isRoot isAction
        (namesOutputs_of_ofAction made) (grounded_of_reads all stated)
      intro reference refers
      rcases exists_of_mem_forall₂ consumes.flip refers with ⟨entry, _, resolved, mem⟩
      exact ⟨entry.1, resolved, all _ _ mem⟩

/-- Each step was made from steps before it, so the first ones require nothing. -/
theorem IsChronicle.isGrounded (chronicle : IsChronicle definition table) :
    table.IsGrounded definition := by
  induction chronicle with
  | nil => exact fun _ _ mem => nomatch mem
  | cons _ _ found made induction =>
      intro position step mem
      rcases List.mem_cons.mp mem with same | earlier
      · cases same
        exact made.grounded induction found
      · exact induction position step earlier

theorem IsJobAt.grounded (all : table.IsGrounded definition) {index : Nat}
    {written : String × JobDefinition} {job : Job}
    (isJob : table.IsJobAt definition index written job) {task : Task}
    (requires : definition.JobRequires index written.2 task) : definition.Grounded task := by
  cases requires with
  | place inside =>
      rcases exists_of_mem_forall₂ isJob.items.flip (List.mem_range.mpr inside) with
        ⟨item, _, isItem⟩
      exact isItem.grounded all
  | @output output target mem asks =>
      rcases isJob.outputs output mem with ⟨known, isScope, _⟩
      exact isScope.grounded all asks

end StepTable

end FlowPlan

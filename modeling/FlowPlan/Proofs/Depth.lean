import FlowPlan.Proofs.Stages
import Mathlib.Logic.Function.Iterate

/-! # How deep building goes

To make a step or to place an item, other steps and items are asked for, with
one more position underway. Taken apart at these questions, the building of
steps and items is a layer that is put on top of itself again and again. No
position is taken up twice, once as an item and once as a step aside, so the
questions go no deeper than that. What stands below is never asked.
-/

namespace FlowPlan

/-- Gives the step of a position, and the item that is placed there. -/
structure Builder where
  stepAt : Position → Building Step
  itemAt : Position → Building Item

namespace Builder

variable (builder : Builder) (definition : WorkflowDefinition)

/-! ## One layer -/

def readAt (scope : Scope) (current : Option Position) (text id : String) :
    Building (Option (String × Step)) :=
  match definition.names.find? scope id with
  | some target =>
    if current = some target then pure none
    else (builder.stepAt target).map fun step => some (id, step)
  | none => do
    Building.warn (.unknownStep text id)
    return none

def scopeAt (scope : Scope) (current : Option Position) (text : String) :
    Building (StepScope Step) := do
  let known ← (Text.referencedSteps text.toList).mapM (builder.readAt definition scope current text)
  return fun read => (known.filterMap id).lookup read

def textAt (position : Position) (text : Option String) : Building (Option (Condition Step)) :=
  match text with
  | some text => Functor.map some do
    let scope ← builder.scopeAt definition position.scope (some position) text
    .ofExpression (Condition.parse scope text.toList)
  | none => pure none

def startAt (position : Position) (written : StepDefinition) : Building Item :=
  match written.reusable with
  | some name => do builder.itemAt (← .ofDefinition (definition.resolveReusable name))
  | none => (builder.stepAt position).map Item.ofStep

def dependencyAt (scope : Scope) (name : String) : Building Item := do
  let target ← .ofDefinition (definition.resolveName scope name)
  if target.isLibraryRoot then builder.itemAt target
  else (builder.stepAt target).map Item.ofStep

def predecessorAt (scope : Scope) (name : String) : Building Item := do
  let target ← .ofDefinition (definition.resolveName scope name)
  (builder.stepAt target).map Item.ofStep

def consumedAt (reference : String) : Building Step := do
  builder.stepAt (← .ofDefinition (definition.resolveCrossJob reference))

def newItemAt (position : Position) (written : StepDefinition) : Building Item := do
  let start ← builder.startAt definition position written
  let condition ← builder.textAt definition position (written.placeText? position)
  let dependencies ← written.dependsOn.names.mapM (builder.dependencyAt definition position.scope)
  let predecessors ← written.after.names.mapM (builder.predecessorAt definition position.scope)
  return start.furnished condition dependencies predecessors

def newStepAt (position : Position) (written : StepDefinition) : Building Step :=
  match written.reusable, written.children with
  | some name, _ => do builder.stepAt (← .ofDefinition (definition.resolveReusable name))
  | none, some children => do
    let items ← (List.range children.length).mapM fun index => builder.itemAt (position.child index)
    .newStep fun key => Step.ofGroup key written.id written.outputs written.name items
  | none, none => do
    let own ← builder.textAt definition position (written.ownText? position)
    let consumed ← written.consumes.names.mapM (builder.consumedAt definition)
    .newStep fun key =>
      Step.ofAction key written.id written.outputs (written.action own) consumed

/-- A job and the whole workflow are made on top of the last layer. -/
def jobAt (index : Nat) (id : String) (written : JobDefinition) : Building Job := do
  let settings := WorkflowDefinition.jobSettings written (← WorkflowDefinition.jobCondition written)
  let needing ← written.needs.names.foldlM (fun (job : Job) need =>
    if (definition.job? need).isSome then pure (job.addNeed need)
    else throw (.definition (.unknownJob need))) { id, settings }
  let items ← (List.range written.steps.length).mapM fun place =>
    builder.itemAt (.job index place)
  let outputs ← written.outputs.mapM fun (name, text) => do
    let scope ← builder.scopeAt definition (.job index) none text
    return (name, ← .ofExpression (Value.parse scope text.toList))
  let placed := items.foldl Job.addItem needing
  return outputs.foldl (fun job (name, value) => job.addOutput name value) placed

def construct : Building Workflow := do
  let jobs ← definition.jobs.zipIdx.mapM fun ((id, job), index) =>
    builder.jobAt definition index id job
  return { settings := definition.workflowSettings, jobs }

/-- The layer on top of builders, which are asked with one more position underway. -/
def above (below : Underway → Builder) (underway : Underway) : Builder where
  stepAt position :=
    Building.shared position <|
      if position ∈ underway.steps then throw (definition.circle underway.steps position)
      else match definition.step? position with
        | none => throw (.definition (.unknownStep position.text))
        | some written =>
          (below { underway with steps := position :: underway.steps }).newStepAt definition
            position written
  itemAt position :=
    if position ∈ underway.items then throw (definition.circle underway.items position)
    else match definition.step? position with
      | none => throw (.definition (.unknownStep position.text))
      | some written =>
        (below { underway with items := position :: underway.items }).newItemAt definition
          position written

end Builder

namespace WorkflowDefinition

/-- The builder of the definition while the positions are underway. -/
def builder (definition : WorkflowDefinition) (underway : Underway) : Builder where
  stepAt := definition.stepAt underway
  itemAt := definition.itemAt underway

variable {definition : WorkflowDefinition} {underway : Underway}

theorem scopeAt_builder (scope : Scope) (current : Option Position) (text : String) :
    (definition.builder underway).scopeAt definition scope current text =
      definition.scopeAt underway scope current text := by
  rw [scopeAt_eq]
  rfl

theorem textAt_builder (position : Position) (text : Option String) :
    (definition.builder underway).textAt definition position text =
      definition.textAt underway position text := by
  cases text with
  | none => rfl
  | some text =>
      rw [textAt, conditionAt, ← scopeAt_builder]
      rfl

theorem dependencyAt_builder (scope : Scope) :
    (definition.builder underway).dependencyAt definition scope =
      definition.dependencyAt underway scope := by
  funext name
  rw [dependencyAt]
  rfl

theorem newItemAt_builder (position : Position) (written : StepDefinition) :
    (definition.builder underway).newItemAt definition position written =
      definition.newItemAt underway position written := by
  rw [newItemAt_eq, Builder.newItemAt, textAt_builder, dependencyAt_builder]
  rfl

theorem newStepAt_builder (position : Position) (written : StepDefinition) :
    (definition.builder underway).newStepAt definition position written =
      definition.newStepAt underway position written := by
  rw [newStepAt_eq, Builder.newStepAt, textAt_builder]
  rfl

theorem construct_builder :
    (definition.builder {}).construct definition = definition.construct := by
  have jobs : (definition.builder {}).jobAt definition = definition.jobAt := by
    funext index id written
    simp only [Builder.jobAt, scopeAt_builder]
    rfl
  rw [Builder.construct, jobs]
  rfl

/-! ## Many layers -/

/-- A layer is the builder if the builders below it are, as far as they are asked. -/
theorem above_eq_builder {below : Underway → Builder}
    (same : ∀ deeper, definition.freeAll deeper < definition.freeAll underway →
      below deeper = definition.builder deeper) :
    Builder.above definition below underway = definition.builder underway := by
  rw [Builder.above, builder, Builder.mk.injEq]
  constructor
  case left =>
    funext position
    rw [stepAt]
    by_cases taken : position ∈ underway.steps
    · rw [if_pos taken, dif_pos taken]
    · rw [if_neg taken, dif_neg taken]
      congr 1
      split
      · rename_i absent
        split
        · rfl
        · rename_i found
          cases absent.symm.trans found
      · rename_i written found
        have deeper := same { underway with steps := position :: underway.steps }
          (Nat.add_lt_add_right (definition.free_cons_lt found taken) _)
        split
        · rename_i absent
          cases absent.symm.trans found
        · rename_i other isOther
          cases found.symm.trans isOther
          rw [deeper, newStepAt_builder]
  case right =>
    funext position
    rw [itemAt]
    by_cases taken : position ∈ underway.items
    · rw [if_pos taken, dif_pos taken]
    · rw [if_neg taken, dif_neg taken]
      split
      · rename_i absent
        split
        · rfl
        · rename_i found
          cases absent.symm.trans found
      · rename_i written found
        have deeper := same { underway with items := position :: underway.items }
          (Nat.add_lt_add_left (definition.free_cons_lt found taken) _)
        split
        · rename_i absent
          cases absent.symm.trans found
        · rename_i other isOther
          cases found.symm.trans isOther
          rw [deeper, newItemAt_builder]

/-- As many layers as positions can be taken up are the builder, whatever stands below them. -/
theorem iterate_above_eq_builder (below : Underway → Builder) {count : Nat}
    (enough : definition.freeAll underway < count) :
    (Builder.above definition)^[count] below underway = definition.builder underway := by
  induction count generalizing underway with
  | zero => cases enough
  | succ count induction =>
      rw [Function.iterate_succ_apply']
      exact above_eq_builder fun deeper fewer => induction (by omega)

/-- At the start every position is free, for its step and for its item. -/
theorem freeAll_nothing : definition.freeAll {} = 2 * definition.withPositions.length := by
  have allFree : definition.free [] = definition.withPositions.length := by
    rw [free, List.filter_eq_self.mpr fun position _ => by simp, List.length_map]
  rw [freeAll, allFree, Nat.two_mul]

/-- Two layers for each position are enough to build the workflow. -/
theorem construct_iterate_above (below : Underway → Builder) {count : Nat}
    (enough : 2 * definition.withPositions.length < count) :
    ((Builder.above definition)^[count] below {}).construct definition = definition.construct := by
  rw [iterate_above_eq_builder below (freeAll_nothing ▸ enough), construct_builder]

end WorkflowDefinition

end FlowPlan

import FlowPlan.Definition.Build

/-! # The stages of building

What the builder does for one position falls into stages that come one after
another: what stands there, what is stated of it, what it depends on and what
it comes after. Each stage asks for other steps and items and puts them together
in the end.
-/

namespace FlowPlan

namespace StepDefinition

/-- The condition that is written here for the action, wherever that is placed. -/
def ownText? (written : StepDefinition) (position : Position) : Option String :=
  if written.ownsCondition position then written.condition else none

/-- The condition that is written here for this place alone. -/
def placeText? (written : StepDefinition) (position : Position) : Option String :=
  if written.ownsCondition position then none else written.condition

end StepDefinition

namespace Item

/-- The item with what is written about one of its places. -/
def furnished (item : Item) (condition : Option (Condition Step))
    (dependencies predecessors : List Item) : Item :=
  .place item.step (condition.elim item item.when).condition (item.dependencies ++ dependencies)
    (item.predecessors ++ predecessors)

theorem foldl_dependsOn (item : Item) (dependencies : List Item) :
    dependencies.foldl dependsOn item =
      .place item.step item.condition (item.dependencies ++ dependencies) item.predecessors := by
  induction dependencies generalizing item with
  | nil =>
      rw [List.append_nil]
      cases item
      rfl
  | cons head tail induction =>
      rw [List.foldl_cons, induction, dependsOn, dependencies, List.append_assoc]
      rfl

theorem foldl_comesAfter (item : Item) (predecessors : List Item) :
    predecessors.foldl comesAfter item =
      .place item.step item.condition item.dependencies (item.predecessors ++ predecessors) := by
  induction predecessors generalizing item with
  | nil =>
      rw [List.append_nil]
      cases item
      rfl
  | cons head tail induction =>
      rw [List.foldl_cons, induction, comesAfter, predecessors, List.append_assoc]
      rfl

theorem furnished_eq (item : Item) (condition : Option (Condition Step))
    (dependencies predecessors : List Item) :
    item.furnished condition dependencies predecessors =
      predecessors.foldl comesAfter
        (dependencies.foldl dependsOn (condition.elim item item.when)) := by
  rw [foldl_dependsOn, foldl_comesAfter, furnished]
  cases condition <;> rfl

end Item

/-- Going through the members with a sum is putting together what is made of each. -/
theorem foldlM_eq_mapM {monad : Type → Type} [Monad monad] [LawfulMonad monad] {α β γ : Type}
    (work : α → monad β) (combine : γ → β → γ) (members : List α) (initial : γ) :
    members.foldlM (fun sum member => combine sum <$> work member) initial =
      members.mapM work >>= fun results => pure (results.foldl combine initial) := by
  induction members generalizing initial with
  | nil => simp
  | cons head tail induction => simp [induction]

namespace WorkflowDefinition

variable (definition : WorkflowDefinition) (underway : Underway)

/-! ## What a position asks for -/

/-- What stands at the position, before anything is said about it. -/
def startAt (position : Position) (written : StepDefinition) : Building Item :=
  match written.reusable with
  | some name => do
    definition.itemAt underway (← .ofDefinition (definition.resolveReusable name))
  | none => (definition.stepAt underway position).map Item.ofStep

/-- The condition that is written at the position, if one is. -/
def textAt (position : Position) (text : Option String) : Building (Option (Condition Step)) :=
  match text with
  | some text => (definition.conditionAt underway position text).map some
  | none => pure none

/-- A step that is only waited for. -/
def predecessorAt (scope : Scope) (name : String) : Building Item := do
  let target ← .ofDefinition (definition.resolveName scope name)
  (definition.stepAt underway target).map Item.ofStep

/-- A step of another job whose artifacts are used. -/
def consumedAt (reference : String) : Building Step := do
  definition.stepAt underway (← .ofDefinition (definition.resolveCrossJob reference))

/-- The step that is read under an id, if the id is known and not that of the step at `current`. -/
def readAt (scope : Scope) (current : Option Position) (text id : String) :
    Building (Option (String × Step)) :=
  match definition.names.find? scope id with
  | some target =>
    if current = some target then pure none
    else (definition.stepAt underway target).map fun step => some (id, step)
  | none => do
    Building.warn (.unknownStep text id)
    return none

/-! ## The stages -/

theorem scopeAt_eq (scope : Scope) (current : Option Position) (text : String) :
    definition.scopeAt underway scope current text = do
      let known ← (Text.referencedSteps text.toList).mapM
        (definition.readAt underway scope current text)
      return fun read => (known.filterMap id).lookup read := by
  rw [scopeAt]
  rfl

theorem map_eq {α β : Type} (f : α → β) (work : Building α) : work.map f = f <$> work := rfl

theorem newItemAt_eq (position : Position) (written : StepDefinition) :
    definition.newItemAt underway position written = do
      let start ← definition.startAt underway position written
      let condition ← definition.textAt underway position (written.placeText? position)
      let dependencies ← written.dependsOn.names.mapM
        (definition.dependencyAt underway position.scope)
      let predecessors ← written.after.names.mapM
        (definition.predecessorAt underway position.scope)
      return start.furnished condition dependencies predecessors := by
  have dependent : (fun (item : Item) name => do
      return item.dependsOn (← definition.dependencyAt underway position.scope name)) =
        fun item name => item.dependsOn <$> definition.dependencyAt underway position.scope name := by
    funext item name
    rw [bind_pure_comp]
  have after : (fun (item : Item) name => do
      let target ← Building.ofDefinition (definition.resolveName position.scope name)
      return item.comesAfter (.ofStep (← definition.stepAt underway target))) =
        fun item name => item.comesAfter <$> definition.predecessorAt underway position.scope name := by
    funext item name
    simp [predecessorAt, map_eq]
  rw [newItemAt]
  simp only [dependent, after, foldlM_eq_mapM, Item.furnished_eq, startAt, textAt,
    StepDefinition.placeText?]
  cases written.reusable <;> cases written.condition <;> cases written.ownsCondition position <;>
    simp [map_eq]

/-- A reference shares the step of the library, and any other step is made from what is written. -/
theorem newStepAt_eq (position : Position) (written : StepDefinition) :
    definition.newStepAt underway position written =
      (match written.reusable, written.children with
      | some name, _ => do
        definition.stepAt underway (← .ofDefinition (definition.resolveReusable name))
      | none, some children => do
        let items ← (List.range children.length).mapM fun index =>
          definition.itemAt underway (position.child index)
        .newStep fun key => Step.ofGroup key written.id written.outputs written.name items
      | none, none => do
        let own ← definition.textAt underway position (written.ownText? position)
        let consumed ← written.consumes.names.mapM (definition.consumedAt underway)
        .newStep fun key =>
          Step.ofAction key written.id written.outputs (written.action own) consumed) := by
  rw [newStepAt]
  cases written.reusable with
  | some name => rfl
  | none =>
      cases written.children with
      | some children => rfl
      | none =>
          have consuming : definition.consumedAt underway = fun reference =>
              .ofDefinition (definition.resolveCrossJob reference) >>= definition.stepAt underway :=
            rfl
          simp only [textAt, StepDefinition.ownText?, consuming]
          cases written.condition <;> cases written.ownsCondition position <;> simp [map_eq]

end WorkflowDefinition

end FlowPlan

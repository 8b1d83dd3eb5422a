import FlowPlan.Proofs.CoveredSteps
import FlowPlan.Proofs.Ensures

/-! # Building covered steps

What is built from a definition is covered, because a condition enters it only
by being read from a text whose references have been followed to covered steps.
Each function is taken on its own: given that the steps and items it asks for
are covered, so is what it makes. The way down through the definition ends
because each position is taken up once.
-/

namespace FlowPlan

/-- All steps that have been made are covered. -/
def Construction.IsCovered (construction : Construction) : Prop :=
  ∀ entry ∈ construction.built, entry.2.IsCovered

namespace Building

/-- Keeps all made steps covered and returns something with the property. -/
abbrev EnsuresCovered {α : Type} (work : Building α) (property : α → Prop) : Prop :=
  Ensures Construction.IsCovered work property

theorem ensuresCovered_warn (warning : Warning) : EnsuresCovered (warn warning) fun _ => True :=
  .modify fun _ covered => covered

theorem ensuresCovered_newStep (make : Nat → Except PlanError Step) :
    EnsuresCovered (newStep make) fun step => ∃ key, make key = .ok step := by
  refine Ensures.get.bind fun state _ => ?_
  cases made : make state.nextKey with
  | error error => exact .throw _
  | ok step =>
      have renumbered : EnsuresCovered (modify fun state : Construction =>
          { state with nextKey := state.nextKey + 1 }) fun _ => True :=
        .modify fun _ covered => covered
      exact renumbered.bind fun _ _ => .pure ⟨state.nextKey, made⟩

theorem ensuresCovered_shared (position : Position) {make : Building Step}
    (makes : EnsuresCovered make Step.IsCovered) :
    EnsuresCovered (shared position make) Step.IsCovered := by
  refine Ensures.get.bind fun state covered => ?_
  cases found : state.built.lookup position with
  | some step =>
      rcases List.lookup_eq_some_iff.mp found with ⟨before, behind, whole, _⟩
      have mem : (position, step) ∈ state.built :=
        whole ▸ List.mem_append_right before List.mem_cons_self
      exact .pure (covered _ mem)
  | none =>
      refine makes.bind fun step stepCovered => ?_
      have entered : EnsuresCovered (modify fun state : Construction =>
          { state with built := (position, step) :: state.built }) fun _ => True :=
        .modify fun state covered => List.forall_mem_cons.mpr ⟨stepCovered, covered⟩
      exact entered.bind fun _ _ => .pure stepCovered

end Building

open Building (Ensures EnsuresCovered)

/-! ## Covered parts put together -/

namespace Item.IsCovered

variable {item : Item} (covered : item.IsCovered)

include covered

theorem when {condition : Condition Step} (throughout : condition.IsCoveredThroughout) :
    (item.when condition).IsCovered := by
  have whole : ∀ stated ∈ (item.when condition).condition, stated.IsCoveredThroughout := by
    intro stated found
    rw [Item.when] at found
    cases existing : item.condition with
    | none =>
        rw [existing] at found
        exact Option.some.inj found ▸ throughout
    | some first =>
        rw [existing] at found
        have joined := Condition.closed_isCoveredThroughout.conj
          (covered.condition first existing) throughout
        exact Option.some.inj found ▸ joined
  exact .place covered.step (fun stated found => (whole stated found).1)
    (fun stated found leaf leafMem step reads =>
      (whole stated found).2 leaf leafMem _ reads step rfl)
    covered.dependencies

theorem dependsOn {dependency : Item} (dependencyCovered : dependency.IsCovered) :
    (item.dependsOn dependency).IsCovered := by
  refine .place covered.step (fun stated found => (covered.condition stated found).1)
    (fun stated found leaf leafMem step reads =>
      (covered.condition stated found).2 leaf leafMem _ reads step rfl) ?_
  intro found mem
  rcases List.mem_append.mp mem with before | isNew
  · exact covered.dependencies found before
  · exact List.mem_singleton.mp isNew ▸ dependencyCovered

theorem comesAfter (predecessor : Item) : (item.comesAfter predecessor).IsCovered :=
  .place covered.step (fun stated found => (covered.condition stated found).1)
    (fun stated found leaf leafMem step reads =>
      (covered.condition stated found).2 leaf leafMem _ reads step rfl) covered.dependencies

end Item.IsCovered

theorem Step.isCovered_of_ofGroup {key : Nat} {id name : Option String} {outputs : List String}
    {children : List Item} {step : Step} (made : ofGroup key id outputs name children = .ok step)
    (covered : ∀ child ∈ children, child.IsCovered) : step.IsCovered := by
  rw [ofGroup] at made
  split at made
  · cases made
  · cases made
    exact .group covered

theorem Step.isCovered_of_ofAction {key : Nat} {id : Option String} {outputs : List String}
    {content : Action Step} {consumes : List Step} {step : Step}
    (made : ofAction key id outputs content consumes = .ok step)
    (plain : content.extra.hasKey (.string "if") = false)
    (own : ∀ condition ∈ content.condition, condition.IsCoveredThroughout) : step.IsCovered := by
  rw [ofAction] at made
  split at made
  · cases made
  · cases made
    exact .action plain (fun condition found => (own condition found).1)
      fun condition found leaf leafMem step reads =>
        (own condition found).2 leaf leafMem _ reads step rfl

namespace WorkflowDefinition

variable {definition : WorkflowDefinition} {underway : Underway}

/-- No step of the definition has a field beside its condition that would be shown as one. -/
def LacksOtherIf (definition : WorkflowDefinition) : Prop :=
  ∀ position written, definition.step? position = some written →
    written.extra.hasKey (.string "if") = false

theorem isCovered_of_lookup {known : List (Option (String × Step))}
    (covered : ∀ found ∈ known, ∀ entry ∈ found, entry.2.IsCovered) (name : String) (step : Step)
    (isKnown : (known.filterMap id).lookup name = some step) : step.IsCovered := by
  rcases List.lookup_eq_some_iff.mp isKnown with ⟨before, behind, whole, _⟩
  have mem : (name, step) ∈ known.filterMap id :=
    whole ▸ List.mem_append_right before List.mem_cons_self
  rcases List.mem_filterMap.mp mem with ⟨entry, entryMem, isEntry⟩
  exact covered entry entryMem (name, step) isEntry

/-! ## Given the steps -/

section Steps

variable (steps : ∀ position, EnsuresCovered (definition.stepAt underway position) Step.IsCovered)

include steps

theorem ensuresCovered_scopeAt (scope : Scope) (current : Option Position) (text : String) :
    EnsuresCovered (definition.scopeAt underway scope current text) fun known =>
      ∀ id step, known id = some step → step.IsCovered := by
  rw [scopeAt]
  refine (Ensures.mapM_all ?_).bind fun known covered => .pure (isCovered_of_lookup covered)
  intro id _
  cases definition.names.find? scope id with
  | none => exact (Building.ensuresCovered_warn _).bind fun _ _ => .pure forall_mem_none
  | some target =>
      dsimp only
      split
      · exact .pure forall_mem_none
      · exact (steps target).map fun step covered entry mem => Option.some.inj mem ▸ covered

theorem ensuresCovered_conditionAt (position : Position) (text : String) :
    EnsuresCovered (definition.conditionAt underway position text)
      Condition.IsCoveredThroughout := by
  rw [conditionAt]
  refine (ensuresCovered_scopeAt steps position.scope (some position) text).bind
    fun scope covered => (Ensures.ofExpression _).mono fun condition parsed => ?_
  refine ⟨Condition.isCovered_of_parse parsed, Condition.readsOnly_of_parse ?_ ?_ parsed⟩
  · intro id step equal
    cases equal
  · intro id step _ known other equal
    cases equal
    exact covered id step known

/-- What is written at a position is stated of the item there, unless it belongs to the action. -/
theorem ensuresCovered_stating (position : Position) (written : StepDefinition)
    {finish : Item → Building Item}
    (finishes : ∀ item : Item, item.IsCovered → EnsuresCovered (finish item) Item.IsCovered)
    (placed : Item) (placedCovered : placed.IsCovered) :
    EnsuresCovered (match written.condition with
      | some text =>
        if written.ownsCondition position then finish placed
        else do finish (← (definition.conditionAt underway position text).map placed.when)
      | none => finish placed) Item.IsCovered := by
  have without := finishes placed placedCovered
  cases written.condition with
  | none => exact without
  | some text =>
      dsimp only
      split
      · exact without
      · exact Ensures.bind (ensuresCovered_conditionAt steps position text |>.map
          fun _ throughout => placedCovered.when throughout) finishes

end Steps

/-! ## Given the steps and the items -/

section Items

variable (steps : ∀ position, EnsuresCovered (definition.stepAt underway position) Step.IsCovered)
  (items : ∀ position, EnsuresCovered (definition.itemAt underway position) Item.IsCovered)

include steps items

theorem ensuresCovered_dependencyAt (scope : Scope) (name : String) :
    EnsuresCovered (definition.dependencyAt underway scope name) Item.IsCovered := by
  rw [dependencyAt]
  refine (Ensures.ofDefinition _).bind fun target _ => ?_
  split
  · exact items target
  · exact (steps target).map fun _ covered => covered.item

theorem ensuresCovered_newStepAt (plain : definition.LacksOtherIf) {position : Position}
    {written : StepDefinition} (found : definition.step? position = some written) :
    EnsuresCovered (definition.newStepAt underway position written) Step.IsCovered := by
  rw [newStepAt]
  split
  · exact (Ensures.ofDefinition _).bind fun target _ => steps target
  · refine (Ensures.mapM_all fun index _ => items (position.child index)).bind
      fun children covered => ?_
    refine (Building.ensuresCovered_newStep _).mono fun step made => ?_
    rcases made with ⟨key, made⟩
    exact Step.isCovered_of_ofGroup made covered
  · extract_lets finish
    have finishes : ∀ own : Option (Condition Step),
        (∀ condition ∈ own, condition.IsCoveredThroughout) →
          EnsuresCovered (finish own) Step.IsCovered := by
      intro own throughout
      have each : ∀ reference ∈ written.consumes.names, EnsuresCovered (do
          definition.stepAt underway (← .ofDefinition (definition.resolveCrossJob reference)))
          Step.IsCovered :=
        fun reference _ => (Ensures.ofDefinition _).bind fun target _ => steps target
      refine (Ensures.mapM_all each).bind fun consumed _ => ?_
      refine (Building.ensuresCovered_newStep _).mono fun step made => ?_
      rcases made with ⟨key, made⟩
      exact Step.isCovered_of_ofAction made (plain position written found) throughout
    have without := finishes none forall_mem_none
    cases written.condition with
    | none => exact without
    | some text =>
        dsimp only
        split
        · refine Ensures.bind (ensuresCovered_conditionAt steps position text |>.map
            fun condition throughout => ?_) finishes
          exact fun _ mem => Option.some.inj mem ▸ throughout
        · exact without

theorem ensuresCovered_newItemAt (position : Position) (written : StepDefinition) :
    EnsuresCovered (definition.newItemAt underway position written) Item.IsCovered := by
  rw [newItemAt]
  extract_lets finish
  have finishes : ∀ item : Item, item.IsCovered → EnsuresCovered (finish item) Item.IsCovered := by
    intro conditional conditionalCovered
    refine (Ensures.foldlM (fun _ (item : Item) => item.IsCovered) conditionalCovered ?_).bind
      fun dependent dependentCovered =>
        Ensures.foldlM (fun _ (item : Item) => item.IsCovered) dependentCovered ?_
    · intro _ item covered name _
      exact (ensuresCovered_dependencyAt steps items position.scope name).bind
        fun _ dependencyCovered => .pure (covered.dependsOn dependencyCovered)
    · intro _ item covered name _
      exact (Ensures.ofDefinition _).bind fun target _ =>
        (steps target).bind fun step _ => .pure (covered.comesAfter (.ofStep step))
  have states := ensuresCovered_stating steps position written finishes
  cases written.reusable with
  | some name => exact (Ensures.ofDefinition _).bind fun target _ => (items target).bind states
  | none => exact ((steps position).map fun _ covered => covered.item).bind states

end Items

/-! ## All positions -/

theorem ensuresCovered_stepAt_of_newStepAt {position : Position}
    (fresh : ∀ written, definition.step? position = some written → position ∉ underway.steps →
      EnsuresCovered (definition.newStepAt
        { underway with steps := position :: underway.steps } position written) Step.IsCovered) :
    EnsuresCovered (definition.stepAt underway position) Step.IsCovered := by
  rw [stepAt]
  apply Building.ensuresCovered_shared
  split
  · exact .throw _
  · rename_i free
    split
    · exact .throw _
    · rename_i written found
      exact fresh written found free

theorem ensuresCovered_itemAt_of_newItemAt {position : Position}
    (fresh : ∀ written, definition.step? position = some written → position ∉ underway.items →
      EnsuresCovered (definition.newItemAt
        { underway with items := position :: underway.items } position written) Item.IsCovered) :
    EnsuresCovered (definition.itemAt underway position) Item.IsCovered := by
  rw [itemAt]
  split
  · exact .throw _
  · rename_i free
    split
    · exact .throw _
    · rename_i written found
      exact fresh written found free

theorem ensuresCovered_stepAt_and_itemAt (plain : definition.LacksOtherIf) (underway : Underway) :
    (∀ position, EnsuresCovered (definition.stepAt underway position) Step.IsCovered) ∧
      ∀ position, EnsuresCovered (definition.itemAt underway position) Item.IsCovered := by
  -- The induction is on how many positions are free to be taken up.
  induction free : definition.freeAll underway using Nat.strong_induction_on
    generalizing underway with
  | _ count induction =>
      subst free
      constructor
      · intro position
        apply ensuresCovered_stepAt_of_newStepAt
        intro written found isFree
        have fewer := definition.free_cons_lt found isFree
        have below := induction _ (by simp only [freeAll]; omega)
          { underway with steps := position :: underway.steps } rfl
        exact ensuresCovered_newStepAt below.1 below.2 plain found
      · intro position
        apply ensuresCovered_itemAt_of_newItemAt
        intro written found isFree
        have fewer := definition.free_cons_lt found isFree
        have below := induction _ (by simp only [freeAll]; omega)
          { underway with items := position :: underway.items } rfl
        exact ensuresCovered_newItemAt below.1 below.2 position written

end WorkflowDefinition

end FlowPlan

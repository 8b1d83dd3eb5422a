import FlowPlan.Proofs.AlikeItems
import FlowPlan.Proofs.Embeddings
import FlowPlan.Proofs.NamedSteps

/-! # The steps of embedded definitions

Two builds number the steps of a common part in different ways, as each has made
other steps before. The steps that both made for one position are paired. What
they were made from is the same, and it was paired before them, so the steps are
alike from the inside.
-/

namespace FlowPlan

namespace WorkflowDefinition

variable {definition other : WorkflowDefinition} {among : Scope → Prop} {image : Scope → Scope}

/-- Each of the steps was made from what is written at the position by the build of its
definition. -/
structure MadeAt (definition other : WorkflowDefinition) (image : Scope → Scope)
    (position : Position) (step another : Step) : Prop where
  isRoot : definition.IsRoot position
  mem : (position, step) ∈ definition.table
  otherMem : (position.moved image, another) ∈ other.table

/-- The steps were made for one position among the scopes. -/
def Paired (definition other : WorkflowDefinition) (among : Scope → Prop) (image : Scope → Scope)
    (step another : Step) : Prop :=
  ∃ position : Position, among position.scope ∧ definition.MadeAt other image position step another

namespace Embeds

variable (embeds : definition.Embeds other among image)

include embeds

theorem leads_moved {position root : Position} (leads : definition.Leads position root)
    (isAmong : among position.scope) :
    other.Leads (position.moved image) (root.moved image) ∧ among root.scope := by
  induction leads with
  | here position => exact ⟨.here _, isAmong⟩
  | @reference position _ _ name found reusable _ induction =>
      rcases induction (embeds.library name).1 with ⟨leads, rootAmong⟩
      rw [embeds.moved_library] at leads
      exact ⟨.reference ((embeds.written position isAmong).trans found) reusable leads, rootAmong⟩

theorem isRoot_moved {position : Position} (isAmong : among position.scope) :
    other.IsRoot (position.moved image) ↔ definition.IsRoot position := by
  rw [IsRoot, IsRoot, embeds.written position isAmong]

theorem standsFor_moved {position root : Position} {written : StepDefinition}
    (stands : definition.StandsFor position root written) (isAmong : among position.scope) :
    other.StandsFor (position.moved image) (root.moved image) written ∧ among root.scope := by
  rcases embeds.leads_moved stands.leads isAmong with ⟨leads, rootAmong⟩
  exact ⟨⟨leads, (embeds.written root rootAmong).trans stands.found, stands.isRoot⟩, rootAmong⟩

/-- Steps that stand for one position in both builds are those of its root. -/
theorem paired_of_mem {position : Position} (isAmong : among position.scope) {step another : Step}
    (mem : (position, step) ∈ definition.table)
    (otherMem : (position.moved image, another) ∈ other.table) :
    definition.Paired other among image step another := by
  rcases definition.isSound_construction.steps _ mem with ⟨root, written, stands, rootMem⟩
  rcases other.isSound_construction.steps _ otherMem with ⟨otherRoot, _, otherStands, otherRootMem⟩
  rcases embeds.standsFor_moved stands isAmong with ⟨standsMoved, rootAmong⟩
  have same := (otherStands.unique standsMoved).1
  exact ⟨root, rootAmong, ⟨written, stands.found, stands.isRoot⟩, rootMem, same ▸ otherRootMem⟩

/-- Keys tell the positions apart in both builds. -/
theorem pairing : Keyed.Pairing (definition.Paired other among image) where
  left := by
    rintro first second another further ⟨position, _, isRoot, mem, otherMem⟩
      ⟨place, _, isPlaceRoot, placeMem, otherPlaceMem⟩ sameKey
    rcases Prod.mk.inj (definition.isSound_construction.keys _ mem _ placeMem isRoot isPlaceRoot
      sameKey) with ⟨rfl, same⟩
    exact ⟨same, other.isChronicle_table.eq_of_mem otherMem otherPlaceMem⟩
  right := by
    rintro first second another further ⟨position, isAmong, isRoot, mem, otherMem⟩
      ⟨place, placeAmong, isPlaceRoot, placeMem, otherPlaceMem⟩ sameKey
    rcases Prod.mk.inj (other.isSound_construction.keys _ otherMem _ otherPlaceMem
      ((embeds.isRoot_moved isAmong).mpr isRoot) ((embeds.isRoot_moved placeAmong).mpr isPlaceRoot)
      sameKey) with ⟨samePosition, same⟩
    cases (embeds.moved_inj isAmong placeAmong).mp samePosition
    exact ⟨definition.isChronicle_table.eq_of_mem mem placeMem, same⟩

theorem id?_of_paired {step another : Step}
    (isPair : definition.Paired other among image step another) : step.id? = another.id? := by
  rcases isPair with ⟨position, isAmong, ⟨written, found, isRoot⟩, mem, otherMem⟩
  have otherFound := (embeds.written position isAmong).trans found
  have made := definition.isSound_construction.made _ _ _ (.self found isRoot) mem
  have otherMade := other.isSound_construction.made _ _ _ (.self otherFound isRoot) otherMem
  exact made.id.trans otherMade.id.symm

/-! ## Conditions -/

theorem rel_of_supplies {scope : Scope} (isAmong : among scope) {current : Option Position}
    (within : ∀ position ∈ current, among position.scope) {id : String}
    {found otherFound : Option Step}
    (supplies : definition.table.Supplies definition scope current id found)
    (otherSupplies : other.table.Supplies other (image scope)
      (current.map (Position.moved image)) id otherFound) :
    Option.Rel (definition.Paired other among image) found otherFound := by
  have names := embeds.names scope isAmong id
  cases supplies with
  | unknown absent =>
      rw [absent] at names
      cases otherSupplies with
      | unknown => exact .none
      | itself => exact .none
      | step present => cases names.symm.trans present
  | @itself target isTarget same =>
      rw [isTarget] at names
      cases otherSupplies with
      | unknown => exact .none
      | itself => exact .none
      | step present apart =>
          cases names.symm.trans present
          exact absurd (congrArg (Option.map (Position.moved image)) same) apart
  | @step target step isTarget apart mem =>
      have targetAmong := embeds.within scope isAmong id target isTarget
      rw [isTarget] at names
      cases otherSupplies with
      | unknown absent => cases names.symm.trans absent
      | itself present same =>
          cases names.symm.trans present
          rcases Option.map_eq_some_iff.mp same with ⟨position, rfl, sameImage⟩
          have isTarget := (embeds.moved_inj (within position rfl) targetAmong).mp sameImage
          exact absurd (congrArg some isTarget) apart
      | step present _ otherMem =>
          cases names.symm.trans present
          exact .some (embeds.paired_of_mem targetAmong mem otherMem)

theorem alike_of_isScope {scope : Scope} (isAmong : among scope) (current : Option Position)
    (within : ∀ position ∈ current, among position.scope) {text : String}
    {known otherKnown : StepScope Step}
    (isScope : definition.table.IsScope definition scope current text known)
    (isOtherScope : other.table.IsScope other (image scope) (current.map (Position.moved image)) text
      otherKnown) : StepScope.Alike (definition.Paired other among image) known otherKnown := by
  intro id
  by_cases mem : id ∈ Text.referencedSteps text.toList
  · exact embeds.rel_of_supplies isAmong within (isScope.inside id mem) (isOtherScope.inside id mem)
  · rw [isScope.outside id mem, isOtherScope.outside id mem]
    exact .none

variable {position : Position} (isAmong : among position.scope)

include isAmong

theorem alike_of_reads {text : String} {condition another : Condition Step}
    (reads : definition.table.Reads definition position text condition)
    (otherReads : other.table.Reads other (position.moved image) text another) :
    Condition.Alike (definition.Paired other among image) condition another := by
  rcases reads with ⟨known, isScope, parsed⟩
  rcases otherReads with ⟨otherKnown, isOtherScope, otherParsed⟩
  have scopes := embeds.alike_of_isScope isAmong (some position)
    (fun _ same => Option.some.inj same ▸ isAmong) isScope isOtherScope
  exact Condition.alike_parse scopes embeds.pairing parsed otherParsed

theorem rel_of_stated {text : Option String} {condition another : Option (Condition Step)}
    (stated : Option.Rel (definition.table.Reads definition position) text condition)
    (otherStated : Option.Rel (other.table.Reads other (position.moved image)) text another) :
    Option.Rel (Condition.Alike (definition.Paired other among image)) condition another := by
  cases stated with
  | none =>
      cases otherStated
      exact .none
  | some reads =>
      cases otherStated with
      | some otherReads => exact .some (embeds.alike_of_reads isAmong reads otherReads)

end Embeds

/-! ## Items -/

/-- Two lists that belong to one list belong to each other. -/
theorem forall₂_of_common {α β γ : Type} {left : α → β → Prop} {right : α → γ → Prop}
    {result : β → γ → Prop} {members : List α} {images : List β} {otherImages : List γ}
    (lefts : List.Forall₂ left members images) (rights : List.Forall₂ right members otherImages)
    (holds : ∀ member, ∀ image ∈ images, ∀ other ∈ otherImages, left member image →
      right member other → result image other) : List.Forall₂ result images otherImages := by
  induction lefts generalizing otherImages with
  | nil =>
      cases rights
      exact .nil
  | cons first _ induction =>
      cases rights with
      | cons second more =>
          apply List.Forall₂.cons (holds _ _ List.mem_cons_self _ List.mem_cons_self first second)
          exact induction more fun member image mem other otherMem =>
            holds member image (List.mem_cons_of_mem _ mem) other (List.mem_cons_of_mem _ otherMem)

end WorkflowDefinition

namespace Item.Alike

variable {paired : Step → Step → Prop}

theorem ofStep {step other : Step} (isPair : paired step other) :
    Item.Alike paired (.ofStep step) (.ofStep other) :=
  .place isPair .none .nil .nil

theorem furnished (pairing : Keyed.Pairing paired) {item other : Item}
    (alike : Item.Alike paired item other) {condition otherCondition : Option (Condition Step)}
    (stated : Option.Rel (Condition.Alike paired) condition otherCondition)
    {dependencies otherDependencies predecessors otherPredecessors : List Item}
    (dependsOn : List.Forall₂ (Item.Alike paired) dependencies otherDependencies)
    (after : List.Forall₂ (fun item other => paired item.step other.step) predecessors
      otherPredecessors) :
    Item.Alike paired (item.furnished condition dependencies predecessors)
      (other.furnished otherCondition otherDependencies otherPredecessors) := by
  have narrowed : Option.Rel (Condition.Alike paired) (condition.elim item item.when).condition
      (otherCondition.elim other other.when).condition := by
    cases stated with
    | none => exact alike.condition
    | some stated =>
        have existing := alike.condition
        simp only [Option.elim_some, Item.when, Item.condition] at existing ⊢
        cases alike with
        | place _ before =>
            cases before with
            | none => exact .some stated
            | some before => exact .some (before.conj pairing stated)
  exact .place alike.step narrowed (List.rel_append alike.dependencies dependsOn)
    (List.rel_append alike.predecessors after)

end Item.Alike

namespace WorkflowDefinition

variable {definition other : WorkflowDefinition} {among : Scope → Prop} {image : Scope → Scope}

namespace Embeds

variable (embeds : definition.Embeds other among image)

include embeds

/-- What is placed at one position is alike in both builds. -/
theorem alike_of_isItemAt {position : Position} (isAmong : among position.scope)
    {item another : Item} (isItem : definition.table.IsItemAt definition position item)
    (isOther : other.table.IsItemAt other (position.moved image) another) :
    Item.Alike (definition.Paired other among image) item another := by
  induction isItem generalizing another with
  | @place position written start condition dependencies predecessors found _ own stated dependsOn _
      plain after referenceInduction libraryInduction =>
    cases isOther with
    | @place _ _ otherStart otherCondition others otherPredecessors otherFound otherReference otherOwn
        otherStated otherDependsOn otherLibrary otherPlain otherAfter =>
      cases found.symm.trans ((embeds.written position isAmong).symm.trans otherFound)
      apply Item.Alike.furnished embeds.pairing
      case alike =>
        cases reusable : written.reusable with
        | some name =>
            apply referenceInduction name reusable (embeds.library name).1
            rw [embeds.moved_library]
            exact otherReference name reusable
        | none =>
            rcases own reusable with ⟨step, mem, rfl⟩
            rcases otherOwn reusable with ⟨otherStep, otherMem, rfl⟩
            exact .ofStep (embeds.paired_of_mem isAmong mem otherMem)
      case stated =>
        rw [embeds.placeText?_moved isAmong] at otherStated
        exact embeds.rel_of_stated isAmong stated otherStated
      case dependsOn =>
        rw [List.forall₂_map_left_iff, List.forall₂_map_right_iff]
        apply forall₂_of_common dependsOn otherDependsOn
        rintro name ⟨target, dependency⟩ mem ⟨otherTarget, otherDependency⟩ otherMem resolved
          otherResolved
        rcases embeds.moved_of_resolveName isAmong resolved otherResolved with ⟨targetAmong, rfl⟩
        have sameRoot := embeds.isLibraryRoot_moved targetAmong
        cases isLibrary : target.isLibraryRoot with
        | true =>
            exact libraryInduction _ mem isLibrary targetAmong
              (otherLibrary _ otherMem (sameRoot.trans isLibrary))
        | false =>
            rcases plain _ mem isLibrary with ⟨step, stepMem, isStep⟩
            rcases otherPlain _ otherMem (sameRoot.trans isLibrary) with ⟨otherStep, otherStepMem, isOther⟩
            dsimp only at isStep isOther ⊢
            rw [isStep, isOther]
            exact .ofStep (embeds.paired_of_mem targetAmong stepMem otherStepMem)
      case after =>
        rw [List.forall₂_map_left_iff, List.forall₂_map_right_iff]
        apply forall₂_of_common after otherAfter
        rintro name ⟨target, step⟩ _ ⟨otherTarget, otherStep⟩ _ ⟨resolved, mem⟩
          ⟨otherResolved, otherMem⟩
        rcases embeds.moved_of_resolveName isAmong resolved otherResolved with ⟨targetAmong, rfl⟩
        exact embeds.paired_of_mem targetAmong mem otherMem

/-! ## Steps -/

/-- What each of two builds made a step from at one position. -/
theorem exists_made {position : Position} (isAmong : among position.scope) {step another : Step}
    (made : definition.MadeAt other image position step another) :
    ∃ written, written.reusable = none ∧
      definition.table.IsMadeFor definition position written step ∧
      other.table.IsMadeFor other (position.moved image) written another := by
  rcases made with ⟨⟨written, found, isRoot⟩, mem, otherMem⟩
  rcases definition.isChronicle_table.exists_made mem with ⟨same, isWritten, isMade⟩
  rcases other.isChronicle_table.exists_made otherMem with ⟨otherSame, isOtherWritten, isOtherMade⟩
  cases found.symm.trans isWritten
  cases found.symm.trans ((embeds.written position isAmong).symm.trans isOtherWritten)
  exact ⟨written, isRoot, isMade, isOtherMade⟩

end Embeds

end WorkflowDefinition

/-- What is inside the steps, as it is seen from outside. -/
theorem Step.parts_of_ofGroup {key : Nat} {id : Option String} {outputs : List String}
    {name : Option String} {items : List Item} {step : Step}
    (made : ofGroup key id outputs name items = .ok step) :
    step.isGroup = true ∧ step.ownCondition? = none ∧ step.children = items := by
  rw [ofGroup] at made
  split at made
  · cases made
  · cases made
    exact ⟨rfl, rfl, rfl⟩

theorem Step.parts_of_ofAction {key : Nat} {id : Option String} {outputs : List String}
    {content : Action Step} {consumed : List Step} {step : Step}
    (made : ofAction key id outputs content consumed = .ok step) :
    step.isGroup = false ∧ step.ownCondition? = content.condition ∧ step.children = [] := by
  rw [ofAction] at made
  split at made
  · cases made
  · cases made
    exact ⟨rfl, rfl, rfl⟩

namespace WorkflowDefinition.Embeds

variable {definition other : WorkflowDefinition} {among : Scope → Prop} {image : Scope → Scope}
  (embeds : definition.Embeds other among image)

include embeds

/-- Steps that were made for one position are of one kind, and what is inside them is alike. -/
theorem alike_of_madeAt {position : Position} (isAmong : among position.scope) {step another : Step}
    (made : definition.MadeAt other image position step another) :
    step.isGroup = another.isGroup ∧
      Option.Rel (Condition.Alike (definition.Paired other among image)) step.ownCondition?
        another.ownCondition? ∧
      List.Forall₂ (Item.Alike (definition.Paired other among image)) step.children
        another.children := by
  rcases embeds.exists_made isAmong made with ⟨written, isRoot, isMade, isOtherMade⟩
  cases isMade with
  | reference reusable => cases isRoot.symm.trans reusable
  | group _ isGroup placed isStep =>
      rcases Step.parts_of_ofGroup isStep with ⟨kind, own, isItems⟩
      cases isOtherMade with
      | reference reusable => cases isRoot.symm.trans reusable
      | action _ isAction => cases isGroup.symm.trans isAction
      | group _ isSame otherPlaced isOtherStep =>
          cases isGroup.symm.trans isSame
          rcases Step.parts_of_ofGroup isOtherStep with ⟨otherKind, otherOwn, isOtherItems⟩
          rw [kind, otherKind, own, otherOwn, isItems, isOtherItems]
          refine ⟨rfl, .none, forall₂_of_common placed otherPlaced ?_⟩
          intro index item _ otherItem _ isItem isOtherItem
          have childAmong : among (position.child index).scope := isAmong
          exact embeds.alike_of_isItemAt childAmong isItem isOtherItem
  | action _ isAction stated _ isStep =>
      rcases Step.parts_of_ofAction isStep with ⟨kind, own, isEmpty⟩
      cases isOtherMade with
      | reference reusable => cases isRoot.symm.trans reusable
      | group _ isGroup => cases isAction.symm.trans isGroup
      | action _ _ otherStated _ isOtherStep =>
          rcases Step.parts_of_ofAction isOtherStep with ⟨otherKind, otherOwn, isOtherEmpty⟩
          rw [embeds.ownText?_moved isAmong] at otherStated
          rw [kind, otherKind, own, otherOwn, isEmpty, isOtherEmpty]
          exact ⟨rfl, embeds.rel_of_stated isAmong stated otherStated, .nil⟩

theorem bisimulation : Step.Bisimulation (definition.Paired other among image) where
  toPairing := embeds.pairing
  kind := fun ⟨_, isAmong, made⟩ => (embeds.alike_of_madeAt isAmong made).1
  own := fun ⟨_, isAmong, made⟩ => (embeds.alike_of_madeAt isAmong made).2.1
  children := fun ⟨_, isAmong, made⟩ => (embeds.alike_of_madeAt isAmong made).2.2

end WorkflowDefinition.Embeds

end FlowPlan

import FlowPlan.Definition.Build
import FlowPlan.Proofs.Edges
import FlowPlan.Proofs.Needs
import FlowPlan.Proofs.EarlierReads
import FlowPlan.Proofs.ShownReferences
import FlowPlan.Proofs.Standing

/-! # Where built items come from

Whatever is built stands for something that is written. A step was made at the
position where it is written, an item was placed at a position that may lead to
others, and each of its conditions is stated at one of these. A construction is
sound if this is so of all its steps and if their keys tell them apart. As long
as it only grows, nothing of that is lost.
-/

namespace FlowPlan

variable {definition : WorkflowDefinition}

namespace Construction

/-- No step has been forgotten and no warning taken back. -/
structure Grows (before after : Construction) : Prop where
  built : before.built ⊆ after.built
  warnings : before.warnings ⊆ after.warnings

theorem Grows.refl (construction : Construction) : construction.Grows construction :=
  ⟨List.Subset.refl _, List.Subset.refl _⟩

theorem Grows.trans {first second third : Construction} (former : first.Grows second)
    (latter : second.Grows third) : first.Grows third :=
  ⟨List.Subset.trans former.built latter.built,
    List.Subset.trans former.warnings latter.warnings⟩

/-! ## Steps and what conditions read of them -/

/-- The step is the one of the position. -/
def IsStepAt (construction : Construction) (definition : WorkflowDefinition) (position : Position)
    (step : Step) : Prop :=
  ∃ root written, definition.StandsFor position root written ∧ (root, step) ∈ construction.built

/-- What is there for an id that is read in the scope. The step at `current` is left out, and an
unknown one has been warned of. -/
inductive Finds (construction : Construction) (definition : WorkflowDefinition) (scope : Scope)
    (current : Option Position) (id : String) : Option Step → Prop
  | unknown (absent : definition.names.find? scope id = none) (text : String)
      (warned : .unknownStep text id ∈ construction.warnings) :
      construction.Finds definition scope current id none
  | itself {target : Position} (found : definition.names.find? scope id = some target)
      (same : current = some target) : construction.Finds definition scope current id none
  | step {target : Position} {step : Step}
      (found : definition.names.find? scope id = some target) (other : current ≠ some target)
      (isStep : construction.IsStepAt definition target step) :
      construction.Finds definition scope current id (some step)

/-- What is there for an id that is read where the position leads to. -/
def ReadsAt (construction : Construction) (definition : WorkflowDefinition) (position : Position)
    (id : String) (found : Option Step) : Prop :=
  ∃ origin, definition.Leads position origin ∧ definition.Refers origin id ∧
    construction.Finds definition origin.scope (some origin) id found

/-- The condition reads what is there for the ids that it shows, and nothing else of steps. -/
structure States (construction : Construction) (definition : WorkflowDefinition)
    (position : Position) (condition : Condition Step) : Prop where
  covered : condition.IsCovered
  reads : condition.ReadsSteps fun step =>
    ∃ id, construction.ReadsAt definition position id (some step)
  shows : condition.ShowsSteps fun sources id =>
    ∃ found, construction.ReadsAt definition position id found ∧
      ∀ step ∈ found, .step step ∈ sources

/-! ## Items in their places -/

/-- The item, taken without what it depends on, is stated at the position. -/
structure Holds (construction : Construction) (definition : WorkflowDefinition)
    (position : Position) (item : Item) : Prop where
  step : construction.IsStepAt definition position item.step
  condition : ∀ condition ∈ item.condition, construction.States definition position condition

/-- The item was placed at the position. What it depends on stands at positions that have a say
there. -/
structure Places (construction : Construction) (definition : WorkflowDefinition)
    (position : Position) (item : Item) : Prop extends
    construction.Holds definition position item where
  behind : ∀ dependency ∈ item.dependencies, ∀ found ∈ dependency.walk,
    ∃ target, definition.Concerns position target ∧ construction.Holds definition target found

/-- The step was made from what is written at the position. -/
structure Makes (construction : Construction) (definition : WorkflowDefinition)
    (position : Position) (written : StepDefinition) (step : Step) : Prop where
  id : step.id? = written.id
  own : ∀ condition ∈ step.ownCondition?, construction.States definition position condition
  action : written.children = none → step.isGroup = false
  group : ∀ children, written.children = some children → step.isGroup = true ∧
    List.Forall₂ (fun index child => construction.Places definition (position.child index) child)
      (List.range children.length) step.children

/-- Every step comes from its position, and roots are told apart by the keys of their steps. -/
structure IsSound (construction : Construction) (definition : WorkflowDefinition) : Prop where
  steps : ∀ entry ∈ construction.built, construction.IsStepAt definition entry.1 entry.2
  made : ∀ position written step, definition.StandsFor position position written →
    (position, step) ∈ construction.built → construction.Makes definition position written step
  numbered : ∀ entry ∈ construction.built, entry.2.key < construction.nextKey
  keys : ∀ left ∈ construction.built, ∀ right ∈ construction.built, definition.IsRoot left.1 →
    definition.IsRoot right.1 → left.2.key = right.2.key → left = right

/-! ## Growing -/

section Grows

variable {before after : Construction} (grows : before.Grows after)

include grows

theorem IsStepAt.mono {position : Position} {step : Step}
    (isStep : before.IsStepAt definition position step) :
    after.IsStepAt definition position step := by
  rcases isStep with ⟨root, written, stands, mem⟩
  exact ⟨root, written, stands, grows.built mem⟩

theorem Finds.mono {scope : Scope} {current : Option Position} {id : String} {found : Option Step}
    (finds : before.Finds definition scope current id found) :
    after.Finds definition scope current id found := by
  cases finds with
  | unknown absent text warned => exact .unknown absent text (grows.warnings warned)
  | itself found same => exact .itself found same
  | step found other isStep => exact .step found other (isStep.mono grows)

theorem ReadsAt.mono {position : Position} {id : String} {found : Option Step}
    (reads : before.ReadsAt definition position id found) :
    after.ReadsAt definition position id found := by
  rcases reads with ⟨origin, leads, refers, finds⟩
  exact ⟨origin, leads, refers, finds.mono grows⟩

theorem States.mono {position : Position} {condition : Condition Step}
    (states : before.States definition position condition) :
    after.States definition position condition where
  covered := states.covered
  reads := Condition.ReadsOnly.mono states.reads fun _ reads step equal =>
    (reads step equal).imp fun _ reads => reads.mono grows
  shows := states.shows.mono fun _ _ ⟨found, reads, listed⟩ => ⟨found, reads.mono grows, listed⟩

theorem Holds.mono {position : Position} {item : Item}
    (holds : before.Holds definition position item) : after.Holds definition position item where
  step := holds.step.mono grows
  condition condition found := (holds.condition condition found).mono grows

theorem Places.mono {position : Position} {item : Item}
    (places : before.Places definition position item) :
    after.Places definition position item where
  toHolds := places.toHolds.mono grows
  behind dependency mem found inside :=
    (places.behind dependency mem found inside).imp fun _ holds => ⟨holds.1, holds.2.mono grows⟩

theorem Makes.mono {position : Position} {written : StepDefinition} {step : Step}
    (makes : before.Makes definition position written step) :
    after.Makes definition position written step where
  id := makes.id
  own condition found := (makes.own condition found).mono grows
  action := makes.action
  group children isGroup :=
    ⟨(makes.group children isGroup).1,
      (makes.group children isGroup).2.imp fun _ _ places => places.mono grows⟩

end Grows

/-! ## One more step -/

/-- The step has been made for the position. -/
def enter (construction : Construction) (position : Position) (step : Step) : Construction :=
  { construction with built := (position, step) :: construction.built }

theorem grows_enter (construction : Construction) (position : Position) (step : Step) :
    construction.Grows (construction.enter position step) :=
  ⟨List.subset_cons_self _ _, List.Subset.refl _⟩

namespace IsSound

variable {construction : Construction} (sound : construction.IsSound definition)

include sound

/-- A reference shares the step of the library. -/
theorem enter_reference {position : Position} {written : StepDefinition} {name : String}
    (found : definition.step? position = some written) (reusable : written.reusable = some name)
    {step : Step} (isStep : construction.IsStepAt definition (.library name) step) :
    (construction.enter position step).IsSound definition := by
  have grows := construction.grows_enter position step
  have noRoot : ¬ definition.IsRoot position := by
    rintro ⟨other, otherFound, isRoot⟩
    cases found.symm.trans otherFound
    cases reusable.symm.trans isRoot
  have isStepHere : construction.IsStepAt definition position step :=
    isStep.imp fun root => Exists.imp fun _ => And.imp_left fun stands =>
      stands.of_reference found reusable
  constructor
  case steps =>
    refine List.forall_mem_cons.mpr ⟨isStepHere.mono grows, ?_⟩
    exact fun entry mem => (sound.steps entry mem).mono grows
  case made =>
    intro other otherWritten made stands mem
    rcases List.mem_cons.mp mem with same | before
    · cases same
      exact absurd ⟨otherWritten, stands.found, stands.isRoot⟩ noRoot
    · exact (sound.made other otherWritten made stands before).mono grows
  case numbered =>
    refine List.forall_mem_cons.mpr ⟨?_, sound.numbered⟩
    rcases isStep with ⟨root, _, _, mem⟩
    exact sound.numbered (root, step) mem
  case keys =>
    intro left leftMem right rightMem leftRoot rightRoot sameKey
    rcases List.mem_cons.mp leftMem with rfl | leftMem
    · exact absurd leftRoot noRoot
    · rcases List.mem_cons.mp rightMem with rfl | rightMem
      · exact absurd rightRoot noRoot
      · exact sound.keys left leftMem right rightMem leftRoot rightRoot sameKey

/-- A new step has a key of its own. -/
theorem enter_root {position : Position} {written : StepDefinition}
    (found : definition.step? position = some written) (isRoot : written.reusable = none)
    {step : Step} (makes : construction.Makes definition position written step)
    (fresh : ∀ entry ∈ construction.built, entry.2.key < step.key)
    (numbered : step.key < construction.nextKey) :
    (construction.enter position step).IsSound definition := by
  have grows := construction.grows_enter position step
  constructor
  case steps =>
    refine List.forall_mem_cons.mpr ⟨⟨position, written, .self found isRoot, .head _⟩, ?_⟩
    exact fun entry mem => (sound.steps entry mem).mono grows
  case made =>
    intro other otherWritten made stands mem
    rcases List.mem_cons.mp mem with same | before
    · cases same
      cases found.symm.trans stands.found
      exact makes.mono grows
    · exact (sound.made other otherWritten made stands before).mono grows
  case numbered => exact List.forall_mem_cons.mpr ⟨numbered, sound.numbered⟩
  case keys =>
    intro left leftMem right rightMem leftRoot rightRoot sameKey
    rcases List.mem_cons.mp leftMem with rfl | leftMem
    · rcases List.mem_cons.mp rightMem with rfl | rightMem
      · rfl
      · exact absurd sameKey (Nat.ne_of_gt (fresh right rightMem))
    · rcases List.mem_cons.mp rightMem with rfl | rightMem
      · exact absurd sameKey (Nat.ne_of_lt (fresh left leftMem))
      · exact sound.keys left leftMem right rightMem leftRoot rightRoot sameKey

/-! ## What soundness says of steps -/

theorem makes {position root : Position} {written : StepDefinition}
    (stands : definition.StandsFor position root written) {step : Step}
    (mem : (root, step) ∈ construction.built) :
    construction.Makes definition root written step :=
  sound.made root written step (.self stands.found stands.isRoot) mem

/-- Steps with one key come from one root. -/
theorem eq_of_key {position root other otherRoot : Position} {written otherWritten : StepDefinition}
    (stands : definition.StandsFor position root written)
    (otherStands : definition.StandsFor other otherRoot otherWritten) {step otherStep : Step}
    (mem : (root, step) ∈ construction.built) (otherMem : (otherRoot, otherStep) ∈ construction.built)
    (sameKey : step.key = otherStep.key) : root = otherRoot ∧ step = otherStep :=
  Prod.mk.inj (sound.keys _ mem _ otherMem ⟨written, stands.found, stands.isRoot⟩
    ⟨otherWritten, otherStands.found, otherStands.isRoot⟩ sameKey)

theorem keysIdentify :
    Step.KeysIdentify fun step => ∃ position, construction.IsStepAt definition position step := by
  rintro left right ⟨_, _, _, leftStands, leftMem⟩ ⟨_, _, _, rightStands, rightMem⟩ sameKey
  exact (sound.eq_of_key leftStands rightStands leftMem rightMem sameKey).2

/-- The children of a step were placed where they are written. -/
theorem exists_child {position : Position} {step : Step}
    (isStep : construction.IsStepAt definition position step) {child : Item}
    (mem : child ∈ step.children) : ∃ root written children index,
      definition.StandsFor position root written ∧ written.children = some children ∧
        index < children.length ∧ construction.Places definition (root.child index) child := by
  rcases isStep with ⟨root, written, stands, stepMem⟩
  have makes := sound.makes stands stepMem
  cases below : written.children with
  | none =>
      have single := makes.action below
      cases step with
      | action => cases mem
      | group => cases single
  | some children =>
      rcases exists_of_mem_forall₂ (makes.group children below).2 mem with
        ⟨index, indexMem, places⟩
      exact ⟨root, written, children, index, stands, below, List.mem_range.mp indexMem, places⟩

/-- Each action inside a step was made from an action that its position comes to. -/
theorem exists_root_of_mem_actions {position : Position} {item : Item}
    (isStep : construction.IsStepAt definition position item.step) {action : Step}
    (mem : action ∈ item.step.actions) : ∃ root written, definition.ComesTo position root ∧
      definition.StandsFor root root written ∧ written.children = none ∧
        (root, action) ∈ construction.built := by
  induction item using Item.induction generalizing position with
  | walk item childInduction _ =>
      rcases Step.mem_actions.mp mem with ⟨single, rfl⟩ | ⟨child, childMem, inside⟩
      · rcases isStep with ⟨root, written, stands, stepMem⟩
        have isAction : written.children = none := by
          refine Option.eq_none_iff_forall_ne_some.mpr fun children below => ?_
          have isGroup := ((sound.makes stands stepMem).group children below).1
          cases single.symm.trans isGroup
        exact ⟨root, written, .action stands isAction, .self stands.found stands.isRoot, isAction,
          stepMem⟩
      · rcases sound.exists_child isStep childMem with
          ⟨root, written, children, index, stands, below, isChild, places⟩
        rcases childInduction child childMem places.step inside with
          ⟨actionRoot, actionWritten, comes, rest⟩
        exact ⟨actionRoot, actionWritten, .child stands below isChild comes, rest⟩

theorem exists_root_of_mem_leaves {position : Position} {step : Step}
    (isStep : construction.IsStepAt definition position step) {action : Step}
    (mem : action ∈ step.leaves) : ∃ root written, definition.ComesTo position root ∧
      definition.StandsFor root root written ∧ written.children = none ∧
        (root, action) ∈ construction.built := by
  have inside : action ∈ (Item.ofStep step).step.actions := mem_of_mem_distinctBy mem
  exact sound.exists_root_of_mem_actions isStep inside

theorem holds_of_mem_walk {position : Position} {item : Item}
    (places : construction.Places definition position item) {found : Item}
    (mem : found ∈ item.walk) :
    ∃ target, definition.Concerns position target ∧ construction.Holds definition target found := by
  induction item using Item.induction generalizing position with
  | walk item childInduction _ =>
      rcases Item.mem_walk.mp mem with
        rfl | ⟨child, childMem, inside⟩ | ⟨dependency, dependencyMem, inside⟩
      · exact ⟨position, .refl _, places.toHolds⟩
      · rcases sound.exists_child places.step childMem with
          ⟨root, _, _, index, stands, isGroup, isChild, childPlaces⟩
        rcases childInduction child childMem childPlaces inside with ⟨target, concerns, holds⟩
        exact ⟨target, (stands.concerns_child isGroup isChild).trans concerns, holds⟩
      · exact places.behind dependency dependencyMem found inside

end IsSound

/-! ## Placing items -/

section Items

variable {construction : Construction} {position : Position}

theorem IsStepAt.of_reference {written : StepDefinition} {name : String} {step : Step}
    (found : definition.step? position = some written) (reusable : written.reusable = some name)
    (isStep : construction.IsStepAt definition (.library name) step) :
    construction.IsStepAt definition position step := by
  rcases isStep with ⟨root, rootWritten, stands, mem⟩
  exact ⟨root, rootWritten, stands.of_reference found reusable, mem⟩

theorem ReadsAt.of_reference {written : StepDefinition} {name id : String} {read : Option Step}
    (found : definition.step? position = some written) (reusable : written.reusable = some name)
    (reads : construction.ReadsAt definition (.library name) id read) :
    construction.ReadsAt definition position id read := by
  rcases reads with ⟨origin, leads, rest⟩
  exact ⟨origin, .reference found reusable leads, rest⟩

theorem States.of_reference {written : StepDefinition} {name : String} {condition : Condition Step}
    (found : definition.step? position = some written) (reusable : written.reusable = some name)
    (states : construction.States definition (.library name) condition) :
    construction.States definition position condition where
  covered := states.covered
  reads := Condition.ReadsOnly.mono states.reads fun _ reads step equal =>
    (reads step equal).imp fun _ reads => reads.of_reference found reusable
  shows := states.shows.mono fun _ _ ⟨read, reads, listed⟩ =>
    ⟨read, reads.of_reference found reusable, listed⟩

theorem States.conj {left right : Condition Step}
    (leftStates : construction.States definition position left)
    (rightStates : construction.States definition position right) :
    construction.States definition position (left.conj right) where
  covered := Condition.closed_isCovered.conj leftStates.covered rightStates.covered
  reads := (Condition.closed_readsOnly _).conj leftStates.reads rightStates.reads
  shows := Condition.closed_showsSteps.conj leftStates.shows rightStates.shows

namespace Places

theorem of_step {step : Step} (isStep : construction.IsStepAt definition position step) :
    construction.Places definition position (.ofStep step) where
  step := isStep
  condition _ found := nomatch found
  behind _ mem := nomatch mem

/-- Whatever a library item says is said wherever it is placed. -/
theorem of_reference {written : StepDefinition} {name : String} {item : Item}
    (found : definition.step? position = some written) (reusable : written.reusable = some name)
    (places : construction.Places definition (.library name) item) :
    construction.Places definition position item where
  step := places.step.of_reference found reusable
  condition condition stated := (places.condition condition stated).of_reference found reusable
  behind dependency mem inner inside := by
    rcases places.behind dependency mem inner inside with ⟨target, concerns, holds⟩
    exact ⟨target, .head (.reference found reusable) concerns, holds⟩

variable {item : Item} (places : construction.Places definition position item)

include places

theorem when {condition : Condition Step}
    (states : construction.States definition position condition) :
    construction.Places definition position (item.when condition) where
  step := places.step
  condition stated found := by
    cases existing : item.condition with
    | none =>
        rw [Item.when, existing] at found
        cases found
        exact states
    | some first =>
        rw [Item.when, existing] at found
        cases found
        exact (places.condition first existing).conj states
  behind := places.behind

theorem dependsOn (sound : construction.IsSound definition) {target : Position}
    (concerns : definition.Concerns position target) {dependency : Item}
    (dependencyPlaces : construction.Places definition target dependency) :
    construction.Places definition position (item.dependsOn dependency) where
  step := places.step
  condition := places.condition
  behind := by
    refine List.forall_mem_append.mpr ⟨places.behind, List.forall_mem_singleton.mpr ?_⟩
    intro found mem
    rcases sound.holds_of_mem_walk dependencyPlaces mem with ⟨other, concernsOther, holds⟩
    exact ⟨other, concerns.trans concernsOther, holds⟩

theorem comesAfter (predecessor : Item) :
    construction.Places definition position (item.comesAfter predecessor) where
  step := places.step
  condition := places.condition
  behind := places.behind

end Places

/-! ## Making steps -/

theorem Makes.of_ofGroup {written : StepDefinition} {children : List StepDefinition}
    (isGroup : written.children = some children) {items : List Item}
    (places : List.Forall₂ (fun index child =>
      construction.Places definition (position.child index) child)
      (List.range children.length) items)
    {key : Nat} {name : Option String} {step : Step}
    (made : Step.ofGroup key written.id written.outputs name items = .ok step) :
    construction.Makes definition position written step ∧ step.key = key := by
  rw [Step.ofGroup] at made
  split at made
  · cases made
  · cases made
    refine ⟨⟨rfl, fun _ found => (nomatch found), ?_, ?_⟩, rfl⟩
    · intro isAction
      cases isGroup.symm.trans isAction
    · intro other isOther
      cases isGroup.symm.trans isOther
      exact ⟨rfl, places⟩

theorem Makes.of_ofAction {written : StepDefinition} (isAction : written.children = none)
    {content : Action Step}
    (states : ∀ condition ∈ content.condition, construction.States definition position condition)
    {key : Nat} {consumes : List Step} {step : Step}
    (made : Step.ofAction key written.id written.outputs content consumes = .ok step) :
    construction.Makes definition position written step ∧ step.key = key := by
  rw [Step.ofAction] at made
  split at made
  · cases made
  · cases made
    refine ⟨⟨rfl, states, fun _ => rfl, ?_⟩, rfl⟩
    intro children isGroup
    cases isAction.symm.trans isGroup

end Items

/-! ## What soundness says of jobs -/

theorem ReadsAt.exists_isStepAt {construction : Construction} {position : Position} {id : String}
    {step : Step} (reads : construction.ReadsAt definition position id (some step)) :
    ∃ target, definition.Concerns position target ∧
      construction.IsStepAt definition target step := by
  rcases reads with ⟨origin, leads, refers, finds⟩
  cases finds with
  | step found _ isStep => exact ⟨_, leads.concerns.mentions (.read refers found), isStep⟩

end Construction

/-- What is written at the position may have a say in the job with the number. -/
def WorkflowDefinition.CountsIn (definition : WorkflowDefinition) (index : Nat)
    (position : Position) : Prop :=
  ∃ place, definition.Concerns (.job index place) position

theorem WorkflowDefinition.CountsIn.concerns {index : Nat} {position target : Position}
    (counts : definition.CountsIn index position) (concerns : definition.Concerns position target) :
    definition.CountsIn index target :=
  counts.imp fun _ before => before.trans concerns

namespace Construction

/-- The items were all placed in the job. -/
def PlacesAll (construction : Construction) (definition : WorkflowDefinition) (index : Nat)
    (items : List Item) : Prop :=
  ∀ item ∈ items, ∃ place, construction.Places definition (.job index place) item

namespace PlacesAll

variable {construction : Construction} {index : Nat} {items : List Item}
  (placed : construction.PlacesAll definition index items) (sound : construction.IsSound definition)

include placed sound

theorem holds_of_mem_walkAll {item : Item} (mem : item ∈ Item.walkAll items) :
    ∃ position, definition.CountsIn index position ∧
      construction.Holds definition position item := by
  rcases Item.mem_walkAll.mp mem with ⟨top, topMem, inside⟩
  rcases placed top topMem with ⟨place, places⟩
  rcases sound.holds_of_mem_walk places inside with ⟨target, concerns, holds⟩
  exact ⟨target, ⟨place, concerns⟩, holds⟩

/-- What the job has to do with counts in it. -/
theorem isStepAt_of_involves {step : Step} (involved : Item.Involves items step) :
    ∃ position, definition.CountsIn index position ∧
      construction.IsStepAt definition position step := by
  have read : ∀ {position : Position}, definition.CountsIn index position →
      ∀ {condition : Condition Step}, construction.States definition position condition →
        ∀ leaf ∈ condition.leaves, ∀ step, .step step ∈ leaf.sources →
          ∃ target, definition.CountsIn index target ∧
            construction.IsStepAt definition target step := by
    intro position counts condition states leaf leafMem step reads
    rcases states.reads leaf leafMem _ reads step rfl with ⟨id, found⟩
    rcases found.exists_isStepAt with ⟨target, concerns, isStep⟩
    exact ⟨target, counts.concerns concerns, isStep⟩
  have own : ∀ {position : Position}, definition.CountsIn index position → ∀ {action : Step},
      construction.IsStepAt definition position action → ∀ condition ∈ action.ownCondition?,
        ∃ origin, definition.CountsIn index origin ∧
          construction.States definition origin condition := by
    intro position counts action isStep condition found
    rcases isStep with ⟨root, written, stands, mem⟩
    exact ⟨root, counts.concerns stands.concerns, (sound.makes stands mem).own condition found⟩
  induction involved with
  | met mem =>
      rcases Item.mem_actionsMet.mp mem with ⟨_, item, itemMem, rfl⟩
      rcases placed.holds_of_mem_walkAll sound itemMem with ⟨position, counts, holds⟩
      exact ⟨position, counts, holds.step⟩
  | read mem leafMem reads =>
      rcases Item.mem_conditions.mp mem with ⟨item, itemMem, stated | isOwn⟩
      · rcases placed.holds_of_mem_walkAll sound itemMem with ⟨position, counts, holds⟩
        exact read counts (holds.condition _ stated) _ leafMem _ reads
      · rcases placed.holds_of_mem_walkAll sound itemMem with ⟨position, counts, holds⟩
        rcases own counts holds.step _ isOwn with ⟨origin, countsOrigin, states⟩
        exact read countsOrigin states _ leafMem _ reads
  | own _ mem leafMem reads induction =>
      rcases induction with ⟨position, counts, isStep⟩
      rcases own counts isStep _ mem with ⟨origin, countsOrigin, states⟩
      exact read countsOrigin states _ leafMem _ reads
  | inside _ mem induction =>
      rcases induction with ⟨position, counts, isStep⟩
      rcases sound.exists_root_of_mem_leaves isStep mem with ⟨root, written, comes, stands, _, built⟩
      exact ⟨root, counts.concerns comes.concerns, root, written, stands, built⟩

theorem keysIdentify : Step.KeysIdentify (Item.Involves items) := by
  intro left right leftInvolved rightInvolved sameKey
  rcases placed.isStepAt_of_involves sound leftInvolved with ⟨position, _, leftIsStep⟩
  rcases placed.isStepAt_of_involves sound rightInvolved with ⟨other, _, rightIsStep⟩
  exact sound.keysIdentify left right ⟨position, leftIsStep⟩ ⟨other, rightIsStep⟩ sameKey

end PlacesAll

end Construction

end FlowPlan

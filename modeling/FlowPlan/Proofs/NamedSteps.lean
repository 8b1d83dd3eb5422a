import FlowPlan.Proofs.DeclaredReads

/-! # Steps that are found under their ids

An id that an expression names is found at a position. The step that is made
for the position carries the id only if what stands there is an action that is
written with it: a group comes apart, and neither a reference nor the name of a
library step lends its own id. Whatever a condition shows under an id that does
stand for such an action, it reads.
-/

namespace FlowPlan

namespace WorkflowDefinition

variable {definition : WorkflowDefinition}

/-- What stands at the position is an action that is written with the id. -/
def IsActionWithId (definition : WorkflowDefinition) (position : Position) (id : String) : Prop :=
  ∃ root written, definition.StandsFor position root written ∧ written.children = none ∧
    written.id = some id

/-- Wherever a condition that counts in the job names the id, it finds an action with it, and
somewhere else than at its own position. -/
def NamesAction (definition : WorkflowDefinition) (index : Nat) (id : String) : Prop :=
  ∀ origin target, definition.CountsIn index origin → definition.Refers origin id →
    definition.names.find? origin.scope id = some target →
      target ≠ origin ∧ definition.IsActionWithId target id

theorem StandsFor.unique {position root otherRoot : Position} {written other : StepDefinition}
    (stands : definition.StandsFor position root written)
    (otherStands : definition.StandsFor position otherRoot other) :
    root = otherRoot ∧ written = other := by
  have sameRoot : root = otherRoot := by
    rcases stands with ⟨leads, found, isRoot⟩
    rcases otherStands with ⟨otherLeads, otherFound, otherIsRoot⟩
    induction leads with
    | here => exact (otherLeads.eq_of_root found isRoot).symm
    | reference before reusable _ induction =>
        cases otherLeads with
        | here =>
            cases before.symm.trans otherFound
            cases reusable.symm.trans otherIsRoot
        | reference otherBefore otherReusable leads =>
            cases before.symm.trans otherBefore
            cases reusable.symm.trans otherReusable
            exact induction found leads
  subst sameRoot
  exact ⟨rfl, Option.some.inj (stands.found.symm.trans otherStands.found)⟩

end WorkflowDefinition

namespace Construction

variable {definition : WorkflowDefinition} {construction : Construction}

theorem IsSound.action_of_isActionWithId (sound : construction.IsSound definition)
    {position : Position} {id : String} (isAction : definition.IsActionWithId position id)
    {step : Step} (isStep : construction.IsStepAt definition position step) :
    step.isGroup = false ∧ step.id? = some id := by
  rcases isAction with ⟨root, written, stands, single, isId⟩
  rcases isStep with ⟨otherRoot, otherWritten, otherStands, mem⟩
  rcases stands.unique otherStands with ⟨rfl, rfl⟩
  have makes := sound.makes stands mem
  exact ⟨makes.action single, makes.id.trans isId⟩

theorem IsSound.isActionWithId (sound : construction.IsSound definition) {position : Position}
    {step : Step} (isStep : construction.IsStepAt definition position step)
    (single : step.isGroup = false) {id : String} (isId : step.id? = some id) :
    definition.IsActionWithId position id := by
  rcases isStep with ⟨root, written, stands, mem⟩
  have makes := sound.makes stands mem
  refine ⟨root, written, stands, ?_, makes.id.symm.trans isId⟩
  refine Option.eq_none_iff_forall_ne_some.mpr fun children below => ?_
  cases single.symm.trans (makes.group children below).1

/-! ## Ids that conditions show -/

/-- If the id is known and stands for actions, one with that id is read. -/
def ReadsAction (construction : Construction) (definition : WorkflowDefinition) (index : Nat)
    (sources : List (Source Step)) (id : String) : Prop :=
  (∀ text, .unknownStep text id ∉ construction.warnings) → definition.NamesAction index id →
    ∃ step, .step step ∈ sources ∧ step.isGroup = false ∧ step.id? = some id

theorem States.readsAction (sound : construction.IsSound definition) {index : Nat}
    {position : Position} (counts : definition.CountsIn index position)
    {condition : Condition Step} (states : construction.States definition position condition) :
    condition.ShowsSteps (construction.ReadsAction definition index) := by
  refine states.shows.mono fun sources id shows known names => ?_
  rcases shows with ⟨found, ⟨origin, leads, refers, finds⟩, listed⟩
  have named := fun target => names origin target (counts.concerns leads.concerns) refers
  cases finds with
  | unknown _ text warned => exact absurd warned (known text)
  | itself isTarget same => exact absurd (Option.some.inj same).symm (named _ isTarget).1
  | @step target step isTarget _ isStep =>
      exact ⟨step, listed step rfl, sound.action_of_isActionWithId (named target isTarget).2 isStep⟩

theorem IsStepAt.readsAction (sound : construction.IsSound definition) {index : Nat}
    {position : Position} (counts : definition.CountsIn index position) {step : Step}
    (isStep : construction.IsStepAt definition position step) :
    ∀ condition ∈ step.ownCondition?,
      condition.ShowsSteps (construction.ReadsAction definition index) := by
  intro condition found
  rcases isStep with ⟨root, written, stands, mem⟩
  exact ((sound.makes stands mem).own condition found).readsAction sound
    (counts.concerns stands.concerns)

namespace PlacesAll

variable {index : Nat} {items : List Item}
  (placed : construction.PlacesAll definition index items) (sound : construction.IsSound definition)

include placed sound

theorem readsAction_own {step : Step} (involved : Item.Involves items step) :
    ∀ condition ∈ step.ownCondition?,
      condition.ShowsSteps (construction.ReadsAction definition index) := by
  rcases placed.isStepAt_of_involves sound involved with ⟨position, counts, isStep⟩
  exact isStep.readsAction sound counts

theorem readsAction_walk : ∀ item ∈ Item.walkAll items,
    item.ConditionsAmong (Condition.ShowsSteps (construction.ReadsAction definition index)) := by
  intro item mem
  rcases placed.holds_of_mem_walkAll sound mem with ⟨position, counts, holds⟩
  constructor
  · intro condition found
    exact (holds.condition condition found).readsAction sound counts
  · exact holds.step.readsAction sound counts

/-- What a node asks for its action under, and the condition of the action itself. -/
theorem readsAction_of_mem_nodes {node : Node} (nodeMem : node ∈ (Graph.ofItems items).nodes) :
    ∀ condition ∈ node.contexts ++ node.step.ownCondition?.toList,
      condition.ShowsSteps (construction.ReadsAction definition index) := by
  intro condition mem
  rcases List.mem_append.mp mem with context | own
  · exact Graph.among_context_of_mem_nodes Condition.closed_showsSteps
      (placed.readsAction_walk sound) nodeMem context
  · exact placed.readsAction_own sound (Graph.isInvolved_of_mem_nodes nodeMem).step condition
      (Option.mem_toList.mp own)

end PlacesAll

end Construction

/-! ## Ids that run conditions show -/

namespace Graph

variable {items : List Item}

/-- What is declared of the action of a node shows no reference that is not shown where the node
asks for its action or by the action itself. -/
theorem exists_shown_of_declared (covered : ∀ item ∈ items, item.IsCovered)
    (keys : Step.KeysIdentify (Item.Involves items)) {node : Node}
    (nodeMem : node ∈ (ofItems items).nodes) {leaf : DeclaredLeaf}
    (declared : (ofItems items).declared? node.key = some leaf) {condition : Condition Step}
    (isDeclared : leaf.condition = some condition) {id : String}
    (shown : ⟨.steps, id⟩ ∈ condition.shownReferences) :
    ∃ stated ∈ node.contexts ++ node.step.ownCondition?.toList,
      ⟨.steps, id⟩ ∈ stated.shownReferences := by
  let related (_ : List (Source Step)) (id : String) : Prop :=
    ∃ stated ∈ node.contexts ++ node.step.ownCondition?.toList,
      ⟨.steps, id⟩ ∈ stated.shownReferences
  have closed : Condition.Closed (Condition.ShowsSteps related) := Condition.closed_showsSteps
  have whole : condition.ShowsSteps related := by
    refine among_declared closed (fun item itemMem declares => ⟨?_, ?_⟩) declared condition
      isDeclared
    · intro stated found leaf leafMem text textMem id read
      rcases exists_context_of_declares nodeMem itemMem declares found with
        ⟨_, kept, keptMem, sameText, _⟩
      have statedCovered := ((covered item itemMem).condition stated found).1
      have keptCovered := (among_context_of_mem_nodes Condition.closed_isCoveredThroughout
        (Item.conditionsAmong_of_isCovered covered) nodeMem keptMem).1
      refine ⟨kept, List.mem_append_left _ keptMem, ?_⟩
      rw [← keptCovered.references_render, sameText, statedCovered.references_render]
      exact Condition.mem_shownReferences.mpr ⟨leaf, leafMem, text, textMem, read⟩
    · intro own found leaf leafMem text textMem id read
      have isOwn := step_eq_of_declares nodeMem keys itemMem declares ▸ found
      exact ⟨own, List.mem_append_right _ (Option.mem_toList.mpr isOwn),
        Condition.mem_shownReferences.mpr ⟨leaf, leafMem, text, textMem, read⟩⟩
  rcases Condition.mem_shownReferences.mp shown with ⟨leaf, leafMem, text, textMem, read⟩
  exact whole leaf leafMem text textMem id read

theorem exists_node_of_getElem? (keys : Step.KeysIdentify (Item.Involves items)) {order : List Nat}
    (resolved : (ofItems items).order = .ok order) {step : Step}
    (involved : Item.Involves items step) {place : Nat} (found : order[place]? = some step.key) :
    ∃ node ∈ (ofItems items).nodes, order[place]? = some node.key ∧ node.step = step := by
  have present := (mem_order_iff resolved step.key).mp (List.mem_of_getElem? found)
  rcases List.mem_map.mp present with ⟨node, nodeMem, sameKey⟩
  exact ⟨node, nodeMem, found.trans (congrArg some sameKey.symm),
    keys node.step step (isInvolved_of_mem_nodes nodeMem).step involved sameKey⟩

end Graph

namespace Construction.PlacesAll

variable {definition : WorkflowDefinition} {construction : Construction} {index : Nat}
  {items : List Item} (placed : construction.PlacesAll definition index items)
  (sound : construction.IsSound definition) {order : List Nat}
  (resolved : (Graph.ofItems items).order = .ok order) {id : String}
  (known : ∀ text, .unknownStep text id ∉ construction.warnings)
  (names : definition.NamesAction index id)

include placed sound resolved known names

/-- An id that a condition shows belongs to one of the steps whose places are known. -/
theorem exists_named {condition : Condition Step} (shown : ⟨.steps, id⟩ ∈ condition.shownReferences)
    (shows : condition.ShowsSteps (construction.ReadsAction definition index))
    (reads : condition.ReadsSteps (Item.Involves items)) {allowed : Nat → Prop}
    (reached : condition.ReadsSteps fun step => ∀ action ∈ step.leaves,
      ∃ place, allowed place ∧ order[place]? = some action.key) :
    ∃ place, allowed place ∧ ∃ node ∈ (Graph.ofItems items).nodes,
      order[place]? = some node.key ∧ node.step.id? = some id := by
  rcases Condition.mem_shownReferences.mp shown with ⟨leaf, leafMem, text, textMem, inText⟩
  rcases shows leaf leafMem text textMem id inText known names with ⟨step, stepMem, single, isId⟩
  have isLeaf : step ∈ step.leaves := by
    rw [Step.leaves_eq_singleton single]
    exact List.mem_singleton_self step
  rcases reached leaf leafMem _ stepMem step rfl step isLeaf with ⟨place, isAllowed, found⟩
  rcases Graph.exists_node_of_getElem? (placed.keysIdentify sound) resolved
    (reads leaf leafMem _ stepMem step rfl) found with ⟨node, nodeMem, atPlace, same⟩
  exact ⟨place, isAllowed, node, nodeMem, atPlace, same ▸ isId⟩

variable {position : Nat} {node : Node} (nodeMem : node ∈ (Graph.ofItems items).nodes)
  (isPlaced : order[position]? = some node.key) {condition : Condition Step}
  (runs : (Graph.ofItems items).runCondition (order.take position) node = some condition)
  (shown : ⟨.steps, id⟩ ∈ condition.shownReferences)

include nodeMem isPlaced runs shown

/-- The parts of a context that read later steps are left out, together with their ids. -/
theorem exists_earlier_of_undeclared
    (undeclared : ¬ ∃ item ∈ items, item.Declares node.key) :
    ∃ earlier < position, ∃ other ∈ (Graph.ofItems items).nodes,
      order[earlier]? = some other.key ∧ other.step.id? = some id := by
  have keys := placed.keysIdentify sound
  have involved := (Graph.isInvolved_of_mem_nodes nodeMem).step
  have shows : condition.ShowsSteps (construction.ReadsAction definition index) :=
    Graph.among_runCondition Condition.closed_showsSteps (placed.readsAction_walk sound) nodeMem
      (placed.readsAction_own sound involved) _ condition runs
  have reads : condition.ReadsSteps (Item.Involves items) :=
    Graph.among_runCondition (Condition.closed_readsOnly _) Graph.readsSteps_of_conditions nodeMem
      (Graph.readsSteps_ownCondition involved) _ condition runs
  have atPosition :
      ((Graph.ofItems items).runConditions [] order)[position]? = some (some condition) := by
    rw [Graph.getElem?_runConditions, isPlaced, Option.map_some,
      Graph.node?_eq_some (Graph.isIndexed_ofItems items) nodeMem, Option.bind_some,
      List.nil_append, runs]
  refine placed.exists_named sound resolved known names shown shows reads ?_
  refine reads.throughout keys fun action read => ?_
  rcases Condition.mem_readActions.mp read with ⟨step, stepMem, inside⟩
  exact Graph.run_conditions_read_earlier keys resolved isPlaced undeclared atPosition stepMem
    action inside

/-- A declared condition shows what a context of its action shows, and that one may read the action
itself. -/
theorem exists_upto_of_declared (covered : ∀ item ∈ items, item.IsCovered)
    (declared : ∃ item ∈ items, item.Declares node.key) :
    ∃ earlier ≤ position, ∃ other ∈ (Graph.ofItems items).nodes,
      order[earlier]? = some other.key ∧ other.step.id? = some id := by
  have keys := placed.keysIdentify sound
  have isInvolved := Graph.isInvolved_of_mem_nodes nodeMem
  have stated : ∃ stated ∈ node.contexts ++ node.step.ownCondition?.toList,
      ⟨.steps, id⟩ ∈ stated.shownReferences := by
    cases isDeclared : (Graph.ofItems items).declared? node.key with
    | none => exact absurd declared (Graph.declared?_ofItems_eq_none.mp isDeclared)
    | some leaf =>
        rw [Graph.runCondition, isDeclared] at runs
        exact Graph.exists_shown_of_declared covered keys nodeMem isDeclared runs shown
  rcases stated with ⟨stated, statedMem, inStated⟩
  have reads : stated.ReadsSteps (Item.Involves items) := by
    rcases List.mem_append.mp statedMem with context | own
    · exact isInvolved.contexts stated context
    · exact Graph.readsSteps_ownCondition isInvolved.step stated (Option.mem_toList.mp own)
  refine placed.exists_named sound resolved known names inStated
    (placed.readsAction_of_mem_nodes sound nodeMem stated statedMem) reads ?_
  refine reads.throughout keys fun action read => ?_
  by_cases itself : action.key = node.key
  · exact ⟨position, Nat.le_refl _, isPlaced.trans (congrArg some itself.symm)⟩
  · have inTake := Graph.mem_take_of_mem_readActions resolved nodeMem isPlaced statedMem read itself
    exact (exists_lt_of_mem_take inTake).imp fun _ => And.imp_left Nat.le_of_lt

end Construction.PlacesAll

/-! ## Steps of a job -/

namespace Construction

variable {definition : WorkflowDefinition} {construction : Construction}

/-- An action that a position comes to is inside of the step there. -/
theorem IsSound.exists_action_of_comesTo (sound : construction.IsSound definition)
    {position root : Position} (comes : definition.ComesTo position root) {step : Step}
    (isStep : construction.IsStepAt definition position step) :
    ∃ action ∈ step.actions, (root, action) ∈ construction.built := by
  rcases isStep with ⟨standsAt, written, stands, mem⟩
  induction comes generalizing standsAt written step with
  | action isHere isAction =>
      rcases isHere.unique stands with ⟨rfl, rfl⟩
      exact ⟨step, Step.mem_actions.mpr (.inl ⟨(sound.makes stands mem).action isAction, rfl⟩), mem⟩
  | @child _ _ _ _ children index isHere isGroup isChild _ induction =>
      rcases isHere.unique stands with ⟨rfl, rfl⟩
      have below := ((sound.makes stands mem).group children isGroup).2
      rcases exists_of_mem_forall₂ below.flip (List.mem_range.mpr isChild) with
        ⟨child, childMem, places⟩
      rcases places.step with ⟨childRoot, childWritten, childStands, childStep⟩
      rcases induction childRoot childWritten childStands childStep with ⟨action, inside, isBuilt⟩
      exact ⟨action, Step.mem_actions.mpr (.inr ⟨child, childMem, inside⟩), isBuilt⟩

namespace BuildsJob

variable {index : Nat} {written : String × JobDefinition} {job : Job}
  (builds : construction.BuildsJob definition index written.2 job)

include builds

theorem exists_item (isWritten : definition.jobs[index]? = some written) {place : Nat}
    {step : StepDefinition} (found : definition.step? (.job index place) = some step) :
    ∃ item ∈ job.items, construction.Places definition (.job index place) item := by
  have atPlace : StepDefinition.within? written.2.steps [place] = some step := by
    simpa [WorkflowDefinition.step?, Position.job, isWritten] using found
  exact exists_of_mem_forall₂ builds.items.flip
    (List.mem_range.mpr (List.getElem?_eq_some_iff.mp atPlace).1)

variable (sound : construction.IsSound definition)

include sound

/-- An action that one of the places of the job comes to is met by the job. -/
theorem exists_action_of_comesTo (isWritten : definition.jobs[index]? = some written)
    {place : Nat} {root : Position} (comes : definition.ComesTo (.job index place) root) :
    ∃ action ∈ Item.actionsMet job.items, (root, action) ∈ construction.built := by
  rcases comes.exists_step with ⟨step, found⟩
  rcases builds.exists_item isWritten found with ⟨item, itemMem, places⟩
  rcases sound.exists_action_of_comesTo comes places.step with ⟨action, inside, isBuilt⟩
  rcases Item.exists_visit_of_mem_actions inside [] with ⟨context, visited⟩
  exact ⟨action, Item.mem_actionsMet_of_visit (Item.mem_encountersAll.mpr ⟨item, itemMem, visited⟩),
    isBuilt⟩

/-- An id that a run condition shows belongs to an action further up, unless it is the id of the
action itself and the job declares that. -/
theorem exists_named_of_shown (covered : ∀ item ∈ job.items, item.IsCovered) {order : List Nat}
    (resolved : job.graph.order = .ok order) {position : Nat} {node : Node}
    (nodeMem : node ∈ job.graph.nodes) (isPlaced : order[position]? = some node.key)
    {condition : Condition Step}
    (runs : job.graph.runCondition (order.take position) node = some condition) {id : String}
    (shown : ⟨.steps, id⟩ ∈ condition.shownReferences)
    (known : ∀ text, .unknownStep text id ∉ construction.warnings)
    (names : definition.NamesAction index id) :
    ∃ earlier ≤ position, (∃ other ∈ job.graph.nodes,
      order[earlier]? = some other.key ∧ other.step.id? = some id) ∧
        (earlier = position → ∃ place, definition.IsActionWithId (.job index place) id) := by
  have placed := builds.placesAll
  by_cases declared : ∃ item ∈ job.items, item.Declares node.key
  · rcases placed.exists_upto_of_declared sound resolved known names nodeMem isPlaced runs shown
      covered declared with ⟨earlier, before, other, otherMem, otherAt, isId⟩
    refine ⟨earlier, before, ⟨other, otherMem, otherAt, isId⟩, fun same => ?_⟩
    subst same
    rcases declared with ⟨item, itemMem, declares⟩
    have sameKey : node.key = other.key := Option.some.inj (isPlaced.symm.trans otherAt)
    have isOther := Graph.step_eq_of_declares otherMem (placed.keysIdentify sound) itemMem
      (sameKey ▸ declares)
    rcases List.mem_iff_getElem?.mp itemMem with ⟨place, atPlace⟩
    exact ⟨place, sound.isActionWithId (builds.places_getElem? atPlace).step declares.1
      (isOther ▸ isId)⟩
  · rcases placed.exists_earlier_of_undeclared sound resolved known names nodeMem isPlaced runs shown
      declared with ⟨earlier, before, found⟩
    exact ⟨earlier, by omega, found, fun same => absurd same (Nat.ne_of_lt before)⟩

end BuildsJob

end Construction

end FlowPlan

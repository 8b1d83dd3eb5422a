import Mathlib
import FlowPlan.Proofs.PlacedJobs
import FlowPlan.Proofs.Reading

/-! # Conditions of declared actions read earlier steps

The condition of an action at the top level of a job is taken whole, without a
look at the places of the steps that it reads. They stand before the action
because the node of the action asks for it under a condition with that text and
depends on what that one reads. So nothing goes wrong as long as texts tell what
conditions read and no condition gets hold of the action's own step.
-/

namespace FlowPlan

open Condition (Closed)

namespace Item

/-- The job meets an action with the key in the context. -/
def MeetsIn (items : List Item) (key : Nat) (context : Condition Step) : Prop :=
  ∃ action, action.key = key ∧ .visit action (some context) ∈ encountersAll [] items

/-- Contexts of the action that have one text read the same steps. -/
def ReadsAlike (items : List Item) (key : Nat) : Prop :=
  ∀ first second, MeetsIn items key first → MeetsIn items key second →
    first.render = second.render → ∀ step, .step step ∈ first.sources → .step step ∈ second.sources

end Item

namespace Graph

variable {items : List Item} {node : Node} (nodeMem : node ∈ (ofItems items).nodes)

include nodeMem

/-- The node of a declared action asks for it under each condition with which it is declared, or
under one that has the same text. -/
theorem exists_context_of_declares {item : Item} (itemMem : item ∈ items)
    (declares : item.Declares node.key) {condition : Condition Step}
    (found : item.condition = some condition) :
    Item.MeetsIn items node.key condition ∧ ∃ kept ∈ node.contexts,
      kept.render = condition.render ∧ Item.MeetsIn items node.key kept := by
  have context : Condition.allOf (item.innerScope []) = some condition := by
    rw [Item.innerScope, found]
    rfl
  have visited : .visit item.step (some condition) ∈ Item.encountersAll [] items :=
    Item.mem_encountersAll.mpr ⟨item, itemMem,
      Item.visit_mem_encounters.mpr (Or.inl ⟨declares.1, rfl, context.symm⟩)⟩
  refine ⟨⟨item.step, declares.2, visited⟩, ?_⟩
  rcases exists_node_of_visit visited with ⟨other, otherMem, sameKey, isMet, asked, asks, sameText⟩
  cases List.inj_on_of_nodup_map (nodup_keys_ofItems items) otherMem nodeMem
    (sameKey.trans declares.2)
  rcases Option.map_eq_some_iff.mp sameText with ⟨kept, rfl, keptText⟩
  exact ⟨kept, asks, keptText, isMet.asked (some kept) asks⟩

/-- An item that declares an action places the step of its node. -/
theorem step_eq_of_declares (keys : Step.KeysIdentify (Item.Involves items)) {item : Item}
    (itemMem : item ∈ items) (declares : item.Declares node.key) : item.step = node.step := by
  have met : item.step ∈ Item.actionsMet items :=
    Item.mem_actionsMet.mpr ⟨declares.1, item,
      Item.mem_walkAll.mpr ⟨item, itemMem, item.self_mem_walk⟩, rfl⟩
  exact keys item.step node.step (.met met) (isInvolved_of_mem_nodes nodeMem).step declares.2

variable {order : List Nat} (resolved : (ofItems items).order = .ok order) {position : Nat}
  (placed : order[position]? = some node.key)

include resolved placed

/-- Whatever a declared condition reads has been placed, if it is not the action itself. -/
theorem known_of_declares (alike : Item.ReadsAlike items node.key) {item : Item}
    (itemMem : item ∈ items) (declares : item.Declares node.key) {condition : Condition Step}
    (found : item.condition = some condition)
    (others : ∀ action ∈ condition.readActions, action.key ≠ node.key) :
    ∀ action ∈ condition.readActions, action.key ∈ order.take position := by
  intro action read
  rcases exists_context_of_declares nodeMem itemMem declares found with
    ⟨meets, kept, keptMem, sameText, keptMeets⟩
  rcases Condition.mem_readActions.mp read with ⟨step, stepMem, inside⟩
  have keptReads := alike condition kept meets keptMeets sameText.symm step stepMem
  exact mem_take_of_mem_readActions resolved nodeMem placed (List.mem_append_left _ keptMem)
    (Condition.mem_readActions.mpr ⟨step, keptReads, inside⟩) (others action read)

variable (keys : Step.KeysIdentify (Item.Involves items))

include keys

theorem readsSteps_declared (alike : Item.ReadsAlike items node.key)
    (others : ∀ item ∈ items, item.Declares node.key → ∀ condition ∈ item.condition,
      ∀ action ∈ condition.readActions, action.key ≠ node.key) {leaf : DeclaredLeaf}
    (declared : (ofItems items).declared? node.key = some leaf) :
    ∀ condition ∈ leaf.condition, condition.ReadsSteps fun step =>
      ∀ action ∈ step.leaves, action.key ∈ order.take position := by
  let earlier : Condition Step → Prop :=
    Condition.ReadsSteps fun step => ∀ action ∈ step.leaves, action.key ∈ order.take position
  have closed : Closed earlier := Condition.closed_readsOnly _
  refine among_declared closed (fun item itemMem declares => ?_) declared
  have reads := readsSteps_of_conditions item
    (Item.mem_walkAll.mpr ⟨item, itemMem, item.self_mem_walk⟩)
  have isNode := step_eq_of_declares nodeMem keys itemMem declares
  constructor
  · intro condition found
    exact (reads.1 condition found).known keys
      (known_of_declares nodeMem resolved placed alike itemMem declares found
        (others item itemMem declares condition found))
  · intro own found
    exact (reads.2 own found).known keys
      (known_ownCondition keys resolved nodeMem placed (isNode ▸ found))

end Graph

namespace WorkflowDefinition

/-- No condition that counts at the position gets hold of the step there under another name. -/
def SparesItself (definition : WorkflowDefinition) (position : Position) : Prop :=
  ∀ origin id target root written, definition.Leads position origin →
    definition.Refers origin id → definition.names.find? origin.scope id = some target →
      target ≠ origin → definition.StandsFor position root written →
        ¬ definition.ComesTo target root

/-- No condition that counts at the position names the id of the step there. -/
def SparesOwnId (definition : WorkflowDefinition) (position : Position) : Prop :=
  ∀ origin id root written, definition.Leads position origin → definition.Refers origin id →
    definition.StandsFor position root written → written.id ≠ some id

variable {definition : WorkflowDefinition}

theorem key_ne_of_sparesItself {construction : Construction}
    (sound : construction.IsSound definition) {position : Position}
    (spares : definition.SparesItself position) {item : Item}
    (places : construction.Places definition position item) {condition : Condition Step}
    (found : item.condition = some condition) :
    ∀ action ∈ condition.readActions, action.key ≠ item.step.key := by
  intro action read sameKey
  rcases Condition.mem_readActions.mp read with ⟨step, stepMem, inside⟩
  rcases (places.condition condition found).reads.of_mem_sources stepMem with
    ⟨id, origin, leads, refers, finds⟩
  cases finds with
  | @step target _ isTarget other isStep =>
      rcases places.step with ⟨root, written, stands, mem⟩
      rcases sound.exists_root_of_mem_leaves isStep inside with
        ⟨actionRoot, actionWritten, comes, actionStands, _, actionMem⟩
      have sameRoot := (sound.eq_of_key actionStands stands actionMem mem sameKey).1
      refine spares origin id target root written leads refers isTarget ?_ stands (sameRoot ▸ comes)
      exact fun same => other (congrArg some same.symm)

/-- Whatever is stated at a place, or by the action that stands there, names only what the
conditions there name. -/
theorem conditionsAmong_of_places {construction : Construction}
    (sound : construction.IsSound definition) {position : Position} {item : Item}
    (places : construction.Places definition position item) :
    item.ConditionsAmong fun condition => condition.IsCovered ∧
      condition.ShowsSteps fun _ id =>
        ∃ origin, definition.Leads position origin ∧ definition.Refers origin id := by
  constructor
  · intro condition found
    have states := places.condition condition found
    exact ⟨states.covered, states.shows.mono fun _ _ ⟨_, ⟨origin, leads, refers, _⟩, _⟩ =>
      ⟨origin, leads, refers⟩⟩
  · intro own found
    rcases places.step with ⟨root, written, stands, mem⟩
    have states := (sound.makes stands mem).own own found
    refine ⟨states.covered, states.shows.mono fun _ _ ⟨_, ⟨origin, leads, refers, _⟩, _⟩ => ?_⟩
    have isRoot : origin = root := leads.eq_of_root stands.found stands.isRoot
    exact ⟨origin, isRoot ▸ stands.leads, refers⟩

section Declared

variable {construction : Construction} {index : Nat} {written : JobDefinition} {job : Job}
  (builds : construction.BuildsJob definition index written job)
  (sound : construction.IsSound definition) {key : Nat}

include builds sound

/-- The text of a declared condition names only what is named where the action is declared. -/
theorem exists_refers_of_declared {leaf : DeclaredLeaf}
    (isDeclared : job.graph.declared? key = some leaf) {condition : Condition Step}
    (found : leaf.condition = some condition) {id : String}
    (shown : ⟨.steps, id⟩ ∈ Text.references condition.render) :
    ∃ place item, job.items[place]? = some item ∧ item.Declares key ∧
      ∃ origin, definition.Leads (.job index place) origin ∧ definition.Refers origin id := by
  let named (_ : List (Source Step)) (id : String) : Prop :=
    ∃ place item, job.items[place]? = some item ∧ item.Declares key ∧
      ∃ origin, definition.Leads (.job index place) origin ∧ definition.Refers origin id
  have closed : Closed fun condition : Condition Step =>
      condition.IsCovered ∧ condition.ShowsSteps named :=
    Condition.closed_isCovered.and Condition.closed_showsSteps
  have whole : condition.IsCovered ∧ condition.ShowsSteps named := by
    refine Graph.among_declared closed (fun item itemMem declares => ?_) isDeclared condition found
    rcases List.mem_iff_getElem?.mp itemMem with ⟨place, atPlace⟩
    have among := conditionsAmong_of_places sound (builds.places_getElem? atPlace)
    exact among.mono fun _ stated => ⟨stated.1, stated.2.mono fun _ _ named =>
      ⟨place, item, atPlace, declares, named⟩⟩
  rw [whole.1.references_render] at shown
  rcases Condition.mem_shownReferences.mp shown with ⟨leaf, leafMem, text, textMem, inText⟩
  exact whole.2 leaf leafMem text textMem id inText

/-- Where an action is declared under conditions that leave its step alone, and contexts that have
one text read the same, all that its condition reads comes earlier. -/
theorem readsSteps_of_sparesItself {order : List Nat} (resolved : job.graph.order = .ok order)
    {position : Nat} {node : Node} (nodeMem : node ∈ job.graph.nodes)
    (placed : order[position]? = some node.key)
    (spares : ∀ place item, job.items[place]? = some item → item.Declares node.key →
      definition.SparesItself (.job index place))
    (alike : Item.ReadsAlike job.items node.key) {leaf : DeclaredLeaf}
    (isDeclared : job.graph.declared? node.key = some leaf) :
    ∀ condition ∈ leaf.condition, condition.ReadsSteps fun step =>
      ∀ action ∈ step.leaves, action.key ∈ order.take position := by
  have keys := builds.placesAll.keysIdentify sound
  refine Graph.readsSteps_declared nodeMem resolved placed keys alike ?_ isDeclared
  intro item itemMem declares condition isStated
  rcases List.mem_iff_getElem?.mp itemMem with ⟨place, atPlace⟩
  have places := builds.places_getElem? atPlace
  exact declares.2 ▸ key_ne_of_sparesItself sound (spares place item atPlace declares) places
    isStated

/-- Where an action is declared under conditions that leave its id alone, the text of its condition
does so as well. -/
theorem id?_ne_of_sparesOwnId
    (spares : ∀ place item, job.items[place]? = some item → item.Declares key →
      definition.SparesOwnId (.job index place)) {leaf : DeclaredLeaf}
    (isDeclared : job.graph.declared? key = some leaf) {condition : Condition Step}
    (found : leaf.condition = some condition) {item : Item} (itemMem : item ∈ job.items)
    (declares : item.Declares key) {id : String}
    (shown : ⟨.steps, id⟩ ∈ Text.references condition.render) : item.step.id? ≠ some id := by
  rcases exists_refers_of_declared builds sound isDeclared found shown with
    ⟨place, other, atPlace, otherDeclares, origin, leads, refers⟩
  rcases (builds.places_getElem? atPlace).step with ⟨root, otherWritten, stands, mem⟩
  have sameStep : item.step = other.step := by
    rcases List.mem_iff_getElem?.mp itemMem with ⟨itemPlace, atItem⟩
    exact sound.keysIdentify _ _ ⟨_, (builds.places_getElem? atItem).step⟩
      ⟨_, root, otherWritten, stands, mem⟩ (declares.2.trans otherDeclares.2.symm)
  rw [sameStep, (sound.makes stands mem).id]
  exact spares place other atPlace otherDeclares origin id root otherWritten leads refers stands

end Declared

/-- Where no condition of a declared action reads the action itself and the contexts of the action
are told apart by their texts, all steps that its condition reads come earlier. Where none of them
names the id of the action, the text of that condition does not name it either. -/
theorem declared_conditions_read_earlier {workflow : Workflow} {warnings : List Warning}
    (built : definition.build = (.ok workflow, warnings)) {index : Nat} {job : Job}
    (isJob : workflow.jobs[index]? = some job) {order : List Nat}
    (resolved : job.graph.order = .ok order) {position key : Nat}
    (placed : order[position]? = some key) (declared : ∃ item ∈ job.items, item.Declares key)
    {condition : Condition Step}
    (runs : (job.graph.runConditions [] order)[position]? = some (some condition)) :
    ((∀ place item, job.items[place]? = some item → item.Declares key →
        definition.SparesItself (.job index place)) →
      Item.ReadsAlike job.items key →
        ∀ step, .step step ∈ condition.sources →
          ∀ action ∈ step.leaves, ∃ earlier < position, order[earlier]? = some action.key) ∧
    ((∀ place item, job.items[place]? = some item → item.Declares key →
        definition.SparesOwnId (.job index place)) →
      ∀ item ∈ job.items, item.Declares key →
        ∀ id, ⟨.steps, id⟩ ∈ Text.references condition.render → item.step.id? ≠ some id) := by
  have sound := definition.isSound_construction
  rcases (buildsJob_of_build built).2 index job isJob with ⟨written, _, jobBuilt⟩
  rw [Job.graph, Graph.getElem?_runConditions, placed, Option.map_some, List.nil_append] at runs
  rcases Option.bind_eq_some_iff.mp (Option.some.inj runs) with ⟨node, found, nodeRuns⟩
  rcases Graph.mem_of_node?_eq_some found with ⟨nodeMem, rfl⟩
  cases isDeclared : (Graph.ofItems job.items).declared? node.key with
  | none => exact absurd declared (Graph.declared?_ofItems_eq_none.mp isDeclared)
  | some leaf =>
      rw [Graph.runCondition, isDeclared] at nodeRuns
      constructor
      · intro spares alike step read action actionMem
        have reads := readsSteps_of_sparesItself jobBuilt sound resolved nodeMem placed spares alike
          isDeclared condition nodeRuns
        exact exists_lt_of_mem_take (reads.of_mem_sources read action actionMem)
      · exact fun spares item itemMem declares id shown =>
          id?_ne_of_sparesOwnId jobBuilt sound spares isDeclared nodeRuns itemMem declares shown

end WorkflowDefinition

/-! ## A step that runs after a successful one -/

theorem WorkflowDefinition.itemAt_eq_newItemAt {definition : WorkflowDefinition}
    {underway : Underway} {position : Position} {written : StepDefinition}
    (found : definition.step? position = some written) (isFree : position ∉ underway.items) :
    definition.itemAt underway position = definition.newItemAt
      { underway with items := position :: underway.items } position written := by
  rw [itemAt, dif_neg isFree]
  split
  · rename_i absent
    cases found.symm.trans absent
  · rename_i other isOther
    cases found.symm.trans isOther
    rfl

namespace Sample

open Condition (Derives)

/-- The condition that `steps.a.outcome == 'success'` is read as, if the id stands for the step. -/
def successOfA (read : Option Step) : Condition Step :=
  .comparison "steps.a.outcome".toList .equal (.string "success".toList)
    (read.map Source.step).toList

theorem sources_successOfA (scope : StepScope Step) :
    Text.sources scope "steps.a.outcome == 'success'".toList =
      ((scope "a").map Source.step).toList := by
  have references : Text.references "steps.a.outcome == 'success'".toList = [⟨.steps, "a"⟩] := by
    cbv
  rw [Text.sources, references]
  simp only [List.filterMap_cons, List.filterMap_nil, Reference.source?]
  cases scope "a" <;> rfl

theorem parse_successOfA (scope : StepScope Step) :
    Condition.parse scope "steps.a.outcome == 'success'".toList =
      .ok (successOfA (scope "a")) := by
  have name : Text.IsDottedName "steps.a.outcome".toList := by decide
  have comparison : Derives scope .operand "steps.a.outcome == 'success'".toList
      (.comparison "steps.a.outcome".toList .equal (.string "success".toList)
        (Text.sources scope "steps.a.outcome == 'success'".toList)) :=
    .comparison name .blank .blank trivial rfl
  rw [sources_successOfA] at comparison
  have whole : Derives scope (.chain .or) _ (successOfA (scope "a")) := .alone (.alone comparison)
  rcases Condition.reads_of_derives whole with ⟨phrase, reads⟩
  have parsed := Condition.parse_of_reads phrase reads (.plain .nil .nil)
  rwa [List.nil_append, List.append_nil] at parsed

theorem conditionAt_successOfA (definition : WorkflowDefinition) (underway : Underway)
    (position : Position) :
    definition.conditionAt underway position "steps.a.outcome == 'success'" =
      (fun scope : StepScope Step => successOfA (scope "a")) <$>
        definition.scopeAt underway position.scope (some position)
          "steps.a.outcome == 'success'" := by
  rw [WorkflowDefinition.conditionAt]
  simp only [parse_successOfA]
  exact bind_pure_comp _ _

def writtenA : StepDefinition where
  id := some "a"
  run := some "x"

def writtenB : StepDefinition where
  id := some "b"
  run := some "y"
  condition := some "steps.a.outcome == 'success'"

def bReadsA : WorkflowDefinition where
  jobs := [("j", { steps := [writtenA, writtenB] })]

def stepA : Step := .action 1 (some "a") [] { run := some "x" } []

def stepB : Step := .action 2 (some "b") [] { run := some "y" } []

def bReadsAItems : List Item :=
  [.ofStep stepA, .place stepB (some (successOfA (some stepA))) [] []]

def bReadsAWorkflow : Workflow where
  jobs := [{ id := "j", items := bReadsAItems }]

theorem build_bReadsA : bReadsA.build = (.ok bReadsAWorkflow, []) := by
  have found : bReadsA.step? (.job 0 1) = some writtenB := rfl
  have second : bReadsA.itemAt {} (.job 0 1) = _ :=
    WorkflowDefinition.itemAt_eq_newItemAt found List.not_mem_nil
  rw [WorkflowDefinition.newItemAt] at second
  simp only [writtenB, conditionAt_successOfA] at second
  have jobs : bReadsA.jobs.zipIdx = [(("j", { steps := [writtenA, writtenB] }), 0)] := rfl
  have places : List.range [writtenA, writtenB].length = [0, 1] := rfl
  rw [WorkflowDefinition.build, WorkflowDefinition.construct, jobs]
  simp only [List.mapM_cons, List.mapM_nil, WorkflowDefinition.jobAt, places, second]
  cbv

theorem bReadsA_resolved : (Graph.ofItems bReadsAItems).order = .ok [1, 2] := by
  decide +kernel

/-- All that counts where the second step is declared is its own condition. -/
theorem eq_of_refers_bReadsA {origin : Position} {id : String}
    (leads : bReadsA.Leads (.job 0 1) origin) (refers : bReadsA.Refers origin id) :
    origin = .job 0 1 ∧ id = "a" := by
  have found : bReadsA.step? (.job 0 1) = some writtenB := rfl
  cases leads.eq_of_root found rfl
  rcases refers with ⟨other, isOther, text, isText, mem⟩
  cases found.symm.trans isOther
  cases isText
  have references : Text.references "steps.a.outcome == 'success'".toList = [⟨.steps, "a"⟩] := by
    cbv
  rw [references] at mem
  cases List.mem_singleton.mp mem
  exact ⟨rfl, rfl⟩

/-- The two steps are written at different positions, so the second one can only read the first. -/
theorem sparesItself_bReadsA : bReadsA.SparesItself (.job 0 1) := by
  intro origin id target root written leads refers isTarget _ stands comes
  have found : bReadsA.step? (.job 0 1) = some writtenB := rfl
  have firstFound : bReadsA.step? (.job 0 0) = some writtenA := rfl
  rcases eq_of_refers_bReadsA leads refers with ⟨rfl, rfl⟩
  cases stands.leads.eq_of_root found rfl
  have isFirst : target = .job 0 0 := by
    have named : bReadsA.names.find? (.job 0) "a" = some (.job 0 0) := rfl
    exact Option.some.inj (isTarget.symm.trans named)
  subst isFirst
  cases comes with
  | action stands _ => cases stands.leads.eq_of_root firstFound rfl
  | child stands isGroup _ _ =>
      cases stands.leads.eq_of_root firstFound rfl
      cases stands.found
      cases isGroup

theorem sparesOwnId_bReadsA : bReadsA.SparesOwnId (.job 0 1) := by
  intro origin id root written leads refers stands
  have found : bReadsA.step? (.job 0 1) = some writtenB := rfl
  rcases eq_of_refers_bReadsA leads refers with ⟨_, rfl⟩
  cases stands.leads.eq_of_root found rfl
  cases stands.found
  decide

theorem place_eq_of_declares_bReadsA {place : Nat} {item : Item}
    (found : bReadsAItems[place]? = some item) (declares : item.Declares 2) : place = 1 := by
  rcases place with _ | _ | place
  · cases found
    cases declares.2
  · rfl
  · cases found

theorem encounters_bReadsAItems : Item.encountersAll [] bReadsAItems =
    [.visit stepA none, .visit stepB (some (successOfA (some stepA)))] := rfl

theorem readsAlike_bReadsA : Item.ReadsAlike bReadsAItems 2 := by
  have only : ∀ context, Item.MeetsIn bReadsAItems 2 context →
      context = successOfA (some stepA) := by
    rintro context ⟨action, _, visited⟩
    rw [encounters_bReadsAItems] at visited
    have second : action = stepB ∧ context = successOfA (some stepA) := by simpa using visited
    exact second.2
  intro first second firstMeets secondMeets _ step mem
  rw [only second secondMeets, ← only first firstMeets]
  exact mem

theorem declared_conditions_read_earlier_bReadsA :
    bReadsA.build = (.ok bReadsAWorkflow, []) ∧
    (Graph.ofItems bReadsAItems).runConditions [] [1, 2] =
      [none, some (successOfA (some stepA))] ∧
    (.step stepA ∈ (successOfA (some stepA)).sources ∧
      ∀ action ∈ stepA.leaves, ∃ earlier < 1, [1, 2][earlier]? = some action.key) ∧
    ∀ id, ⟨.steps, id⟩ ∈ Text.references (successOfA (some stepA)).render →
      stepB.id? ≠ some id := by
  let job : Job := { id := "j", items := bReadsAItems }
  have isJob : bReadsAWorkflow.jobs[0]? = some job := rfl
  have runs : job.graph.runConditions [] [1, 2] = [none, some (successOfA (some stepA))] := by
    cbv
  have isDeclared : ∃ item ∈ job.items, item.Declares 2 := ⟨_, .tail _ (.head _), rfl, rfl⟩
  have both := WorkflowDefinition.declared_conditions_read_earlier build_bReadsA isJob
    bReadsA_resolved rfl isDeclared (congrArg (·[1]?) runs)
  refine ⟨build_bReadsA, runs, ⟨List.mem_cons_self, ?_⟩, ?_⟩
  · refine both.1 (fun place item found declares => ?_) readsAlike_bReadsA stepA List.mem_cons_self
    exact place_eq_of_declares_bReadsA found declares ▸ sparesItself_bReadsA
  · refine both.2 (fun place item found declares => ?_) _ (.tail _ (.head _)) ⟨rfl, rfl⟩
    exact place_eq_of_declares_bReadsA found declares ▸ sparesOwnId_bReadsA

/-! ## Two steps that both read the first one -/

def writtenFirst : StepDefinition where
  id := some "a"
  run := some "x"
  condition := some "steps.a.outcome == 'success'"
  dependsOn := .single "b"

/-- The condition of the first step does not read the step itself, though its text says so. -/
def bothReadA : WorkflowDefinition where
  jobs := [("j", { steps := [writtenFirst, writtenB] })]

def bothReadAItems : List Item :=
  [.place stepA (some (successOfA none)) [.ofStep stepB] [],
    .place stepB (some (successOfA (some stepA))) [] []]

def bothReadAWorkflow : Workflow where
  jobs := [{ id := "j", items := bothReadAItems }]

theorem build_bothReadA : bothReadA.build = (.ok bothReadAWorkflow, []) := by
  have firstFound : bothReadA.step? (.job 0 0) = some writtenFirst := rfl
  have secondFound : bothReadA.step? (.job 0 1) = some writtenB := rfl
  have first : bothReadA.itemAt {} (.job 0 0) = _ :=
    WorkflowDefinition.itemAt_eq_newItemAt firstFound List.not_mem_nil
  have second : bothReadA.itemAt {} (.job 0 1) = _ :=
    WorkflowDefinition.itemAt_eq_newItemAt secondFound List.not_mem_nil
  rw [WorkflowDefinition.newItemAt] at first second
  simp only [writtenFirst, writtenB, conditionAt_successOfA] at first second
  have jobs : bothReadA.jobs.zipIdx =
      [(("j", { steps := [writtenFirst, writtenB] }), 0)] := rfl
  have places : List.range [writtenFirst, writtenB].length = [0, 1] := rfl
  rw [WorkflowDefinition.build, WorkflowDefinition.construct, jobs]
  simp only [List.mapM_cons, List.mapM_nil, WorkflowDefinition.jobAt, places, first, second]
  cbv

/-- The second step is met under the condition of the first one, which reads nothing. Its own
condition has that text and is left out of its contexts, so it runs before the step it reads. The
text of the first one names the step itself. -/
theorem declared_condition_reads_later :
    bothReadA.build = (.ok bothReadAWorkflow, []) ∧
    (Graph.ofItems bothReadAItems).order = .ok [2, 1] ∧
    (∃ item ∈ bothReadAItems, item.Declares 2) ∧
    (∃ condition, ((Graph.ofItems bothReadAItems).runConditions [] [2, 1])[0]? =
        some (some condition) ∧
      .step stepA ∈ condition.sources ∧
      ¬ ∀ action ∈ stepA.leaves, ∃ earlier < 0, [2, 1][earlier]? = some action.key) ∧
    ∃ item ∈ bothReadAItems, item.Declares 1 ∧ item.step.id? = some "a" ∧
      ∃ condition, ((Graph.ofItems bothReadAItems).runConditions [] [2, 1])[1]? =
          some (some condition) ∧
        ⟨.steps, "a"⟩ ∈ Text.references condition.render := by
  have resolved : (Graph.ofItems bothReadAItems).order = .ok [2, 1] := by
    decide +kernel
  have runs : (Graph.ofItems bothReadAItems).runConditions [] [2, 1] =
      [some (successOfA (some stepA)), some (successOfA none)] := by
    cbv
  have shown : Text.references (successOfA none).render = [⟨.steps, "a"⟩] := by
    cbv
  refine ⟨build_bothReadA, resolved, by decide, ⟨successOfA (some stepA), congrArg (·[0]?) runs,
    List.mem_cons_self, fun earlier => ?_⟩, _, .head _, ⟨rfl, rfl⟩, rfl, successOfA none,
    congrArg (·[1]?) runs, ?_⟩
  · rcases earlier stepA List.mem_cons_self with ⟨place, before, _⟩
    exact Nat.not_lt_zero place before
  · rw [shown]
    exact List.mem_cons_self

end Sample

end FlowPlan

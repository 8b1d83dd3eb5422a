import FlowPlan.Proofs.AlikeOrders
import FlowPlan.Proofs.Circles
import FlowPlan.Proofs.ConsumedNeeds
import FlowPlan.Proofs.ReducedDefinitions

/-! # Jobs on their own

A job that needs no other job and uses no artifacts is built and resolved just
as well when all other jobs are left out. It has the same steps then, under
conditions with the same text. The order is another matter: what a condition
reads is gone through by the numbers of the steps, and another job may have had
the steps of the library numbered before.
-/

namespace FlowPlan

/-- If something comes of each member, something comes of all of them. -/
theorem exists_mapM {α β ε : Type} {f : α → Except ε β} {members : List α}
    (each : ∀ member ∈ members, ∃ result, f member = .ok result) :
    ∃ results, members.mapM f = .ok results := by
  induction members with
  | nil => exact ⟨[], rfl⟩
  | cons head tail induction =>
      rcases each head List.mem_cons_self with ⟨first, isFirst⟩
      rcases induction fun member mem => each member (List.mem_cons_of_mem head mem) with
        ⟨rest, isRest⟩
      rw [List.mapM_cons, isFirst, isRest]
      exact ⟨first :: rest, rfl⟩

theorem Workflow.exists_resolve {workflow : Workflow}
    (ordered : ∀ job ∈ workflow.jobs, ∃ order, job.graph.order = .ok order) :
    ∃ resolved, workflow.resolve = .ok resolved := by
  have each : ∀ job ∈ workflow.jobs, ∃ found, job.resolve = .ok found := by
    intro job mem
    rcases ordered job mem with ⟨order, isOrder⟩
    rw [Job.resolve, isOrder]
    exact ⟨_, rfl⟩
  rcases exists_mapM each with ⟨alone, isAlone⟩
  rw [resolve, isAlone]
  exact ⟨_, rfl⟩

namespace WorkflowDefinition

/-- The job cannot be built without the task. -/
def Reaches (definition : WorkflowDefinition) (index : Nat) (job : JobDefinition) (task : Task) :
    Prop :=
  ∃ first, definition.JobRequires index job first ∧
    Relation.ReflTransGen definition.Requires first task

/-- The job needs no job, and nothing that it reaches uses what another job makes. -/
structure StandsAlone (definition : WorkflowDefinition) (index : Nat) (job : JobDefinition) :
    Prop where
  needs : job.needs.names = []
  consumes : ∀ task, definition.Reaches index job task →
    ∀ written, definition.step? task.position = some written → written.consumes.names = []

theorem standsAlone_of_all {definition : WorkflowDefinition} {index : Nat} {job : JobDefinition}
    (needs : job.needs.names = [])
    (consumes : ∀ entry ∈ definition.withPositions, entry.2.consumes.names = []) :
    definition.StandsAlone index job where
  needs := needs
  consumes _ _ _ found := consumes _ (mem_withPositions found)

/-- The steps were made for the same position, one by the build of the definition and the other by
that of the job alone. -/
def PairedAlone (definition : WorkflowDefinition) (index : Nat) (job : String × JobDefinition) :
    Step → Step → Prop :=
  definition.Paired (definition.reducedTo job) (Scope.IsOf index) Scope.alone

variable {definition : WorkflowDefinition} {index : Nat} {entry : String × JobDefinition}
  (isJob : definition.jobs[index]? = some entry)

include isJob

/-- The job that is left requires what it required among the others. -/
theorem exists_of_jobRequires {task : Task}
    (requires : (definition.reducedTo entry).JobRequires 0 entry.2 task) :
    ∃ origin, definition.JobRequires index entry.2 origin ∧ Scope.IsOf index origin.position.scope ∧
      origin.moved Scope.alone = task := by
  have ofJob : Scope.IsOf index (.job index) := rfl
  cases requires with
  | @place place inside => exact ⟨.item (.job index place), .place inside, rfl, rfl⟩
  | output mem asks =>
      rcases (embeds_reducedTo isJob).exists_of_asks ofJob none asks with
        ⟨origin, isAsked, isAmong, rfl⟩
      exact ⟨.step origin, .output mem isAsked, isAmong, rfl⟩

theorem grounded_reducedTo {table : StepTable} (all : table.IsGrounded definition) {job : Job}
    (isJobAt : table.IsJobAt definition index entry job)
    (alone : definition.StandsAlone index entry.2) {task : Task}
    (requires : (definition.reducedTo entry).JobRequires 0 entry.2 task) :
    (definition.reducedTo entry).Grounded task := by
  rcases exists_of_jobRequires isJob requires with ⟨origin, isRequired, isAmong, rfl⟩
  apply (embeds_reducedTo isJob).grounded_moved (isJobAt.grounded all isRequired) isAmong
  exact fun below reached => alone.consumes below ⟨origin, isRequired, reached⟩

theorem exists_build_reducedTo {table : StepTable} (all : table.IsGrounded definition) {job : Job}
    (isJobAt : table.IsJobAt definition index entry job)
    (alone : definition.StandsAlone index entry.2) :
    ∃ workflow warnings, (definition.reducedTo entry).build = (.ok workflow, warnings) := by
  apply exists_build
  intro number written isWritten
  rcases List.getElem?_eq_some_iff.mp isWritten with ⟨inside, rfl⟩
  have first : number = 0 := Nat.lt_one_iff.mp inside
  subst first
  refine ⟨?_, fun task requires => grounded_reducedTo isJob all isJobAt alone requires⟩
  constructor
  case condition =>
    intro text isText
    rcases isJobAt.condition text isText with ⟨condition, parsed⟩
    exact Condition.exists_parse parsed
  case needs => exact alone.needs ▸ List.forall_mem_nil _
  case outputs =>
    intro output mem
    rcases isJobAt.outputs output mem with ⟨known, _, value, parsed⟩
    exact Value.exists_parse parsed

theorem alike_reducedTo {job other : Job}
    (isJobAt : definition.table.IsJobAt definition index entry job)
    (isOther : (definition.reducedTo entry).table.IsJobAt (definition.reducedTo entry) 0 entry other) :
    List.Forall₂ (Item.Alike (definition.PairedAlone index entry)) job.items other.items := by
  apply forall₂_of_common isJobAt.items isOther.items
  intro place item _ otherItem _ isItem isOtherItem
  have ofJob : Scope.IsOf index (Position.job index place).scope := rfl
  exact (embeds_reducedTo isJob).alike_of_isItemAt ofJob isItem isOtherItem

variable {workflow : Workflow} {warnings : List Warning}
  (built : definition.build = (.ok workflow, warnings)) {resolved : ResolvedWorkflow}
  (resolves : workflow.resolve = .ok resolved)

include built resolves

/-- A job that needs no other job resolves without them to the same steps, each under a condition
with the same text. They come in the same order, too, if both builds number the steps that one
condition of the job reads alike. -/
theorem jobs_resolve_on_their_own (alone : definition.StandsAlone index entry.2) :
    ∃ job found, workflow.jobs[index]? = some job ∧ resolved.jobs[index]? = some found ∧
      found.id = entry.1 ∧
      ∃ reduced reducedWarnings resolvedAlone foundAlone,
        (definition.reducedTo entry).build = (.ok reduced, reducedWarnings) ∧
        reduced.resolve = .ok resolvedAlone ∧
        resolvedAlone.jobs = [foundAlone] ∧ foundAlone.id = entry.1 ∧
        (∃ arranged, arranged.Perm foundAlone.steps ∧
          List.Forall₂ (ResolvedStep.Alike (definition.PairedAlone index entry)) found.steps
            arranged) ∧
        (Step.NumberedAlike (definition.PairedAlone index entry) job.graph.ReadsTogether →
          List.Forall₂ (ResolvedStep.Alike (definition.PairedAlone index entry)) found.steps
            foundAlone.steps) := by
  have bisimulation : Step.Bisimulation (definition.PairedAlone index entry) :=
    (embeds_reducedTo isJob).bisimulation
  rcases exists_jobs_of_resolve built resolves isJob with
    ⟨job, found, atIndex, isId, isJobAt, builds, isFound, sameId, order, arranges⟩
  rcases exists_build_reducedTo isJob definition.isChronicle_table.isGrounded isJobAt alone with
    ⟨reduced, reducedWarnings, isBuilt⟩
  have isAlone : (definition.reducedTo entry).jobs[0]? = some entry := rfl
  -- The job that is left has an order, as it has no other circles.
  have isResolved : ∃ resolvedAlone, reduced.resolve = .ok resolvedAlone := by
    apply Workflow.exists_resolve
    intro other mem
    rcases exists_of_mem_forall₂ (isJobAt_of_build isBuilt) mem with ⟨⟨_, _⟩, isEntry, isOther⟩
    cases List.mem_singleton.mp isEntry
    have same := Graph.matches_ofItems bisimulation (alike_reducedTo isJob isJobAt isOther)
    exact Graph.exists_order_of_matches bisimulation.toPairing same
      (Graph.isIndexed_ofItems job.items) (Graph.isIndexed_ofItems other.items) arranges.ordered
  rcases isResolved with ⟨resolvedAlone, isResolved⟩
  rcases exists_jobs_of_resolve isBuilt isResolved isAlone with
    ⟨other, foundAlone, _, isOtherId, isOther, otherBuilds, isFoundAlone, otherSameId, otherOrder,
      otherArranges⟩
  have single : resolvedAlone.jobs = [foundAlone] := by
    have lengths := (Workflow.arranges_of_resolve isResolved).length_eq.symm.trans
      (isJobAt_of_build isBuilt).length_eq.symm
    rcases List.length_eq_one_iff.mp lengths with ⟨only, isOnly⟩
    rw [isOnly] at isFoundAlone ⊢
    rw [Option.some.inj isFoundAlone]
  have alike := alike_reducedTo isJob isJobAt isOther
  have keys := builds.placesAll.keysIdentify definition.isSound_construction
  have otherKeys := otherBuilds.placesAll.keysIdentify
    (definition.reducedTo entry).isSound_construction
  refine ⟨job, found, atIndex, isFound, sameId.trans isId, reduced, reducedWarnings, resolvedAlone,
    foundAlone, isBuilt, isResolved, single, otherSameId.trans isOtherId, ?_, ?_⟩
  · exact ResolvedJob.exists_perm_of_alike bisimulation alike keys otherKeys arranges otherArranges
  · intro numbered
    exact ResolvedJob.alike_of_numberedAlike bisimulation alike numbered keys otherKeys arranges
      otherArranges

end WorkflowDefinition

/-! ## A job that reads two steps of the library -/

namespace Sample

open Condition (Derives)

/-- The condition that `steps.x.outcome && steps.y.outcome` is read as, if the ids stand for the
steps. -/
def outcomes (first second : Option Step) : Condition Step :=
  .joined .and (.raw "steps.x.outcome".toList (first.map Source.step).toList)
    (.raw "steps.y.outcome".toList (second.map Source.step).toList)

theorem parse_outcomes (scope : StepScope Step) :
    Condition.parse scope "steps.x.outcome && steps.y.outcome".toList =
      .ok (outcomes (scope "x") (scope "y")) := by
  have sources : ∀ (name : Text) (id : String), Text.references name = [⟨.steps, id⟩] →
      Text.sources scope name = ((scope id).map Source.step).toList := by
    intro name id references
    rw [Text.sources, references]
    simp only [List.filterMap_cons, List.filterMap_nil, Reference.source?]
    cases scope id <;> rfl
  have firstName : Text.IsDottedName "steps.x.outcome".toList := by decide
  have secondName : Text.IsDottedName "steps.y.outcome".toList := by decide
  have first : Derives scope .negation _ _ := .name firstName
  have second : Derives scope .negation _ _ := .name secondName
  rw [sources _ "x" (by cbv)] at first
  rw [sources _ "y" (by cbv)] at second
  have whole : Derives scope (.chain .or) _ _ :=
    .alone (.joined (.alone (.bare first)) .blank .blank (.bare second))
  have parsed := Condition.parse_of_derives whole (.plain .nil .nil)
  rw [List.nil_append, List.append_nil] at parsed
  exact parsed

def stepOfId (key : Nat) (id : String) : Step := .action key (some id) [] { run := some id } []

def runsItsId (id : String) : StepDefinition where
  id := some id
  run := some id

def refersTo (id : String) : StepDefinition where
  reusable := some id

def readsBoth : StepDefinition where
  run := some "r"
  condition := some "steps.x.outcome && steps.y.outcome"

def readingJob : String × JobDefinition := ("j", { steps := [readsBoth] })

/-- The first job has one of the two steps numbered before the second job reads both. -/
def usesBefore (id : String) : WorkflowDefinition where
  library := [("x", runsItsId "x"), ("y", runsItsId "y")]
  jobs := [("a", { steps := [refersTo id] }), readingJob]

theorem conditionAt_outcomes (definition : WorkflowDefinition) (underway : Underway)
    (position : Position) :
    definition.conditionAt underway position "steps.x.outcome && steps.y.outcome" =
      (fun scope : StepScope Step => outcomes (scope "x") (scope "y")) <$>
        definition.scopeAt underway position.scope (some position)
          "steps.x.outcome && steps.y.outcome" := by
  rw [WorkflowDefinition.conditionAt]
  simp only [parse_outcomes]
  exact bind_pure_comp _ _

theorem itemAt_readsBoth {definition : WorkflowDefinition} {index place : Nat}
    (found : definition.step? (.job index place) = some readsBoth) :
    definition.itemAt {} (.job index place) =
      (definition.stepAt { items := [.job index place] } (.job index place)).map Item.ofStep >>=
        fun item => ((fun scope : StepScope Step => outcomes (scope "x") (scope "y")) <$>
          definition.scopeAt { items := [.job index place] } (.job index)
            (some (.job index place)) "steps.x.outcome && steps.y.outcome").map item.when := by
  rw [WorkflowDefinition.itemAt_eq_newItemAt found List.not_mem_nil, WorkflowDefinition.newItemAt]
  simp only [readsBoth, conditionAt_outcomes, NameList.names, List.foldlM_nil, bind_pure]
  rfl

/-- What the second job places, with the numbers that its steps have. -/
def readingItem (reader first second : Nat) : Item :=
  .place (.action reader none [] { run := some "r" } [])
    (some (outcomes (some (stepOfId first "x")) (some (stepOfId second "y")))) [] []

def readingAmong (reader first second : Nat) : Job where
  id := "j"
  items := [readingItem reader first second]

def usedBefore (id : String) (reader first second : Nat) : Workflow where
  jobs := [{ id := "a", items := [.ofStep (stepOfId 1 id)] }, readingAmong reader first second]

def numberedAlone : Workflow where
  jobs := [readingAmong 1 2 3]

theorem jobs_usesBefore (id : String) : (usesBefore id).jobs.zipIdx =
    [(("a", { steps := [refersTo id] }), 0), (("j", { steps := [readsBoth] }), 1)] := rfl

theorem build_usesX : (usesBefore "x").build = (.ok (usedBefore "x" 2 1 3), []) := by
  have reading : (usesBefore "x").itemAt {} (.job 1 0) = _ := itemAt_readsBoth rfl
  have places : List.range [readsBoth].length = [0] := rfl
  rw [WorkflowDefinition.build, WorkflowDefinition.construct, jobs_usesBefore]
  simp only [List.mapM_cons, List.mapM_nil, WorkflowDefinition.jobAt, places, reading]
  cbv

theorem build_usesY : (usesBefore "y").build = (.ok (usedBefore "y" 2 3 1), []) := by
  have reading : (usesBefore "y").itemAt {} (.job 1 0) = _ := itemAt_readsBoth rfl
  have places : List.range [readsBoth].length = [0] := rfl
  rw [WorkflowDefinition.build, WorkflowDefinition.construct, jobs_usesBefore]
  simp only [List.mapM_cons, List.mapM_nil, WorkflowDefinition.jobAt, places, reading]
  cbv

theorem build_alone (id : String) :
    ((usesBefore id).reducedTo readingJob).build = (.ok numberedAlone, []) := by
  have same : (usesBefore id).reducedTo readingJob = (usesBefore "x").reducedTo readingJob := rfl
  have reading : ((usesBefore "x").reducedTo readingJob).itemAt {} (.job 0 0) = _ :=
    itemAt_readsBoth rfl
  have jobs : ((usesBefore "x").reducedTo readingJob).jobs.zipIdx =
      [(("j", { steps := [readsBoth] }), 0)] := rfl
  have places : List.range [readsBoth].length = [0] := rfl
  rw [same, WorkflowDefinition.build, WorkflowDefinition.construct, jobs]
  simp only [List.mapM_cons, List.mapM_nil, WorkflowDefinition.jobAt, places, reading]
  cbv

/-! ### What they are resolved to -/

def placedReading (reader first second : Nat) : ResolvedStep where
  step := .action reader none [] { run := some "r" } []
  condition := some (outcomes (some (stepOfId first "x")) (some (stepOfId second "y")))
  job := "j"

/-- The first job places its step, and the second one then places the given ones. -/
def resolvedBefore (id : String) (steps : List ResolvedStep) : ResolvedWorkflow where
  jobs := [⟨"a", [], [⟨stepOfId 1 id, none, "a"⟩]⟩, ⟨"j", [], ⟨stepOfId 1 id, none, "a"⟩ :: steps⟩]
  warnings := []

def resolvedAlone : ResolvedWorkflow where
  jobs := [⟨"j", [], [⟨stepOfId 2 "x", none, "j"⟩, ⟨stepOfId 3 "y", none, "j"⟩,
    placedReading 1 2 3]⟩]
  warnings := []

theorem resolve_single (id : String) : (Job.mk "a" {} [.ofStep (stepOfId 1 id)] [] []).resolve =
    .ok ⟨"a", [], [⟨stepOfId 1 id, none, "a"⟩]⟩ := by
  cbv

theorem resolve_usesX : (usedBefore "x" 2 1 3).resolve =
    .ok (resolvedBefore "x" [⟨stepOfId 3 "y", none, "j"⟩, placedReading 2 1 3]) := by
  have order : (readingAmong 2 1 3).graph.order = .ok [1, 3, 2] := by
    decide +kernel
  have reading : (readingAmong 2 1 3).resolve = .ok ⟨"j", [], [⟨stepOfId 1 "x", none, "j"⟩,
      ⟨stepOfId 3 "y", none, "j"⟩, placedReading 2 1 3]⟩ := by
    rw [Job.resolve, order]
    cbv
  rw [Workflow.resolve, usedBefore, List.mapM_cons, resolve_single, List.mapM_cons, reading]
  cbv

theorem resolve_usesY : (usedBefore "y" 2 3 1).resolve =
    .ok (resolvedBefore "y" [⟨stepOfId 3 "x", none, "j"⟩, placedReading 2 3 1]) := by
  have order : (readingAmong 2 3 1).graph.order = .ok [1, 3, 2] := by
    decide +kernel
  have reading : (readingAmong 2 3 1).resolve = .ok ⟨"j", [], [⟨stepOfId 1 "y", none, "j"⟩,
      ⟨stepOfId 3 "x", none, "j"⟩, placedReading 2 3 1]⟩ := by
    rw [Job.resolve, order]
    cbv
  rw [Workflow.resolve, usedBefore, List.mapM_cons, resolve_single, List.mapM_cons, reading]
  cbv

theorem resolve_alone : numberedAlone.resolve = .ok resolvedAlone := by
  have order : (readingAmong 1 2 3).graph.order = .ok [2, 3, 1] := by
    decide +kernel
  have reading : (readingAmong 1 2 3).resolve = .ok ⟨"j", [], [⟨stepOfId 2 "x", none, "j"⟩,
      ⟨stepOfId 3 "y", none, "j"⟩, placedReading 1 2 3]⟩ := by
    rw [Job.resolve, order]
    cbv
  rw [Workflow.resolve, numberedAlone, List.mapM_cons, reading]
  cbv

theorem standsAlone_readingJob (id : String) : (usesBefore id).StandsAlone 1 readingJob.2 := by
  apply WorkflowDefinition.standsAlone_of_all rfl
  intro entry mem
  fin_cases mem <;> rfl

/-! ### The same order and another one -/

/-- The two steps are all that conditions read. -/
theorem mem_of_readsTogether {first second : Step}
    (together : (readingAmong 2 1 3).graph.ReadsTogether first second) :
    first ∈ [stepOfId 1 "x", stepOfId 3 "y"] ∧ second ∈ [stepOfId 1 "x", stepOfId 3 "y"] := by
  have conditions : ((readingAmong 2 1 3).graph.nodes.flatMap fun node =>
      node.contexts ++ node.step.ownCondition?.toList) =
        [outcomes (some (stepOfId 1 "x")) (some (stepOfId 3 "y"))] := by
    cbv
  have sources : (outcomes (some (stepOfId 1 "x")) (some (stepOfId 3 "y"))).sources.steps =
      [stepOfId 1 "x", stepOfId 3 "y"] := by
    cbv
  rcases together with ⟨node, nodeMem, condition, mem, former, latter⟩
  have isCondition : condition ∈ (readingAmong 2 1 3).graph.nodes.flatMap fun node =>
      node.contexts ++ node.step.ownCondition?.toList :=
    List.mem_flatMap.mpr ⟨node, nodeMem, mem⟩
  rw [conditions] at isCondition
  cases List.mem_singleton.mp isCondition
  rw [← sources]
  exact ⟨Sources.mem_steps.mpr former, Sources.mem_steps.mpr latter⟩

theorem jobs_resolve_on_their_own_usesX :
    (usesBefore "x").build = (.ok (usedBefore "x" 2 1 3), []) ∧
      (usedBefore "x" 2 1 3).resolve =
        .ok (resolvedBefore "x" [⟨stepOfId 3 "y", none, "j"⟩, placedReading 2 1 3]) ∧
      (usesBefore "x").StandsAlone 1 readingJob.2 ∧
      ((usesBefore "x").reducedTo readingJob).build = (.ok numberedAlone, []) ∧
      numberedAlone.resolve = .ok resolvedAlone ∧
      List.Forall₂ (ResolvedStep.Alike ((usesBefore "x").PairedAlone 1 readingJob))
        [⟨stepOfId 1 "x", none, "a"⟩, ⟨stepOfId 3 "y", none, "j"⟩, placedReading 2 1 3]
        [⟨stepOfId 2 "x", none, "j"⟩, ⟨stepOfId 3 "y", none, "j"⟩, placedReading 1 2 3] := by
  have isJob : (usesBefore "x").jobs[1]? = some readingJob := rfl
  have embeds := WorkflowDefinition.embeds_reducedTo isJob
  rcases WorkflowDefinition.jobs_resolve_on_their_own isJob build_usesX resolve_usesX
      (standsAlone_readingJob "x") with
    ⟨job, found, atIndex, isFound, _, reduced, warnings, resolved, foundAlone, isBuilt, isResolved,
      single, _, ⟨arranged, isPerm, sameSteps⟩, sameOrder⟩
  cases isBuilt.symm.trans (build_alone "x")
  cases isResolved.symm.trans resolve_alone
  cases atIndex
  cases isFound
  cases single
  -- Which steps belong together is seen from what they are resolved to.
  have counterpart : ∀ {step other : Step}, (usesBefore "x").PairedAlone 1 readingJob step other →
      step ∈ [stepOfId 1 "x", stepOfId 3 "y"] →
        step.key = 1 ∧ other.key = 2 ∨ step.key = 3 ∧ other.key = 3 := by
    intro step other isPair isRead
    have isPlaced : ∃ placed ∈ [⟨stepOfId 1 "x", none, "a"⟩, ⟨stepOfId 3 "y", none, "j"⟩],
        ResolvedStep.step placed = step := by
      fin_cases isRead <;> simp
    rcases isPlaced with ⟨placed, mem, rfl⟩
    rcases exists_of_mem_forall₂ sameSteps.flip (List.mem_append_left [placedReading 2 1 3] mem) with
      ⟨image, imageMem, alike⟩
    have isOther := (embeds.pairing.left alike.step isPair rfl).2
    have sameId := embeds.id?_of_paired alike.step
    have inAlone := isPerm.mem_iff.mp imageMem
    subst isOther
    clear isPair alike imageMem
    revert sameId
    fin_cases mem <;> fin_cases inAlone <;> decide
  refine ⟨build_usesX, resolve_usesX, standsAlone_readingJob "x", build_alone "x", resolve_alone,
    sameOrder ?_⟩
  intro first second other another together former latter less
  have reads := mem_of_readsTogether together
  have isFirst := counterpart former reads.1
  have isSecond := counterpart latter reads.2
  omega

/-- The steps that are read come in another order when the other job is left out. -/
theorem reads_are_ordered_by_other_jobs :
    (usesBefore "y").build = (.ok (usedBefore "y" 2 3 1), []) ∧
      (usedBefore "y" 2 3 1).resolve =
        .ok (resolvedBefore "y" [⟨stepOfId 3 "x", none, "j"⟩, placedReading 2 3 1]) ∧
      (usesBefore "y").jobs[1]? = some readingJob ∧ (usesBefore "y").StandsAlone 1 readingJob.2 ∧
      ((usesBefore "y").reducedTo readingJob).build = (.ok numberedAlone, []) ∧
      numberedAlone.resolve = .ok resolvedAlone ∧
      ∃ found foundAlone,
        (resolvedBefore "y" [⟨stepOfId 3 "x", none, "j"⟩, placedReading 2 3 1]).jobs[1]? =
          some found ∧
        resolvedAlone.jobs = [foundAlone] ∧
        ¬ List.Forall₂ (ResolvedStep.Alike ((usesBefore "y").PairedAlone 1 readingJob)) found.steps
          foundAlone.steps := by
  refine ⟨build_usesY, resolve_usesY, rfl, standsAlone_readingJob "y", build_alone "y",
    resolve_alone, _, _, rfl, rfl, ?_⟩
  intro alike
  have isJob : (usesBefore "y").jobs[1]? = some readingJob := rfl
  have embeds := WorkflowDefinition.embeds_reducedTo isJob
  cases alike with
  | cons first _ =>
      have sameId := embeds.id?_of_paired first.step
      revert sameId
      decide

end Sample

end FlowPlan

import FlowPlan.Proofs.Alternatives
import FlowPlan.Proofs.ShownReferences

/-! # Conditions composed from texts

Conditions are read from texts and then joined, negated and simplified. Whatever
holds of all that is read from one scope, and still holds after each of these
operations, holds of all conditions that come about like this. In particular
their sources cover what they show: no reference that still stands in the text
of a condition has lost its source on the way.
-/

namespace FlowPlan

namespace Condition

variable {σ : Type} [Keyed σ]

/-- Conditions that are put together from what is read in the scope. -/
inductive IsComposed (scope : StepScope σ) : Condition σ → Prop
  | parsed {text : Text} {condition : Condition σ} (read : parse scope text = .ok condition) :
      IsComposed scope condition
  | conj {left right : Condition σ} (leftComposed : IsComposed scope left)
      (rightComposed : IsComposed scope right) : IsComposed scope (left.conj right)
  | disj {left right : Condition σ} (leftComposed : IsComposed scope left)
      (rightComposed : IsComposed scope right) : IsComposed scope (left.disj right)
  | negate {condition : Condition σ} (composed : IsComposed scope condition) :
      IsComposed scope condition.negate
  | allOf {conditions : List (Condition σ)} {condition : Condition σ}
      (composed : ∀ member ∈ conditions, IsComposed scope member)
      (found : Condition.allOf conditions = some condition) : IsComposed scope condition
  | anyOf {conditions : List (Condition σ)} {condition : Condition σ}
      (composed : ∀ member ∈ conditions, IsComposed scope member)
      (found : Condition.anyOf conditions = some condition) : IsComposed scope condition
  | withDistinctConjuncts {condition : Condition σ} (composed : IsComposed scope condition) :
      IsComposed scope condition.withDistinctConjuncts
  | simplifyAny {conditions : List (Condition σ)} {condition : Condition σ}
      (composed : ∀ member ∈ conditions, IsComposed scope member)
      (found : Condition.simplifyAny conditions = some condition) : IsComposed scope condition

/-- A step that the scope has for the id is read, at least by its key. -/
def ReadsKnown (scope : StepScope σ) (sources : List (Source σ)) (id : String) : Prop :=
  ∀ step, scope id = some step → ∃ kept, .step kept ∈ sources ∧ key kept = key step

namespace IsComposed

variable {scope : StepScope σ} {condition : Condition σ}

theorem among {among : Condition σ → Prop} (closed : Closed among)
    (negates : ∀ condition, among condition → among condition.negate)
    (reads : ∀ text condition, parse scope text = .ok condition → among condition)
    (composed : IsComposed scope condition) : among condition := by
  induction composed with
  | parsed read => exact reads _ _ read
  | conj _ _ leftInduction rightInduction => exact closed.conj leftInduction rightInduction
  | disj _ _ leftInduction rightInduction => exact closed.disj leftInduction rightInduction
  | negate _ induction => exact negates _ induction
  | allOf _ found induction => exact closed.allOf induction found
  | anyOf _ found induction => exact closed.anyOf induction found
  | withDistinctConjuncts _ induction => exact closed.withDistinctConjuncts induction
  | simplifyAny _ found induction => exact among_simplifyAny closed induction found

theorem isCovered (composed : IsComposed scope condition) : condition.IsCovered :=
  composed.among closed_isCovered (fun _ => IsCovered.negate) fun _ _ => isCovered_of_parse

/-- Each leaf reads the steps that the scope has for the ids that the leaf shows. -/
theorem showsSteps (composed : IsComposed scope condition) :
    condition.ShowsSteps (ReadsKnown scope) := by
  have closed : Closed (ShowsSteps (ReadsKnown scope)) := closed_showsSteps
  apply composed.among closed fun _ => ShowsSteps.negate
  intro text condition read
  exact (showsSteps_of_parse read).mono fun sources id reads => reads.2

end IsComposed

/-- Every reference that is written in the text of a composed condition is found there, and
whatever is found has its source: a job by its name, and a step that the scope knows under the id by
its key. -/
theorem composed_sources_cover_text {scope : StepScope σ} {condition : Condition σ}
    (composed : IsComposed scope condition) :
    (∀ reference, Text.Writes reference condition.render →
      reference ∈ Text.references condition.render) ∧
    (∀ id step, ⟨.steps, id⟩ ∈ Text.references condition.render → scope id = some step →
      ∃ kept, .step kept ∈ condition.sources ∧ key kept = key step) ∧
    ∀ name, ⟨.needs, name⟩ ∈ Text.references condition.render → .job name ∈ condition.sources := by
  have covered := composed.isCovered
  refine ⟨fun _ => Text.mem_references_of_writes, ?_, ?_⟩
  · intro id step shown known
    rw [covered.references_render] at shown
    rcases mem_shownReferences.mp shown with ⟨leaf, leafMem, text, textMem, mem⟩
    rcases composed.showsSteps leaf leafMem text textMem id mem step known with
      ⟨read, readMem, sameKey⟩
    rcases exists_key_mem_sources leafMem readMem with ⟨kept, keptMem, same⟩
    exact ⟨kept, keptMem, same.trans sameKey⟩
  · exact covered.cover_render.jobs

end Condition

namespace Sample

def knownBuild : Step := .action 1 (some "build") [] { run := some "make" } []

def buildScope : StepScope Step := fun id => if id = "build" then some knownBuild else none

def buildText : Text := "steps.build.outcome == 'success'".toList

def checkText : Text := "needs.check.outputs.ready".toList

def buildSucceeds : Condition Step :=
  .comparison "steps.build.outcome".toList .equal (.string "success".toList)
    (Text.sources buildScope buildText)

def checkIsReady : Condition Step := .raw checkText (Text.sources buildScope checkText)

def neitherIsDone : Condition Step := (buildSucceeds.disj checkIsReady).negate

theorem isComposed_neitherIsDone : neitherIsDone.IsComposed buildScope := by
  have leftName : Text.IsDottedName "steps.build.outcome".toList := by decide
  have checkName : Text.IsDottedName checkText := by decide
  have build : Condition.Derives buildScope .operand buildText buildSucceeds :=
    .comparison leftName .blank .blank trivial rfl
  have check : Condition.Derives buildScope .negation checkText checkIsReady := .name checkName
  exact .negate (.disj
    (.parsed (Condition.parse_of_derives (.alone (.alone build)) (.plain .nil .nil)))
    (.parsed (Condition.parse_of_derives (.alone (.alone (.bare check)))
      (.marked .nil .blank .blank .nil))))

theorem writes_neitherIsDone :
    Text.Writes ⟨.steps, "build"⟩ neitherIsDone.render ∧
      Text.Writes ⟨.needs, "check"⟩ neitherIsDone.render := by
  have shown : neitherIsDone.render = "!(".toList ++ ("steps.".toList ++ "build".toList ++
      ".outcome == 'success' || needs.check.outputs.ready)".toList) := by decide +kernel
  have other : neitherIsDone.render = "!(steps.build.outcome == 'success' || ".toList ++
      ("needs.".toList ++ "check".toList ++ ".outputs.ready)".toList) := by decide +kernel
  constructor
  · rw [shown]
    exact .intro rfl (fun _ last => by cases last; decide) (by decide) (by decide)
      (fun _ first => by cases first; decide)
  · rw [other]
    exact .intro rfl (fun _ last => by cases last; decide) (by decide) (by decide)
      (fun _ first => by cases first; decide)

theorem composed_sources_cover_text_neitherIsDone :
    (∃ kept, .step kept ∈ neitherIsDone.sources ∧ key kept = 1) ∧
      .job "check" ∈ neitherIsDone.sources := by
  rcases Condition.composed_sources_cover_text isComposed_neitherIsDone with ⟨found, steps, jobs⟩
  have step := found _ writes_neitherIsDone.1
  have job := found _ writes_neitherIsDone.2
  exact ⟨steps "build" knownBuild step rfl, jobs "check" job⟩

end Sample

end FlowPlan

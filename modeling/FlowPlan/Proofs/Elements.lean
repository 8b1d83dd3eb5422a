import FlowPlan.Proofs.Alternatives
import FlowPlan.Proofs.BareConditions
import FlowPlan.Proofs.SourceOrder
import FlowPlan.Step

/-! # Elements of conditions

The elements of a condition are what is left when it is split at both
connectives: comparisons, calls, opaque texts and negations. Simplification
moves elements around and drops some of them, but it makes none, apart from
constants, and the result reads nothing that the alternatives do not read.
-/

namespace FlowPlan

/-- Sources are equal if they have one place. -/
theorem Source.beq_iff_place_eq {σ : Type} [Keyed σ] {first second : Source σ} :
    (first == second) = true ↔ first.place = second.place := by
  cases first with
  | step read =>
      cases second with
      | step other =>
          have byKey : (step read == step other) = (key read == key other) := rfl
          simp [byKey, place]
      | job id => exact iff_of_false Bool.false_ne_true Sum.inl_ne_inr
  | job id =>
      cases second with
      | step other => exact iff_of_false Bool.false_ne_true Sum.inr_ne_inl
      | job other =>
          have byId : ((job id : Source σ) == job other) = (id == other) := rfl
          simp [byId, place]

namespace Condition

variable {σ : Type}

/-- The comparisons, calls, opaque texts and negations that the connectives join. -/
def elements : Condition σ → List (Condition σ)
  | .joined _ left right => left.elements ++ right.elements
  | element => [element]

variable [Keyed σ]

theorem closed_elements {among : Condition σ → Prop}
    (constants : ∀ value sources, among (.raw (booleanText value) sources)) :
    Closed fun condition : Condition σ => ∀ element ∈ condition.elements, among element where
  splits _ _ _ members := List.forall_mem_append.mp members
  joined _ _ _ leftMembers rightMembers := List.forall_mem_append.mpr ⟨leftMembers, rightMembers⟩
  collapsed value _ _ _ _ := List.forall_mem_singleton.mpr (constants value _)
  constant value := List.forall_mem_singleton.mpr (constants value [])

/-- A union leaves sources out, but none without another one of its place. -/
theorem closed_sources {property : Source σ → Prop}
    (byPlace : ∀ first second, first.place = second.place → property first → property second) :
    Closed fun condition : Condition σ => ∀ source ∈ condition.sources, property source where
  splits connective left right members := by
    constructor
    · intro source mem
      exact members source (Sources.mem_union_of_mem_left mem)
    · intro source mem
      obtain ⟨kept, keptMem, same⟩ := Sources.exists_place_mem_union left.sources mem
      exact byPlace kept source same (members kept keptMem)
  joined _ _ _ leftMembers rightMembers source mem :=
    (Sources.mem_or_mem_of_mem_union mem).elim (leftMembers source) (rightMembers source)
  collapsed _ _ _ leftMembers rightMembers source mem :=
    (Sources.mem_or_mem_of_mem_union mem).elim (leftMembers source) (rightMembers source)
  constant _ := List.forall_mem_nil _

/-- The simplified disjunction consists of elements of the alternatives and of constants, and reads
only what the alternatives read. -/
theorem simplifyAny_adds_nothing {alternatives : List (Condition σ)} {result : Condition σ}
    (found : simplifyAny alternatives = some result) :
    (∀ element ∈ result.elements,
      (∃ alternative ∈ alternatives, element ∈ alternative.elements) ∨
        ∃ value sources, element = .raw (booleanText value) sources) ∧
    ∀ source ∈ result.sources, ∃ alternative ∈ alternatives, ∃ given ∈ alternative.sources,
      (given == source) = true := by
  constructor
  · refine among_simplifyAny (closed_elements ?_) ?_ found
    · intro value sources
      exact Or.inr ⟨value, sources, rfl⟩
    · intro alternative mem element elementMem
      exact Or.inl ⟨alternative, mem, elementMem⟩
  · refine among_simplifyAny (closed_sources ?_) ?_ found
    · intro first second same isRead
      obtain ⟨alternative, mem, given, givenMem, equal⟩ := isRead
      have placed := (Source.beq_iff_place_eq.mp equal).trans same
      exact ⟨alternative, mem, given, givenMem, Source.beq_iff_place_eq.mpr placed⟩
    · intro alternative mem source sourceMem
      exact ⟨alternative, mem, source, sourceMem, Source.beq_iff_place_eq.mpr rfl⟩

end Condition

namespace Sample

open Condition (simplifyAny booleanText)

def afterBuild : Condition Step :=
  .comparison "needs.build.result".toList .equal (.string "success".toList) [.job "build"]

def onRequest : Condition Step := .raw "inputs.wanted".toList []

/-- The build decides, with and without a request. -/
def withOrWithoutRequest : List (Condition Step) :=
  [.joined .and afterBuild onRequest, .joined .and afterBuild (.negated onRequest)]

theorem simplifyAny_withOrWithoutRequest : simplifyAny withOrWithoutRequest = some afterBuild := by
  let terms := [[afterBuild, onRequest], [afterBuild, .negated onRequest]]
  have opened : simplifyAny withOrWithoutRequest =
      (Condition.mergeComplements terms).bind Condition.ofTerms := rfl
  have merged : Condition.mergeComplements terms = Condition.mergeComplements [[afterBuild]] := by
    rw [Condition.mergeComplements_of_some rfl]
    rfl
  rw [opened, merged, Condition.mergeComplements_of_none rfl]
  rfl

theorem simplifyAny_adds_nothing_withOrWithoutRequest :
    simplifyAny withOrWithoutRequest = some afterBuild ∧
      (∀ element ∈ afterBuild.elements,
        (∃ alternative ∈ withOrWithoutRequest, element ∈ alternative.elements) ∨
          ∃ value sources, element = .raw (booleanText value) sources) ∧
      ∀ source ∈ afterBuild.sources, ∃ alternative ∈ withOrWithoutRequest,
        ∃ given ∈ alternative.sources, (given == source) = true :=
  ⟨simplifyAny_withOrWithoutRequest,
    Condition.simplifyAny_adds_nothing simplifyAny_withOrWithoutRequest⟩

end Sample

end FlowPlan

import FlowPlan.Graph.RunCondition
import FlowPlan.Proofs.Alternatives
import FlowPlan.Proofs.Nodes

/-! # What run conditions mean

The condition under which a node runs narrows the known parts of its contexts
by its own condition. Leaving out an unknown part of a context only widens it.
-/

namespace FlowPlan

open Condition (Permits Respects TextDecides Closed ComplementsCover Splits)

namespace Condition

variable {σ : Type} [Keyed σ] {holds among : Condition σ → Prop}

/-- A condition narrowed by the one that goes with the action, where there are any. -/
def narrowedBy (context own : Option (Condition σ)) : Option (Condition σ) :=
  match context, own with
  | some context, some own => some (context.conj own).withDistinctConjuncts
  | context, own => context.or own

theorem among_narrowedBy (closed : Closed among) {context own : Option (Condition σ)}
    (contextMem : ∀ condition ∈ context, among condition)
    (ownMem : ∀ condition ∈ own, among condition) :
    ∀ condition ∈ narrowedBy context own, among condition := by
  intro condition mem
  cases context with
  | none => exact ownMem condition mem
  | some first =>
      cases own with
      | none => exact contextMem condition mem
      | some second =>
          cases mem
          have both := closed.conj (contextMem first rfl) (ownMem second rfl)
          exact closed.withDistinctConjuncts both

theorem permits_narrowedBy (respects : Respects holds) (closed : Closed among)
    (decides : TextDecides holds among) {context own : Option (Condition σ)}
    (contextMem : ∀ condition ∈ context, among condition)
    (ownMem : ∀ condition ∈ own, among condition) :
    Permits holds (narrowedBy context own) ↔ Permits holds context ∧ Permits holds own := by
  cases context with
  | none => simp [narrowedBy]
  | some first =>
      cases own with
      | none => simp [narrowedBy]
      | some second =>
          have member := closed.conj (contextMem first rfl) (ownMem second rfl)
          rw [narrowedBy, permits_some, permits_some, permits_some,
            holds_withDistinctConjuncts respects closed.splits decides member,
            holds_conj respects]

end Condition

namespace Graph

variable {holds among : Condition Step → Prop} {placed : List Nat}

/-! ## Contexts -/

theorem permits_knownPart (respects : Respects holds) (placed : List Nat)
    {context : Condition Step} (stands : holds context) :
    Permits holds (knownPart placed context) := by
  apply (Condition.permits_allOf respects _).mpr
  intro operand mem
  exact (Condition.holds_iff_conjuncts respects.connectives context).mp stands operand
    (List.mem_filter.mp mem).1

theorem holds_of_knownPart (respects : Respects holds) {context : Condition Step}
    (known : ∀ operand ∈ context.conjuncts, isKnown placed operand = true)
    (permitted : Permits holds (knownPart placed context)) : holds context := by
  apply (Condition.holds_iff_conjuncts respects.connectives context).mpr
  intro operand mem
  exact (Condition.permits_allOf respects _).mp permitted operand
    (List.mem_filter.mpr ⟨mem, known operand mem⟩)

theorem among_knownPart (closed : Closed among) {context : Condition Step}
    (members : ∀ operand ∈ context.conjuncts, isKnown placed operand = true → among operand)
    {part : Condition Step} (found : knownPart placed context = some part) : among part := by
  apply closed.allOf _ found
  intro operand mem
  exact members operand (List.mem_filter.mp mem).1 (List.mem_filter.mp mem).2

theorem among_anyContext (closed : Closed among) {contexts : List (Condition Step)}
    (members : ∀ context ∈ contexts, ∀ operand ∈ context.conjuncts,
      isKnown placed operand = true → among operand) :
    ∀ condition ∈ anyContext placed contexts, among condition := by
  intro condition mem
  rcases Option.bind_eq_some_iff.mp mem with ⟨parts, mapped, simplified⟩
  apply Condition.among_simplifyAny closed _ simplified
  intro part partMem
  rcases exists_member_of_mapM mapped partMem with ⟨context, contextMem, found⟩
  exact among_knownPart closed (members context contextMem) found

/-- If a context holds, the node runs as far as its contexts are concerned. -/
theorem permits_anyContext (respects : Respects holds) (closed : Closed among)
    (decides : TextDecides holds among) {contexts : List (Condition Step)}
    (members : ∀ context ∈ contexts, among context)
    (any : ∃ context ∈ contexts, holds context) :
    Permits holds (anyContext placed contexts) := by
  cases mapped : contexts.mapM (knownPart placed) with
  | none => simp [anyContext, mapped]
  | some parts =>
      have permitted : Permits holds (Condition.simplifyAny parts) := by
        apply Condition.permits_simplifyAny respects closed.splits decides
        · intro part partMem
          rcases exists_member_of_mapM mapped partMem with ⟨context, contextMem, found⟩
          apply among_knownPart closed _ found
          intro operand operandMem _
          exact closed.splits.of_mem_operands .and (members context contextMem) operandMem
        · rcases any with ⟨context, contextMem, stands⟩
          rcases exists_image_of_mapM mapped contextMem with ⟨part, partMem, found⟩
          have partHolds := permits_knownPart respects placed stands
          rw [found, Condition.permits_some] at partHolds
          exact ⟨part, partMem, partHolds⟩
      simpa [anyContext, mapped] using permitted

/-- If everything is known, the node runs only if one of its contexts holds. -/
theorem exists_of_permits_anyContext (respects : Respects holds) (closed : Closed among)
    (decides : TextDecides holds among) (covers : ComplementsCover holds among)
    (known : ∀ condition, among condition → isKnown placed condition = true)
    {contexts : List (Condition Step)} (members : ∀ context ∈ contexts, among context)
    (nonempty : contexts ≠ []) (permitted : Permits holds (anyContext placed contexts)) :
    ∃ context ∈ contexts, holds context := by
  have operandMem : ∀ context ∈ contexts, ∀ operand ∈ context.conjuncts, among operand :=
    fun context mem operand => closed.splits.of_mem_operands .and (members context mem)
  have operandKnown : ∀ context ∈ contexts, ∀ operand ∈ context.conjuncts,
      isKnown placed operand = true :=
    fun context mem operand inside => known operand (operandMem context mem operand inside)
  cases mapped : contexts.mapM (knownPart placed) with
  | none =>
      rcases exists_none_of_mapM_eq_none mapped with ⟨context, mem, absent⟩
      refine ⟨context, mem, holds_of_knownPart respects (operandKnown context mem) ?_⟩
      rw [absent]
      exact Condition.permits_none holds
  | some parts =>
      have simplified : Permits holds (Condition.simplifyAny parts) := by
        simpa [anyContext, mapped] using permitted
      have partMembers : ∀ part ∈ parts, among part := by
        intro part partMem
        rcases exists_member_of_mapM mapped partMem with ⟨context, mem, found⟩
        exact among_knownPart closed (fun operand inside _ => operandMem context mem operand inside)
          found
      have someParts : parts ≠ [] := by
        rcases List.exists_mem_of_ne_nil contexts nonempty with ⟨context, mem⟩
        rcases exists_image_of_mapM mapped mem with ⟨part, partMem, _⟩
        exact List.ne_nil_of_mem partMem
      rcases Condition.exists_of_permits_simplifyAny respects closed decides covers partMembers
        someParts simplified with ⟨part, partMem, stands⟩
      rcases exists_member_of_mapM mapped partMem with ⟨context, mem, found⟩
      refine ⟨context, mem, holds_of_knownPart respects (operandKnown context mem) ?_⟩
      rw [found, Condition.permits_some]
      exact stands

/-! ## Nodes -/

/-- What the contexts of a node leave of them. -/
def demand (placed : List Nat) (node : Node) : Option (Condition Step) :=
  if node.unconditional then none else anyContext placed node.contexts

theorem runCondition_of_undeclared {graph : Graph} {node : Node}
    (undeclared : graph.declared? node.key = none) :
    graph.runCondition placed node =
      Condition.narrowedBy (demand placed node) node.step.ownCondition? := by
  have asked : (if node.unconditional then none else anyContext placed node.contexts) =
      demand placed node := rfl
  rw [runCondition, undeclared]
  dsimp only
  rw [asked]
  cases demand placed node with
  | none => cases node.step.ownCondition? <;> rfl
  | some context => cases node.step.ownCondition? <;> rfl

theorem among_demand (closed : Closed among) {node : Node}
    (members : ∀ context, node.Asks (some context) → ∀ operand ∈ context.conjuncts,
      isKnown placed operand = true → among operand) :
    ∀ condition ∈ demand placed node, among condition := by
  intro condition mem
  rw [demand] at mem
  split at mem
  · cases mem
  · exact among_anyContext closed members condition mem

theorem permits_demand (respects : Respects holds) (closed : Closed among)
    (decides : TextDecides holds among) {node : Node}
    (members : ∀ context, node.Asks (some context) → among context)
    {asked : Option (Condition Step)} (asks : node.Asks asked) (met : Permits holds asked) :
    Permits holds (demand placed node) := by
  rw [demand]
  split
  · exact Condition.permits_none holds
  · rename_i conditional
    cases asked with
    | none => exact absurd asks conditional
    | some context =>
        exact permits_anyContext respects closed decides members
          ⟨context, asks, (Condition.permits_some holds context).mp met⟩

theorem exists_asks_of_permits_demand (respects : Respects holds) (closed : Closed among)
    (decides : TextDecides holds among) (covers : ComplementsCover holds among)
    (known : ∀ condition, among condition → isKnown placed condition = true) {node : Node}
    (members : ∀ context, node.Asks (some context) → among context)
    (someAsked : ∃ asked, node.Asks asked) (permitted : Permits holds (demand placed node)) :
    ∃ asked, node.Asks asked ∧ Permits holds asked := by
  rw [demand] at permitted
  split at permitted
  · rename_i always
    exact ⟨none, always, Condition.permits_none holds⟩
  · rename_i conditional
    have nonempty : node.contexts ≠ [] := by
      rcases someAsked with ⟨asked, asks⟩
      cases asked with
      | none => exact absurd asks conditional
      | some context => exact List.ne_nil_of_mem asks
    rcases exists_of_permits_anyContext respects closed decides covers known members nonempty
      permitted with ⟨context, mem, stands⟩
    exact ⟨some context, mem, (Condition.permits_some holds context).mpr stands⟩

end Graph

end FlowPlan

import FlowPlan.Proofs.AlikeGraphs
import FlowPlan.Proofs.Priorities

/-! # Jobs whose steps are numbered alike

What a condition reads is gone through in the order of the keys. If of any two
steps that one condition reads the same one has the lower key on either side,
alike jobs are gone through in step all the way: the nodes are found in the same
order, and keys that belong together lead to the same places. As nodes are put
in order by their places alone, the same ones are placed one after another.
-/

namespace FlowPlan

/-- Of two steps that belong together the same one comes first on both sides. -/
def Step.NumberedAlike (paired together : Step → Step → Prop) : Prop :=
  ∀ {first second other another : Step}, together first second → paired first other →
    paired second another → first.key < second.key → other.key < another.key

/-- One of the conditions of the node reads both steps. -/
def Node.ReadsTogether (node : Node) (first second : Step) : Prop :=
  ∃ condition ∈ node.contexts ++ node.step.ownCondition?.toList,
    .step first ∈ condition.sources ∧ .step second ∈ condition.sources

/-- A condition that decides over an action of the graph reads both steps. -/
def Graph.ReadsTogether (graph : Graph) (first second : Step) : Prop :=
  ∃ node ∈ graph.nodes, node.ReadsTogether first second

/-- Lists that are sorted alike and have counterparts of each other's members have them in their
places. -/
theorem forall₂_of_matching {α β : Type} {related : α → β → Prop} {before : α → α → Prop}
    {otherBefore : β → β → Prop} (unique : Relator.BiUnique related)
    (irrefl : ∀ member, ¬ before member member)
    (asymm : ∀ member other, otherBefore member other → ¬ otherBefore other member)
    {members : List α} {others : List β}
    (respects : ∀ first ∈ members, ∀ second ∈ members, ∀ other another, related first other →
      related second another → before first second → otherBefore other another)
    (both : Matching related members others)
    (sorted : members.Pairwise before) (otherSorted : others.Pairwise otherBefore) :
    List.Forall₂ related members others := by
  have distinct : members.Nodup := by
    apply sorted.imp
    rintro member _ less rfl
    exact irrefl member less
  have otherDistinct : others.Nodup := by
    apply otherSorted.imp
    rintro other _ less rfl
    exact asymm other other less less
  rcases exists_perm_of_matching unique both distinct otherDistinct with ⟨arranged, related, isPerm⟩
  have arrangedSorted : arranged.Pairwise otherBefore := by
    clear isPerm both distinct
    induction related with
    | nil => exact .nil
    | @cons head other tail rest isRelated allRelated induction =>
        rcases List.pairwise_cons.mp sorted with ⟨headFirst, tailSorted⟩
        apply List.Pairwise.cons _ (induction _ tailSorted)
        · intro another mem
          rcases exists_of_mem_forall₂ allRelated mem with ⟨member, memberMem, alsoRelated⟩
          exact respects head List.mem_cons_self member (List.mem_cons_of_mem _ memberMem) other
            another isRelated alsoRelated (headFirst member memberMem)
        · exact fun first firstMem second secondMem =>
            respects first (List.mem_cons_of_mem _ firstMem) second (List.mem_cons_of_mem _ secondMem)
  have same : arranged = others :=
    isPerm.eq_of_pairwise (fun member other _ _ less greater => absurd greater (asymm _ _ less))
      arrangedSorted otherSorted
  exact same ▸ related

theorem Sources.steps_sorted {σ : Type} [Keyed σ] {sources : Sources σ} (sorted : IsSorted sources) :
    sources.steps.Pairwise fun first second => Keyed.key first < Keyed.key second := by
  apply List.Pairwise.filterMap _ _ sorted
  intro first second less step isStep other isOther
  cases first with
  | job => cases isStep
  | step =>
      cases second with
      | job => cases isOther
      | step =>
          cases isStep
          cases isOther
          exact Sum.Lex.inl_lt_inl_iff.mp less

theorem rel_getElem? {α β : Type} {related : α → β → Prop} {members : List α} {others : List β}
    (both : List.Forall₂ related members others) (position : Nat) :
    Option.Rel related members[position]? others[position]? := by
  induction both generalizing position with
  | nil => exact .none
  | cons head _ induction =>
      cases position with
      | zero => exact .some head
      | succ position => exact induction position

theorem map_eq_of_forall₂ {α β γ : Type} {related : α → β → Prop} {members : List α}
    {others : List β} (both : List.Forall₂ related members others) {image : α → γ}
    {otherImage : β → γ} (same : ∀ {member other}, related member other →
      image member = otherImage other) : members.map image = others.map otherImage := by
  induction both with
  | nil => rfl
  | cons head _ induction => rw [List.map_cons, List.map_cons, same head, induction]

theorem Step.keysPaired_map {paired : Step → Step → Prop} {steps others : List Step}
    (both : List.Forall₂ paired steps others) :
    List.Forall₂ (KeysPaired paired) (steps.map key) (others.map key) := by
  rw [List.forall₂_map_left_iff, List.forall₂_map_right_iff]
  exact both.imp fun _ _ => .of_pair

namespace Node

variable {paired : Step → Step → Prop}

/-! ## The closure -/

section Reads

variable (bisimulation : Step.Bisimulation paired)

include bisimulation

theorem alike_sourceSteps {sources others : Sources Step}
    (alike : Sources.Alike paired sources others)
    (numbered : Step.NumberedAlike paired fun first second =>
      .step first ∈ sources ∧ .step second ∈ sources) :
    List.Forall₂ paired sources.steps others.steps := by
  have unique : Relator.BiUnique paired :=
    ⟨fun _ _ _ former latter => (bisimulation.right former latter rfl).1,
      fun _ _ _ former latter => (bisimulation.left former latter rfl).2⟩
  apply forall₂_of_matching unique (fun _ => Nat.lt_irrefl _) (fun _ _ => Nat.lt_asymm) _ _
    (Sources.steps_sorted alike.leftSorted) (Sources.steps_sorted alike.rightSorted)
  · intro first mem second secondMem other another
    exact numbered ⟨Sources.mem_steps.mp mem, Sources.mem_steps.mp secondMem⟩
  · constructor
    · intro step mem
      simpa only [Sources.mem_steps] using alike.forth step (Sources.mem_steps.mp mem)
    · intro other mem
      simpa only [Sources.mem_steps] using alike.back other (Sources.mem_steps.mp mem)

/-- Alike nodes read paired steps one after another. -/
theorem alike_readActions {node other : Node} (alike : Alike paired node other)
    (numbered : Step.NumberedAlike paired node.ReadsTogether) :
    List.Forall₂ paired node.readActions other.readActions := by
  have conditions := List.rel_append alike.contexts (rel_toList (bisimulation.own alike.step))
  apply List.rel_filter
  · intro action otherAction isPair
    simp only [Step.same, Bool.not_eq_true', decide_eq_false_iff_not]
    exact not_congr (bisimulation.key_eq_iff isPair alike.step)
  · apply bisimulation.distinctBy_same
    apply forall₂_flatMap conditions
    intro condition mem otherCondition conditionsAlike
    have sources := conditionsAlike.sources bisimulation.toPairing
    apply forall₂_flatMap (alike_sourceSteps bisimulation sources
      fun both => numbered ⟨condition, mem, both⟩)
    exact fun _ _ _ isPair => bisimulation.leaves isPair

theorem alike_withReads {node other : Node} (alike : Alike paired node other)
    (numbered : Step.NumberedAlike paired node.ReadsTogether) :
    Alike paired node.withReads other.withReads := by
  have keys := Step.keysPaired_map (alike_readActions bisimulation alike numbered)
  rw [withReads, withReads]
  clear numbered
  generalize node.readActions.map Step.key = read, other.readActions.map Step.key = otherRead at keys
  induction keys generalizing node other with
  | nil => exact alike
  | cons head _ induction => exact induction (alike.addDependency bisimulation.toPairing head)

end Reads

theorem readsTogether_withReads (node : Node) :
    node.withReads.ReadsTogether = node.ReadsTogether := by
  rw [withReads, addDependencies_eq]
  rfl

theorem subset_closeOverReads (settled pending : List Node) :
    settled ⊆ closeOverReads settled pending := by
  induction settled, pending using closeOverReads.induct with
  | case1 settled =>
      rw [closeOverReads]
      exact List.Subset.refl settled
  | case2 settled node rest =>
      rename_i induction
      rw [closeOverReads]
      exact List.Subset.trans (List.subset_append_left _ _) induction

theorem alike_closeOverReads (bisimulation : Step.Bisimulation paired)
    {settled pending others otherPending : List Node}
    (settledAlike : List.Forall₂ (Alike paired) settled others)
    (pendingAlike : List.Forall₂ (Alike paired) pending otherPending)
    (numbered : ∀ node ∈ closeOverReads settled pending,
      Step.NumberedAlike paired node.ReadsTogether) :
    List.Forall₂ (Alike paired) (closeOverReads settled pending)
      (closeOverReads others otherPending) := by
  induction settled, pending using closeOverReads.induct generalizing others otherPending with
  | case1 settled =>
      cases pendingAlike
      rw [closeOverReads, closeOverReads]
      exact settledAlike
  | case2 settled node rest =>
      rename_i induction
      cases pendingAlike with
      | @cons _ otherNode _ otherRest head tail =>
          rw [closeOverReads] at numbered
          have settledNode := subset_closeOverReads (settled ++ [node.withReads])
            (rest ++ (missing (settled ++ node :: rest) node.readActions).map pulledIn)
            (List.mem_append_right settled (List.mem_singleton_self _))
          have here : Step.NumberedAlike paired node.ReadsTogether := by
            rw [← readsTogether_withReads]
            exact numbered _ settledNode
          have known : List.Forall₂ (Alike paired) (settled ++ node :: rest)
              (others ++ otherNode :: otherRest) := List.rel_append settledAlike (.cons head tail)
          have reads := alike_readActions bisimulation head here
          rw [closeOverReads, closeOverReads]
          apply induction _ _ numbered
          · apply List.rel_append settledAlike
            exact .cons (alike_withReads bisimulation head here) .nil
          · apply List.rel_append tail
            rw [List.forall₂_map_left_iff, List.forall₂_map_right_iff]
            apply List.Forall₂.imp fun _ _ => alike_pulledIn
            apply List.rel_filter _ reads
            intro action otherAction isPair
            have same : hasKey (settled ++ node :: rest) action.key =
                hasKey (others ++ otherNode :: otherRest) otherAction.key :=
              hasKey_eq bisimulation.toPairing known (.of_pair isPair)
            simp only [same]

theorem Alike.predecessors (pairing : Keyed.Pairing paired) {node other : Node}
    (alike : Alike paired node other) :
    List.Forall₂ (Step.KeysPaired paired) node.predecessors other.predecessors := by
  rw [Node.predecessors, Node.predecessors]
  have start := alike.dependencies
  have orderings := alike.orderings
  generalize node.dependencies = sum, other.dependencies = otherSum at start
  generalize node.orderings = keys, other.orderings = otherKeys at orderings
  induction orderings generalizing sum otherSum with
  | nil => exact start
  | cons head _ induction => exact induction _ _ (alike_addOnce pairing start head)

end Node

/-! ## The order -/

namespace Graph

section Order

variable {paired : Step → Step → Prop} (pairing : Keyed.Pairing paired) {graph other : Graph}
  (indexed : graph.IsIndexed) (otherIndexed : other.IsIndexed)
  (nodes : List.Forall₂ (Node.Alike paired) graph.nodes other.nodes)

include pairing indexed otherIndexed nodes

/-- Keys that belong together lead to the same place. -/
theorem position?_eq {key otherKey : Nat} (isPair : Step.KeysPaired paired key otherKey) :
    graph.position? key = other.position? otherKey := by
  apply Option.ext
  intro position
  rw [indexed.position?_eq_some_iff, otherIndexed.position?_eq_some_iff]
  have related := rel_getElem? nodes position
  generalize graph.nodes[position]? = found, other.nodes[position]? = otherFound at related
  cases related with
  | none => simp
  | some alike => simpa using alike.keys.eq_iff pairing isPair

theorem positions_eq {keys otherKeys : List Nat}
    (both : List.Forall₂ (Step.KeysPaired paired) keys otherKeys) :
    graph.positions keys = other.positions otherKeys := by
  have places := map_eq_of_forall₂ both (position?_eq pairing indexed otherIndexed nodes)
  have images := congrArg (List.filterMap id) places
  simpa [Arena.positions, List.filterMap_map] using images

/-- All that the order rests on is the same for both graphs. -/
theorem placing_eq
    (roots : List.Forall₂ (List.Forall₂ (Step.KeysPaired paired)) graph.roots other.roots) :
    graph.placing = other.placing := by
  have positions {keys otherKeys : List Nat}
      (both : List.Forall₂ (Step.KeysPaired paired) keys otherKeys) :
      graph.positions keys = other.positions otherKeys :=
    positions_eq pairing indexed otherIndexed nodes both
  have predecessors : graph.predecessorPositions = other.predecessorPositions :=
    map_eq_of_forall₂ nodes fun alike => positions (alike.predecessors pairing)
  have dependencies : graph.dependencyPositions = other.dependencyPositions :=
    map_eq_of_forall₂ nodes fun alike => positions alike.dependencies
  rw [placing, placing, priorities, priorities, predecessors, dependencies,
    map_eq_of_forall₂ roots positions]

end Order

end Graph

/-! ## Jobs -/

namespace Graph

variable {paired : Step → Step → Prop} (bisimulation : Step.Bisimulation paired)
  {items others : List Item} (alike : List.Forall₂ (Item.Alike paired) items others)
  (numbered : Step.NumberedAlike paired (ofItems items).ReadsTogether)

include bisimulation alike numbered

/-- Alike jobs that read steps in the same order put their nodes in the same order. -/
theorem order_eq {order otherOrder : List Nat} (resolved : (ofItems items).order = .ok order)
    (otherResolved : (ofItems others).order = .ok otherOrder) :
    List.Forall₂ (Step.KeysPaired paired) order otherOrder := by
  have nodes : List.Forall₂ (Node.Alike paired) (ofItems items).nodes (ofItems others).nodes := by
    rw [nodes_ofItems_eq, nodes_ofItems_eq]
    apply Node.alike_closeOverReads bisimulation .nil
      (Node.alike_ofEncounters bisimulation.toPairing (bisimulation.encountersAll alike))
    rw [← nodes_ofItems_eq]
    exact fun node mem _ _ _ _ together => numbered ⟨node, mem, together⟩
  have roots : List.Forall₂ (List.Forall₂ (Step.KeysPaired paired)) (ofItems items).roots
      (ofItems others).roots := by
    rw [ofItems, ofItems, List.forall₂_map_left_iff, List.forall₂_map_right_iff]
    exact alike.imp fun _ _ isAlike => Step.keysPaired_map (bisimulation.leaves isAlike.step)
  have placing := placing_eq bisimulation.toPairing (isIndexed_ofItems items)
    (isIndexed_ofItems others) nodes roots
  rw [(order_eq_ok resolved).2, (order_eq_ok otherResolved).2, placing]
  have samePlaces : List.Forall₂ Eq (ofItems others).placing.order (ofItems others).placing.order :=
    List.forall₂_refl _
  apply List.rel_filterMap _ samePlaces
  intro place _ same
  cases same
  have related := rel_getElem? nodes place
  dsimp only
  generalize (ofItems items).nodes[place]? = found, (ofItems others).nodes[place]? = otherFound
    at related ⊢
  cases related with
  | none => exact .none
  | some isAlike => exact .some isAlike.keys

end Graph

namespace ResolvedJob

variable {paired : Step → Step → Prop} {job other : Job} {resolved otherResolved : ResolvedJob}
  {order otherOrder : List Nat}

/-- Alike jobs that read steps in the same order have the same steps in the same places. -/
theorem alike_of_numberedAlike (bisimulation : Step.Bisimulation paired)
    (alike : List.Forall₂ (Item.Alike paired) job.items other.items)
    (numbered : Step.NumberedAlike paired job.graph.ReadsTogether)
    (keys : Step.KeysIdentify (Item.Involves job.items))
    (otherKeys : Step.KeysIdentify (Item.Involves other.items))
    (arranges : resolved.Arranges job order)
    (otherArranges : otherResolved.Arranges other otherOrder) :
    List.Forall₂ (ResolvedStep.Alike paired) resolved.steps otherResolved.steps := by
  have orders := Graph.order_eq bisimulation alike numbered arranges.ordered otherArranges.ordered
  apply forall₂_of_three orders arranges.places otherArranges.places
  intro key otherKey step otherStep isPair places otherPlaces
  exact alike_of_places bisimulation alike keys otherKeys arranges.ordered otherArranges.ordered
    isPair places otherPlaces

end ResolvedJob

end FlowPlan

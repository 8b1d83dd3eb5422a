import FlowPlan.Proofs.AlikeClosure
import FlowPlan.Proofs.RenderedReads
import FlowPlan.Proofs.Unordered

/-! # Jobs that are resolved alike

The graphs of alike jobs have nodes that belong together, so what stands before
what is the same in both, and if the one has an order, so has the other. The
orders may differ where what conditions read comes in different orders, but they
place the same steps, each under a condition with the same text.
-/

namespace FlowPlan

/-! ## Texts -/

namespace Condition

variable {σ : Type} [Keyed σ] {paired : σ → σ → Prop}

theorem map_bare_of_rel {option other : Option (Condition σ)}
    (alike : Option.Rel (Alike paired) option other) : option.map bare = other.map bare := by
  cases alike with
  | none => rfl
  | some isAlike => exact congrArg some isAlike.bare

omit [Keyed σ] in
theorem map_render_of_map_bare {option other : Option (Condition σ)}
    (same : option.map bare = other.map bare) : option.map render = other.map render := by
  have texts : ∀ option : Option (Condition σ), option.map render = (option.map bare).map render := by
    intro option
    rw [Option.map_map]
    exact congrArg (option.map ·) (funext fun condition => (render_bare condition).symm)
  rw [texts, texts other, same]

theorem narrowedBy_map_bare (context own : Option (Condition σ)) :
    narrowedBy (context.map bare) (own.map bare) = (narrowedBy context own).map bare := by
  cases context with
  | none => rfl
  | some first =>
      cases own with
      | none => rfl
      | some second =>
          rw [Option.map_some, Option.map_some, narrowedBy, narrowedBy, conj_bare,
            withDistinctConjuncts_bare]
          rfl

end Condition

/-! ## Declared actions -/

namespace DeclaredLeaf

variable {paired : Step → Step → Prop}

/-- Paired actions are declared under conditions with the same text. -/
structure Alike (paired : Step → Step → Prop) (leaf other : DeclaredLeaf) : Prop where
  keys : Step.KeysPaired paired leaf.key other.key
  condition : leaf.condition.map Condition.bare = other.condition.map Condition.bare

theorem map_bare_also (leaf : DeclaredLeaf) (condition : Option (Condition Step)) :
    (leaf.also condition).condition.map Condition.bare =
      (DeclaredLeaf.also ⟨leaf.key, leaf.condition.map Condition.bare⟩
        (condition.map Condition.bare)).condition := by
  cases found : leaf.condition with
  | none => simp [also, found]
  | some first =>
      cases condition with
      | none => simp [also]
      | some second =>
          have joined := Condition.simplifyAny_map_bare [first, second]
          simp only [also, found, Option.map_some]
          exact joined.symm

theorem Alike.also {leaf other : DeclaredLeaf} (alike : Alike paired leaf other)
    {condition otherCondition : Option (Condition Step)}
    (same : condition.map Condition.bare = otherCondition.map Condition.bare) :
    Alike paired (leaf.also condition) (other.also otherCondition) where
  keys := alike.keys
  condition := by
    rw [map_bare_also, map_bare_also, alike.condition, same]
    cases other.condition <;> cases otherCondition <;> rfl

variable (bisimulation : Step.Bisimulation paired)

include bisimulation

theorem alike_declare {leaves others : List DeclaredLeaf}
    (both : List.Forall₂ (Alike paired) leaves others) {item other : Item}
    (alike : Item.Alike paired item other) :
    List.Forall₂ (Alike paired) (declare leaves item) (declare others other) := by
  have isPair := Step.KeysPaired.of_pair alike.step
  have same : item.declaredCondition.map Condition.bare =
      other.declaredCondition.map Condition.bare := by
    rw [Item.declaredCondition_eq, Item.declaredCondition_eq, ← Condition.narrowedBy_map_bare,
      ← Condition.narrowedBy_map_bare, Condition.map_bare_of_rel alike.condition,
      Condition.map_bare_of_rel (bisimulation.own alike.step)]
  have known : leaves.any (·.key = item.step.key) = others.any (·.key = other.step.key) := by
    apply any_eq_of_forall₂ both
    intro leaf otherLeaf leafAlike
    exact decide_eq_decide.mpr (leafAlike.keys.eq_iff bisimulation.toPairing isPair)
  rw [declare, declare, bisimulation.kind alike.step, known]
  split
  · exact both
  · split
    · apply List.rel_map _ both
      intro leaf otherLeaf leafAlike
      have isKey := leafAlike.keys.eq_iff bisimulation.toPairing isPair
      dsimp only
      by_cases again : leaf.key = item.step.key
      · rw [if_pos again, if_pos (isKey.mp again)]
        exact leafAlike.also same
      · rw [if_neg again, if_neg (mt isKey.mpr again)]
        exact leafAlike
    · exact List.rel_append both (.cons ⟨isPair, same⟩ .nil)

theorem alike_declared {items others : List Item}
    (alike : List.Forall₂ (Item.Alike paired) items others) {leaves otherLeaves : List DeclaredLeaf}
    (both : List.Forall₂ (Alike paired) leaves otherLeaves) :
    List.Forall₂ (Alike paired) (items.foldl declare leaves) (others.foldl declare otherLeaves) := by
  induction alike generalizing leaves otherLeaves with
  | nil => exact both
  | cons head _ induction => exact induction (alike_declare bisimulation both head)

end DeclaredLeaf

/-! ## Graphs -/

namespace Graph

variable {paired : Step → Step → Prop}

structure Matches (paired : Step → Step → Prop) (graph other : Graph) : Prop where
  nodes : Matching (Node.Matches paired) graph.nodes other.nodes
  declared : List.Forall₂ (DeclaredLeaf.Alike paired) graph.declared other.declared

theorem matches_ofItems (bisimulation : Step.Bisimulation paired) {items others : List Item}
    (alike : List.Forall₂ (Item.Alike paired) items others) :
    Matches paired (ofItems items) (ofItems others) := by
  have nodes := Node.alike_ofEncounters bisimulation.toPairing (bisimulation.encountersAll alike)
  rcases exists_pulls_ofItems items with ⟨pulled, pulls⟩
  rcases exists_pulls_ofItems others with ⟨otherPulled, otherPulls⟩
  constructor
  · rw [nodes_ofItems pulls, nodes_ofItems otherPulls]
    exact Node.matching_closures bisimulation.correspondence nodes pulls otherPulls
  · exact DeclaredLeaf.alike_declared bisimulation alike .nil

section Order

variable (pairing : Keyed.Pairing paired) {graph other : Graph} (same : Matches paired graph other)

include same

theorem matching_keys :
    Matching (Step.KeysPaired paired) (graph.nodes.map Node.key) (other.nodes.map Node.key) :=
  same.nodes.map fun _ _ => Node.Matches.keys

include pairing

/-- Whatever precedes what in the one graph does so in the other. -/
theorem exists_precedes {earlier later : Nat} (precedes : other.Precedes earlier later) :
    ∃ first second, Step.KeysPaired paired first earlier ∧ Step.KeysPaired paired second later ∧
      graph.Precedes first second := by
  rcases precedes with ⟨present, otherNode, otherMem, rfl, edge⟩
  rcases (matching_keys same).back earlier present with ⟨first, firstMem, firstPaired⟩
  rcases same.nodes.back otherNode otherMem with ⟨node, nodeMem, nodesMatch⟩
  refine ⟨first, node.key, firstPaired, nodesMatch.keys, firstMem, node, nodeMem, rfl, ?_⟩
  rcases edge with dependency | ordering
  · rcases nodesMatch.dependencies.back earlier dependency with ⟨key, keyMem, isPair⟩
    exact .inl ((isPair.eq_iff pairing firstPaired).mpr rfl ▸ keyMem)
  · rcases nodesMatch.orderings.back earlier ordering with ⟨key, keyMem, isPair⟩
    exact .inr ((isPair.eq_iff pairing firstPaired).mpr rfl ▸ keyMem)

theorem exists_transGen_precedes {earlier later : Nat}
    (way : Relation.TransGen other.Precedes earlier later) :
    ∃ first second, Step.KeysPaired paired first earlier ∧ Step.KeysPaired paired second later ∧
      Relation.TransGen graph.Precedes first second := by
  induction way with
  | single precedes =>
      rcases exists_precedes pairing same precedes with ⟨first, second, former, latter, found⟩
      exact ⟨first, second, former, latter, .single found⟩
  | tail _ precedes induction =>
      rcases induction with ⟨first, middle, former, isMiddle, found⟩
      rcases exists_precedes pairing same precedes with ⟨again, second, isAgain, latter, step⟩
      have joint : middle = again := (isMiddle.eq_iff pairing isAgain).mpr rfl
      exact ⟨first, second, former, latter, found.tail (joint ▸ step)⟩

theorem exists_order_of_matches (indexed : graph.IsIndexed) (otherIndexed : other.IsIndexed)
    {order : List Nat} (resolved : graph.order = .ok order) :
    ∃ otherOrder, other.order = .ok otherOrder := by
  apply order_isOk_iff.mpr (not_isStuck otherIndexed _)
  intro key circle
  rcases exists_transGen_precedes pairing same circle with ⟨first, second, former, latter, found⟩
  have closes : second = first := (latter.eq_iff pairing former).mpr rfl
  exact acyclic_of_order resolved indexed first (closes ▸ found)

end Order

/-! ## Run conditions -/

section Conditions

variable (correspondence : Step.Correspondence paired)

include correspondence

theorem knownPart_of_alike {placed otherPlaced : List Nat} {context other : Condition Step}
    (alike : Condition.Alike paired context other)
    (known : ∀ operand ∈ context.conjuncts, ∀ otherOperand ∈ other.conjuncts,
      Condition.Alike paired operand otherOperand →
        isKnown placed operand = isKnown otherPlaced otherOperand) :
    Option.Rel (Condition.Alike paired) (knownPart placed context)
      (knownPart otherPlaced other) := by
  apply Condition.alike_allOf correspondence.toPairing
  have operands := forall₂_mem (alike.operands .and)
  have kept := List.rel_filter (p := isKnown placed) (q := isKnown otherPlaced)
    (fun operand otherOperand same =>
      Bool.eq_iff_iff.mp (known operand same.2.1 otherOperand same.2.2 same.1)) operands
  exact kept.imp fun _ _ => And.left

theorem map_bare_anyContext {placed otherPlaced : List Nat} {contexts others : List (Condition Step)}
    (alike : List.Forall₂ (Condition.Alike paired) contexts others)
    (known : ∀ context ∈ contexts, ∀ other ∈ others, ∀ operand ∈ context.conjuncts,
      ∀ otherOperand ∈ other.conjuncts, Condition.Alike paired operand otherOperand →
        isKnown placed operand = isKnown otherPlaced otherOperand) :
    (anyContext placed contexts).map Condition.bare =
      (anyContext otherPlaced others).map Condition.bare := by
  have parts : Option.Rel (List.Forall₂ (Condition.Alike paired))
      (contexts.mapM (knownPart placed)) (others.mapM (knownPart otherPlaced)) := by
    apply rel_mapM _ (forall₂_mem alike)
    rintro context other ⟨contextAlike, mem, otherMem⟩
    exact knownPart_of_alike correspondence contextAlike (known context mem other otherMem)
  rw [anyContext, anyContext]
  cases listed : contexts.mapM (knownPart placed) with
  | none =>
      rw [listed] at parts
      rw [eq_none_of_rel_none parts]
  | some members =>
      rw [listed] at parts
      rcases exists_of_rel_some parts with ⟨otherMembers, otherListed, membersAlike⟩
      rw [otherListed, Option.bind_some, Option.bind_some, ← Condition.simplifyAny_map_bare,
        ← Condition.simplifyAny_map_bare, Condition.map_bare_eq membersAlike]

theorem rel_declared? {graph other : Graph} (same : Matches paired graph other) {key otherKey : Nat}
    (isPair : Step.KeysPaired paired key otherKey) :
    Option.Rel (DeclaredLeaf.Alike paired) (graph.declared? key) (other.declared? otherKey) := by
  apply rel_find? same.declared
  intro leaf otherLeaf alike
  exact decide_eq_decide.mpr (alike.keys.eq_iff correspondence.toPairing isPair)

/-- Nodes that match run under conditions with one text, if the same of their contexts is known. -/
theorem map_bare_runCondition {graph other : Graph} (same : Matches paired graph other)
    {node otherNode : Node} (nodes : Node.Matches paired node otherNode)
    {placed otherPlaced : List Nat}
    (known : ∀ context ∈ node.contexts, ∀ otherContext ∈ otherNode.contexts,
      ∀ operand ∈ context.conjuncts, ∀ otherOperand ∈ otherContext.conjuncts,
        Condition.Alike paired operand otherOperand →
          isKnown placed operand = isKnown otherPlaced otherOperand) :
    (graph.runCondition placed node).map Condition.bare =
      (other.runCondition otherPlaced otherNode).map Condition.bare := by
  have declared := rel_declared? correspondence same nodes.keys
  cases found : graph.declared? node.key with
  | some leaf =>
      rw [found] at declared
      rcases exists_of_rel_some declared with ⟨otherLeaf, otherFound, alike⟩
      rw [runCondition, runCondition, found, otherFound]
      exact alike.condition
  | none =>
      rw [found] at declared
      have demands : (demand placed node).map Condition.bare =
          (demand otherPlaced otherNode).map Condition.bare := by
        rw [demand, demand, nodes.unconditional]
        split
        · rfl
        · exact map_bare_anyContext correspondence nodes.contexts known
      rw [runCondition_of_undeclared found, runCondition_of_undeclared (eq_none_of_rel_none declared),
        ← Condition.narrowedBy_map_bare, ← Condition.narrowedBy_map_bare, demands,
        Condition.map_bare_of_rel (correspondence.own nodes.step)]

/-- What is known of two orders of alike jobs is the same wherever the same step is placed. -/
theorem isKnown_eq {items others : List Item}
    (keys : Step.KeysIdentify (Item.Involves items))
    (otherKeys : Step.KeysIdentify (Item.Involves others)) {order otherOrder : List Nat}
    (resolved : (ofItems items).order = .ok order)
    (otherResolved : (ofItems others).order = .ok otherOrder) {node otherNode : Node}
    (nodeMem : node ∈ (ofItems items).nodes) (otherMem : otherNode ∈ (ofItems others).nodes)
    (nodes : Node.Matches paired node otherNode) {position place : Nat}
    (atPosition : order[position]? = some node.key)
    (atPlace : otherOrder[place]? = some otherNode.key) :
    ∀ context ∈ node.contexts, ∀ otherContext ∈ otherNode.contexts,
      ∀ operand ∈ context.conjuncts, ∀ otherOperand ∈ otherContext.conjuncts,
        Condition.Alike paired operand otherOperand →
          isKnown (order.take position) operand = isKnown (otherOrder.take place) otherOperand := by
  intro context asks otherContext otherAsks operand operandMem otherOperand otherOperandMem alike
  have reads := correspondence.readActions_condition alike
  rw [isKnown_of_mem_contexts keys resolved nodeMem atPosition asks operandMem,
    isKnown_of_mem_contexts otherKeys otherResolved otherMem atPlace otherAsks otherOperandMem,
    Bool.eq_iff_iff, List.all_eq_true, List.all_eq_true]
  constructor
  · intro all action mem
    rcases reads.back action mem with ⟨origin, originMem, isPair⟩
    have apart := of_decide_eq_true (all origin originMem)
    exact decide_eq_true (mt (correspondence.key_eq_iff isPair nodes.step).mpr apart)
  · intro all action mem
    rcases reads.forth action mem with ⟨image, imageMem, isPair⟩
    have apart := of_decide_eq_true (all image imageMem)
    exact decide_eq_true (mt (correspondence.key_eq_iff isPair nodes.step).mp apart)

end Conditions

end Graph

/-! ## Resolved jobs -/

/-- The steps are paired and run under conditions with one text. -/
structure ResolvedStep.Alike (paired : Step → Step → Prop) (placed other : ResolvedStep) : Prop where
  step : paired placed.step other.step
  condition : placed.condition.map Condition.render = other.condition.map Condition.render

theorem exists_perm_of_matching {α β : Type} {related : α → β → Prop}
    (unique : Relator.BiUnique related) {members : List α} {others : List β}
    (both : Matching related members others) (distinct : members.Nodup)
    (otherDistinct : others.Nodup) :
    ∃ arranged, List.Forall₂ related members arranged ∧ arranged.Perm others := by
  have images : ∃ arranged, List.Forall₂ related members arranged ∧ arranged ⊆ others := by
    have forth := both.forth
    clear both distinct
    induction members with
    | nil => exact ⟨[], .nil, List.nil_subset _⟩
    | cons head tail induction =>
        rcases forth head List.mem_cons_self with ⟨image, imageMem, isRelated⟩
        rcases induction fun member mem => forth member (List.mem_cons_of_mem head mem) with
          ⟨arranged, allRelated, included⟩
        exact ⟨image :: arranged, .cons isRelated allRelated, List.cons_subset.mpr ⟨imageMem, included⟩⟩
  rcases images with ⟨arranged, allRelated, included⟩
  refine ⟨arranged, allRelated, ?_⟩
  rw [List.perm_ext_iff_of_nodup ((List.rel_nodup unique allRelated).mp distinct) otherDistinct]
  intro other
  constructor
  · exact fun mem => included mem
  · intro mem
    rcases both.back other mem with ⟨member, memberMem, isRelated⟩
    exact (List.rel_mem unique isRelated allRelated).mp memberMem

theorem Step.KeysPaired.biUnique {paired : Step → Step → Prop} (pairing : Keyed.Pairing paired) :
    Relator.BiUnique (KeysPaired paired) :=
  ⟨fun _ _ _ former latter => (former.eq_iff pairing latter).mpr rfl,
    fun _ _ _ former latter => (former.eq_iff pairing latter).mp rfl⟩

theorem Graph.length_runConditions (graph : Graph) (placed order : List Nat) :
    (graph.runConditions placed order).length = order.length := by
  induction order generalizing placed with
  | nil => rfl
  | cons key rest induction => exact congrArg (· + 1) (induction (placed ++ [key]))

theorem forall₂_of_three {α β γ δ : Type} {related : α → β → Prop} {left : α → γ → Prop}
    {right : β → δ → Prop} {result : γ → δ → Prop} {members : List α} {others : List β}
    {images : List γ} {otherImages : List δ} (both : List.Forall₂ related members others)
    (lefts : List.Forall₂ left members images) (rights : List.Forall₂ right others otherImages)
    (holds : ∀ {member other image otherImage}, related member other → left member image →
      right other otherImage → result image otherImage) :
    List.Forall₂ result images otherImages := by
  induction both generalizing images otherImages with
  | nil =>
      cases lefts
      cases rights
      exact .nil
  | cons head _ induction =>
      cases lefts with
      | cons firstLeft moreLeft =>
          cases rights with
          | cons firstRight moreRight =>
              exact .cons (holds head firstLeft firstRight) (induction moreLeft moreRight)

namespace ResolvedJob

/-- What the job has at the key of the order. -/
def Places (job : Job) (order : List Nat) (key : Nat) (placed : ResolvedStep) : Prop :=
  ∃ node ∈ job.graph.nodes, node.key = key ∧ placed.step = node.step ∧
    ∃ position : Nat, order[position]? = some key ∧
      placed.condition = job.graph.runCondition (order.take position) node

theorem Arranges.places {job : Job} {resolved : ResolvedJob} {order : List Nat}
    (arranges : resolved.Arranges job order) :
    List.Forall₂ (Places job order) order resolved.steps := by
  have length : order.length = resolved.steps.length := by
    have zipped := arranges.steps.length_eq
    rw [List.length_zip, Graph.length_runConditions, Nat.min_self] at zipped
    exact zipped
  apply List.forall₂_of_length_eq_of_get length
  intro position inOrder inSteps
  have found := List.getElem?_eq_getElem inSteps
  rcases arranges.exists_node found with ⟨node, nodeMem, atPosition, isStep, isCondition⟩
  have isKey : order[position] = node.key :=
    Option.some.inj ((List.getElem?_eq_getElem inOrder).symm.trans atPosition)
  exact ⟨node, nodeMem, isKey.symm, isStep, position, List.getElem?_eq_getElem inOrder, isCondition⟩

variable {paired : Step → Step → Prop} {job other : Job} {resolved otherResolved : ResolvedJob}
  {order otherOrder : List Nat}

/-- Where alike jobs place the same step, they do so under conditions with one text. -/
theorem alike_of_places (bisimulation : Step.Bisimulation paired)
    (alike : List.Forall₂ (Item.Alike paired) job.items other.items)
    (keys : Step.KeysIdentify (Item.Involves job.items))
    (otherKeys : Step.KeysIdentify (Item.Involves other.items))
    (resolved : job.graph.order = .ok order) (otherResolved : other.graph.order = .ok otherOrder)
    {key otherKey : Nat} (isPair : Step.KeysPaired paired key otherKey)
    {placed otherPlaced : ResolvedStep} (places : Places job order key placed)
    (otherPlaces : Places other otherOrder otherKey otherPlaced) :
    ResolvedStep.Alike paired placed otherPlaced := by
  have same := Graph.matches_ofItems bisimulation alike
  rcases places with ⟨node, nodeMem, rfl, isStep, position, atPosition, isCondition⟩
  rcases otherPlaces with ⟨otherNode, otherMem, rfl, isOtherStep, place, atPlace, isOtherCondition⟩
  have nodes : Node.Matches paired node otherNode := by
    rcases same.nodes.forth node nodeMem with ⟨image, imageMem, nodesMatch⟩
    have sameKey : image.key = otherNode.key :=
      (nodesMatch.keys.eq_iff bisimulation.toPairing isPair).mp rfl
    have isImage := List.inj_on_of_nodup_map (Graph.nodup_keys_ofItems _) imageMem otherMem sameKey
    exact isImage ▸ nodesMatch
  have known := Graph.isKnown_eq bisimulation.correspondence keys otherKeys resolved otherResolved
    nodeMem otherMem nodes atPosition atPlace
  have bares := Graph.map_bare_runCondition bisimulation.correspondence same nodes known
  constructor
  · rw [isStep, isOtherStep]
    exact nodes.step
  · rw [isCondition, isOtherCondition]
    exact Condition.map_render_of_map_bare bares

/-- Alike jobs have the same steps, each under a condition with the same text. -/
theorem exists_perm_of_alike (bisimulation : Step.Bisimulation paired)
    (alike : List.Forall₂ (Item.Alike paired) job.items other.items)
    (keys : Step.KeysIdentify (Item.Involves job.items))
    (otherKeys : Step.KeysIdentify (Item.Involves other.items))
    (arranges : resolved.Arranges job order) (otherArranges : otherResolved.Arranges other otherOrder) :
    ∃ arranged, arranged.Perm otherResolved.steps ∧
      List.Forall₂ (ResolvedStep.Alike paired) resolved.steps arranged := by
  have same := Graph.matches_ofItems bisimulation alike
  have both : Matching (Step.KeysPaired paired) order otherOrder := by
    have matched := Graph.matching_keys same
    constructor
    · intro key mem
      rcases matched.forth key ((Graph.mem_order_iff arranges.ordered key).mp mem) with
        ⟨image, imageMem, isPair⟩
      exact ⟨image, (Graph.mem_order_iff otherArranges.ordered image).mpr imageMem, isPair⟩
    · intro key mem
      rcases matched.back key ((Graph.mem_order_iff otherArranges.ordered key).mp mem) with
        ⟨origin, originMem, isPair⟩
      exact ⟨origin, (Graph.mem_order_iff arranges.ordered origin).mpr originMem, isPair⟩
  rcases exists_perm_of_matching (Step.KeysPaired.biUnique bisimulation.toPairing) both
    (Graph.nodup_order arranges.ordered (Graph.isIndexed_ofItems job.items))
    (Graph.nodup_order otherArranges.ordered (Graph.isIndexed_ofItems other.items)) with
    ⟨arrangedKeys, keysPaired, isPerm⟩
  rcases List.perm_comp_forall₂ isPerm otherArranges.places with ⟨arranged, placed, stepsPerm⟩
  refine ⟨arranged, stepsPerm, ?_⟩
  apply forall₂_of_three keysPaired arranges.places placed
  intro key otherKey step otherStep isPair places otherPlaces
  exact alike_of_places bisimulation alike keys otherKeys arranges.ordered otherArranges.ordered
    isPair places otherPlaces

end ResolvedJob

end FlowPlan

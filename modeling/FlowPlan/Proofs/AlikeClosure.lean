import FlowPlan.Proofs.AlikeItems
import FlowPlan.Proofs.Arrangement
import FlowPlan.Proofs.Closure

/-! # Closures that pull in different steps alike

The closure over reads goes through the steps in the order in which conditions
list them, and conditions that are alike may list them differently. What is
pulled in is the same all the same: each node on one side has its counterpart on
the other, with the same edges and the same contexts.
-/

namespace FlowPlan

/-! ## Members that belong together -/

/-- Every member on one side is related to one on the other, in whatever order. -/
structure Matching {α β : Type} (related : α → β → Prop) (members : List α) (others : List β) :
    Prop where
  forth : ∀ member ∈ members, ∃ other ∈ others, related member other
  back : ∀ other ∈ others, ∃ member ∈ members, related member other

namespace Matching

variable {α β : Type} {related : α → β → Prop} {members : List α} {others : List β}

theorem symm (both : Matching related members others) : Matching (flip related) others members :=
  ⟨both.back, both.forth⟩

theorem of_forall₂ (both : List.Forall₂ related members others) :
    Matching related members others where
  forth _ mem := exists_of_mem_forall₂ both.flip mem
  back _ mem := exists_of_mem_forall₂ both mem

theorem append {more : List α} {otherMore : List β} (both : Matching related members others)
    (behind : Matching related more otherMore) :
    Matching related (members ++ more) (others ++ otherMore) where
  forth member mem := by
    rcases List.mem_append.mp mem with front | back
    · exact (both.forth member front).imp fun _ => And.imp_left (List.mem_append_left _)
    · exact (behind.forth member back).imp fun _ => And.imp_left (List.mem_append_right _)
  back other mem := by
    rcases List.mem_append.mp mem with front | back
    · exact (both.back other front).imp fun _ => And.imp_left (List.mem_append_left _)
    · exact (behind.back other back).imp fun _ => And.imp_left (List.mem_append_right _)

theorem flatMap {γ δ : Type} {result : γ → δ → Prop} (both : Matching related members others)
    {f : α → List γ} {g : β → List δ}
    (holds : ∀ member other, related member other → Matching result (f member) (g other)) :
    Matching result (members.flatMap f) (others.flatMap g) where
  forth image mem := by
    rcases List.mem_flatMap.mp mem with ⟨member, memberMem, inside⟩
    rcases both.forth member memberMem with ⟨other, otherMem, isRelated⟩
    rcases (holds member other isRelated).forth image inside with ⟨found, foundMem, isFound⟩
    exact ⟨found, List.mem_flatMap.mpr ⟨other, otherMem, foundMem⟩, isFound⟩
  back image mem := by
    rcases List.mem_flatMap.mp mem with ⟨other, otherMem, inside⟩
    rcases both.back other otherMem with ⟨member, memberMem, isRelated⟩
    rcases (holds member other isRelated).back image inside with ⟨found, foundMem, isFound⟩
    exact ⟨found, List.mem_flatMap.mpr ⟨member, memberMem, foundMem⟩, isFound⟩

theorem filter (both : Matching related members others) {kept : α → Bool} {otherKept : β → Bool}
    (same : ∀ member other, related member other → kept member = otherKept other) :
    Matching related (members.filter kept) (others.filter otherKept) where
  forth member mem := by
    rcases List.mem_filter.mp mem with ⟨memberMem, isKept⟩
    rcases both.forth member memberMem with ⟨other, otherMem, isRelated⟩
    exact ⟨other, List.mem_filter.mpr ⟨otherMem, same member other isRelated ▸ isKept⟩, isRelated⟩
  back other mem := by
    rcases List.mem_filter.mp mem with ⟨otherMem, isKept⟩
    rcases both.back other otherMem with ⟨member, memberMem, isRelated⟩
    exact ⟨member, List.mem_filter.mpr ⟨memberMem, same member other isRelated ▸ isKept⟩, isRelated⟩

theorem map {γ δ : Type} {result : γ → δ → Prop} (both : Matching related members others)
    {f : α → γ} {g : β → δ} (holds : ∀ member other, related member other →
      result (f member) (g other)) : Matching result (members.map f) (others.map g) where
  forth image mem := by
    rcases List.mem_map.mp mem with ⟨member, memberMem, rfl⟩
    rcases both.forth member memberMem with ⟨other, otherMem, isRelated⟩
    exact ⟨g other, List.mem_map_of_mem otherMem, holds member other isRelated⟩
  back image mem := by
    rcases List.mem_map.mp mem with ⟨other, otherMem, rfl⟩
    rcases both.back other otherMem with ⟨member, memberMem, isRelated⟩
    exact ⟨f member, List.mem_map_of_mem memberMem, holds member other isRelated⟩

end Matching

/-! ## Reads -/

/-- Paired steps come to paired actions and have own conditions that are alike. -/
structure Step.Correspondence (paired : Step → Step → Prop) : Prop
    extends Keyed.Pairing paired where
  own : ∀ {step other : Step}, paired step other →
    Option.Rel (Condition.Alike paired) step.ownCondition? other.ownCondition?
  leaves : ∀ {step other : Step}, paired step other →
    List.Forall₂ paired step.leaves other.leaves

theorem Step.Bisimulation.correspondence {paired : Step → Step → Prop}
    (bisimulation : Step.Bisimulation paired) : Step.Correspondence paired :=
  { bisimulation with leaves := bisimulation.leaves }

theorem Step.Correspondence.symm {paired : Step → Step → Prop}
    (correspondence : Step.Correspondence paired) : Step.Correspondence (flip paired) where
  toPairing := correspondence.toPairing.symm
  own isPair := by
    have turned := rel_flip (correspondence.own isPair)
    revert turned
    generalize ownCondition? _ = own, ownCondition? _ = otherOwn
    intro turned
    cases turned with
    | none => exact .none
    | some alike => exact .some alike.symm
  leaves isPair := (correspondence.leaves isPair).flip

namespace Step.Correspondence

variable {paired : Step → Step → Prop} (correspondence : Step.Correspondence paired)

include correspondence

theorem matching_distinctBy {steps others : List Step} (both : Matching paired steps others) :
    ∀ step ∈ distinctBy Step.same steps, ∃ other ∈ distinctBy Step.same others,
      paired step other := by
  intro step mem
  rcases both.forth step (mem_of_mem_distinctBy mem) with ⟨other, otherMem, isPair⟩
  have spreads : ∀ left right : Step, left.same right = true → right.key = other.key →
      left.key = other.key :=
    fun left right same equal => (of_decide_eq_true same).trans equal
  rcases exists_mem_distinctBy spreads otherMem rfl with ⟨kept, keptMem, sameKey⟩
  rcases both.back kept (mem_of_mem_distinctBy keptMem) with ⟨origin, _, isOrigin⟩
  have isOther : kept = other := (correspondence.right isOrigin isPair sameKey).2
  exact ⟨kept, keptMem, isOther ▸ isPair⟩

theorem readActions_condition {condition other : Condition Step}
    (alike : Condition.Alike paired condition other) :
    Matching paired condition.readActions other.readActions := by
  have sources := alike.sources correspondence.toPairing
  have steps : Matching paired condition.sources.steps other.sources.steps :=
    { forth := fun step mem => by
        simpa only [Sources.mem_steps] using sources.forth step (Sources.mem_steps.mp mem)
      back := fun step mem => by
        simpa only [Sources.mem_steps] using sources.back step (Sources.mem_steps.mp mem) }
  exact steps.flatMap fun _ _ isPair => .of_forall₂ (correspondence.leaves isPair)

end Step.Correspondence

namespace Node

variable {paired : Step → Step → Prop}

theorem Alike.symm {node other : Node} (alike : Alike paired node other) :
    Alike (flip paired) other node := by
  have keys : ∀ {key otherKey : Nat}, Step.KeysPaired paired key otherKey →
      Step.KeysPaired (flip paired) otherKey key :=
    fun ⟨step, other, isPair, isKey, isOtherKey⟩ => ⟨other, step, isPair, isOtherKey, isKey⟩
  exact
    { step := alike.step
      dependencies := (alike.dependencies.imp fun _ _ => keys).flip
      orderings := (alike.orderings.imp fun _ _ => keys).flip
      contexts := (alike.contexts.imp fun _ _ => Condition.Alike.symm).flip
      unconditional := alike.unconditional.symm }

theorem alike_pulledIn {step other : Step} (isPair : paired step other) :
    Alike paired (pulledIn step) (pulledIn other) :=
  ⟨isPair, .nil, .nil, .nil, rfl⟩

/-- The nodes want the same, apart from the order of what they depend on. -/
structure Matches (paired : Step → Step → Prop) (node other : Node) : Prop where
  step : paired node.step other.step
  dependencies : Matching (Step.KeysPaired paired) node.dependencies other.dependencies
  orderings : Matching (Step.KeysPaired paired) node.orderings other.orderings
  contexts : List.Forall₂ (Condition.Alike paired) node.contexts other.contexts
  unconditional : node.unconditional = other.unconditional

theorem Matches.keys {node other : Node} (same : Matches paired node other) :
    Step.KeysPaired paired node.key other.key :=
  .of_pair same.step

section Reads

variable (correspondence : Step.Correspondence paired)

include correspondence

/-- The steps that two alike nodes read belong together. -/
theorem Alike.readActions {node other : Node} (alike : Alike paired node other) :
    Matching paired node.readActions other.readActions := by
  have conditions : Matching (Condition.Alike paired)
      (node.contexts ++ node.step.ownCondition?.toList)
      (other.contexts ++ other.step.ownCondition?.toList) :=
    .of_forall₂ (List.rel_append alike.contexts (rel_toList (correspondence.own alike.step)))
  have reads := conditions.flatMap fun _ _ => correspondence.readActions_condition
  have once : Matching paired (distinctBy Step.same _) (distinctBy Step.same _) :=
    ⟨correspondence.matching_distinctBy reads, correspondence.symm.matching_distinctBy reads.symm⟩
  apply once.filter
  intro action otherAction isPair
  congr 1
  exact decide_eq_decide.mpr (correspondence.key_eq_iff isPair alike.step)

theorem Alike.withReads {node other : Node} (alike : Alike paired node other) :
    Matches paired node.withReads other.withReads := by
  have reads := (alike.readActions correspondence).map (f := Step.key) (g := Step.key)
    fun _ _ => Step.KeysPaired.of_pair
  have both := (Matching.of_forall₂ alike.dependencies).append reads
  rw [Node.withReads, Node.withReads, addDependencies_eq, addDependencies_eq]
  refine ⟨alike.step, ?_, .of_forall₂ alike.orderings, alike.contexts, alike.unconditional⟩
  constructor
  · intro key mem
    simpa [mem_foldl_addOnce] using both.forth key (by simpa [mem_foldl_addOnce] using mem)
  · intro key mem
    simpa [mem_foldl_addOnce] using both.back key (by simpa [mem_foldl_addOnce] using mem)

end Reads

/-! ## What is pulled in -/

section Closure

variable {walked others : List Node} {pulled otherPulled : List Step}
  (correspondence : Step.Correspondence paired)
  (alike : List.Forall₂ (Alike paired) walked others)
  (pulls : Pulls [] walked pulled)

include correspondence alike pulls

theorem exists_pair_of_pulled : ∀ action ∈ pulled, ∃ other, paired action other := by
  apply pulls.traced
  · intro node nodeMem action mem
    rcases exists_of_mem_forall₂ alike.flip nodeMem with ⟨other, _, isAlike⟩
    exact ((isAlike.readActions correspondence).forth action mem).imp fun _ => And.right
  · rintro action ⟨other, isPair⟩ read readMem
    have reads := (alike_pulledIn isPair).readActions correspondence
    exact (reads.forth read readMem).imp fun _ => And.right

variable (otherPulls : Pulls [] others otherPulled)

include otherPulls

omit pulls in
theorem exists_pair_of_mem {other : Node} (mem : other ∈ others ++ otherPulled.map pulledIn) :
    ∃ step, paired step other.step := by
  rcases List.mem_append.mp mem with inOthers | isPulled
  · rcases exists_of_mem_forall₂ alike inOthers with ⟨node, _, isAlike⟩
    exact ⟨node.step, isAlike.step⟩
  · rcases List.mem_map.mp isPulled with ⟨action, actionMem, rfl⟩
    have turned : List.Forall₂ (Alike (flip paired)) others walked :=
      (alike.imp fun _ _ => Alike.symm).flip
    exact exists_pair_of_pulled correspondence.symm turned otherPulls action actionMem

/-- Whatever is pulled in on one side has a node on the other. -/
theorem exists_key_of_pulled : ∀ action ∈ pulled, ∃ other, paired action other ∧
    other.key ∈ (others ++ otherPulled.map pulledIn).map Node.key := by
  apply pulls.traced
  · intro node nodeMem action mem
    rcases exists_of_mem_forall₂ alike.flip nodeMem with ⟨otherNode, otherMem, isAlike⟩
    rcases (isAlike.readActions correspondence).forth action mem with ⟨other, isRead, isPair⟩
    exact ⟨other, isPair, otherPulls.covered otherNode (List.mem_append_left _ otherMem) other isRead⟩
  · rintro action ⟨other, isPair, present⟩ read readMem
    rcases List.mem_map.mp present with ⟨otherNode, otherMem, sameKey⟩
    rcases exists_pair_of_mem correspondence alike otherPulls otherMem with ⟨origin, isOrigin⟩
    have isOther : otherNode.step = other := (correspondence.right isOrigin isPair sameKey).2
    rcases ((alike_pulledIn isPair).readActions correspondence).forth read readMem with
      ⟨otherRead, otherReadMem, readsPaired⟩
    have apart : otherRead.key ≠ otherNode.key := by
      have notOwn := (List.mem_filter.mp otherReadMem).2
      rw [Bool.not_eq_true'] at notOwn
      rw [sameKey]
      exact of_decide_eq_false notOwn
    have inConditions : otherRead ∈ (otherNode.contexts ++
        otherNode.step.ownCondition?.toList).flatMap Condition.readActions := by
      rw [List.flatMap_append, isOther]
      exact List.mem_append_right _ (mem_of_mem_readActions otherReadMem)
    rcases List.mem_map.mp (exists_key_mem_readActions inConditions apart) with
      ⟨kept, keptMem, keptKey⟩
    exact ⟨otherRead, readsPaired, keptKey ▸ otherPulls.covered otherNode otherMem kept keptMem⟩

theorem exists_pulled_of_pulled : ∀ action ∈ pulled, ∃ other ∈ otherPulled, paired action other := by
  intro action mem
  rcases exists_key_of_pulled correspondence alike pulls otherPulls action mem with
    ⟨other, isPair, present⟩
  rcases List.mem_map.mp present with ⟨otherNode, otherMem, sameKey⟩
  rcases exists_pair_of_mem correspondence alike otherPulls otherMem with ⟨origin, isOrigin⟩
  have isOther : otherNode.step = other := (correspondence.right isOrigin isPair sameKey).2
  rcases List.mem_append.mp otherMem with inOthers | isPulled
  · rcases exists_of_mem_forall₂ alike inOthers with ⟨node, nodeMem, isAlike⟩
    have clash : node.key = action.key := (correspondence.right isAlike.step isPair sameKey).1 ▸ rfl
    have distinct := pulls.distinct
    rw [List.nil_append, List.map_append, keys_pulledIn, List.nodup_append] at distinct
    exact absurd clash (distinct.2.2 _ (List.mem_map_of_mem nodeMem) _ (List.mem_map_of_mem mem))
  · rcases List.mem_map.mp isPulled with ⟨found, foundMem, rfl⟩
    have isFound : found = other := isOther
    exact ⟨found, foundMem, isFound ▸ isPair⟩

/-- The closures over the reads of alike nodes have nodes that belong together. -/
theorem matching_closures :
    Matching (Matches paired) ((walked ++ pulled.map pulledIn).map withReads)
      ((others ++ otherPulled.map pulledIn).map withReads) := by
  have turned : List.Forall₂ (Alike (flip paired)) others walked :=
    (alike.imp fun _ _ => Alike.symm).flip
  have pulledBoth : Matching paired pulled otherPulled :=
    ⟨exists_pulled_of_pulled correspondence alike pulls otherPulls,
      exists_pulled_of_pulled correspondence.symm turned otherPulls pulls⟩
  have nodes : Matching (Alike paired) (walked ++ pulled.map pulledIn)
      (others ++ otherPulled.map pulledIn) :=
    (Matching.of_forall₂ alike).append (pulledBoth.map fun _ _ => alike_pulledIn)
  exact nodes.map fun _ _ isAlike => isAlike.withReads correspondence

end Closure

end Node

end FlowPlan

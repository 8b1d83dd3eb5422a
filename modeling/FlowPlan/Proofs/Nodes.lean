import FlowPlan.Graph.Closure
import FlowPlan.Proofs.Members

/-! # The nodes that encounters leave

Every encounter changes the nodes in one step. Where only the nodes count and
not their places, they are found by their keys. What the steps keep true is that
there is one node for each visited action, which is asked for in the contexts of
its visits, each once by its text. The steps that conditions read are then
pulled in behind these nodes, and nobody asks for them in a context.
-/

namespace FlowPlan

namespace Node

/-! ## Nodes that are found by their keys -/

def hasKey (nodes : List Node) (key : Nat) : Bool := nodes.any (·.key = key)

/-- Changes the node with the given key, if there is one. -/
def update (key : Nat) (change : Node → Node) (nodes : List Node) : List Node :=
  nodes.map fun node => if node.key = key then change node else node

/-- An edge that only orders is dropped unless both of its ends are there. -/
def record (nodes : List Node) : Encounter → List Node
  | .visit action context =>
    if hasKey nodes action.key then update action.key (·.addContext context) nodes
    else nodes ++ [{ step := action : Node }.addContext context]
  | .dependency dependent target => update dependent (·.addDependency target) nodes
  | .ordering dependent target =>
    if hasKey nodes target then update dependent (·.addOrdering target) nodes else nodes

/-- The nodes that a walk leaves. The edges that only order come last, when all nodes are known. -/
def ofEncounters (encounters : List Encounter) : List Node :=
  let reached := (encounters.filter fun encounter => !encounter.isOrdering).foldl record []
  (encounters.filter Encounter.isOrdering).foldl record reached

/-! ## What a node is asked for -/

/-- The action is asked for in the context, or always. -/
def Asks (node : Node) : Option (Condition Step) → Prop
  | none => node.unconditional = true
  | some context => context ∈ node.contexts

/-- The node stands for the same action, asked for in the same contexts. -/
structure SameDemand (before after : Node) : Prop where
  step : after.step = before.step
  asks : ∀ context, after.Asks context ↔ before.Asks context

theorem SameDemand.refl (node : Node) : SameDemand node node := ⟨rfl, fun _ => Iff.rfl⟩

theorem SameDemand.trans {first second third : Node} (former : SameDemand first second)
    (latter : SameDemand second third) : SameDemand first third :=
  ⟨latter.step.trans former.step, fun context => (latter.asks context).trans (former.asks context)⟩

theorem SameDemand.key {before after : Node} (same : SameDemand before after) :
    after.key = before.key :=
  congrArg Step.key same.step

theorem sameDemand_addDependency (node : Node) (target : Nat) :
    SameDemand node (node.addDependency target) :=
  ⟨rfl, fun context => by cases context <;> exact Iff.rfl⟩

theorem sameDemand_addOrdering (node : Node) (target : Nat) :
    SameDemand node (node.addOrdering target) :=
  ⟨rfl, fun context => by cases context <;> exact Iff.rfl⟩

/-! ## One context more -/

@[simp] theorem step_addContext (node : Node) (context : Option (Condition Step)) :
    (node.addContext context).step = node.step := by
  cases context with
  | none => rfl
  | some context =>
      rw [addContext]
      split <;> rfl

@[simp] theorem key_addContext (node : Node) (context : Option (Condition Step)) :
    (node.addContext context).key = node.key :=
  congrArg Step.key (node.step_addContext context)

theorem Asks.addContext {node : Node} {asked : Option (Condition Step)} (asks : node.Asks asked)
    (context : Option (Condition Step)) : (node.addContext context).Asks asked := by
  cases context with
  | none =>
      cases asked with
      | none => rfl
      | some => exact asks
  | some context =>
      rw [Node.addContext]
      split
      · exact asks
      · cases asked with
        | none => exact asks
        | some => exact List.mem_append_left _ asks

theorem eq_or_asks_of_addContext {node : Node} {context asked : Option (Condition Step)}
    (asks : (node.addContext context).Asks asked) : asked = context ∨ node.Asks asked := by
  cases context with
  | none =>
      cases asked with
      | none => exact Or.inl rfl
      | some => exact Or.inr asks
  | some context =>
      rw [Node.addContext] at asks
      split at asks
      · exact Or.inr asks
      · cases asked with
        | none => exact Or.inr asks
        | some asked =>
            rcases List.mem_append.mp asks with mem | mem
            · exact Or.inr mem
            · exact Or.inl (congrArg some (List.mem_singleton.mp mem))

/-- A context is left out only for another one with its text. -/
theorem exists_asks_addContext (node : Node) (context : Option (Condition Step)) :
    ∃ asked, (node.addContext context).Asks asked ∧
      asked.map Condition.render = context.map Condition.render := by
  cases context with
  | none => exact ⟨none, rfl, rfl⟩
  | some context =>
      rw [Node.addContext]
      split
      · rename_i present
        rcases List.any_eq_true.mp present with ⟨kept, mem, same⟩
        exact ⟨some kept, mem, congrArg some (of_decide_eq_true same)⟩
      · exact ⟨some context, List.mem_append_right _ List.mem_cons_self, rfl⟩

/-! ## Changing one node -/

theorem hasKey_iff {nodes : List Node} {key : Nat} :
    hasKey nodes key = true ↔ key ∈ nodes.map Node.key := by
  simp [hasKey]

theorem mem_update {key : Nat} {change : Node → Node} {nodes : List Node} {node : Node} :
    node ∈ update key change nodes ↔
      ∃ before ∈ nodes, (if before.key = key then change before else before) = node :=
  List.mem_map

theorem keys_update {key : Nat} {change : Node → Node} {nodes : List Node}
    (sameKey : ∀ node, (change node).key = node.key) :
    (update key change nodes).map Node.key = nodes.map Node.key := by
  rw [update, List.map_map]
  apply List.map_congr_left
  intro node _
  change (if node.key = key then change node else node).key = node.key
  split
  · exact sameKey node
  · rfl

/-! ## The steps of recording -/

/-- The nodes are what the encounters have left so far. -/
structure Recorded (seen : List Encounter) (nodes : List Node) : Prop where
  distinct : (nodes.map Node.key).Nodup
  met : ∀ node ∈ nodes, ∃ context, .visit node.step context ∈ seen
  asked : ∀ node ∈ nodes, ∀ context, node.Asks context →
    ∃ action, action.key = node.key ∧ .visit action context ∈ seen
  kept : ∀ action context, .visit action context ∈ seen →
    ∃ node ∈ nodes, node.key = action.key ∧ ∃ asked, node.Asks asked ∧
      asked.map Condition.render = context.map Condition.render

theorem recorded_nil : Recorded [] [] where
  distinct := List.nodup_nil
  met _ mem := nomatch mem
  asked _ mem := nomatch mem
  kept _ _ mem := nomatch mem

namespace Recorded

variable {seen : List Encounter} {nodes : List Node} (recorded : Recorded seen nodes)

include recorded

theorem of_visits {other : List Encounter}
    (same : ∀ action context, .visit action context ∈ other ↔ .visit action context ∈ seen) :
    Recorded other nodes where
  distinct := recorded.distinct
  met node mem := (recorded.met node mem).imp fun context => (same node.step context).mpr
  asked node mem context asks :=
    (recorded.asked node mem context asks).imp fun action =>
      And.imp_right (same action context).mpr
  kept action context visited := recorded.kept action context ((same action context).mp visited)

/-- Edges leave alone what nodes are asked for. -/
theorem update_edges (key : Nat) {change : Node → Node}
    (same : ∀ node, SameDemand node (change node)) : Recorded seen (update key change nodes) := by
  have image : ∀ before : Node,
      SameDemand before (if before.key = key then change before else before) := by
    intro before
    split
    · exact same before
    · exact SameDemand.refl before
  constructor
  · rw [keys_update fun node => (same node).key]
    exact recorded.distinct
  · intro node mem
    rcases mem_update.mp mem with ⟨before, beforeMem, rfl⟩
    rw [(image before).step]
    exact recorded.met before beforeMem
  · intro node mem context asks
    rcases mem_update.mp mem with ⟨before, beforeMem, rfl⟩
    rw [(image before).key]
    exact recorded.asked before beforeMem context (((image before).asks context).mp asks)
  · intro action context visited
    rcases recorded.kept action context visited with ⟨before, mem, equal, asked, asks, sameText⟩
    exact ⟨_, mem_update.mpr ⟨before, mem, rfl⟩, (image before).key.trans equal, asked,
      ((image before).asks asked).mpr asks, sameText⟩

theorem visit_again {action : Step} {context : Option (Condition Step)}
    (present : hasKey nodes action.key = true) :
    Recorded (seen ++ [.visit action context])
      (update action.key (·.addContext context) nodes) := by
  have image : ∀ before : Node, (if before.key = action.key then before.addContext context
      else before).step = before.step := by
    intro before
    split
    · exact before.step_addContext context
    · rfl
  constructor
  · rw [keys_update fun node => node.key_addContext context]
    exact recorded.distinct
  · intro node mem
    rcases mem_update.mp mem with ⟨before, beforeMem, rfl⟩
    rcases recorded.met before beforeMem with ⟨first, visited⟩
    rw [image before]
    exact ⟨first, List.mem_append_left _ visited⟩
  · intro node mem asked asks
    rcases mem_update.mp mem with ⟨before, beforeMem, rfl⟩
    have sameKey := congrArg Step.key (image before)
    by_cases equal : before.key = action.key
    · rw [if_pos equal] at asks
      rcases eq_or_asks_of_addContext asks with rfl | asks
      · exact ⟨action, equal.symm.trans sameKey.symm,
          List.mem_append_right _ List.mem_cons_self⟩
      · rcases recorded.asked before beforeMem asked asks with ⟨user, userKey, visited⟩
        exact ⟨user, userKey.trans sameKey.symm, List.mem_append_left _ visited⟩
    · rw [if_neg equal] at asks
      rcases recorded.asked before beforeMem asked asks with ⟨user, userKey, visited⟩
      exact ⟨user, userKey.trans sameKey.symm, List.mem_append_left _ visited⟩
  · intro user asked visited
    rcases List.mem_append.mp visited with visited | visited
    · rcases recorded.kept user asked visited with ⟨before, mem, equal, known, asks, sameText⟩
      refine ⟨_, mem_update.mpr ⟨before, mem, rfl⟩, ?_, known, ?_, sameText⟩
      · exact (congrArg Step.key (image before)).trans equal
      · split
        · exact asks.addContext context
        · exact asks
    · cases List.mem_singleton.mp visited
      rcases List.mem_map.mp (hasKey_iff.mp present) with ⟨before, mem, equal⟩
      refine ⟨_, mem_update.mpr ⟨before, mem, rfl⟩, ?_, ?_⟩
      · exact (congrArg Step.key (image before)).trans equal
      · rw [if_pos equal]
        exact before.exists_asks_addContext context

theorem visit_first {action : Step} {context : Option (Condition Step)}
    (absent : hasKey nodes action.key = false) :
    Recorded (seen ++ [.visit action context])
      (nodes ++ [{ step := action : Node }.addContext context]) := by
  have fresh : action.key ∉ nodes.map Node.key := by
    rw [← hasKey_iff, absent]
    exact Bool.false_ne_true
  have nothing : ∀ asked, ¬ { step := action : Node }.Asks asked := by
    intro asked asks
    cases asked with
    | none => cases asks
    | some => cases asks
  constructor
  · rw [List.map_append, List.map_singleton, key_addContext, List.nodup_append]
    refine ⟨recorded.distinct, List.pairwise_singleton _ _, ?_⟩
    intro key mem other otherMem equal
    rw [equal, List.mem_singleton.mp otherMem] at mem
    exact fresh mem
  · intro node mem
    rcases List.mem_append.mp mem with mem | mem
    · exact (recorded.met node mem).imp fun _ => List.mem_append_left _
    · rw [List.mem_singleton.mp mem, step_addContext]
      exact ⟨context, List.mem_append_right _ List.mem_cons_self⟩
  · intro node mem asked asks
    rcases List.mem_append.mp mem with mem | mem
    · rcases recorded.asked node mem asked asks with ⟨user, userKey, visited⟩
      exact ⟨user, userKey, List.mem_append_left _ visited⟩
    · rw [List.mem_singleton.mp mem] at asks ⊢
      rcases eq_or_asks_of_addContext asks with rfl | asks
      · rw [key_addContext]
        exact ⟨action, rfl, List.mem_append_right _ List.mem_cons_self⟩
      · exact absurd asks (nothing asked)
  · intro user asked visited
    rcases List.mem_append.mp visited with visited | visited
    · rcases recorded.kept user asked visited with ⟨node, mem, rest⟩
      exact ⟨node, List.mem_append_left _ mem, rest⟩
    · cases List.mem_singleton.mp visited
      exact ⟨_, List.mem_append_right _ List.mem_cons_self, key_addContext _ _,
        exists_asks_addContext _ context⟩

theorem record (encounter : Encounter) :
    Recorded (seen ++ [encounter]) (record nodes encounter) := by
  have edges : ∀ {key : Nat} {change : Node → Node}, (∀ action context,
      encounter ≠ .visit action context) → (∀ node, SameDemand node (change node)) →
      Recorded (seen ++ [encounter]) (update key change nodes) := by
    intro key change noVisit same
    apply (recorded.update_edges key same).of_visits
    intro action context
    simp [(noVisit action context).symm]
  cases encounter with
  | visit action context =>
      rw [Node.record]
      split
      · exact recorded.visit_again ‹_›
      · exact recorded.visit_first (Bool.not_eq_true _ ▸ ‹_›)
  | dependency dependent target =>
      exact edges (fun _ _ => Encounter.noConfusion)
        fun node => node.sameDemand_addDependency target
  | ordering dependent target =>
      rw [Node.record]
      split
      · exact edges (fun _ _ => Encounter.noConfusion)
          fun node => node.sameDemand_addOrdering target
      · apply recorded.of_visits
        intro action context
        simp

theorem foldl (encounters : List Encounter) :
    Recorded (seen ++ encounters) (encounters.foldl Node.record nodes) := by
  apply foldl_keeps Recorded _ recorded
  intro seen nodes encounter _ recorded
  exact recorded.record encounter

end Recorded

theorem recorded_ofEncounters (encounters : List Encounter) :
    Recorded encounters (ofEncounters encounters) := by
  have first := recorded_nil.foldl (encounters.filter fun encounter => !encounter.isOrdering)
  apply (first.foldl (encounters.filter Encounter.isOrdering)).of_visits
  intro action context
  simp [Encounter.isOrdering]

end Node

end FlowPlan

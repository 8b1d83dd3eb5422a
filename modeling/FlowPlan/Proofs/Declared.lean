import FlowPlan.Graph.Closure
import FlowPlan.Proofs.RunCondition

/-! # Declared actions

The conditions of the actions at the top level are gathered in one pass over the
items. What the pass keeps true of the items that it has gone through is that
the condition of an action permits whatever one of its declarations does, and
nothing else as far as complements can be trusted.
-/

namespace FlowPlan

open Condition (Permits Respects TextDecides Closed ComplementsCover)

namespace Item

/-- The item declares the action with the key at the top level. -/
def Declares (item : Item) (key : Nat) : Prop := item.step.isGroup = false ∧ item.step.key = key

instance (item : Item) (key : Nat) : Decidable (item.Declares key) :=
  inferInstanceAs (Decidable (item.step.isGroup = false ∧ item.step.key = key))

/-- Neither the condition of the item nor the one of its action stands in the way. -/
def IsPermitted (holds : Condition Step → Prop) (item : Item) : Prop :=
  Permits holds item.condition ∧ Permits holds item.step.ownCondition?

/-- The conditions of the item itself and of its action are in question. -/
def ConditionsAmong (among : Condition Step → Prop) (item : Item) : Prop :=
  (∀ condition ∈ item.condition, among condition) ∧
    ∀ condition ∈ item.step.ownCondition?, among condition

variable {holds among : Condition Step → Prop}

theorem ConditionsAmong.mono {item : Item} (members : item.ConditionsAmong among)
    {weaker : Condition Step → Prop} (included : ∀ condition, among condition → weaker condition) :
    item.ConditionsAmong weaker :=
  ⟨fun condition found => included condition (members.1 condition found),
    fun own found => included own (members.2 own found)⟩

theorem declaredCondition_eq (item : Item) :
    item.declaredCondition = Condition.narrowedBy item.condition item.step.ownCondition? := by
  rw [declaredCondition]
  cases item.condition with
  | none => cases item.step.ownCondition? <;> rfl
  | some declared => cases item.step.ownCondition? <;> rfl

theorem permits_declaredCondition (respects : Respects holds) (closed : Closed among)
    (decides : TextDecides holds among) {item : Item} (members : item.ConditionsAmong among) :
    Permits holds item.declaredCondition ↔ item.IsPermitted holds := by
  rw [declaredCondition_eq]
  exact Condition.permits_narrowedBy respects closed decides members.1 members.2

theorem among_declaredCondition (closed : Closed among) {item : Item}
    (members : item.ConditionsAmong among) :
    ∀ condition ∈ item.declaredCondition, among condition := by
  rw [declaredCondition_eq]
  exact Condition.among_narrowedBy closed members.1 members.2

end Item

namespace DeclaredLeaf

variable {holds among : Condition Step → Prop}

/-! ## Declaring an action again -/

/-- Either one of the two declarations always permits the action, or the conditions are joined. -/
theorem also_cases (leaf : DeclaredLeaf) (condition : Option (Condition Step)) :
    ((leaf.condition = none ∨ condition = none) ∧ (leaf.also condition).condition = none) ∨
      ∃ first second, leaf.condition = some first ∧ condition = some second ∧
        (leaf.also condition).condition = Condition.simplifyAny [first, second] := by
  cases found : leaf.condition with
  | none => exact Or.inl ⟨Or.inl rfl, by simp [also, found]⟩
  | some first =>
      cases condition with
      | none => exact Or.inl ⟨Or.inr rfl, by simp [also]⟩
      | some second => exact Or.inr ⟨first, second, rfl, rfl, by simp [also, found]⟩

section Also

variable {leaf : DeclaredLeaf} {condition : Option (Condition Step)}
  (leafMem : ∀ first ∈ leaf.condition, among first)
  (conditionMem : ∀ second ∈ condition, among second)

include leafMem conditionMem

theorem among_pair {first second : Condition Step} (leafFound : leaf.condition = some first)
    (found : condition = some second) : ∀ alternative ∈ [first, second], among alternative := by
  rw [List.forall_mem_cons, List.forall_mem_singleton]
  exact ⟨leafMem first leafFound, conditionMem second found⟩

theorem among_also (closed : Closed among) :
    ∀ result ∈ (leaf.also condition).condition, among result := by
  intro result mem
  rcases leaf.also_cases condition with ⟨_, always⟩ | ⟨first, second, leafFound, found, joined⟩
  · rw [always] at mem
    cases mem
  · rw [joined] at mem
    exact Condition.among_simplifyAny closed (among_pair leafMem conditionMem leafFound found) mem

theorem permits_also (respects : Respects holds) (closed : Closed among)
    (decides : TextDecides holds among)
    (either : Permits holds leaf.condition ∨ Permits holds condition) :
    Permits holds (leaf.also condition).condition := by
  rcases leaf.also_cases condition with ⟨_, always⟩ | ⟨first, second, leafFound, found, joined⟩
  · rw [always]
    exact Condition.permits_none holds
  · rw [joined]
    apply Condition.permits_simplifyAny respects closed.splits decides
      (among_pair leafMem conditionMem leafFound found)
    rw [leafFound, found, Condition.permits_some, Condition.permits_some] at either
    rcases either with stands | stands
    · exact ⟨first, List.mem_cons_self, stands⟩
    · exact ⟨second, List.mem_cons_of_mem first List.mem_cons_self, stands⟩

theorem permits_of_also (respects : Respects holds) (closed : Closed among)
    (decides : TextDecides holds among) (covers : ComplementsCover holds among)
    (permitted : Permits holds (leaf.also condition).condition) :
    Permits holds leaf.condition ∨ Permits holds condition := by
  rcases leaf.also_cases condition with ⟨absent, _⟩ | ⟨first, second, leafFound, found, joined⟩
  · apply absent.imp
    · intro none
      rw [none]
      exact Condition.permits_none holds
    · intro none
      rw [none]
      exact Condition.permits_none holds
  · rw [joined] at permitted
    rcases Condition.exists_of_permits_simplifyAny respects closed decides covers
      (among_pair leafMem conditionMem leafFound found) (List.cons_ne_nil _ _) permitted with
      ⟨alternative, mem, stands⟩
    rw [leafFound, found, Condition.permits_some, Condition.permits_some]
    rcases List.mem_cons.mp mem with rfl | mem
    · exact Or.inl stands
    · exact Or.inr (List.mem_singleton.mp mem ▸ stands)

end Also

/-! ## The pass over the items -/

theorem mem_keys_declare {leaves : List DeclaredLeaf} {item : Item} {key : Nat} :
    key ∈ (declare leaves item).map DeclaredLeaf.key ↔
      key ∈ leaves.map DeclaredLeaf.key ∨ item.Declares key := by
  unfold declare
  dsimp only
  split
  · rename_i group
    simp [Item.Declares, group]
  · have single : item.step.isGroup = false := Bool.eq_false_iff.mpr ‹_›
    split
    · rename_i present
      rw [List.map_map]
      have sameKeys : leaves.map (DeclaredLeaf.key ∘ fun leaf =>
          if leaf.key = item.step.key then leaf.also item.declaredCondition else leaf) =
            leaves.map DeclaredLeaf.key := by
        apply List.map_congr_left
        intro leaf _
        rw [Function.comp_apply]
        split <;> rfl
      rw [sameKeys, iff_self_or]
      rintro ⟨_, rfl⟩
      simpa using present
    · rw [List.map_append, List.map_singleton, List.mem_append, List.mem_singleton]
      apply or_congr_right
      exact ⟨fun equal => ⟨single, equal.symm⟩, fun declares => declares.2.symm⟩

/-- The leaves have the keys that the items seen so far declare. -/
def HasKeysOf (seen : List Item) (leaves : List DeclaredLeaf) : Prop :=
  ∀ key, key ∈ leaves.map DeclaredLeaf.key ↔ ∃ item ∈ seen, item.Declares key

theorem HasKeysOf.declare {seen : List Item} {leaves : List DeclaredLeaf}
    (hasKeys : HasKeysOf seen leaves) (item : Item) :
    HasKeysOf (seen ++ [item]) (declare leaves item) := by
  intro key
  rw [mem_keys_declare, hasKeys key]
  simp [or_and_right, exists_or]

theorem HasKeysOf.foldl {seen : List Item} {leaves : List DeclaredLeaf}
    (hasKeys : HasKeysOf seen leaves) (items : List Item) :
    HasKeysOf (seen ++ items) (items.foldl DeclaredLeaf.declare leaves) := by
  apply foldl_keeps HasKeysOf _ hasKeys
  intro seen leaves item _ hasKeys
  exact hasKeys.declare item

theorem hasKeysOf_nil : HasKeysOf [] [] := fun key => by simp

/-- The conditions of the leaves are those of the declarations seen so far. -/
structure Tracks (holds among : Condition Step → Prop) (seen : List Item)
    (leaves : List DeclaredLeaf) : Prop where
  members : ∀ leaf ∈ leaves, ∀ condition ∈ leaf.condition, among condition
  permits : ∀ leaf ∈ leaves, (∃ item ∈ seen, item.Declares leaf.key ∧ item.IsPermitted holds) →
    Permits holds leaf.condition
  exact : ComplementsCover holds among → ∀ leaf ∈ leaves, Permits holds leaf.condition →
    ∃ item ∈ seen, item.Declares leaf.key ∧ item.IsPermitted holds

theorem tracks_nil : Tracks holds among [] [] where
  members _ mem := nomatch mem
  permits _ mem := nomatch mem
  exact _ _ mem := nomatch mem

namespace Tracks

variable {seen : List Item} {leaves : List DeclaredLeaf} (tracks : Tracks holds among seen leaves)

include tracks

theorem declare_group {item : Item} (group : item.step.isGroup = true) :
    Tracks holds among (seen ++ [item]) leaves := by
  have same : ∀ key, (∃ found ∈ seen ++ [item], found.Declares key ∧ found.IsPermitted holds) ↔
      ∃ found ∈ seen, found.Declares key ∧ found.IsPermitted holds := by
    intro key
    simp [Item.Declares, group, or_and_right, exists_or]
  constructor
  · exact tracks.members
  · intro leaf mem any
    exact tracks.permits leaf mem ((same leaf.key).mp any)
  · intro covers leaf mem permitted
    exact (same leaf.key).mpr (tracks.exact covers leaf mem permitted)

section Action

variable (respects : Respects holds) (closed : Closed among) (decides : TextDecides holds among)
  {item : Item} (members : item.ConditionsAmong among)

include respects closed decides members

theorem declare_again (single : item.step.isGroup = false) :
    Tracks holds among (seen ++ [item]) (leaves.map fun leaf =>
      if leaf.key = item.step.key then leaf.also item.declaredCondition else leaf) := by
  have itemMem := Item.among_declaredCondition closed members
  have itemPermits := Item.permits_declaredCondition respects closed decides members
  have sameKey : ∀ leaf : DeclaredLeaf, (if leaf.key = item.step.key
      then leaf.also item.declaredCondition else leaf).key = leaf.key := by
    intro leaf
    split <;> rfl
  constructor
  · intro leaf mem
    rcases List.mem_map.mp mem with ⟨before, beforeMem, rfl⟩
    split
    · exact among_also (tracks.members before beforeMem) itemMem closed
    · exact tracks.members before beforeMem
  · intro leaf mem any
    rcases List.mem_map.mp mem with ⟨before, beforeMem, rfl⟩
    rw [sameKey before] at any
    rcases any with ⟨found, foundMem, declares, permitted⟩
    split
    · apply permits_also (tracks.members before beforeMem) itemMem respects closed decides
      rcases List.mem_append.mp foundMem with foundMem | foundMem
      · exact Or.inl (tracks.permits before beforeMem ⟨found, foundMem, declares, permitted⟩)
      · rw [List.mem_singleton.mp foundMem] at permitted
        exact Or.inr (itemPermits.mpr permitted)
    · rename_i other
      rcases List.mem_append.mp foundMem with foundMem | foundMem
      · exact tracks.permits before beforeMem ⟨found, foundMem, declares, permitted⟩
      · rw [List.mem_singleton.mp foundMem] at declares
        exact absurd declares.2.symm other
  · intro covers leaf mem permitted
    rcases List.mem_map.mp mem with ⟨before, beforeMem, rfl⟩
    rw [sameKey before]
    have earlier : Permits holds before.condition →
        ∃ found ∈ seen ++ [item], found.Declares before.key ∧ found.IsPermitted holds := by
      intro beforePermitted
      rcases tracks.exact covers before beforeMem beforePermitted with ⟨found, foundMem, rest⟩
      exact ⟨found, List.mem_append_left _ foundMem, rest⟩
    split at permitted
    · rename_i equal
      rcases permits_of_also (tracks.members before beforeMem) itemMem respects closed decides
        covers permitted with permitted | permitted
      · exact earlier permitted
      · exact ⟨item, List.mem_append_right _ List.mem_cons_self, ⟨single, equal.symm⟩,
          itemPermits.mp permitted⟩
    · exact earlier permitted

theorem declare_first (single : item.step.isGroup = false) (hasKeys : HasKeysOf seen leaves)
    (absent : item.step.key ∉ leaves.map DeclaredLeaf.key) :
    Tracks holds among (seen ++ [item])
      (leaves ++ [⟨item.step.key, item.declaredCondition⟩]) := by
  have itemPermits := Item.permits_declaredCondition respects closed decides members
  constructor
  · intro leaf mem
    rcases List.mem_append.mp mem with mem | mem
    · exact tracks.members leaf mem
    · rw [List.mem_singleton.mp mem]
      exact Item.among_declaredCondition closed members
  · rintro leaf mem ⟨found, foundMem, declares, permitted⟩
    rcases List.mem_append.mp mem with mem | mem
    · rcases List.mem_append.mp foundMem with foundMem | foundMem
      · exact tracks.permits leaf mem ⟨found, foundMem, declares, permitted⟩
      · rw [List.mem_singleton.mp foundMem] at declares
        exact absurd (List.mem_map.mpr ⟨leaf, mem, declares.2.symm⟩) absent
    · rw [List.mem_singleton.mp mem] at declares ⊢
      rcases List.mem_append.mp foundMem with foundMem | foundMem
      · exact absurd ((hasKeys _).mpr ⟨found, foundMem, declares⟩) absent
      · rw [List.mem_singleton.mp foundMem] at permitted
        exact itemPermits.mpr permitted
  · intro covers leaf mem permitted
    rcases List.mem_append.mp mem with mem | mem
    · rcases tracks.exact covers leaf mem permitted with ⟨found, foundMem, rest⟩
      exact ⟨found, List.mem_append_left _ foundMem, rest⟩
    · rw [List.mem_singleton.mp mem] at permitted ⊢
      exact ⟨item, List.mem_append_right _ List.mem_cons_self, ⟨single, rfl⟩,
        itemPermits.mp permitted⟩

theorem declare (hasKeys : HasKeysOf seen leaves) :
    Tracks holds among (seen ++ [item]) (declare leaves item) := by
  unfold DeclaredLeaf.declare
  dsimp only
  split
  · exact tracks.declare_group ‹_›
  · have single : item.step.isGroup = false := Bool.eq_false_iff.mpr ‹_›
    split
    · exact tracks.declare_again respects closed decides members single
    · rename_i absent
      apply tracks.declare_first respects closed decides members single hasKeys
      simpa using absent

end Action

theorem foldl (respects : Respects holds) (closed : Closed among)
    (decides : TextDecides holds among) (hasKeys : HasKeysOf seen leaves) (items : List Item)
    (members : ∀ item ∈ items, item.ConditionsAmong among) :
    Tracks holds among (seen ++ items) (items.foldl DeclaredLeaf.declare leaves) := by
  have kept := foldl_keeps
    (fun seen leaves => HasKeysOf seen leaves ∧ Tracks holds among seen leaves)
    (fun seen leaves item mem so => ⟨so.1.declare item,
      so.2.declare respects closed decides (members item mem) so.1⟩) ⟨hasKeys, tracks⟩
  exact kept.2

end Tracks

end DeclaredLeaf

namespace Graph

variable {holds among : Condition Step → Prop}

theorem tracks_declared (respects : Respects holds) (closed : Closed among)
    (decides : TextDecides holds among) {items : List Item}
    (members : ∀ item ∈ items, item.ConditionsAmong among) :
    DeclaredLeaf.Tracks holds among items (ofItems items).declared :=
  DeclaredLeaf.tracks_nil.foldl respects closed decides DeclaredLeaf.hasKeysOf_nil items members

theorem mem_of_declared? {graph : Graph} {key : Nat} {leaf : DeclaredLeaf}
    (found : graph.declared? key = some leaf) : leaf ∈ graph.declared ∧ leaf.key = key :=
  ⟨List.mem_of_find?_eq_some found, by simpa using List.find?_some found⟩

theorem declared?_ofItems_eq_none {items : List Item} {key : Nat} :
    (ofItems items).declared? key = none ↔ ¬ ∃ item ∈ items, item.Declares key := by
  have hasKeys := DeclaredLeaf.hasKeysOf_nil.foldl items key
  rw [List.nil_append] at hasKeys
  rw [← hasKeys]
  simp [declared?, ofItems]

end Graph

end FlowPlan

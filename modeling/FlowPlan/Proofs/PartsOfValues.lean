import FlowPlan.Definition.Reader

/-! # Parts of values

What is taken from one document into another comes out with distinct keys in
every mapping, down to the innermost part. If it has them already and no tag
loses a mark, it comes out as it is.
-/

namespace FlowPlan

namespace Yaml

/-- The values that a value is directly made of. -/
def parts : Yaml → List Yaml
  | .sequence members => members
  | .mapping entries => entries.flatMap fun (name, value) => [name, value]
  | .tagged _ value => [value]
  | _ => []

theorem forall_parts_mapping {entries : Entries} {holds : Yaml → Prop} :
    (∀ part ∈ (mapping entries).parts, holds part) ↔
      ∀ entry ∈ entries, holds entry.1 ∧ holds entry.2 := by
  simp only [parts, List.forall_mem_flatMap, List.forall_mem_cons, List.not_mem_nil,
    false_implies, implies_true, and_true]

/-- The value and all of its parts, and theirs in turn. -/
inductive Everywhere (holds : Yaml → Prop) : Yaml → Prop
  | intro {value : Yaml} (itself : holds value) (inside : ∀ part ∈ value.parts, part.Everywhere holds) :
      value.Everywhere holds

/-- Of two keys of a mapping the later one is not the same as the earlier one. -/
def HasDistinctKeys : Yaml → Prop
  | .mapping entries => entries.Pairwise fun earlier later => later.1.same earlier.1 = false
  | _ => True

/-- The tag has the same name in the next document. -/
def KeepsTag : Yaml → Prop
  | .tagged tag _ => nextTag tag = tag
  | _ => True

/-- The value stays as it is from one document to the next. -/
def IsStable (value : Yaml) : Prop := value.Everywhere fun part => part.HasDistinctKeys ∧ part.KeepsTag

namespace Everywhere

variable {holds : Yaml → Prop}

theorem itself {value : Yaml} (everywhere : value.Everywhere holds) : holds value := by
  cases everywhere with
  | intro itself _ => exact itself

theorem inside {value : Yaml} (everywhere : value.Everywhere holds) :
    ∀ part ∈ value.parts, part.Everywhere holds := by
  cases everywhere with
  | intro _ inside => exact inside

theorem sequence_iff {members : List Yaml} :
    (sequence members).Everywhere holds ↔
      holds (.sequence members) ∧ ∀ member ∈ members, member.Everywhere holds :=
  ⟨fun everywhere => ⟨everywhere.itself, everywhere.inside⟩, fun ⟨itself, inside⟩ => ⟨itself, inside⟩⟩

theorem mapping_iff {entries : Entries} :
    (mapping entries).Everywhere holds ↔ holds (.mapping entries) ∧
      ∀ entry ∈ entries, entry.1.Everywhere holds ∧ entry.2.Everywhere holds := by
  rw [← forall_parts_mapping]
  exact ⟨fun everywhere => ⟨everywhere.itself, everywhere.inside⟩,
    fun ⟨itself, inside⟩ => ⟨itself, inside⟩⟩

theorem tagged_iff {tag : String} {value : Yaml} :
    (tagged tag value).Everywhere holds ↔ holds (.tagged tag value) ∧ value.Everywhere holds := by
  constructor
  · exact fun everywhere => ⟨everywhere.itself, everywhere.inside value (.head _)⟩
  · exact fun ⟨itself, inside⟩ => ⟨itself, List.forall_mem_singleton.mpr inside⟩

theorem untagged {value : Yaml} (everywhere : value.Everywhere holds) :
    value.untagged.Everywhere holds := by
  induction everywhere with
  | @intro value itself inside induction =>
      cases value with
      | tagged tag value => exact induction value (.head _)
      | _ => exact ⟨itself, inside⟩

theorem and {others : Yaml → Prop} {value : Yaml} (everywhere : value.Everywhere holds)
    (also : value.Everywhere others) : value.Everywhere fun part => holds part ∧ others part := by
  induction everywhere with
  | intro itself _ induction =>
      exact ⟨⟨itself, also.itself⟩, fun part mem => induction part mem (also.inside part mem)⟩

end Everywhere

mutual

theorem everywhere_of_forall {holds : Yaml → Prop} (all : ∀ value, holds value) :
    (value : Yaml) → value.Everywhere holds
  | .sequence members =>
    Everywhere.sequence_iff.mpr ⟨all _, everywhere_members_of_forall all members⟩
  | .mapping entries =>
    Everywhere.mapping_iff.mpr ⟨all _, everywhere_entries_of_forall all entries⟩
  | .tagged _ value => Everywhere.tagged_iff.mpr ⟨all _, everywhere_of_forall all value⟩
  | .null | .bool _ | .integer _ | .float _ | .string _ => ⟨all _, List.forall_mem_nil _⟩

theorem everywhere_members_of_forall {holds : Yaml → Prop} (all : ∀ value, holds value) :
    (members : List Yaml) → ∀ member ∈ members, member.Everywhere holds
  | [] => List.forall_mem_nil _
  | member :: rest => List.forall_mem_cons.mpr
      ⟨everywhere_of_forall all member, everywhere_members_of_forall all rest⟩

theorem everywhere_entries_of_forall {holds : Yaml → Prop} (all : ∀ value, holds value) :
    (entries : List (Yaml × Yaml)) →
      ∀ entry ∈ entries, entry.1.Everywhere holds ∧ entry.2.Everywhere holds
  | [] => List.forall_mem_nil _
  | (name, value) :: rest => List.forall_mem_cons.mpr
      ⟨⟨everywhere_of_forall all name, everywhere_of_forall all value⟩,
        everywhere_entries_of_forall all rest⟩

end

/-- What holds of a value as soon as it holds of all its parts holds of every value. -/
theorem induction_on_parts {motive : Yaml → Prop} (value : Yaml)
    (step : ∀ value, (∀ part ∈ value.parts, motive part) → motive value) : motive value := by
  have everywhere : value.Everywhere fun _ => True := everywhere_of_forall (fun _ => trivial) value
  induction everywhere with
  | intro _ _ induction => exact step _ induction

/-! ## Values in the next document -/

section Stable

variable {m : Type → Type} [Monad m] [LawfulMonad m] {add : Entries → Yaml → Yaml → m Entries}
  (adds : ∀ entries name value, Entries.hasKey entries name = false →
    add entries name value = pure (entries ++ [(name, value)]))

omit adds in
theorem allWithNextTags_eq {members : List Yaml}
    (each : ∀ member ∈ members, withNextTags add member = pure member) :
    allWithNextTags add members = pure members := by
  induction members with
  | nil => rw [allWithNextTags]
  | cons head tail induction =>
      rcases List.forall_mem_cons.mp each with ⟨first, others⟩
      rw [allWithNextTags, first, pure_bind, induction others, pure_bind]

include adds

theorem addWithNextTags_eq {before entries : Entries}
    (each : ∀ entry ∈ entries, withNextTags add entry.1 = pure entry.1 ∧
      withNextTags add entry.2 = pure entry.2)
    (distinct : (before ++ entries).Pairwise fun earlier later =>
      later.1.same earlier.1 = false) :
    addWithNextTags add before entries = pure (before ++ entries) := by
  induction entries generalizing before with
  | nil => rw [addWithNextTags, List.append_nil]
  | cons head tail induction =>
      rcases head with ⟨name, value⟩
      rcases List.forall_mem_cons.mp each with ⟨⟨isName, isValue⟩, others⟩
      have isFree : Entries.hasKey before name = false := by
        rw [Entries.hasKey, List.any_eq_false]
        intro entry mem
        have other := (List.pairwise_append.mp distinct).2.2 entry mem _ List.mem_cons_self
        simpa using other
      rw [addWithNextTags, isName, pure_bind, isValue, pure_bind, adds _ _ _ isFree, pure_bind,
        induction others (by simpa using distinct), List.append_assoc, List.singleton_append]

theorem withNextTags_eq {value : Yaml} (stable : value.IsStable) :
    withNextTags add value = pure value := by
  induction stable with
  | @intro value itself _ induction =>
      cases value with
      | sequence members =>
          have each : ∀ member ∈ members, withNextTags add member = pure member := induction
          rw [withNextTags, allWithNextTags_eq each, pure_bind]
      | mapping entries =>
          have kept : addWithNextTags add [] entries = pure ([] ++ entries) :=
            addWithNextTags_eq adds (forall_parts_mapping.mp induction) itself.1
          rw [withNextTags, kept, pure_bind, List.nil_append]
      | tagged tag value =>
          have keeps : nextTag tag = tag := itself.2
          rw [withNextTags, induction value (.head _), pure_bind, keeps]
      | _ => rw [withNextTags] <;> nofun

end Stable

theorem received?_eq {value : Yaml} (stable : value.IsStable) : received? value = some value := by
  apply withNextTags_eq _ stable
  intro entries name value isFree
  rw [Entries.add?, if_neg (by simp [isFree])]
  rfl

theorem handedOn_eq {value : Yaml} (stable : value.IsStable) : handedOn value = value := by
  apply withNextTags_eq (m := Id) _ stable
  intro entries name value isFree
  rw [Entries.insert, if_neg (by simp [isFree])]

/-! ## Keys of received values -/

/-- No mapping in the value has a key twice. -/
def IsOrderly (value : Yaml) : Prop := value.Everywhere HasDistinctKeys

theorem isOrderly_members {members received : List Yaml}
    (each : ∀ member ∈ members, ∀ value, received? member = some value → value.IsOrderly)
    (isReceived : allWithNextTags Entries.add? members = some received) :
    ∀ value ∈ received, value.IsOrderly := by
  induction members generalizing received with
  | nil =>
      rw [allWithNextTags] at isReceived
      cases isReceived
      exact List.forall_mem_nil _
  | cons head tail induction =>
      rcases List.forall_mem_cons.mp each with ⟨first, others⟩
      rw [allWithNextTags] at isReceived
      rcases Option.bind_eq_some_iff.mp isReceived with ⟨value, isValue, isReceived⟩
      rcases Option.bind_eq_some_iff.mp isReceived with ⟨rest, isRest, made⟩
      cases made
      exact List.forall_mem_cons.mpr ⟨first value isValue, induction others isRest⟩

/-- An entry is added only if its key is still free. -/
theorem isOrderly_entries {before entries after : Entries}
    (orderly : (mapping before).IsOrderly)
    (each : ∀ entry ∈ entries, (∀ name, received? entry.1 = some name → name.IsOrderly) ∧
      ∀ value, received? entry.2 = some value → value.IsOrderly)
    (isReceived : addWithNextTags Entries.add? before entries = some after) :
    (mapping after).IsOrderly := by
  induction entries generalizing before with
  | nil =>
      rw [addWithNextTags] at isReceived
      cases isReceived
      exact orderly
  | cons head tail induction =>
      rcases head with ⟨key, content⟩
      rcases List.forall_mem_cons.mp each with ⟨⟨ofKey, ofContent⟩, others⟩
      rw [addWithNextTags] at isReceived
      rcases Option.bind_eq_some_iff.mp isReceived with ⟨name, isName, isReceived⟩
      rcases Option.bind_eq_some_iff.mp isReceived with ⟨value, isValue, isReceived⟩
      rcases Option.bind_eq_some_iff.mp isReceived with ⟨more, added, isReceived⟩
      refine induction ?_ others isReceived
      rw [Entries.add?] at added
      split at added
      · cases added
      · rename_i isFree
        cases added
        rcases Everywhere.mapping_iff.mp orderly with ⟨distinct, inside⟩
        refine Everywhere.mapping_iff.mpr ⟨?_, List.forall_mem_append.mpr
          ⟨inside, List.forall_mem_singleton.mpr ⟨ofKey name isName, ofContent value isValue⟩⟩⟩
        refine List.pairwise_append.mpr ⟨distinct, List.pairwise_singleton _ _, ?_⟩
        intro earlier mem later isLater
        cases List.mem_singleton.mp isLater
        rw [Bool.not_eq_true, Entries.hasKey, List.any_eq_false] at isFree
        simpa using isFree earlier mem

theorem isOrderly_nil : (mapping []).IsOrderly :=
  Everywhere.mapping_iff.mpr ⟨.nil, List.forall_mem_nil _⟩

theorem isOrderly_of_received? {value received : Yaml} (isReceived : value.received? = some received) :
    received.IsOrderly := by
  rw [Yaml.received?] at isReceived
  induction value using induction_on_parts generalizing received with
  | step value induction =>
      cases value with
      | sequence members =>
          rw [withNextTags] at isReceived
          rcases Option.bind_eq_some_iff.mp isReceived with ⟨others, isOthers, made⟩
          cases made
          refine Everywhere.sequence_iff.mpr ⟨trivial, isOrderly_members ?_ isOthers⟩
          exact fun member mem value => induction member mem
      | mapping entries =>
          rw [withNextTags] at isReceived
          rcases Option.bind_eq_some_iff.mp isReceived with ⟨others, isOthers, made⟩
          cases made
          have each : ∀ part ∈ (mapping entries).parts, ∀ value, received? part = some value →
              value.IsOrderly := fun part mem _ => induction part mem
          exact isOrderly_entries isOrderly_nil (forall_parts_mapping.mp each) isOthers
      | tagged tag value =>
          rw [withNextTags] at isReceived
          rcases Option.bind_eq_some_iff.mp isReceived with ⟨inner, isInner, made⟩
          cases made
          exact Everywhere.tagged_iff.mpr ⟨trivial, induction value (.head _) isInner⟩
      | _ =>
          rw [withNextTags] at isReceived
          · cases isReceived
            exact ⟨trivial, List.forall_mem_nil _⟩
          all_goals nofun

theorem Entries.isOrderly_of_received? {entries received : Entries}
    (isReceived : entries.received? = some received) : (mapping received).IsOrderly := by
  refine isOrderly_entries isOrderly_nil (fun entry mem => ?_) isReceived
  exact ⟨fun _ => Yaml.isOrderly_of_received?, fun _ => Yaml.isOrderly_of_received?⟩

/-! ## Tags -/

/-- No tag in the value loses a mark. -/
def KeepsTags (value : Yaml) : Prop := value.Everywhere KeepsTag

theorem isStable_of_isOrderly {value : Yaml} (orderly : value.IsOrderly) (keeps : value.KeepsTags) :
    value.IsStable := orderly.and keeps

theorem areTagFree_iff {members : List Yaml} :
    areTagFree members = true ↔ ∀ member ∈ members, member.isTagFree = true := by
  induction members with
  | nil => simp [areTagFree]
  | cons head tail induction => simp [areTagFree, induction]

theorem areEntriesTagFree_iff {entries : Entries} :
    areEntriesTagFree entries = true ↔
      ∀ entry ∈ entries, entry.1.isTagFree = true ∧ entry.2.isTagFree = true := by
  induction entries with
  | nil => simp [areEntriesTagFree]
  | cons head tail induction =>
      rw [areEntriesTagFree, Bool.and_eq_true, Bool.and_eq_true, induction, List.forall_mem_cons]

theorem keepsTags_of_isTagFree {value : Yaml} (isFree : value.isTagFree = true) :
    value.KeepsTags := by
  induction value using induction_on_parts with
  | step value induction =>
      cases value with
      | sequence members =>
          rw [isTagFree, areTagFree_iff] at isFree
          exact ⟨trivial, fun part mem => induction part mem (isFree part mem)⟩
      | mapping entries =>
          rw [isTagFree, areEntriesTagFree_iff] at isFree
          have each : ∀ part ∈ (mapping entries).parts, part.isTagFree = true :=
            forall_parts_mapping.mpr isFree
          exact ⟨trivial, fun part mem => induction part mem (each part mem)⟩
      | tagged => cases isFree
      | _ => exact ⟨trivial, List.forall_mem_nil _⟩

end Yaml

end FlowPlan

import FlowPlan.Definition.Writer
import FlowPlan.Proofs.ReadDefinitions
import Mathlib.Data.List.Nodup

/-! # Reading what was written

What one field writes it reads again. A record is written with all of its fields,
each under its main name, and then with its extra fields, so it reads as the
record that was written if each of its fields does. Of entries that were written
under one name the last one is left.
-/

namespace FlowPlan

namespace Yaml

/-! ## Values that are stable -/

theorem isStable_sequence {members : List Yaml} (each : ∀ member ∈ members, member.IsStable) :
    (sequence members).IsStable :=
  Everywhere.sequence_iff.mpr ⟨⟨trivial, trivial⟩, each⟩

theorem isStable_mapping {entries : Entries}
    (distinct : entries.Pairwise fun earlier later => later.1.same earlier.1 = false)
    (each : ∀ entry ∈ entries, entry.1.IsStable ∧ entry.2.IsStable) : (mapping entries).IsStable :=
  Everywhere.mapping_iff.mpr ⟨⟨distinct, trivial⟩, each⟩

theorem isStable_null : null.IsStable := ⟨⟨trivial, trivial⟩, List.forall_mem_nil _⟩

theorem isStable_bool (flag : Bool) : (bool flag).IsStable :=
  ⟨⟨trivial, trivial⟩, List.forall_mem_nil _⟩

theorem isStable_ofNat (number : Nat) : (ofNat number).IsStable :=
  ⟨⟨trivial, trivial⟩, List.forall_mem_nil _⟩

theorem isStable_string (text : String) : (string text).IsStable :=
  ⟨⟨trivial, trivial⟩, List.forall_mem_nil _⟩

theorem isStable_texts (texts : List String) : (sequence (texts.map string)).IsStable :=
  isStable_sequence (List.forall_mem_map.mpr fun text _ => isStable_string text)

theorem isStable_ofOption {α : Type} {write : α → Yaml} {value : Option α}
    (each : ∀ content ∈ value, (write content).IsStable) : (ofOption write value).IsStable := by
  cases value with
  | none => exact isStable_null
  | some content => exact each content rfl

theorem isStable_ofNames (list : NameList) : (ofNames list).IsStable := by
  cases list with
  | absent => exact isStable_null
  | single name => exact isStable_string name
  | several names => exact isStable_texts names

theorem Entries.received?_eq {entries : Entries} (stable : (mapping entries).IsStable) :
    entries.received? = some entries := by
  have received : (mapping entries).received? = some (mapping entries) := Yaml.received?_eq stable
  rw [Yaml.received?, withNextTags] at received
  rcases Option.bind_eq_some_iff.mp received with ⟨others, isReceived, made⟩
  cases made
  exact isReceived

theorem Entries.handedOn_eq {entries : Entries} (stable : (mapping entries).IsStable) :
    entries.handedOn = entries := by
  have same : (mapping entries).handedOn = mapping entries := Yaml.handedOn_eq stable
  rw [Yaml.handedOn, withNextTags] at same
  exact mapping.inj same

theorem IsKept.isStable {value : Yaml} (kept : value.IsKept) (keeps : value.KeepsTags) :
    value.IsStable := isStable_of_isOrderly kept.orderly keeps

theorem isStable_ofKept {value : Option Yaml} (kept : ∀ content ∈ value, content.IsKept)
    (keeps : ∀ content ∈ value, content.KeepsTags) : (ofKept value).IsStable := by
  apply isStable_ofOption
  intro content isContent
  have stable := (kept content isContent).isStable (keeps content isContent)
  rw [handedOn_eq stable]
  exact stable

theorem isStable_handedOn {entries : Entries} (kept : (mapping entries).IsKept)
    (keeps : (mapping entries).KeepsTags) : (mapping entries.handedOn).IsStable := by
  rw [Entries.handedOn_eq (kept.isStable keeps)]
  exact kept.isStable keeps

/-! ## Single values -/

theorem readOptional_text (text : Option String) :
    readOptional readText (ofOption string text) = .ok text := by
  cases text <;> rfl

theorem readOptional_flag (flag : Option Bool) :
    readOptional readFlag (ofOption bool flag) = .ok flag := by
  cases flag <;> rfl

theorem readOptional_minutes {minutes : Option Nat} (small : ∀ number ∈ minutes, number < 2 ^ 64) :
    readOptional readMinutes (ofOption ofNat minutes) = .ok minutes := by
  cases minutes with
  | none => rfl
  | some number =>
      have isRead : readMinutes (ofNat number) = .ok number := if_pos (small number rfl)
      change Except.map some (readMinutes (ofNat number)) = _
      rw [isRead]
      rfl

theorem mapM_of_forall {α β ε : Type} {read : α → Except ε β} {write : β → α} {members : List β}
    (each : ∀ member ∈ members, read (write member) = .ok member) :
    (members.map write).mapM read = .ok members := by
  induction members with
  | nil => rfl
  | cons head tail induction =>
      rcases List.forall_mem_cons.mp each with ⟨first, others⟩
      rw [List.map_cons, List.mapM_cons, first, induction others]
      rfl

theorem readTexts_texts (texts : List String) : readTexts (sequence (texts.map string)) = .ok texts :=
  mapM_of_forall fun _ _ => rfl

theorem readNames_ofNames (list : NameList) : readNames (ofNames list) = .ok list := by
  cases list with
  | absent | single => rfl
  | several names =>
      have isRead : (names.map string).mapM readName = .ok names := mapM_of_forall fun _ _ => rfl
      change Except.map NameList.several ((names.map string).mapM readName) = _
      rw [isRead]
      rfl

theorem readEntries_mapping {entries : Entries} (stable : (mapping entries).IsStable) :
    readEntries (mapping entries) = .ok entries := by
  change ofReceived entries.received? = _
  rw [Entries.received?_eq stable]
  rfl

theorem readEntries_handedOn {entries : Entries} (kept : (mapping entries).IsKept)
    (keeps : (mapping entries).KeepsTags) : readEntries (mapping entries.handedOn) = .ok entries := by
  rw [Entries.handedOn_eq (kept.isStable keeps), readEntries_mapping (kept.isStable keeps)]

theorem readAny_ofKept {value : Option Yaml} (kept : ∀ content ∈ value, content.IsKept)
    (keeps : ∀ content ∈ value, content.KeepsTags) : readAny (ofKept value) = .ok value := by
  cases value with
  | none => rfl
  | some content =>
      have stable := (kept content rfl).isStable (keeps content rfl)
      have written : ofKept (some content) = content := handedOn_eq stable
      rw [written, readAny]
      unfold readOptional
      split
      · exact absurd rfl (kept .null rfl).isGiven
      · dsimp only
        rw [received?_eq stable]
        rfl

/-! ## Values under names -/

section Named

variable {α : Type}

/-- A name that is there already keeps its place and gets the new value. -/
def insertNamed (members : List (String × α)) (member : String × α) : List (String × α) :=
  if member.1 ∈ members.map Prod.fst then
    members.map fun other => if member.1 = other.1 then member else other
  else members ++ [member]

/-- Of all members with one name the last one, in the place of the first one. -/
def lastOfEach (members : List (String × α)) : List (String × α) := members.foldl insertNamed []

theorem names_insertNamed (members : List (String × α)) (member : String × α) :
    (insertNamed members member).map Prod.fst =
      if member.1 ∈ members.map Prod.fst then members.map Prod.fst
      else members.map Prod.fst ++ [member.1] := by
  rw [insertNamed]
  split
  · rw [List.map_map]
    apply List.map_congr_left
    intro other _
    rw [Function.comp_apply]
    split
    · rename_i same
      exact same
    · rfl
  · rw [List.map_append, List.map_singleton]

theorem mem_insertNamed {members : List (String × α)} {member other : String × α}
    (mem : other ∈ insertNamed members member) : other ∈ members ∨ other = member := by
  rw [insertNamed] at mem
  split at mem
  · rcases List.mem_map.mp mem with ⟨before, isBefore, rfl⟩
    split
    · exact .inr rfl
    · exact .inl isBefore
  · exact (List.mem_append.mp mem).imp_right List.mem_singleton.mp

theorem mem_of_mem_lastOfEach {members : List (String × α)} {member : String × α}
    (mem : member ∈ lastOfEach members) : member ∈ members := by
  have all : ∀ other ∈ lastOfEach members, other ∈ members := by
    refine List.foldlRecOn (motive := fun sum => ∀ other ∈ sum, other ∈ members) members
      insertNamed (List.forall_mem_nil _) ?_
    intro sum inside next isNext other isOther
    rcases mem_insertNamed isOther with before | rfl
    · exact inside other before
    · exact isNext
  exact all member mem

theorem nodup_lastOfEach (members : List (String × α)) :
    ((lastOfEach members).map Prod.fst).Nodup := by
  refine List.foldlRecOn (motive := fun sum => (sum.map Prod.fst).Nodup) members
    insertNamed (show (List.map Prod.fst []).Nodup from .nil) ?_
  intro sum nodup next _
  rw [names_insertNamed]
  split
  · exact nodup
  · rename_i isNew
    exact List.nodup_append.mpr ⟨nodup, List.nodup_singleton _, fun name mem other isOther =>
      List.mem_singleton.mp isOther ▸ fun same => isNew (same ▸ mem)⟩

/-- Members with different names all stay. -/
theorem lastOfEach_eq_self {members : List (String × α)} (nodup : (members.map Prod.fst).Nodup) :
    lastOfEach members = members := by
  have grows : ∀ sum : List (String × α), ((sum ++ members).map Prod.fst).Nodup →
      members.foldl insertNamed sum = sum ++ members := by
    clear nodup
    induction members with
    | nil => exact fun sum _ => (List.append_nil sum).symm
    | cons head tail induction =>
        intro sum nodup
        have isNew : head.1 ∉ sum.map Prod.fst := by
          rw [List.map_append, List.nodup_append] at nodup
          exact fun mem => nodup.2.2 _ mem _ List.mem_cons_self rfl
        rw [List.foldl_cons, insertNamed, if_neg isNew, induction _ (by simpa using nodup),
          List.append_assoc, List.singleton_append]
  exact grows [] nodup

def entryOf (write : α → Yaml) (member : String × α) : Yaml × Yaml :=
  (.string member.1, write member.2)

theorem hasKey_entriesOf (write : α → Yaml) (members : List (String × α)) (name : String) :
    Entries.hasKey (members.map (entryOf write)) (.string name) = true ↔
      name ∈ members.map Prod.fst := by
  simp [Entries.hasKey, entryOf, same]

theorem insert_entriesOf (write : α → Yaml) (members : List (String × α)) (member : String × α) :
    Entries.insert (members.map (entryOf write)) (.string member.1) (write member.2) =
      (insertNamed members member).map (entryOf write) := by
  rw [Entries.insert, insertNamed]
  by_cases present : member.1 ∈ members.map Prod.fst
  · rw [if_pos ((hasKey_entriesOf write members _).mpr present), if_pos present, List.map_map,
      List.map_map]
    apply List.map_congr_left
    intro other _
    by_cases isSame : member.1 = other.1
    · simp [entryOf, same, isSame]
    · simp [entryOf, same, isSame]
  · rw [if_neg (mt (hasKey_entriesOf write members _).mp present), if_neg present, List.map_append,
      List.map_singleton]
    rfl

/-- Of entries with one name the last one is written. -/
theorem ofNamed_eq (write : α → Yaml) (members : List (String × α)) :
    ofNamed write members = .mapping ((lastOfEach members).map (entryOf write)) := by
  have grows : ∀ sum : List (String × α),
      members.foldl (fun entries member =>
        Entries.insert entries (.string member.1) (write member.2)) (sum.map (entryOf write)) =
        (members.foldl insertNamed sum).map (entryOf write) := by
    induction members with
    | nil => exact fun _ => rfl
    | cons head tail induction =>
        intro sum
        rw [List.foldl_cons, List.foldl_cons, insert_entriesOf, induction]
  exact congrArg mapping (grows [])

theorem ofNamed_lastOfEach (write : α → Yaml) (members : List (String × α)) :
    ofNamed write (lastOfEach members) = ofNamed write members := by
  rw [ofNamed_eq, ofNamed_eq, lastOfEach_eq_self (nodup_lastOfEach members)]

theorem isStable_ofNamed {write : α → Yaml} {members : List (String × α)}
    (each : ∀ member ∈ members, (write member.2).IsStable) : (ofNamed write members).IsStable := by
  rw [ofNamed_eq]
  apply isStable_mapping
  case distinct =>
    have names := nodup_lastOfEach members
    rw [List.Nodup, List.pairwise_map] at names
    exact List.pairwise_map.mpr (names.imp fun different => by
      simpa [entryOf, same, eq_comm] using different)
  case each =>
    refine List.forall_mem_map.mpr fun member mem => ⟨isStable_string _, ?_⟩
    exact each member (mem_of_mem_lastOfEach mem)

theorem readNamed_ofNamed {read : Yaml → Reading α} {write : α → Yaml}
    {members : List (String × α)} (distinct : (members.map Prod.fst).Nodup)
    (stable : ∀ member ∈ members, (write member.2).IsStable)
    (back : ∀ member ∈ members, read (write member.2) = .ok member.2) :
    readNamed read (ofNamed write members) = .ok members := by
  have isStable := isStable_ofNamed stable
  rw [ofNamed_eq, lastOfEach_eq_self distinct] at isStable ⊢
  rw [readNamed, readEntries_mapping isStable]
  apply mapM_of_forall
  intro member mem
  change (read (write member.2)).map (member.1, ·) = _
  rw [back member mem]
  rfl

end Named

end Yaml

end FlowPlan

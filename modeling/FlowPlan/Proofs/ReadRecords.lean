import FlowPlan.Proofs.Needs
import FlowPlan.Proofs.PartsOfValues

/-! # How records are read

A record is read field by field, so whatever each field keeps true of it is true
of the record in the end. The fields of a step are read like those of any other
record, and its children are read from parts of the same value.
-/

namespace FlowPlan

open Yaml

theorem exists_of_bind_eq_ok {ε α β : Type} {first : Except ε α} {next : α → Except ε β}
    {result : β} (bound : first >>= next = .ok result) :
    ∃ value, first = .ok value ∧ next value = .ok result := by
  cases first with
  | error => cases bound
  | ok value => exact ⟨value, rfl, bound⟩

section Fields

variable {ρ φ : Type} [DecidableEq φ] {ofKey? : String → Option φ}
  {assign : ρ → φ → Yaml → Reading ρ} {other : ρ → String → Reading Yaml → Reading ρ}

/-- Whatever each field keeps true of a record is true of the record that is read. -/
theorem holds_of_readFields {fits : Yaml → Prop} {invariant : ρ → Prop}
    (assigns : ∀ record field value result, fits value → invariant record →
      assign record field value = .ok result → invariant result)
    (others : ∀ record key value result, (∀ content, value = .ok content → fits content) →
      ofKey? key = none → invariant record → other record key value = .ok result →
        invariant result)
    {given : List φ} {record result : ρ} {fields : List RawField} (holds : invariant record)
    (allFit : ∀ field ∈ fields, ∀ content, field.2 = .ok content → fits content)
    (read : readFields ofKey? assign other given record fields = .ok result) :
    invariant result := by
  induction fields generalizing given record with
  | nil => exact Except.ok.inj read ▸ holds
  | cons head tail induction =>
      rcases head with ⟨key, value⟩
      rcases List.forall_mem_cons.mp allFit with ⟨valueFits, restFits⟩
      rw [readFields] at read
      rcases exists_of_bind_eq_ok read with ⟨name, _, read⟩
      split at read
      · rename_i unknown
        rcases exists_of_bind_eq_ok read with ⟨next, kept, read⟩
        exact induction (others record name value next valueFits unknown holds kept) restFits read
      · split at read
        · cases read
        · rcases exists_of_bind_eq_ok read with ⟨content, isContent, read⟩
          rcases exists_of_bind_eq_ok read with ⟨next, assigned, read⟩
          have fitting := valueFits content isContent
          exact induction (assigns record _ content next fitting holds assigned) restFits read

/-- Fields that stand under their own names are assigned one after another. -/
theorem readFields_append {key : φ → String} (isKey : ∀ field, ofKey? (key field) = some field)
    {value : φ → Yaml} {fields given : List φ} (once : fields.Nodup)
    (fresh : ∀ field ∈ fields, field ∉ given) {record result : ρ}
    (assigned : fields.foldlM (fun record field => assign record field (value field)) record =
      .ok result) (rest : List RawField) :
    readFields ofKey? assign other given record
        (fields.map (fun field => (.ok (key field), .ok (value field))) ++ rest) =
      readFields ofKey? assign other (fields.reverse ++ given) result rest := by
  induction fields generalizing given record with
  | nil =>
      cases assigned
      rfl
  | cons head tail induction =>
      rcases List.nodup_cons.mp once with ⟨notLater, once⟩
      rcases List.forall_mem_cons.mp fresh with ⟨notGiven, fresh⟩
      rcases exists_of_bind_eq_ok assigned with ⟨next, isNext, assigned⟩
      have freshLater : ∀ field ∈ tail, field ∉ head :: given := by
        intro field mem given
        rcases List.mem_cons.mp given with rfl | given
        · exact notLater mem
        · exact fresh field mem given
      rw [List.map_cons, List.cons_append, readFields]
      simp only [bind, Except.bind, isKey, notGiven, if_false, isNext]
      rw [induction once freshLater assigned, List.reverse_cons, List.append_assoc,
        List.singleton_append]

end Fields

namespace Yaml

theorem Entries.eq_of_completed {extra whole : Entries} (completed : extra.completed = .ok whole) :
    whole = extra ∧ extra.areDistinct = true := by
  rw [Entries.completed] at completed
  split at completed
  · rename_i distinct
    exact ⟨(Except.ok.inj completed).symm, distinct⟩
  · cases completed

/-- The fields of a record are parts of the value that it is read from. -/
theorem everywhere_of_readFieldEntries {holds : Yaml → Prop} {value : Yaml} {entries : Entries}
    (everywhere : value.Everywhere holds) (isRead : readFieldEntries value = .ok entries) :
    ∀ entry ∈ entries, entry.1.Everywhere holds ∧ entry.2.Everywhere holds := by
  have inside := everywhere.untagged
  unfold readFieldEntries at isRead
  split at isRead
  · rename_i isMapping
    cases isRead
    exact (Everywhere.mapping_iff.mp (isMapping ▸ inside)).2
  · cases isRead
    exact List.forall_mem_nil _
  · cases isRead

theorem isOrderly_of_readEntries {value : Yaml} {entries : Entries}
    (isRead : readEntries value = .ok entries) : (mapping entries).IsOrderly := by
  rcases exists_of_bind_eq_ok isRead with ⟨given, _, isReceived⟩
  cases received : given.received? with
  | none => rw [received] at isReceived; cases isReceived
  | some others =>
      rw [received] at isReceived
      cases isReceived
      exact Entries.isOrderly_of_received? received

/-- Each named value is read from one. -/
theorem exists_of_readNamed {α : Type} {read : Yaml → Reading α} {value : Yaml}
    {entries : List (String × α)} (named : readNamed read value = .ok entries) :
    ∀ entry ∈ entries, ∃ content, content.IsOrderly ∧ read content = .ok entry.2 := by
  rcases exists_of_bind_eq_ok named with ⟨fields, isFields, mapped⟩
  have orderly := isOrderly_of_readEntries isFields
  intro entry mem
  rcases exists_of_mem_forall₂ (forall₂_of_mapM mapped) mem with ⟨⟨key, content⟩, isField, made⟩
  dsimp only at made
  split at made
  · cases found : read content with
    | error => rw [found] at made; cases made
    | ok value =>
        rw [found] at made
        cases made
        exact ⟨content, ((Everywhere.mapping_iff.mp orderly).2 _ isField).2, found⟩
  · cases made

end Yaml

/-! ## Steps -/

namespace StepDefinition

def readChildren : Yaml → Reading (Option (List StepDefinition)) :=
  readOptional readMembers

/-- Any field of a step, its children included. -/
def assignAny (step : StepDefinition) (field : StepField) (value : Yaml) :
    Reading StepDefinition :=
  if field = .children then do
    return { step with children := ← readChildren value }
  else step.assign value field

def keepOther (step : StepDefinition) (key : String) (value : Reading Yaml) :
    Reading StepDefinition := do
  return { step with extra := ← Entries.withExtra step.extra key (← value) }

theorem readFrom_cons (given : List StepField) (step : StepDefinition) (key value : Yaml)
    (rest : Entries) :
    readFrom given step ((key, value) :: rest) = (do
      let key ← key.readText
      match StepField.ofKey? key with
      | none => readFrom given (← step.keepOther key (.ok value)) rest
      | some field =>
        if field ∈ given then .error (.repeatedField key)
        else readFrom (field :: given) (← step.assignAny field value) rest) := by
  rw [readFrom.eq_def]
  refine congrArg (key.readText >>= ·) (funext fun name => ?_)
  cases StepField.ofKey? name with
  | none =>
      rw [keepOther, bind_assoc]
      simp only [pure_bind, bind_assoc]
      rfl
  | some field =>
      dsimp only
      split
      · rfl
      · rw [assignAny]
        split
        · cases value <;> simp only [readChildren, readOptional, bind_assoc, pure_bind] <;> rfl
        · rfl

/-- The fields of a step are read like those of any other record. -/
theorem readFrom_eq (given : List StepField) (step : StepDefinition) (entries : Entries) :
    readFrom given step entries = do
      let step ← readFields StepField.ofKey? assignAny keepOther given step entries.rawFields
      return { step with extra := ← step.extra.completed } := by
  induction entries generalizing given step with
  | nil => rfl
  | cons head tail induction =>
      rcases head with ⟨key, value⟩
      rw [readFrom_cons, Entries.rawFields, List.map_cons, readFields, ← Entries.rawFields]
      simp only [induction, bind_assoc]
      refine congrArg (key.readText >>= ·) (funext fun name => ?_)
      cases StepField.ofKey? name with
      | none => simp only [bind_assoc]
      | some field =>
          dsimp only
          split
          · rfl
          · exact (bind_assoc (step.assignAny field value) _ _).symm

theorem readAll_eq_mapM (members : List Yaml) : readAll members = members.mapM read := by
  induction members with
  | nil => rfl
  | cons head tail induction => rw [readAll, induction, List.mapM_cons]

theorem forall_of_readChildren {whole : StepDefinition → Prop} {value : Yaml}
    (members : ∀ steps, readMembers value = .ok steps → ∀ step ∈ steps, whole step)
    {children : Option (List StepDefinition)} (isRead : readChildren value = .ok children) :
    ∀ steps ∈ children, ∀ step ∈ steps, whole step := by
  unfold readChildren readOptional at isRead
  split at isRead
  · cases isRead
    exact fun _ mem => nomatch mem
  · cases found : readMembers value with
    | error => rw [found] at isRead; cases isRead
    | ok steps =>
        rw [found] at isRead
        cases isRead
        exact fun _ mem => Option.some.inj mem ▸ members steps found

section Rules

variable {fits : Yaml → Prop} {during whole : StepDefinition → Prop}
  (empty : during {})
  (assigns : ∀ step field value next, during step → step.assign value field = .ok next →
    during next)
  (extras : ∀ step key value more, value.Everywhere fits → StepField.ofKey? key = none →
    during step → Entries.withExtra step.extra key value = .ok more →
      during { step with extra := more })
  (children : ∀ step children, during step →
    (∀ steps ∈ children, ∀ child ∈ steps, whole child) → during { step with children })
  (completes : ∀ step, during step → step.extra.areDistinct = true → whole step)

include empty assigns extras children completes

theorem holds_of_readFrom {entries : Entries}
    (allFit : ∀ entry ∈ entries, entry.2.Everywhere fits ∧
      ∀ steps, readMembers entry.2 = .ok steps → ∀ step ∈ steps, whole step)
    {step : StepDefinition} (isRead : readFrom [] {} entries = .ok step) : whole step := by
  rw [readFrom_eq] at isRead
  rcases exists_of_bind_eq_ok isRead with ⟨⟨settings, inner⟩, fieldsRead, isRead⟩
  rcases exists_of_bind_eq_ok isRead with ⟨extra, completed, made⟩
  cases made
  rcases Entries.eq_of_completed completed with ⟨rfl, distinct⟩
  have fieldsFit : ∀ field ∈ entries.rawFields, ∀ content, field.2 = .ok content →
      content.Everywhere fits ∧
        ∀ steps, readMembers content = .ok steps → ∀ step ∈ steps, whole step := by
    intro field mem content isContent
    rcases List.mem_map.mp mem with ⟨entry, isEntry, rfl⟩
    cases isContent
    exact allFit entry isEntry
  refine completes _ (holds_of_readFields ?assigns ?others empty fieldsFit fieldsRead) distinct
  case assigns =>
    intro record field content result members holds assigned
    rw [assignAny] at assigned
    split at assigned
    · rcases exists_of_bind_eq_ok assigned with ⟨found, foundRead, made⟩
      cases made
      exact children record found holds (forall_of_readChildren members.2 foundRead)
    · exact assigns record field content result holds assigned
  case others =>
    intro record key content result fitting unknown holds kept
    rcases exists_of_bind_eq_ok kept with ⟨value, isValue, kept⟩
    rcases exists_of_bind_eq_ok kept with ⟨more, added, made⟩
    cases made
    exact extras record key value more (fitting value isValue).1 unknown holds added

/-- What is true of a step before anything of it is read stays true with each field, and in the end
it is true of all steps that are read. -/
theorem holds_of_read {value : Yaml} (fitting : value.Everywhere fits) :
    (∀ step, read value = .ok step → whole step) ∧
      ∀ steps, readMembers value = .ok steps → ∀ step ∈ steps, whole step := by
  induction fitting with
  | @intro value _ inside induction =>
      cases value with
      | null =>
          refine ⟨fun step isRead => ?_, fun steps isRead => ?_⟩
          · cases isRead
            exact completes {} empty rfl
          · cases isRead
            exact List.forall_mem_nil _
      | tagged tag value => exact induction value (.head _)
      | sequence members =>
          refine ⟨nofun, fun steps isRead step mem => ?_⟩
          change readAll members = .ok steps at isRead
          rw [readAll_eq_mapM] at isRead
          rcases exists_of_mem_forall₂ (forall₂_of_mapM isRead) mem with ⟨member, isMember, isStep⟩
          exact (induction member isMember).1 step isStep
      | mapping entries =>
          refine ⟨fun step isRead => ?_, nofun⟩
          apply holds_of_readFrom empty assigns extras children completes ?_ isRead
          intro entry mem
          exact ⟨(forall_parts_mapping.mp inside entry mem).2,
            (forall_parts_mapping.mp induction entry mem).2.2⟩
      | _ => exact ⟨nofun, nofun⟩

end Rules

end StepDefinition

end FlowPlan

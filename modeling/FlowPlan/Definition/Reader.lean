import FlowPlan.Definition.Field
import FlowPlan.Yaml.Content
import FlowPlan.Yaml.Description
import FlowPlan.Yaml.Tag

/-! # Reading definitions

A definition is read from a mapping, field by field in the order of the
document, and the first field that cannot be read is the error. Nothing at all
reads as an empty definition. Fields with unknown names are kept as they are in
jobs and steps, and have no meaning at the top.
-/

namespace FlowPlan

inductive ReadError where
  | nonTextKey (key : Yaml)
  | repeatedField (key : String)
  /-- A mapping two of whose keys are the same as soon as it is read. -/
  | repeatedKey
  /-- A value of a kind that has no meaning in its place. -/
  | unfit
  /-- A value that is none, because the text is no document. -/
  | fault (fault : YamlFault)

def ReadError.message : ReadError → String
  | .nonTextKey key => "expected a string key, found " ++ key.description
  | .repeatedField key => "field '" ++ key ++ "' is given twice"
  | .repeatedKey => "a key is given twice"
  | .unfit => "unexpected value"
  | .fault _ => "malformed document"

abbrev Reading := Except ReadError

/-! ## Single values

A tag on a value of a known kind has no meaning and is passed over. Where any
value is accepted the tag stays with it. Values that are kept as they are, and
mappings whose entries are read one by one, are received as a whole first, so
what is written inside of jobs and library steps is received twice.
-/

namespace Yaml

def readText (value : Yaml) : Reading String :=
  match value.untagged with
  | .string text => .ok text
  | _ => .error .unfit

def readFlag (value : Yaml) : Reading Bool :=
  match value.untagged with
  | .bool flag => .ok flag
  | _ => .error .unfit

/-- A number of minutes is whole, not negative, and fits into 64 bits. -/
def readMinutes (value : Yaml) : Reading Nat :=
  match value.untagged with
  | .integer (.ofNat minutes) => if minutes < Nat.pow 2 64 then .ok minutes else .error .unfit
  | _ => .error .unfit

/-- The fields of a record. -/
def readFieldEntries (value : Yaml) : Reading Entries :=
  match value.untagged with
  | .mapping entries => .ok entries
  | .null => .ok []
  | _ => .error .unfit

def ofReceived {α : Type} : Option α → Reading α
  | some received => .ok received
  | none => .error .repeatedKey

def readEntries (value : Yaml) : Reading Entries := do
  ofReceived (← readFieldEntries value).received?

def readTexts (value : Yaml) : Reading (List String) :=
  match value.untagged with
  | .sequence members => members.mapM readText
  | .null => .ok []
  | _ => .error .unfit

/-- A value that may be left open with null. -/
def readOptional {α : Type} (read : Yaml → Reading α) : Yaml → Reading (Option α)
  | .null => .ok none
  | value => (read value).map some

def readAny : Yaml → Reading (Option Yaml) := readOptional fun value => ofReceived value.received?

/-- A name in a list of names is a bare string. -/
def readName : Yaml → Reading String
  | .string name => .ok name
  | _ => .error .unfit

def readNames : Yaml → Reading NameList
  | .null => .ok .absent
  | .string name => .ok (.single name)
  | .sequence members => (members.mapM readName).map .several
  | _ => .error .unfit

/-- The values of a mapping whose keys are names. -/
def readNamed {α : Type} (read : Yaml → Reading α) (value : Yaml) :
    Reading (List (String × α)) := do
  (← readEntries value).mapM fun (key, value) =>
    match key.untagged with
    | .string name => (read value).map (name, ·)
    | _ => .error (.nonTextKey key)

mutual

/-- No tag occurs in the value. -/
def isTagFree : Yaml → Bool
  | .sequence members => areTagFree members
  | .mapping entries => areEntriesTagFree entries
  | .tagged _ _ => false
  | _ => true

def areTagFree : List Yaml → Bool
  | [] => true
  | member :: rest => isTagFree member && areTagFree rest

def areEntriesTagFree : List (Yaml × Yaml) → Bool
  | [] => true
  | (name, value) :: rest => isTagFree name && isTagFree value && areEntriesTagFree rest

end

/-- One more field with an unknown name. -/
def Entries.withExtra (extra : Entries) (key : String) (value : Yaml) : Reading Entries :=
  if value.isTagFree then .ok (extra ++ [(.string key, value)]) else .error .unfit

/-- The fields with unknown names, which may turn out to be given twice when all others are read. -/
def Entries.completed (extra : Entries) : Reading Entries :=
  if extra.areDistinct then .ok extra else .error .repeatedKey

end Yaml

/-! ## Records

`readFields` goes through the fields of a record in the order of the document.
The fields that were given before are known, so a field given twice is found
out under whatever names. Key and value of a field may themselves turn out to
be unreadable, which is an error only when they are needed.
-/

abbrev RawField := Reading String × Reading Yaml

def Yaml.Entries.rawFields (entries : Entries) : List RawField :=
  entries.map fun (key, value) => (key.readText, .ok value)

/-- Reads the fields one after another: `assign` a known one, or pass an `other` one on. -/
def readFields {ρ φ : Type} [DecidableEq φ] (ofKey? : String → Option φ)
    (assign : ρ → φ → Yaml → Reading ρ) (other : ρ → String → Reading Yaml → Reading ρ) :
    List φ → ρ → List RawField → Reading ρ
  | _, record, [] => .ok record
  | given, record, (key, value) :: rest => do
    let key ← key
    match ofKey? key with
    | none => readFields ofKey? assign other given (← other record key value) rest
    | some field =>
      if field ∈ given then .error (.repeatedField key)
      else
        readFields ofKey? assign other (field :: given) (← assign record field (← value)) rest

open Yaml

/-- Every field of a step but its children. -/
def StepDefinition.assign (step : StepDefinition) (value : Yaml) :
    StepField → Reading StepDefinition
  | .id => return { step with id := ← readOptional readText value }
  | .name => return { step with name := ← readOptional readText value }
  | .uses => return { step with uses := ← readOptional readText value }
  | .run => return { step with run := ← readOptional readText value }
  | .inputs => return { step with inputs := ← readEntries value }
  | .env => return { step with env := ← readEntries value }
  | .shell => return { step with shell := ← readOptional readText value }
  | .workingDirectory => return { step with workingDirectory := ← readOptional readText value }
  | .continueOnError => return { step with continueOnError := ← readOptional readFlag value }
  | .timeoutMinutes => return { step with timeoutMinutes := ← readOptional readMinutes value }
  | .condition => return { step with condition := ← readOptional readText value }
  | .outputs => return { step with outputs := ← readTexts value }
  | .dependsOn => return { step with dependsOn := ← readNames value }
  | .after => return { step with after := ← readNames value }
  | .consumes => return { step with consumes := ← readNames value }
  | .reusable => return { step with reusable := ← readOptional readText value }
  | .children => .ok step

mutual

def StepDefinition.read : Yaml → Reading StepDefinition
  | .null => .ok {}
  | .mapping entries => StepDefinition.readFrom [] {} entries
  | .tagged _ value => StepDefinition.read value
  | _ => .error .unfit
termination_by structural value => value

/-- The fields of a step, as `readFields` reads those of other records. -/
def StepDefinition.readFrom (given : List StepField) (step : StepDefinition) :
    List (Yaml × Yaml) → Reading StepDefinition
  | [] => return { step with extra := ← step.extra.completed }
  | (key, value) :: rest => do
    let key ← key.readText
    match StepField.ofKey? key with
    | none =>
      let extra ← Entries.withExtra step.extra key value
      StepDefinition.readFrom given { step with extra } rest
    | some field =>
      if field ∈ given then .error (.repeatedField key)
      else if field = .children then
        let children ← if value matches .null then pure none
          else (StepDefinition.readMembers value).map some
        StepDefinition.readFrom (field :: given) { step with children } rest
      else
        StepDefinition.readFrom (field :: given) (← step.assign value field) rest
termination_by structural entries => entries

/-- The steps of a sequence. -/
def StepDefinition.readMembers : Yaml → Reading (List StepDefinition)
  | .null => .ok []
  | .sequence members => StepDefinition.readAll members
  | .tagged _ value => StepDefinition.readMembers value
  | _ => .error .unfit
termination_by structural value => value

def StepDefinition.readAll : List Yaml → Reading (List StepDefinition)
  | [] => .ok []
  | member :: rest => do
    let step ← StepDefinition.read member
    return step :: (← StepDefinition.readAll rest)
termination_by structural members => members

end

namespace JobDefinition

def assign (job : JobDefinition) (field : JobField) (value : Yaml) : Reading JobDefinition :=
  match field with
  | .name => return { job with name := ← readOptional readText value }
  | .runsOn => return { job with runsOn := ← readAny value }
  | .condition => return { job with condition := ← readOptional readText value }
  | .needs => return { job with needs := ← readNames value }
  | .permissions => return { job with permissions := ← readAny value }
  | .environment => return { job with environment := ← readAny value }
  | .strategy => return { job with strategy := ← readAny value }
  | .services => return { job with services := ← readAny value }
  | .container => return { job with container := ← readAny value }
  | .env => return { job with env := ← readEntries value }
  | .timeoutMinutes => return { job with timeoutMinutes := ← readOptional readMinutes value }
  | .outputs => return { job with outputs := ← readNamed readText value }
  | .steps => return { job with steps := ← StepDefinition.readMembers value }

def keepOther (job : JobDefinition) (key : String) (value : Reading Yaml) :
    Reading JobDefinition := do
  return { job with extra := ← Entries.withExtra job.extra key (← value) }

def read (value : Yaml) : Reading JobDefinition := do
  let fields := (← readFieldEntries value).rawFields
  let job ← readFields JobField.ofKey? assign keepOther [] {} fields
  return { job with extra := ← job.extra.completed }

end JobDefinition

namespace WorkflowDefinition

def assign (workflow : WorkflowDefinition) (field : WorkflowField) (value : Yaml) :
    Reading WorkflowDefinition :=
  match field with
  | .name => return { workflow with name := ← readOptional readText value }
  | .on => return { workflow with on := ← readAny value }
  | .permissions => return { workflow with permissions := ← readAny value }
  | .env => return { workflow with env := ← readEntries value }
  | .concurrency => return { workflow with concurrency := ← readAny value }
  | .defaults => return { workflow with defaults := ← readAny value }
  | .library => return { workflow with library := ← readNamed StepDefinition.read value }
  | .jobs => return { workflow with jobs := ← readNamed JobDefinition.read value }

def ofFields (fields : List RawField) : Reading WorkflowDefinition :=
  readFields WorkflowField.ofKey? assign (fun workflow _ _ => .ok workflow) [] {} fields

def read (value : Yaml) : Reading WorkflowDefinition := do
  ofFields (← readFieldEntries value).rawFields

end WorkflowDefinition

end FlowPlan

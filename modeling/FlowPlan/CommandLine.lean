import FlowPlan.CommandLine.Help
import FlowPlan.Definition.Build
import FlowPlan.Definition.Load
import FlowPlan.Document
import FlowPlan.Yaml.Writer

/-! # The command line

Two commands read a definition from a file. `render` writes the document of
its workflow, if it can be written, and `check` lists what each job runs.
-/

namespace FlowPlan.CommandLine

structure Invocation where
  command : Command
  file : String
deriving DecidableEq, Repr

inductive Request where
  | run (invocation : Invocation)
  | help (topic : Topic)
  | version
deriving DecidableEq, Repr

/-! ## Arguments

Arguments are read from the first one on. A request for help or for the version
is granted as soon as it is read, whatever follows.
-/

/-- An argument that begins like an option and so cannot be the value of one. -/
def isOption (argument : String) : Bool :=
  match argument.toList with
  | '-' :: _ :: _ => true
  | _ => false

/-- The argument is the given option in its long form, or begins with its letter. Behind the letter
there may be other letters, which do not count any more. -/
def isFlag (long : String) (letter : Char) (argument : String) : Bool :=
  argument = long ||
    match argument.toList with
    | '-' :: first :: _ => first = letter
    | _ => false

def asksForHelp : String → Bool := isFlag "--help" 'h'

def asksForVersion : String → Bool := isFlag "--version" 'V'

/-- The value that is written in one argument with the option for the file. -/
def attachedFile? (argument : String) : Option String :=
  match argument.toList with
  | '-' :: '-' :: 'f' :: 'i' :: 'l' :: 'e' :: '=' :: value => some (String.ofList value)
  | '-' :: 'f' :: '=' :: value => some (String.ofList value)
  | '-' :: 'f' :: first :: value => some (String.ofList (first :: value))
  | _ => none

namespace Request

def file? : Request → Option String
  | .run invocation => some invocation.file
  | _ => none

/-- What is requested of a command. The file is named exactly once, and there are no arguments but
options. -/
def ofOptions? (command : Command) (file : Option String) : List String → Option Request
  | [] => file.map fun file => .run ⟨command, file⟩
  | ["--"] => file.map fun file => .run ⟨command, file⟩
  | argument :: rest =>
    if asksForHelp argument then some (.help (.command command))
    else if file.isSome then none
    else if argument = "-f" || argument = "--file" then
      match rest with
      | value :: rest => if isOption value then none else ofOptions? command (some value) rest
      | [] => none
    else match attachedFile? argument with
      | some value => ofOptions? command (some value) rest
      | none => none

/-- What help is asked for by name. No topic has others below it. -/
def ofTopicNames? : List String → Option Request
  | [] => some (.help .program)
  | [name] => (Topic.ofName? name).map .help
  | _ => none

def ofArguments? : List String → Option Request
  | [] => none
  | argument :: rest =>
    match Command.ofName? argument with
    | some command => ofOptions? command none rest
    | none =>
      if argument = "help" then ofTopicNames? rest
      else if asksForHelp argument then some (.help .program)
      else if asksForVersion argument then some .version
      else none

example : ofArguments? ["render", "-fa"] = some (.run ⟨.render, "a"⟩) := by decide +kernel
example : ofArguments? ["check", "-f", "--help"] = none := by decide +kernel

end Request

/-! ## Answers -/

structure Answer where
  code : Nat := 0
  output : String := ""
  complaint : String := ""

/-- Further lines of a text under a heading are indented like the first. -/
def indented (text : String) : String :=
  String.ofList (text.toList.flatMap fun c => if c = '\n' then "\n    ".toList else [c])

/-- A complaint names the cause of an error once more if the error is about a definition. -/
def complaintOf : BuildError → String
  | .plan error => "Error: " ++ error.message ++ "\n"
  | .definition error =>
    "Error: " ++ (BuildError.definition error).message ++ "\n\nCaused by:\n    " ++
      indented error.message ++ "\n"

def stepLine (number : Nat) (resolved : ResolvedStep) : String :=
  let condition := match resolved.condition with
    | some condition => "  [if: " ++ String.ofList condition.render ++ "]"
    | none => ""
  "  " ++ toString number ++ ". " ++ resolved.step.label ++ condition ++ "\n"

def jobLines (job : ResolvedJob) : String :=
  let needs :=
    if job.needs.isEmpty then "" else " (needs: " ++ String.intercalate ", " job.needs ++ ")"
  job.id ++ needs ++ "\n" ++
    String.join (job.steps.zipIdx.map fun (step, index) => stepLine (index + 1) step)

/-- What a command prints, unless the document of the workflow cannot be written. -/
def outputOf? (command : Command) (workflow : Workflow) (resolved : ResolvedWorkflow) :
    Option String :=
  match command with
  | .render => (Document.ofWorkflow workflow resolved).documentText?.map String.ofList
  | .check => some (String.join (resolved.jobs.map jobLines))

/-- The resolved workflow that a definition describes. -/
def resolveDefinition (definition : WorkflowDefinition) :
    Except BuildError (Workflow × ResolvedWorkflow) := do
  let workflow ← definition.build.1
  return (workflow, ← workflow.resolve.mapError .plan)

/-- Carries out a command, given the content of its file. -/
def Invocation.run (invocation : Invocation) (content : Option ByteArray) : Answer :=
  match WorkflowDefinition.ofFile content with
  | .error error => { code := 1, complaint := "Error: " ++ error.message ++ "\n" }
  | .ok definition =>
    match resolveDefinition definition with
    | .error error => { code := 1, complaint := complaintOf error }
    | .ok (workflow, resolved) =>
      match outputOf? invocation.command workflow resolved with
      | none => { code := 1, complaint := "Error: the document cannot be written\n" }
      | some output => { output }

/-- What is said to arguments that make no sense. -/
def misuse (program : String) : Answer := { code := 2, complaint := Topic.text program .program }

/-- Carries out a request, given the name that the program is called by and the content of the file
that the request names. -/
def Request.answer (program : String) (content : Option ByteArray) : Request → Answer
  | .run invocation => invocation.run content
  | .help topic => { output := topic.text program }
  | .version => { output := versionText program }

end FlowPlan.CommandLine

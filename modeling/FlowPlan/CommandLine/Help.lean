/-! # Help

The commands of the program, and what the program says about them and about
itself. A program does not choose the name that it is called by, so the texts
take that name as an argument.
-/

namespace FlowPlan.CommandLine

inductive Command where
  | render
  | check
deriving DecidableEq, Repr

namespace Command

def all : List Command := [.render, .check]

def name : Command → String
  | .render => "render"
  | .check => "check"

def ofName? (name : String) : Option Command := all.find? (·.name = name)

theorem ofName?_name (command : Command) : ofName? command.name = some command := by
  cases command <;> decide +kernel

def summary : Command → String
  | .render => "Render a pipeline definition as a workflow document"
  | .check => "Resolve a pipeline definition and print each job's steps"

end Command

/-- What help is about: the program, one of its commands, or the command that gives help. -/
inductive Topic where
  | program
  | command (command : Command)
  | help
deriving DecidableEq, Repr

namespace Topic

def ofName? (name : String) : Option Topic :=
  if name = "help" then some .help else (Command.ofName? name).map .command

def helpSummary : String := "Print this message or the help of the given subcommand(s)"

/-- Lines of two columns. The second one begins two columns behind the longest entry. -/
def table (heading : String) (rows : List (String × String)) : String :=
  let width := (rows.map (·.1.length)).foldl max 0 + 2
  let line := fun (entry, meaning) =>
    "  " ++ entry ++ String.ofList (List.replicate (width - entry.length) ' ') ++ meaning ++ "\n"
  "\n" ++ heading ++ ":\n" ++ String.join (rows.map line)

example : table "Options" [("-h", "Help"), ("-all", "All")] =
    "\nOptions:\n  -h    Help\n  -all  All\n" := by decide +kernel

def helpOption : String × String := ("-h, --help", "Print help")

def usage (program form : String) : String := "Usage: " ++ program ++ " " ++ form ++ "\n"

def text (program : String) : Topic → String
  | .program =>
    let commands := Command.all.map fun command => (command.name, command.summary)
    usage program "<COMMAND>" ++ table "Commands" (commands ++ [("help", helpSummary)]) ++
      table "Options" [helpOption, ("-V, --version", "Print version")]
  | .command one =>
    one.summary ++ "\n\n" ++ usage program (one.name ++ " --file <FILE>") ++
      table "Options" [("-f, --file <FILE>", "Path to the pipeline definition"), helpOption]
  | .help =>
    helpSummary ++ "\n\n" ++ usage program "help [COMMAND]..." ++
      table "Arguments" [("[COMMAND]...", "Print help for the subcommand(s)")]

end Topic

def versionText (program : String) : String := program ++ " 0.1.0\n"

end FlowPlan.CommandLine

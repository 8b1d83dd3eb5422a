import FlowPlan.CommandLine

/-! # The program

Reads the file that the arguments name, and prints the answer.
-/

namespace FlowPlan.CommandLine

def programName : String := "flowplan"

/-- The content of a file, if it can be read. -/
def contentOf (file : String) : IO (Option ByteArray) := do
  try
    let content ← IO.FS.readBinFile file
    return some content
  catch _ =>
    return none

def answerTo (arguments : List String) : IO Answer := do
  match Request.ofArguments? arguments with
  | some request =>
    let content ← match request.file? with
      | some file => contentOf file
      | none => pure none
    return request.answer programName content
  | none => return misuse programName

end FlowPlan.CommandLine

def main (arguments : List String) : IO UInt32 := do
  let answer ← FlowPlan.CommandLine.answerTo arguments
  (← IO.getStdout).putStr answer.output
  (← IO.getStderr).putStr answer.complaint
  return UInt32.ofNat answer.code

import CrossCall.Survey
import CrossCall.Workspace
/-!
The survey as a command. The arguments are a folder and, if wanted, the output folder; standard
input holds the workspace as JSON: the files, the syntax trees of the C texts, and the replies of
the assistant. What the survey writes goes below the current directory.
-/

/-- Where the workspace stands while it is surveyed. -/
def workspaceRoot : String := "/workspace"

/-- Writes the files that a survey added. -/
def writeResults (before after : CrossCall.Files) : IO Unit := do
  for (path, bytes) in after.contents.entries do
    unless before.contents.contains path do
      let target := CrossCall.Path.relative workspaceRoot path workspaceRoot
      IO.FS.createDirAll (CrossCall.Path.parent target)
      IO.FS.writeBinFile target bytes

def main (args : List String) : IO UInt32 := do
  let input ← (← IO.getStdin).readToEnd
  let workspace := (CrossCall.Json.parse? input).getD (.obj [])
  let desk := CrossCall.Workspace.desk workspaceRoot workspace
  let parsers : CrossCall.Survey.Parsers := {
    c := CrossCall.Workspace.parser workspace
    python := (CrossCall.Workspace.world workspaceRoot workspace).program }
  let (outcome, after) := (CrossCall.Survey.run parsers args).run.run desk
  for line in after.printed do
    IO.println line
  writeResults desk.files after.files
  match outcome with
  | .ok code => return code.toUInt32
  | .error stop =>
    IO.eprintln stop.message
    return 1

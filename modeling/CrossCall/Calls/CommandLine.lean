import CrossCall.Calls.Record
import CrossCall.Text.Options
/-!
The call analysis as a command: entry points and options in, a JSON document out.
-/
namespace CrossCall.Calls

/-- What a command line asks for. -/
structure Command where
  entries : List String := []
  package : Option String := none
  /-- Is the whole document wanted, and not only the graph? -/
  wantsDocument : Bool := false
  label : Label := { product := "", forge := "", version := "" }
  maxRounds : Int := -1
  operation : Operation := .callGraph
  assignmentFile : Option String := none
  outputFile : Option String := none

namespace Command

def forms : List Text.OptionForm := [
  ⟨["--package"], true⟩, ⟨["--fasten"], false⟩, ⟨["--product"], true⟩, ⟨["--forge"], true⟩,
  ⟨["--version"], true⟩,
  ⟨["--timestamp"], true⟩, ⟨["--max-iter"], true⟩, ⟨["--operation"], true⟩,
  ⟨["--as-graph-output"], true⟩, ⟨["-o", "--output"], true⟩]

/-- Rounds are a whole number, and operations are known by name. -/
def accepts (spelling : String) (value : Option String) : Bool :=
  let v := value.getD ""
  if spelling == "--max-iter" then (Text.wholeNumber? v).isSome
  else if spelling == "--operation" then (Operation.ofName? v).isSome
  else true

def set (c : Command) (spelling v : String) : Command :=
  match spelling with
  | "--package" => { c with package := some v }
  | "--fasten" => { c with wantsDocument := true }
  | "--product" => { c with label := { c.label with product := v } }
  | "--forge" => { c with label := { c.label with forge := v } }
  | "--version" => { c with label := { c.label with version := v } }
  | "--timestamp" => { c with label := { c.label with timestamp := .str v } }
  | "--max-iter" => { c with maxRounds := (Text.wholeNumber? v).getD (-1) }
  | "--operation" => { c with operation := (Operation.ofName? v).getD .callGraph }
  | "--as-graph-output" => { c with assignmentFile := some v }
  | _ => { c with outputFile := some v }

def ofArguments (args : List String) : Except Text.CommandLine.Outcome Command := do
  let parsed ← Text.CommandLine.parse forms accepts args
  pure (parsed.options.foldl (fun c (k, v) => c.set k (v.getD "")) { entries := parsed.plain })

def request (c : Command) : Request where
  entries := c.entries
  package := c.package
  maxRounds := if c.maxRounds < 0 then none else some c.maxRounds.toNat
  operation := c.operation.name

/-- The document that a command asks for. -/
def output (c : Command) (fs : Files) (s : Session) : Except Fault Json :=
  match c.operation with
  | .keyCheck => .ok (.arr (s.missingKeys.map (·.toJson fs s.imports.directory)))
  | .callGraph =>
    if c.wantsDocument then (s.document fs c.package c.label).map Package.toJson
    else .ok s.graph.toJson

/-- What a command leaves behind: its exit code, what it prints, and the files. -/
structure Done where
  exit : Nat
  printed : List String := []
  files : Files

/-- Writes a document to a file if there is one, and else prints it. -/
def put (d : Done) (file : Option String) (j : Json) : Except Fault Done :=
  match file.filter (!·.isEmpty) with
  | some f => do pure { d with files := ← (d.files.store f j.compact).mapError .file }
  | none => .ok { d with printed := d.printed ++ [j.compact] }

/-- Runs a command line. -/
def run (w : World) (args : List String) : Except Fault Done :=
  match ofArguments args with
  | .error .misuse => .ok { exit := 2, files := w.files }
  | .error .help => .ok { exit := 0, files := w.files }
  | .ok c => do
    let s ← analyze w c.request
    let d ← put { exit := 0, files := w.files } c.outputFile (← c.output w.files s)
    if c.assignmentFile.all (·.isEmpty) then pure d
    else put d c.assignmentFile (Definitions.assignments s.defs)

end Command

end CrossCall.Calls

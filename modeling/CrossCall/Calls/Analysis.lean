import CrossCall.Calls.Collect
import CrossCall.Calls.KeyCheck
import CrossCall.Calls.Link
import CrossCall.Calls.Propagate
/-!
The whole analysis. Modules are collected first; then values are propagated until nothing changes;
then one pass draws the call graph or looks for missing keys. Every pass starts at the entry points
and goes on through the modules they import.
-/
namespace CrossCall.Calls

inductive Operation where
  | callGraph
  | keyCheck
deriving Repr, DecidableEq

namespace Operation

def ofName? : String → Option Operation
  | "call-graph" => some callGraph
  | "key-error" => some keyCheck
  | _ => none

def name : Operation → String
  | callGraph => "call-graph"
  | keyCheck => "key-error"

end Operation

/-- What to analyse: files, the directory they belong to, how often values are propagated at most,
and what to look for. -/
structure Request where
  entries : List String
  package : Option String := none
  maxRounds : Option Nat := none
  operation : String := Operation.callGraph.name

namespace Analysis

def setPlace (p : Place) : Analysis Unit := modify fun s => { s with place := p }

def setImports (f : Imports → Imports) : Analysis Unit :=
  modify fun s => { s with imports := f s.imports }

/-- The text of a file. -/
def readText (w : World) (file : String) : Analysis String :=
  match w.files.read .replace file with
  | .ok t => pure t
  | .error e => stop (.file e)

/-- The program in a file. -/
def programOf (w : World) (file : String) : Analysis Program :=
  (w.program (w.files.resolve file)).elim (stop (.unparsed ⟨"SyntaxError"⟩)) pure

def codeOf (p : Program) : Analysis (List Code) :=
  match p.code with
  | .ok code => pure code
  | .error e => stop (.unparsed e)

/-- Names outside ASCII are put into a normal form by a character table, which is itself imported.
While imports are watched it counts as an import of the current module, and it cannot be used, since
nothing is run. -/
def checkNames (p : Program) : Analysis Unit := do
  unless p.hasAsciiNames || (← get).imports.watched.isEmpty do
    match (← get).imports.addEdge "unicodedata" with
    | .error e => stop (.imports e)
    | .ok _ => stop .missingPart

/-- Goes through the statements of a module. -/
def walkModule (visitAll : List Code → Analysis Unit) (code : List Code) : Analysis Unit := do
  let module := (← get).place.module
  within module true do
    let _ ← get! (← scope? module)
    resetCounters module
    visitAll code

/-- Enters an imported module if the pass has not been there and its file belongs to the analysed
directory. -/
def enterModule (w : World) (run : String → String → Analysis Unit) (module : String) :
    Analysis Unit := do
  unless (← get).analyzed.contains module do
    match (← get).imports.file? module with
    | none => pure ()
    | some file =>
      if Text.hasEnd file ".py" && (← Collect.isInside file) then
        let before := (← get).place
        setImports (·.setCurrent w.files module file)
        run module file
        setPlace before
        setImports (·.setCurrent w.files before.module before.file)

/-- Collects a module and, on the way, those it imports. -/
def collect (w : World) : Nat → String → String → Analysis Unit
  | 0, _, _ => pure ()
  | depth + 1, module, file => do
    modify fun s => { s with analyzed := insertName s.analyzed module }
    let text ← readText w file
    setPlace { module := module, file := w.files.resolve file }
    let im := (← get).imports
    unless im.graph.contains module do
      match im.createNode module >>= (·.setFile w.files module file) with
      | .ok im => setImports fun _ => im
      | .error e => stop (.imports e)
    let program ← programOf w file
    let code ← codeOf program
    checkNames program
    setImports (·.setCurrent w.files module file)
    Collect.openModule text program.blocks
    walkModule (Collect.visitAll w (enterModule w (collect w depth))) code

/-- A later pass over a module and then over those it imports. -/
def revisit (w : World) (hasCatalogue : Bool) (open_ : Analysis Unit)
    (visitAll : List Code → Analysis Unit) :
    Nat → String → String → Analysis Unit
  | 0, _, _ => pure ()
  | depth + 1, module, file => do
    modify fun s => { s with analyzed := insertName s.analyzed module }
    let _ ← readText w file
    setPlace {
      module := module, file := w.files.resolve file, closure := Definitions.closure (← get).defs,
      hasCatalogue := hasCatalogue }
    let code ← codeOf (← programOf w file)
    open_
    walkModule visitAll code
    for m in (← get).imports.importsOf module do
      enterModule w (revisit w hasCatalogue open_ visitAll depth) m

/-- The module name of an entry point. The initial file of a package has the name of the package. -/
def entryModule (w : World) (package : Option String) (entry : String) : String :=
  let name := moduleNameOf (Path.relative w.files.cwd entry (package.getD ""))
  if Text.hasEnd name initMethod then parentName name else name

/-- One pass over all entry points. -/
def pass (w : World) (r : Request) (watches : Bool) (run : String → String → Analysis Unit) :
    Analysis Unit := do
  modify fun s => { s with analyzed := [] }
  for entry in r.entries do
    if entry.isEmpty then stop .noPath
    let module := entryModule w r.package entry
    let file := w.files.resolve entry
    unless module.isEmpty || (← get).analyzed.contains module do
      if watches then
        let directory := (r.package.filter (!·.isEmpty)).getD (Path.dirName file)
        setImports fun im => { im with directory := some directory }.watch w.files
      run module file
      if watches then setImports Imports.unwatch

/-- What has to stay the same for the propagation to end. -/
structure Snapshot where
  defs : List (String × List String × List Literal)
  scopes : List (String × List String)
  classes : List (String × List String)

def snapshot (s : Session) : Snapshot where
  defs := s.defs.entries.map fun (n, d) => (n, d.names.values, d.literals)
  scopes := s.scopes.entries.map fun (n, c) => (n, c.defs.values)
  classes := s.classes.entries.map fun (n, c) => (n, c.order)

/-- Is everything in the second snapshot the same in the first? -/
def Snapshot.covers (before after : Snapshot) : Bool :=
  let defs : Table String (List String × List Literal) := ⟨before.defs⟩
  let scopes : Table String (List String) := ⟨before.scopes⟩
  let classes : Table String (List String) := ⟨before.classes⟩
  after.defs.all (fun (n, names, literals) =>
    (defs.get? n).any fun (names', literals') =>
      sameNames names names' && sameNames (literals.map Literal.key) (literals'.map Literal.key)) &&
  after.scopes.all (fun (n, targets) => (scopes.get? n).any fun targets' =>
    sameNames targets targets') &&
  after.classes.all fun (n, order) => classes.get? n == some order

/-- Propagates until nothing changes, in a bounded number of rounds. -/
def propagate (round : Analysis Unit) : Nat → Option Snapshot → Analysis Unit
  | 0, _ => pure ()
  | n + 1, before => do
    let now := snapshot (← get)
    unless before.any (·.covers now) do
      modify fun s => { s with scopes := s.scopes.resetCounters }
      round
      modify fun s => { s with defs := s.defs.complete }
      propagate round n (some now)

/-- More rounds than any program needs. -/
def roundLimit : Nat := 1000

/-- Analyses a program. -/
def run (w : World) (r : Request) : Analysis Unit := do
  let depth := 4 * w.files.contents.size + 4
  pass w r true (collect w depth)
  modify fun s => { s with defs := s.defs.complete }
  propagate (pass w r false (revisit w true (pure ()) Propagate.visitAll depth))
    (r.maxRounds.getD roundLimit) none
  modify fun s => { s with scopes := s.scopes.resetCounters }
  match Operation.ofName? r.operation with
  | some .callGraph =>
    let open_ := do
      let module := (← get).place.module
      addNode module module
    pass w r false (revisit w true open_ Link.visitAll depth)
  | some .keyCheck => pass w r false (revisit w false (pure ()) KeyCheck.visitAll depth)
  | none => stop (.invalidOperation r.operation)

end Analysis

/-- The session after an analysis. -/
def analyze (w : World) (r : Request) : Except Fault Session := do
  let (_, s) ← StateT.run (Analysis.run w r) {}
  pure s

end CrossCall.Calls

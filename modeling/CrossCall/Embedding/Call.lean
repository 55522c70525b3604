import CrossCall.Flow.Bench
import CrossCall.Store.Files
/-!
Calls from a source file into the interpreter, with the statements of the function that share
variables with them and the helper functions that those statements call.
-/
namespace CrossCall.Embedding

open CrossCall.Flow (Bench BenchM Graph Vertex)

/-- Why files cannot be searched for calls. -/
inductive Fault where
  | file (cause : FileFault)
  | unparsed
  | undecodable
deriving Repr, DecidableEq

/-- A function definition of one of the files. -/
structure Definition where
  name : String
  file : String
  line : Nat
  code : String
deriving Repr, DecidableEq

/-- A statement that belongs to the context of a call. -/
structure Statement where
  line : Int
  text : String
  kind : String
  defs : List String
  uses : List String
deriving Repr, DecidableEq

/-- A call into the interpreter. Lines count from the start of the containing function. -/
structure Call where
  function : String
  line : Nat
  code : String
  file : String
  container : String
  context : List Statement
  helpers : List Definition
deriving Repr, DecidableEq

/-! ### Names -/

def decoded (src : Source) (t : Tree) : Except Fault String :=
  match src.textOf? t with
  | some s => .ok s
  | none => .error .undecodable

/-- The callee of a call expression, if it is an identifier or a member of something. -/
def calleeName (src : Source) (t : Tree) : Except Fault String :=
  match t.children.find? fun c => c.kind == "identifier" || c.kind == "field_expression" with
  | some c => decoded src c
  | none => .ok ""

/-- The functions by which the interpreter is called. -/
def entryPoints : List String :=
  ["PyObject_CallObject", "PyObject_CallFunction", "PyObject_CallMethod", "PyObject_Call",
    "PyObject_CallFunctionObjArgs", "PyObject_CallMethodObjArgs", "PyEval_CallObject",
    "PyEval_CallFunction", "PyEval_CallMethod"]

/-- The call expressions of a tree with their callees, in preorder. -/
def callExpressions (src : Source) (root : Tree) : Except Fault (List (Tree × String)) :=
  (root.preorder.filter fun t => t.kind == "call_expression").mapM fun t => do
    pure (t, ← calleeName src t)

/-- The identifier of a function declarator. -/
def declaratorName (src : Source) (t : Tree) : Except Fault String :=
  match t.children.find? fun c => c.kind == "identifier" with
  | some c => decoded src c
  | none => .ok ""

mutual

/-- The name in a declarator, which pointers may wrap; empty if there is none. -/
def nameIn (src : Source) : Tree → Except Fault String
  | .node k a b f cs =>
    if k = "function_declarator" then declaratorName src (.node k a b f cs)
    else if k = "pointer_declarator" then nameAmong src cs
    else .ok ""

def nameAmong (src : Source) : List Tree → Except Fault String
  | [] => .ok ""
  | t :: ts => do
    let s ← nameIn src t
    if s.isEmpty then nameAmong src ts else pure s

end

/-- The name that a function definition defines; empty if there is none. -/
def definedName (src : Source) (t : Tree) : Except Fault String := nameAmong src t.children

/-! ### The functions of all files -/

/-- Definitions by name, in the order of the files and of their places in them. -/
abbrev Registry := Table String (List Definition)

def parseText (parse : Parser) (text : String) : Except Fault Tree :=
  match parse text with
  | some p => .ok p.root
  | none => .error .unparsed

/-- Enters one definition, if it has a name. -/
def register (src : Source) (file : String) (reg : Registry) (t : Tree) :
    Except Fault Registry := do
  let name ← definedName src t
  if name.isEmpty then pure reg
  else
    let d : Definition := {
      name := name, file := file, line := (src.point t.start).row + 1, code := ← decoded src t }
    pure (reg.alter name [] (· ++ [d]))

def isFunction (t : Tree) : Bool := t.kind == "function_definition"

/-- Enters the definitions of a file. -/
def registerFile (parse : Parser) (reg : Registry) (file : String × String) :
    Except Fault Registry := do
  let root ← parseText parse file.2
  (root.preorder.filter isFunction).foldlM (register ⟨file.2⟩ file.1) reg

def registryOf (parse : Parser) (files : List (String × String)) : Except Fault Registry :=
  files.foldlM (registerFile parse) {}

/-! ### The context of a call -/

/-- The variables that a graph lists for a vertex. -/
def variablesAt (g : Graph) (v : Vertex) : List String :=
  unionNames (g.defs.getD v.id []) (g.uses.getD v.id [])

def shares (xs ys : List String) : Bool := xs.any fun x => ys.contains x

/-- The state of the search: the variables followed, the lines taken, the statements found. -/
structure Trace where
  vars : List String
  lines : List Int := []
  found : List Statement := []
  grown : Bool := false
deriving Repr, DecidableEq

/-- Takes a statement that shares a followed variable, unless its line is taken, and follows its
variables. -/
def follow (g : Graph) (s : Trace) (v : Vertex) : Trace :=
  if s.lines.contains v.line || !shares (variablesAt g v) s.vars then s
  else
    let vars := unionNames s.vars (variablesAt g v)
    { vars := vars
      lines := s.lines ++ [v.line]
      found := s.found ++ [⟨v.line, v.text, v.kind, g.defs.getD v.id [], g.uses.getD v.id []⟩]
      grown := s.grown || vars.length > s.vars.length }

/-- One pass over all statements. -/
def pass (g : Graph) (s : Trace) : Trace := g.vertices.foldl (follow g) { s with grown := false }

/-- Passes until one adds no variable. -/
def saturate (g : Graph) : Nat → Trace → Trace
  | 0, s => s
  | n + 1, s =>
    let t := pass g s
    if t.grown then saturate g n t else t

def byLine (xs : List Statement) : List Statement :=
  xs.mergeSort fun a b => decide (a.line ≤ b.line)

/-- The statements connected with some variables, by line. Every pass but the last adds a
variable. -/
def relatedStatements (g : Graph) (vars : List String) : List Statement :=
  let bound := (g.vertices.flatMap (variablesAt g)).length
  byLine (saturate g (bound + 1) { vars := unionNames [] vars }).found

/-- The variables of the first statement on a line. -/
def variablesOnLine (g : Graph) (line : Int) : List String :=
  match g.vertices.find? fun v => v.line == line with
  | some v => variablesAt g v
  | none => []

/-- The names that the text of a statement calls. -/
def calledNames (parse : Parser) (text : String) : Except Fault (List String) := do
  let root ← parseText parse text
  let calls ← callExpressions ⟨text⟩ root
  pure ((calls.map (·.2)).filter fun s => !s.isEmpty)

/-- The registered names that statements call, each where it is first called. -/
def helperNames (parse : Parser) (reg : Registry) (context : List Statement) :
    Except Fault (List String) := do
  let names ← context.mapM fun s => calledNames parse s.text
  pure (unionNames [] (names.flatten.filter reg.contains))

/-- The definitions of all functions that statements call. -/
def helpersOf (parse : Parser) (reg : Registry) (context : List Statement) :
    Except Fault (List Definition) := do
  pure ((← helperNames parse reg context).flatMap fun n => reg.getD n [])

/-! ### Extraction -/

/-- A search that builds graphs on a bench and may fail. -/
abbrev Search := ExceptT Fault BenchM

/-- Describes one call of a function. -/
def describe (parse : Parser) (reg : Registry) (d : Definition) (g : Graph) (call : Tree × String) :
    Except Fault Call := do
  let src : Source := ⟨d.code⟩
  let line := (src.point call.1.start).row + 1
  let code ← decoded src call.1
  let context := byLine (relatedStatements g (variablesOnLine g line))
  pure {
    function := call.2
    line := line
    code := code
    file := d.file
    container := d.name
    context := context
    helpers := ← helpersOf parse reg context }

/-- The calls of one function. Without a data-dependence graph there are none. -/
def callsIn (parse : Parser) (reg : Registry) (d : Definition) : Search (List Call) := do
  let root ← parseText parse d.code
  let calls ← callExpressions ⟨d.code⟩ root
  let calls := calls.filter fun c => entryPoints.contains c.2
  if calls.isEmpty then pure []
  else
    match ← (Bench.buildDataDependence parse d.code : BenchM (Option Graph)) with
    | none => pure []
    | some g => calls.mapM fun c => describe parse reg d g c

structure Result where
  calls : List Call := []
  registry : Registry := {}
deriving Repr

/-- The calls of several texts, function by function in the order of the registry. -/
def callsOf (parse : Parser) (files : List (String × String)) : Search Result := do
  let reg ← registryOf parse files
  let calls ← reg.values.flatten.mapM (callsIn parse reg)
  pure { calls := calls.flatten, registry := reg }

/-- The texts of files; a path given twice counts once. -/
def readAll (fs : Files) (paths : List String) : Except Fault (List (String × String)) := do
  let texts ← paths.mapM fun p => do pure (p, ← (fs.read .drop p).mapError Fault.file)
  pure (Table.ofList texts).entries

/-- The calls in several files. -/
def ofFiles (fs : Files) (parse : Parser) (paths : List String) : Search Result := do
  callsOf parse (← readAll fs paths)

end CrossCall.Embedding

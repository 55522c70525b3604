import CrossCall.Calls.Analysis
import CrossCall.Calls.Requirement
import CrossCall.Text.Json
/-!
The call graph of a package as one document: its modules with numbered members, what it requires,
and the calls between members, by number.
-/
namespace CrossCall.Calls

/-- A module as it goes into a document. -/
structure ModuleFacts where
  file : Option String
  members : Table String Member
deriving Repr

/-- What a document is made from. -/
structure Facts where
  inside : Table String ModuleFacts := {}
  outside : Table String ModuleFacts := {}
  classes : Classes := {}
  calls : List (String × String) := []
  functions : List String := []
deriving Repr

/-- What a document says about its package. -/
structure Label where
  product : String := ""
  forge : String := "PyPI"
  version : String := "0.1.0"
  timestamp : Json := .int 0

/-- A required package and the versions of it that will do. -/
structure Dependency where
  product : String
  constraints : List String
deriving Repr, DecidableEq

/-- A member in a document. -/
structure Namespace where
  uri : String
  first : Option Int := none
  last : Option Int := none
  /-- The parents, if it is a class. -/
  parents : Option (List String) := none
deriving Repr, DecidableEq

structure InsideModule where
  file : Option String
  namespaces : Table Nat Namespace := {}
deriving Repr

/-- Outside modules number their members by texts. -/
structure OutsideModule where
  namespaces : Table String String := {}
deriving Repr

/-- Calls between the members of the package, and calls that leave it. -/
structure NumberedCalls where
  inside : List (String × String) := []
  outside : List (String × String) := []
deriving Repr

structure Package where
  label : Label
  dependencies : List Dependency
  inside : Table String InsideModule
  outside : Table String OutsideModule
  calls : NumberedCalls
  size : Nat

namespace Package

/-- The numbers given so far. -/
structure Numbering where
  next : Nat := 0
  ids : Table String Nat := {}
deriving Repr

abbrev Numbered := ExceptT Fault (StateM Numbering)

def fresh : Numbered Nat := modifyGet fun s => (s.next, { s with next := s.next + 1 })

def number (uri : String) : Numbered Nat := do
  let n ← fresh
  modify fun s => { s with ids := s.ids.insert uri n }
  pure n

def id? (uri : String) : Numbered (Option Nat) := do return (← get).ids.get? uri

def plain (module : String) : String := Text.replaceChar module '-' '_'

/-- The address of a member of the package: the module, and the rest of its name. Functions are
marked. -/
def uri (functions : List String) (module : String) (name : String := "") : Except Fault String :=
  let mark := if functions.contains name then "()" else ""
  let address (rest : String) := "/" ++ plain module ++ "/" ++ rest ++ mark
  if name.isEmpty || name == module then .ok (address "")
  else if Text.hasStart name (module ++ ".") then
    .ok (address (Text.dropChars name (module.length + 1)))
  else .error (.unnamedModule name module)

/-- The parts of the address of something outside: its module, and its name there. -/
def outsideParts (module name : String) : String × String :=
  if module == builtinModule then (".builtin", Text.dropChars name (module.length + 1))
  else (plain module, name)

/-- The address of something outside. -/
def outsideUri (module : String) (name : String := "") : String :=
  let (m, n) := outsideParts module name
  "//" ++ m ++ "//" ++ n

/-- The key of an outside module: the third piece of its address. -/
def outsideKey (module : String) : String := ((Text.splitAt '/' (outsideUri module))[2]?).getD ""

/-! ### Requirements -/

/-- The packages that the list of requirements of a directory names. -/
def required (fs : Files) (package : Option String) : Except FileFault (List Dependency) :=
  match package.filter (!·.isEmpty) with
  | none => .ok []
  | some dir =>
    let path := Path.join dir "requirements.txt"
    if !fs.doesExist path then .ok []
    else do
      let text ← fs.read .replace path
      let found := ((Text.splitAt '\n' text).map Text.trim).filterMap fun line =>
        if line.isEmpty then none else Requirement.parse? line
      pure (found.map fun r => { product := r.name, constraints := r.ranges })

/-! ### Modules -/

/-- Adds its parents to the entry of every class. -/
def addParents (f : Facts) (mods : Table String InsideModule) :
    Numbered (Table String InsideModule) :=
  f.classes.entries.foldlM (fun mods (name, c) => do
    let id ← id? (← uri f.functions c.module name)
    let key ← uri f.functions c.module
    match mods.get? key, id with
    | some m, some id =>
      match m.namespaces.get? id with
      | none => throw .missingKey
      | some entry =>
        let parents ← (c.order.filter (· != name)).mapM fun p => do
          match f.classes.get? p with
          | some pc => uri f.functions pc.module p
          | none => pure (outsideUri (topName p) p)
        pure (mods.insert key { m with
          namespaces := m.namespaces.insert id { entry with parents := some parents } })
    | _, _ => throw .missingKey) mods

def insideModules (f : Facts) : Numbered (Table String InsideModule) := do
  let mods ← f.inside.entries.foldlM (fun mods (module, info) => do
    let key ← uri f.functions module
    let entries ← info.members.values.foldlM (fun (entries : Table Nat Namespace) m => do
      let u ← uri f.functions module m.name
      let n ← number u
      pure (entries.insert n { uri := u, first := m.first, last := m.last })) {}
    pure (Table.insert mods key { file := info.file, namespaces := entries })) {}
  addParents f mods

/-- The modules outside. A module is no member of itself. -/
def outsideModules (f : Facts) : Numbered (Table String OutsideModule) :=
  f.outside.entries.foldlM (fun mods (module, info) => do
    let entries ← info.members.values.foldlM (fun (entries : Table String String) m => do
      if m.name == module then pure entries
      else
        let u := outsideUri module m.name
        let n ← number u
        pure (entries.insert (toString n) u)) {}
    pure (Table.insert mods (outsideKey module) { namespaces := entries })) {}

/-- The module of every member. -/
def memberModules (mods : Table String ModuleFacts) : Table String String :=
  mods.entries.foldl (fun t (module, info) =>
    info.members.keys.foldl (fun t n => Table.insert t n module) t) {}

/-- The number of one end of a call, or what stands for it if it has none. -/
def callEnd (f : Facts) (inside outside : Table String String) (name : String) :
    Numbered (Option String) := do
  match inside.get? name, outside.get? name with
  | some module, _ =>
    let u ← uri f.functions module name
    return some ((← id? u).elim u toString)
  | none, some module => return some ((← id? (outsideUri module name)).elim "None" toString)
  | none, none => return none

def numberedCalls (f : Facts) : Numbered NumberedCalls := do
  let inside := memberModules f.inside
  let outside := memberModules f.outside
  f.calls.foldlM (fun (calls : NumberedCalls) (caller, callee) => do
    match ← callEnd f inside outside caller, ← callEnd f inside outside callee with
    | some a, some b =>
      if outside.contains callee then pure { calls with outside := calls.outside ++ [(a, b)] }
      else pure { calls with inside := calls.inside ++ [(a, b)] }
    | _, _ => pure calls) {}

/-- The whole document. -/
def document (fs : Files) (package : Option String) (label : Label) (f : Facts) :
    Numbered Package := do
  let deps ← (required fs package).mapError Fault.file
  let inside ← insideModules f
  let outside ← outsideModules f
  let calls ← numberedCalls f
  let size ← fresh
  pure { label, dependencies := deps, inside, outside, calls, size }

end Package

/-! ### What a session knows -/

namespace Session

def modules (fs : Files) (package : Option String) (t : Table String Module) :
    Table String ModuleFacts :=
  ⟨t.entries.map fun (n, m) => (n, {
    file := (m.file.filter (!·.isEmpty)).map fun f => Path.relative fs.cwd f (package.getD "")
    members := m.members })⟩

/-- The functions of a program, in the order in which they were defined. -/
def functions (s : Session) : List String :=
  (s.defs.entries.filter fun e => e.2.kind = .function).map (·.1)

def facts (s : Session) (fs : Files) (package : Option String) : Facts where
  inside := modules fs package s.catalogue.inside
  outside := modules fs package s.catalogue.outside
  classes := s.classes
  calls := s.graph.calls
  functions := s.functions

/-- The document of an analysed package. -/
def document (s : Session) (fs : Files) (package : Option String) (label : Label) :
    Except Fault Package :=
  ((Package.document fs package label (s.facts fs package)).run.run {}).1

end Session

end CrossCall.Calls

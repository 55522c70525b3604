import CrossCall.Calls.Package
/-!
Calls that leave a package, seen from several sides: the functions outside, who calls them, and how
they are spread over modules.
-/
namespace CrossCall.Calls

/-- Members of the package are known by numbers, those outside by texts. -/
inductive MemberKey where
  | number (n : Nat)
  | text (s : String)
deriving Repr, DecidableEq

/-- The calls that leave a package, in numbers. -/
structure OutsideStatistics where
  functionCount : Nat
  moduleCount : Nat
  modules : List String
  /-- How many functions every module has. -/
  perModule : Table String Nat
  edgeCount : Nat
  /-- How many calls leave the package, and how many stay inside. -/
  outsideCount : Nat
  insideCount : Nat
deriving Repr

/-- The calls that leave a package. -/
structure OutsideCalls where
  /-- The functions outside, sorted. -/
  functions : List String
  /-- For every function that is called, its callers. -/
  callers : Table String (List String)
  /-- The functions of every module. -/
  byModule : Table String (List String)
  /-- Pairs of caller and callee. -/
  edges : List (String × String)
  /-- The addresses of all members. -/
  addresses : Table MemberKey String
  statistics : OutsideStatistics
deriving Repr

namespace OutsideCalls

/-- The pieces of a text between double slashes. -/
def slashPieces (s : String) : List String := go [] s.toList
where
  go (piece : List Char) : List Char → List String
    | [] => [String.ofList piece.reverse]
    | '/' :: '/' :: rest => String.ofList piece.reverse :: go [] rest
    | c :: rest => go (c :: piece) rest

/-- The module and the name of a function outside, by its address. Of a dotted name the last piece
counts. -/
def nameOf? (address : String) : Option (String × String) :=
  match slashPieces address with
  | _ :: module :: rest =>
    let function := ownName (rest.headD "")
    let shown := if module == ".builtin" then builtinModule else module
    some (module, if function.isEmpty then shown else joinNames shown function)
  | _ => none

def isBuiltin (name : String) : Bool := Text.hasStart name (builtinModule ++ ".")

/-- Adds a name to a list under a key, once. -/
def addUnder (t : Table String (List String)) (k name : String) : Table String (List String) :=
  t.alter k [] (insertName · name)

/-- The functions outside with their modules, in the order of the document. -/
def listed (p : Package) : List (String × String) :=
  (p.outside.values.flatMap fun m => m.namespaces.values).filterMap nameOf?

def addressTable (p : Package) : Table MemberKey String :=
  let inside := p.inside.values.flatMap fun m => m.namespaces.entries.map fun (n, e) =>
    (MemberKey.number n, e.uri)
  let outside := p.outside.values.flatMap fun m => m.namespaces.entries.map fun (k, u) =>
    (MemberKey.text k, u)
  Table.ofList (inside ++ outside)

/-- The address that is known under a text. -/
def address (t : Table MemberKey String) (key : String) : String :=
  t.getD (.text key) ("node_" ++ key)

/-- The calls that leave a package, with or without those of functions that need no import. -/
def ofPackage (p : Package) (withBuiltin : Bool) : OutsideCalls :=
  let names := listed p
  let keep (name : String) : Bool := withBuiltin || !isBuiltin name
  let functions := ((names.map (·.2)).filter keep).eraseDups
  let addresses := addressTable p
  let modules := names.foldl (fun t (module, name) => addUnder t module name) {}
  let byModule := if withBuiltin then modules
    else ⟨modules.entries.filter fun e => e.1 != ".builtin"⟩
  let edges := (p.calls.outside.map fun (caller, callee) =>
    let target := address addresses callee
    (address addresses caller, (nameOf? target).elim target (·.2))).filter fun e => keep e.2
  {
    functions := sortNames functions
    callers := edges.foldl (fun t e => addUnder t e.2 e.1) {}
    byModule := byModule
    edges := edges
    addresses := addresses
    statistics := {
      functionCount := functions.length
      moduleCount := byModule.size
      modules := byModule.keys
      perModule := ⟨byModule.entries.map fun (module, names) => (module, names.length)⟩
      edgeCount := edges.length
      outsideCount := p.calls.outside.length
      insideCount := p.calls.inside.length } }

end OutsideCalls

end CrossCall.Calls

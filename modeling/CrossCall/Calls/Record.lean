import CrossCall.Calls.Outside
/-!
What an analysis found, as JSON. Sets are listed in order.
-/
namespace CrossCall.Calls

def namesJson (xs : List String) : Json := .arr ((sortNames xs).map .str)

/-- Sets of names by name. -/
def setsJson (xs : List (String × List String)) : Json :=
  .obj (xs.map fun (k, v) => (k, namesJson v))

/-- Names by name. -/
def namesByName (t : Table String String) : Json := .obj (t.entries.map fun (k, v) => (k, .str v))

def pairLe (a b : String × String) : Bool :=
  if a.1 == b.1 then decide (a.2 ≤ b.2) else decide (a.1 ≤ b.1)

def pairsJson (xs : List (String × String)) : Json :=
  .arr ((xs.mergeSort pairLe).map fun (a, b) => .arr [.str a, .str b])

/-! ### Definitions -/

/-- A literal with a letter for its sort. -/
def Literal.tagged : Literal → String
  | int n => "i:" ++ toString n
  | bool b => "b:" ++ (if b then "True" else "False")
  | text s => "s:" ++ s

def literalsJson (xs : List Literal) : Json := namesJson (xs.map Literal.tagged)

def argsJson (t : Table (Option String) (List String)) : Json :=
  setsJson (t.entries.map fun (k, v) => (k.getD "null", v))

def positionNamesJson (t : Table Position String) : Json :=
  .obj (t.entries.map fun (k, v) => (k.toText, .str v))

def Position.toJson : Position → Json
  | index n => .int n
  | text s => .str s

def Pointer.toJson (p : Pointer) : Json := .obj [
  ("values", namesJson p.values), ("args", argsJson p.args),
  ("pos_to_name", positionNamesJson p.names),
  ("name_to_pos", .obj (p.positions.entries.map fun (k, v) => (k, v.toJson)))]

def Definition.toJson (d : Definition) : Json := .obj [
  ("type", .str d.kind.tag), ("names", namesJson d.names.values), ("lits", literalsJson d.literals),
  ("args", argsJson d.names.args), ("pos", positionNamesJson d.names.names)]

def Definitions.toJson (ds : Definitions) : Json :=
  .obj (ds.entries.map fun (n, d) => (n, d.toJson))

/-- The assignment graph: which names a name may stand for. -/
def Definitions.assignments (ds : Definitions) : Json :=
  setsJson (ds.entries.map fun (n, d) => (n, d.names.values))

/-! ### Scopes, classes, modules -/

def Scope.toJson (s : Scope) : Json := .obj [
  ("parent", Json.ofOption .str s.parent), ("defs", namesByName s.defs),
  ("counters", .arr [.int s.counters.lambdas, .int s.counters.dicts, .int s.counters.lists])]

def Scopes.toJson (ss : Scopes) : Json := .obj (ss.entries.map fun (n, s) => (n, s.toJson))

def Class.toJson (c : Class) : Json :=
  .obj [("mro", .arr (c.order.map .str)), ("module", .str c.module)]

def Classes.toJson (cs : Classes) : Json := .obj (cs.entries.map fun (n, c) => (n, c.toJson))

def Member.toJson (m : Member) : Json := .obj [
  ("name", .str m.name), ("first", Json.ofOption .int m.first),
  ("last", Json.ofOption .int m.last)]

def membersJson (t : Table String Member) : Json :=
  .obj (t.entries.map fun (k, m) => (k, m.toJson))

def Module.toJson (m : Module) : Json := .obj [
  ("name", .str m.name), ("filename", Json.ofOption .str m.file),
  ("methods", membersJson m.members)]

def moduleFactsJson (t : Table String ModuleFacts) : Json := .obj (t.entries.map fun (n, m) =>
  (n, .obj [("filename", Json.ofOption .str m.file), ("methods", membersJson m.members)]))

/-- Who calls whom. -/
def Graph.toJson (g : Graph) : Json := setsJson g.callees.entries

/-- A missing key, with its file seen from a directory. -/
def MissingKey.toJson (fs : Files) (directory : Option String) (k : MissingKey) : Json := .obj [
  ("filename", .str (Path.relative fs.cwd k.file (directory.getD ""))), ("lineno", .int k.line),
  ("namespace", .str k.owner), ("key", .str k.key)]

/-! ### Documents -/

def Dependency.toJson (d : Dependency) : Json := .obj [
  ("forge", .str "PyPI"), ("product", .str d.product),
  ("constraints", .arr (d.constraints.map .str))]

def Namespace.toJson (n : Namespace) : Json := .obj [
  ("namespace", .str n.uri),
  ("metadata", .obj ([("first", Json.ofOption .int n.first), ("last", Json.ofOption .int n.last)] ++
    n.parents.toList.map fun ps => ("superClasses", .arr (ps.map .str))))]

def insideJson (t : Table String InsideModule) : Json :=
  .obj (t.entries.map fun (k, m) => (k, .obj [
  ("sourceFile", Json.ofOption .str m.file),
  ("namespaces", .obj (m.namespaces.entries.map fun (n, e) => (toString n, e.toJson)))]))

def outsideJson (t : Table String OutsideModule) : Json :=
  .obj (t.entries.map fun (k, m) => (k, .obj [
  ("sourceFile", .str ""),
  ("namespaces", .obj (m.namespaces.entries.map fun (n, u) =>
    (n, .obj [("namespace", .str u), ("metadata", .obj [])])))]))

namespace NumberedCalls

def toJson (c : NumberedCalls) : Json :=
  let calls (xs : List (String × String)) : Json :=
    .arr (xs.map fun (a, b) => .arr [.str a, .str b, .obj []])
  .obj [("internalCalls", calls c.inside), ("externalCalls", calls c.outside),
    ("resolvedCalls", .arr [])]

end NumberedCalls

def Package.toJson (p : Package) : Json := .obj [
  ("product", .str p.label.product), ("forge", .str p.label.forge), ("generator", .str "PyCG"),
  ("depset", .arr (p.dependencies.map Dependency.toJson)), ("version", .str p.label.version),
  ("timestamp", p.label.timestamp),
  ("modules", .obj [("internal", insideJson p.inside), ("external", outsideJson p.outside)]),
  ("graph", p.calls.toJson), ("nodes", .int p.size)]

/-- Is a look-up of a key before another one: by file, line, dictionary and key? -/
def missingKeyLe (a b : Json) : Bool :=
  let before (name : String) (rest : Bool) : Bool :=
    if a.strD name != b.strD name then decide (a.strD name ≤ b.strD name) else rest
  before "filename" (if a.intD "lineno" != b.intD "lineno" then
    decide (a.intD "lineno" ≤ b.intD "lineno")
    else before "namespace" (before "key" true))

def numberedCallLe (a b : Json) : Bool :=
  match a.texts, b.texts with
  | [a1, a2], [b1, b2] => pairLe (a1, a2) (b1, b2)
  | _, _ => true

/-- The same document with its calls, or its missing keys, in order. -/
def tidyDocument : Json → Json
  | .arr xs => .arr (xs.mergeSort missingKeyLe)
  | .obj ms => .obj (ms.map fun (k, v) => (k, match k, v with
    | "graph", .obj gs => .obj (gs.map fun (k, v) => (k, match v with
      | .arr calls => .arr (calls.mergeSort numberedCallLe)
      | v => v))
    | _, v => v))
  | j => j

def MemberKey.toText : MemberKey → String
  | number n => toString n
  | text s => s

def OutsideStatistics.toJson (s : OutsideStatistics) : Json := .obj [
  ("total_undefined", .int s.functionCount), ("modules_count", .int s.moduleCount),
  ("modules", namesJson s.modules),
  ("by_module", .obj (s.perModule.entries.map fun (k, n) => (k, .int n))),
  ("total_call_edges", .int s.edgeCount), ("total_external_calls", .int s.outsideCount),
  ("total_internal_calls", .int s.insideCount)]

def OutsideCalls.toJson (o : OutsideCalls) : Json := .obj [
  ("undefined_functions", .arr (o.functions.map .str)), ("callers", setsJson o.callers.entries),
  ("by_module", setsJson o.byModule.entries), ("statistics", o.statistics.toJson),
  ("call_edges", pairsJson o.edges),
  ("ids", .obj (o.addresses.entries.map fun (k, v) => (k.toText, .str v)))]

/-! ### Reading -/

def Literal.ofJson : Json → Literal
  | .str s => .text s
  | .torn codes => .text (Json.mended codes)
  | .int n => .int n
  | .bool b => .bool b
  | _ => .unknown

def LiteralSort.ofJson : Json → LiteralSort
  | .str _ => .text
  | .torn _ => .text
  | .int _ => .int
  | .bool _ => .int
  | _ => .unknown

/-- Reads a label; what is missing has its default. -/
def Label.ofJson (j : Json) : Label where
  product := j.strD "product"
  forge := j.strD "forge" "PyPI"
  version := j.strD "version" "0.1.0"
  timestamp := (j.get? "timestamp").getD (.int 0)

/-- Members written as an array of pairs. -/
def pairsOf (j : Json) (name : String) : List (String × Json) := (j.items name).filterMap fun
  | .arr [.str k, v] => some (k, v)
  | _ => none

def ModuleFacts.tableOf (j : Json) (name : String) : Table String ModuleFacts :=
  Table.ofList ((pairsOf j name).map fun (k, v) => (k, {
    file := (v.field "filename").str?
    members := Table.ofList ((pairsOf v "methods").map fun (n, m) => (n, {
      name := m.strD "name", first := (m.field "first").int?, last := (m.field "last").int? })) }))

/-- Reads what is known of a program. -/
def Facts.ofJson (j : Json) : Facts where
  inside := ModuleFacts.tableOf j "internal_mods"
  outside := ModuleFacts.tableOf j "external_mods"
  classes := Table.ofList ((pairsOf j "classes").map fun (k, v) =>
    (k, { module := v.strD "module", order := (v.field "mro").texts }))
  calls := (j.items "edges").filterMap fun
    | .arr [.str a, .str b] => some (a, b)
    | _ => none
  functions := (j.field "functions").texts

end CrossCall.Calls

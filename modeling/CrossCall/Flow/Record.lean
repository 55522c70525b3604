import CrossCall.Flow.Dominance
import CrossCall.Flow.Listing
import CrossCall.Text.Json
/-!
Flow graphs as JSON, and an order of edges that does not depend on how a graph was built.
-/
namespace CrossCall.Flow

def namesJson (xs : List String) : Json := .arr ((sortNames xs).map .str)

namespace Vertex

def toJson (v : Vertex) : Json := .obj [
  ("id", .int v.id), ("line", .int v.line), ("type", .str v.kind), ("text", .str v.text),
  ("branch", .bool v.branch), ("defs", namesJson v.defs), ("uses", namesJson v.uses)]

end Vertex

namespace Edge

def toJson (e : Edge) : Json :=
  let id (v : Option Vertex) : Json := v.elim .null fun v => .int v.id
  .obj ([
    ("source", id e.source), ("target", id e.target), ("label", .str e.label),
    ("type", .str e.kind.tag)] ++
    match e.cargo with
    | .names xs => [("variables", namesJson xs)]
    | _ => [])

/-- Edges are ordered by kind, ends, label and variables. A missing end comes first. -/
def le (a b : Edge) : Bool :=
  let vars (e : Edge) : List String := match e.cargo with
    | .names xs => sortNames xs
    | _ => []
  let source (e : Edge) : Int := e.source.elim (-2) (·.id)
  let target (e : Edge) : Int := e.target.elim (-2) (·.id)
  if a.kind.tag != b.kind.tag then decide (a.kind.tag ≤ b.kind.tag)
  else if source a != source b then decide (source a ≤ source b)
  else if target a != target b then decide (target a ≤ target b)
  else if a.label != b.label then decide (a.label ≤ b.label)
  else lexLe (vars a) (vars b)
where
  lexLe : List String → List String → Bool
    | [], _ => true
    | _ :: _, [] => false
    | x :: xs, y :: ys => if x == y then lexLe xs ys else decide (x ≤ y)

end Edge

namespace Graph

def toJson (g : Graph) : Json :=
  let vars (t : Table Int (List String)) : Json :=
    .obj (t.entries.map fun (k, xs) => (toString k, namesJson xs))
  .obj [
    ("nodes", .arr (g.vertices.map Vertex.toJson)), ("edges", .arr (g.edges.map Edge.toJson)),
    ("defs", vars g.defs), ("uses", vars g.uses)]

/-- The same graph with sorted edges and variables. -/
def tidy (g : Graph) : Graph :=
  let clean (e : Edge) : Edge := match e.cargo with
    | .names xs => { e with cargo := .names (sortNames xs) }
    | _ => e
  { g with edges := (g.edges.map clean).mergeSort Edge.le }

end Graph

/-- Lists of numbers by number, sorted. -/
def idTableJson (t : Table Int (List Int)) : Json :=
  .obj (t.entries.map fun (k, xs) => (toString k, .arr ((sortIds xs).map .int)))

/-- Lists of numbers by number, as they are. -/
def idListsJson (t : Table Int (List Int)) : Json :=
  .obj (t.entries.map fun (k, xs) => (toString k, .arr (xs.map .int)))

def idMapJson (t : Table Int Int) : Json := .obj (t.entries.map fun (k, v) => (toString k, .int v))

namespace DominatorTree

def toJson (t : DominatorTree) : Json := .obj [
  ("root", .int t.root), ("parent", idMapJson t.parent), ("children", idTableJson t.children)]

end DominatorTree

/-! ### Reading -/

def Vertex.ofJson (j : Json) : Vertex where
  id := j.intD "id"
  text := j.strD "text"
  kind := j.strD "type" "virtual"
  line := j.intD "line" (-1)
  branch := j.boolD "branch" false
  defs := (j.field "defs").texts.eraseDups
  uses := (j.field "uses").texts.eraseDups

/-- Reads an edge between known vertices. With variables it is a data dependence, whatever else it
says. -/
def Edge.ofJson (vertex? : Int → Option Vertex) (j : Json) : Edge :=
  let find (name : String) : Option Vertex := (j.field name).int?.bind vertex?
  let kind := (EdgeKind.ofTag? (j.strD "type" "CFG")).getD .control
  let base : Edge :=
    { source := find "source", target := find "target", label := j.strD "label", kind := kind }
  match j.get? "variables", j.get? "token" with
  | some names, _ => { base with kind := .dataDependence, cargo := .names names.texts }
  | none, some names => { base with cargo := .token names.texts }
  | none, none => base

def Complexity.toJson (c : Complexity) : Json := .obj [
  ("nodes", .int c.vertices), ("control_dependencies", .int c.controlDependences),
  ("data_dependencies", .int c.dataDependences), ("total_dependencies", .int c.totalDependences)]

end CrossCall.Flow

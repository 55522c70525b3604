import CrossCall.Flow.Bench
import CrossCall.Text.Dot
/-!
Drawings of the four kinds of graph. Functions, branches and plain statements have shapes of their
own, and edges are coloured by their kind.
-/
namespace CrossCall.Flow

open CrossCall.Text (Dot.escapeMarkup Dot.Statement Dot.digraph)

def subscripted (v : Vertex) : String :=
  Dot.escapeMarkup v.text ++ "<SUB>" ++ toString v.line ++ "</SUB>"

/-- The function of a control-flow or data-dependence graph is blue; in the other two it is the
root. -/
def isRooted : EdgeKind → Bool
  | .control | .dataDependence => false
  | .controlDependence | .programDependence => true

def drawVertex (kind : EdgeKind) (v : Vertex) : Dot.Statement :=
  let name := toString v.id
  if v.kind = "function_definition" then
    if isRooted kind then
      .node name {
        label := some ("<<B>ROOT</B><BR/>" ++ subscripted v ++ ">")
        others :=
          [("shape", "ellipse"), ("style", "filled"), ("fillcolor", "lightgreen"),
            ("fontsize", "14"),
          ("width", "2.0")] }
    else
      .node name {
        label := some ("<" ++ subscripted v ++ ">")
        others := [("shape", "ellipse"), ("style", "filled"), ("fillcolor", "lightblue")] }
  else
    let colour := if v.branch && isRooted kind then [("style", "filled"), ("fillcolor", "yellow")]
      else []
    .node name {
      label := some ("<" ++ subscripted v ++ ">")
      others := ("shape", if v.branch then "diamond" else "rectangle") :: colour }

/-- Data dependences are dotted and red and show their variables. -/
def drawDataEdge (s t : String) (e : Edge) : Dot.Statement :=
  .edge s t {
    label := some (String.intercalate ", " e.names)
    others := [("style", "dotted"), ("color", "red")] }

/-- Control dependences are green or orange from the function and blue elsewhere. -/
def drawControlDependence (s t : String) (e : Edge) : Dot.Statement :=
  if e.label = "entry" then
    .edge s t {
      label := some "entry"
      others := [("color", "green"), ("style", "solid"), ("penwidth", "2")] }
  else if e.label = "branch" then
    .edge s t {
      label := some "branch"
      others := [("color", "orange"), ("style", "solid"), ("penwidth", "2")] }
  else .edge s t { others := [("color", "blue"), ("style", "solid"), ("penwidth", "1")] }

def drawPlainEdge (s t : String) (e : Edge) : Dot.Statement := .edge s t { label := some e.label }

/-- An edge in a drawing, if that kind of drawing shows it. Edges without both ends are never
shown. -/
def drawEdge? (kind : EdgeKind) (e : Edge) : Option Dot.Statement :=
  e.ends?.bind fun (s, t) =>
    let s := toString s
    let t := toString t
    match kind, e.kind with
    | .control, _ => some (drawPlainEdge s t e)
    | .dataDependence, .dataDependence => some (drawDataEdge s t e)
    | .dataDependence, _ => none
    | .controlDependence, .controlDependence => some (drawControlDependence s t e)
    | .controlDependence, _ => none
    | .programDependence, .dataDependence => some (drawDataEdge s t e)
    | .programDependence, .controlDependence => some (drawControlDependence s t e)
    | .programDependence, _ => some (drawPlainEdge s t e)

/-- The drawing of a graph as a graph of the given kind. -/
def drawing (kind : EdgeKind) (name : String) (g : Graph) : String :=
  Dot.digraph name (g.vertices.map (drawVertex kind) ++ g.edges.filterMap (drawEdge? kind))

end CrossCall.Flow

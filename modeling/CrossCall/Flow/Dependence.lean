import CrossCall.Flow.Dominance
/-!
Dependence graphs over a control-flow graph. Control dependence is the dominance frontier of the
reversed graph; data dependence joins a definition with the uses that it reaches; the program
dependence graph holds both.
-/
namespace CrossCall.Flow

/-- The vertex to which control goes when a function ends. -/
def exitVertex : Vertex := { id := -1, text := "EXIT", kind := "virtual_exit" }

/-- The reversed graph with an exit vertex, from which edges lead to all vertices that have no other
incoming edge, that is to those without a way on in the graph itself. -/
def reversedWithExit (cfg : Graph) : Graph :=
  let g := { cfg.reverse.addVertex exitVertex with exit := some exitVertex.id }
  let entered := g.edges.filterMap fun e => e.target.map (·.id)
  let open_ := g.vertices.filter fun v => v.id != exitVertex.id && !entered.contains v.id
  { g with edges := g.edges ++ open_.map fun v => { source := some exitVertex, target := some v } }

/-- The label of a control dependence: how a vertex depends on the function's entry, and nothing
otherwise. -/
def dependenceLabel (entry : Option Vertex) (controller controlled : Vertex) : String :=
  if entry.any (·.id == controller.id) then (if controlled.branch then "branch" else "entry")
  else ""

/-- Control dependences from a frontier: a vertex depends on the members of its frontier but
itself. -/
def frontierEdges (g : Graph) (frontier : Table Int (List Int)) : List Edge :=
  let entry := g.vertices.find? fun v => v.kind == "function_definition"
  frontier.entries.flatMap fun (id, controllers) =>
    match g.find? id with
    | none => []
    | some controlled => controllers.filterMap fun c =>
      if c = id then none
      else (g.find? c).map fun controller => {
        source := some controller
        target := some controlled
        label := dependenceLabel entry controller controlled
        kind := .controlDependence }

/-- The control-dependence graph from a reversed graph with exit and its frontier. -/
def controlDependence (reversed : Graph) (frontier : Table Int (List Int)) : Graph :=
  { Graph.ofVertices reversed.vertices with edges := frontierEdges reversed frontier }.refresh

/-- For every variable the vertices under which a table lists it. -/
def vertexLists (t : Table Int (List String)) : Table String (List Int) :=
  t.entries.foldl (fun acc e => e.2.foldl (fun acc x => acc.alter x [] (· ++ [e.1])) acc) {}

/-- The pairs of a definition and another vertex that uses the variable and is reached without
passing a further definition of it, each with its variables. -/
def reachingPairs (cfg : Graph) : Table (Int × Int) (List String) :=
  let uses := vertexLists cfg.uses
  (vertexLists cfg.defs).entries.foldl (fun acc (x, ds) =>
    let us := uses.getD x []
    ds.foldl (fun acc d =>
      us.foldl (fun acc u =>
        if d ≠ u ∧ cfg.hasPathAvoiding d u (ds.filter fun n => n ≠ d ∧ n ≠ u)
        then acc.alter (d, u) [] (insertName · x) else acc) acc) acc) {}

/-- Data dependences as edges between the vertices of a graph. -/
def dataEdges (cfg g : Graph) : List Edge :=
  (reachingPairs cfg).entries.map fun ((d, u), xs) => {
    source := g.find? d
    target := g.find? u
    kind := .dataDependence
    cargo := .names xs }

/-- The data-dependence graph of a control-flow graph. -/
def dataDependence (cfg : Graph) : Graph :=
  let g := Graph.ofVertices cfg.vertices
  { g with edges := dataEdges cfg g }

/-- The vertices of the control dependences with the edges of both kinds. -/
def programDependence (cdg ddg : Graph) : Graph :=
  { Graph.ofVertices cdg.vertices with edges := cdg.edges ++ ddg.edges }

/-- Sizes of a program dependence graph. Dependences are counted by textual kind, which no edge has,
so the counts stay at zero. -/
structure Complexity where
  vertices : Nat
  controlDependences : Nat := 0
  dataDependences : Nat := 0
  totalDependences : Nat := 0
deriving Repr, DecidableEq

def complexity (pdg : Graph) : Complexity := { vertices := pdg.vertices.length }

end CrossCall.Flow

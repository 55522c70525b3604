import CrossCall.Flow.Vertex
/-!
Directed graphs of statements. Edges carry their end vertices, either of which may be missing, and a
graph keeps the variables of its vertices in tables of its own, which show the state of the last
refresh. Beside the walking operations stands the relation that they decide: a path that stays clear
of a set of vertices.
-/
namespace CrossCall.Flow

inductive EdgeKind where
  | control
  | controlDependence
  | dataDependence
  | programDependence
deriving Repr, DecidableEq

/-- What an edge carries beside its label. -/
inductive Cargo where
  | nothing
  /-- Free annotation of a plain edge. -/
  | token (names : List String)
  /-- The variables through which the target depends on the source. -/
  | names (names : List String)
deriving Repr, DecidableEq

structure Edge where
  source : Option Vertex := none
  target : Option Vertex := none
  label : String := ""
  kind : EdgeKind := .control
  cargo : Cargo := .nothing
deriving Repr, DecidableEq

namespace Edge

/-- The numbers of both ends, if both are there. -/
def ends? (e : Edge) : Option (Int × Int) :=
  match e.source, e.target with
  | some s, some t => some (s.id, t.id)
  | _, _ => none

/-- The names shown with a dependence: the variables, or the annotation. -/
def names (e : Edge) : List String :=
  match e.cargo with
  | .nothing => []
  | .token xs => xs
  | .names xs => xs

/-- The same edge the other way round. An edge with variables is a data dependence again. -/
def flip (e : Edge) : Edge :=
  let kind := match e.cargo with
    | .names _ => .dataDependence
    | _ => e.kind
  { e with source := e.target, target := e.source, kind := kind }

end Edge

structure Graph where
  vertices : List Vertex := []
  edges : List Edge := []
  /-- The defined variables by vertex number, as of the last refresh. -/
  defs : Table Int (List String) := {}
  /-- The used variables by vertex number, as of the last refresh. -/
  uses : Table Int (List String) := {}
  /-- The vertex from which domination is computed. -/
  exit : Option Int := none
deriving Repr, DecidableEq, Inhabited

namespace Graph

def find? (g : Graph) (id : Int) : Option Vertex := g.vertices.find? fun v => v.id == id

def ids (g : Graph) : List Int := g.vertices.map (·.id)

/-- Adds a vertex whose number is new. -/
def addVertex (g : Graph) (v : Vertex) : Graph :=
  if (g.find? v.id).isSome then g
  else { g with
    vertices := g.vertices ++ [v]
    defs := g.defs.insert v.id v.defs
    uses := g.uses.insert v.id v.uses }

def addEdge (g : Graph) (e : Edge) : Graph := { g with edges := g.edges ++ [e] }

/-- Adds a vertex and edges that leave it. An edge without a source gets this one; known targets
stay as they are and new ones are added. -/
def connect (g : Graph) (v : Vertex) (edges : List Edge) : Graph :=
  let edges := edges.map fun e => { e with source := e.source.orElse fun _ => some v }
  let g := edges.foldl (fun g e => e.target.elim g g.addVertex) (g.addVertex v)
  { g with edges := g.edges ++ edges }

/-- Takes the variables of all vertices into the tables. -/
def refresh (g : Graph) : Graph :=
  { g with
    defs := g.vertices.foldl (fun t v => t.insert v.id v.defs) g.defs
    uses := g.vertices.foldl (fun t v => t.insert v.id v.uses) g.uses }

/-- A graph with the given vertices and no edges. -/
def ofVertices (vs : List Vertex) : Graph := vs.foldl addVertex {}

def incoming (g : Graph) (id : Int) : List Edge := g.edges.filter fun e => e.target.any (·.id == id)

def outgoing (g : Graph) (id : Int) : List Edge := g.edges.filter fun e => e.source.any (·.id == id)

/-- The edges that have both ends, as pairs of numbers, in order. -/
def arcs (g : Graph) : List (Int × Int) := g.edges.filterMap (·.ends?)

/-- The targets of the complete edges that leave a vertex, in order. -/
def successors (g : Graph) (id : Int) : List Int :=
  g.arcs.filterMap fun a => if a.1 = id then some a.2 else none

/-- The sources of the complete edges that enter a vertex, in order. -/
def predecessors (g : Graph) (id : Int) : List Int :=
  g.arcs.filterMap fun a => if a.2 = id then some a.1 else none

/-- Collects the second members of pairs under the first, in order. -/
def groupArcs (arcs : List (Int × Int)) : Table Int (List Int) :=
  arcs.foldl (fun t a => t.alter a.1 [] (· ++ [a.2])) {}

/-- Successor lists of the vertices that have any. -/
def successorTable (g : Graph) : Table Int (List Int) := groupArcs g.arcs

/-- Predecessor lists of the vertices that have any. -/
def predecessorTable (g : Graph) : Table Int (List Int) :=
  groupArcs (g.arcs.map fun a => (a.2, a.1))

/-- Turns every edge that has a target. -/
def reverse (g : Graph) : Graph :=
  { ofVertices g.vertices with edges := (g.edges.filter (·.target.isSome)).map Edge.flip }

/-! ### Walking around obstacles -/

/-- A path of arcs from `a` to `b`, of one arc at least, on which no vertex strictly between the
ends is one of `avoid`. -/
inductive PathAvoiding (next : Int → List Int) (avoid : List Int) : Int → Int → Prop
  | arc {a b : Int} : b ∈ next a → PathAvoiding next avoid a b
  | step {a m b : Int} : m ∈ next a → m ∉ avoid → PathAvoiding next avoid m b →
      PathAvoiding next avoid a b

/-- Looks at the successors of one vertex: tells whether the goal is among those before the first
new ones are exhausted, and which fresh vertices were met. -/
def scan (goal : Int) (avoid : List Int) (visited queue : List Int) :
    List Int → Bool × List Int × List Int
  | [] => (false, visited, queue)
  | x :: xs =>
    if x = goal then (true, visited, queue)
    else if x ∉ visited ∧ x ∉ avoid then scan goal avoid (visited ++ [x]) (queue ++ [x]) xs
    else scan goal avoid visited queue xs

/-- Breadth-first search with a bound on the number of vertices taken from the queue. -/
def search (next : Int → List Int) (goal : Int) (avoid : List Int) :
    Nat → List Int → List Int → Bool
  | 0, _, _ => false
  | _ + 1, _, [] => false
  | n + 1, visited, x :: queue =>
    match scan goal avoid visited queue (next x) with
    | (true, _, _) => true
    | (false, visited, queue) => search next goal avoid n visited queue

/-- Is there a path between two vertices whose inner vertices are none of `avoid`? A vertex always
reaches itself, and an end that is to be avoided is not reached from elsewhere. -/
def hasPathAvoiding (g : Graph) (start goal : Int) (avoid : List Int) : Bool :=
  if start = goal then true
  else if start ∈ avoid ∨ goal ∈ avoid then false
  else search g.successors goal avoid (g.arcs.length + 1) [start] [start]

/-! ### Enumerating simple paths -/

/-- A frame of the enumeration: a vertex on the current path and its neighbours still to be
tried. -/
abbrev Frame := Int × List Int

/-- Bounds the enumeration below a path: every vertex tried costs one for itself and what is below
it. -/
def pathFuel (branching : Nat) : Nat → Nat
  | 0 => 1
  | n + 1 => 1 + branching * (1 + pathFuel branching n)

/-- Backtracking over the current path, innermost frame first. A neighbour is offered only if it was
not on the path when its predecessor was entered. -/
def trails (next : Int → List Int) (goal : Int) : Nat → List Frame → List (List Int)
  | 0, _ => []
  | _ + 1, [] => []
  | n + 1, (_, []) :: below => trails next goal n below
  | n + 1, (v, x :: xs) :: below =>
    let path := x :: v :: below.map (·.1)
    if x = goal then path.reverse :: trails next goal n ((v, xs) :: below)
    else trails next goal n ((x, (next x).filter fun y => y ∉ path) :: (v, xs) :: below)

/-- All paths between two different vertices that do not repeat a vertex after the start, in the
order of the successor lists. -/
def allPaths (g : Graph) (start goal : Int) : List (List Int) :=
  if start = goal then []
  else trails g.successors goal
    (2 * pathFuel g.arcs.length (g.arcs.length + 1) + 2) [(start, g.successors start)]

end Graph

end CrossCall.Flow

import CrossCall.Flow.Graph
import CrossCall.Text.Blank
/-!
Control flow of one function. Every piece of syntax denotes a flow transformer: given the exits
through which control may enter, it yields the vertices recorded inside, each with edges, and the
exits through which control leaves. Statements after a jump have no way in and leave no record.
Statements may be nested to any depth.
-/
namespace CrossCall.Flow

/-- Control leaves a vertex along an edge with this label; the target is not yet known. -/
structure Exit where
  vertex : Vertex
  label : String := ""
deriving Repr, DecidableEq

/-- A vertex of the flow graph with the edges that were filed under it. -/
structure Record where
  vertex : Vertex
  edges : List Edge := []
deriving Repr, DecidableEq

/-- A piece of control flow: the records inside and the open exits. -/
structure Piece where
  records : List Record := []
  exits : List Exit := []
deriving Repr, DecidableEq

/-- The meaning of a piece of syntax. -/
abbrev Transfer := List Exit → Except Fault Piece

/-- A child with its meaning. -/
structure Part where
  locus : Locus
  run : Transfer

namespace Part

def kind (p : Part) : String := p.locus.kind

end Part

def edgeTo (target : Vertex) (e : Exit) : Edge :=
  { source := some e.vertex, target := some target, label := e.label }

/-- Edges from all exits to a vertex. -/
def edgesTo (target : Vertex) (exits : List Exit) : List Edge := exits.map (edgeTo target)

/-- Files edges under the first record that has a given number. -/
def fileEdges (id : Int) (edges : List Edge) : List Record → List Record
  | [] => []
  | r :: rs =>
    if r.vertex.id = id then { r with edges := r.edges ++ edges } :: rs
    else r :: fileEdges id edges rs

/-! ### Jumps -/

def isCountedLoop (kind : String) : Bool := kind == "while_statement" || kind == "for_statement"

def isLoop (kind : String) : Bool := isCountedLoop kind || kind == "do_statement"

def isJump (kind : String) : Bool := kind == "break_statement" || kind == "continue_statement"

mutual

/-- The break and continue statements below a node, those inside a further while or for loop left
out. -/
def jumpsBelow (above : List (Tree × Nat)) : Tree → List Locus
  | .node k a b f cs => jumpsAmong (.node k a b f cs) above 0 cs

def jumpsAmong (parent : Tree) (above : List (Tree × Nat)) (i : Nat) : List Tree → List Locus
  | [] => []
  | t :: ts =>
    (if isJump t.kind then [⟨t, (parent, i) :: above⟩]
      else if isCountedLoop t.kind then []
      else jumpsBelow ((parent, i) :: above) t) ++ jumpsAmong parent above (i + 1) ts

end

def breaksBelow (l : Locus) : List Locus :=
  (jumpsBelow l.above l.node).filter fun x => x.kind == "break_statement"

def continuesBelow (l : Locus) : List Locus :=
  (jumpsBelow l.above l.node).filter fun x => x.kind == "continue_statement"

def verticesOf (src : Source) (ls : List Locus) : Except Fault (List Vertex) :=
  ls.mapM (Vertex.ofLocus src)

/-! ### Statements -/

/-- One part after the other. -/
def runAll : List Part → Transfer
  | [], exits => .ok { exits }
  | p :: ps, exits => do
    let first ← p.run exits
    let rest ← runAll ps first.exits
    pure { records := first.records ++ rest.records, exits := rest.exits }

/-- Does a vertex stand for visible code? -/
def isVisible (v : Vertex) : Bool := !Text.isBlankLine v.text && v.text != "\x7b"

def hasKind (kinds : List String) (kind : String) : Bool := kinds.contains kind

/-- The members of a block in order. The breaks of a loop wait until a later member of the block
that is no loop has a vertex, and then lead there. -/
def runBlock (src : Source) (records : List Record) (pending : List Vertex) : List Part → Transfer
  | [], exits => .ok { records, exits }
  | p :: ps, exits => do
    let piece ← p.run exits
    let records := records ++ piece.records
    let found ← if isLoop p.kind then verticesOf src (breaksBelow p.locus) else pure []
    let pending := pending ++ found
    if pending.isEmpty || isLoop p.kind || hasKind ["\x7b", "\x7d"] p.kind then
      runBlock src records pending ps piece.exits
    else match piece.records.find? fun r => isVisible r.vertex with
      | none => runBlock src records pending ps piece.exits
      | some r =>
        let records :=
          pending.foldl (fun rs v => fileEdges v.id [edgeTo r.vertex { vertex := v }] rs) records
        runBlock src records [] ps piece.exits

/-- The part that a field name leads to; the construction fails without it. -/
def partNamed (parts : List Part) (name : String) : Except Fault Part :=
  match parts.find? fun p => p.locus.node.field == some name with
  | some p => .ok p
  | none => .error .missingPart

/-- A statement without inner structure. Nothing follows a return, break or continue. -/
def runSimple (src : Source) (l : Locus) : Transfer := fun exits => do
  let v ← Vertex.ofLocus src l
  let ends := hasKind ["return_statement", "break_statement", "continue_statement"] l.kind
  pure { records := [⟨v, edgesTo v exits⟩], exits := if ends then [] else [{ vertex := v }] }

def runFunction (src : Source) (l : Locus) (parts : List Part) : Transfer := fun _ => do
  let v ← Vertex.ofLocus src l
  let body ← partNamed parts "body"
  let piece ← body.run [{ vertex := v }]
  pure { records := piece.records ++ [⟨v, []⟩], exits := [] }

/-- The head leads to the consequence along `Y` and to the alternative, or past the statement, along
`N`. -/
def runIf (src : Source) (l : Locus) (parts : List Part) : Transfer := fun exits => do
  let v ← Vertex.ofLocus src l
  let consequence ← partNamed parts "consequence"
  let yes ← consequence.run [⟨v, "Y"⟩]
  let no ← match parts.find? fun p => p.locus.node.field == some "alternative" with
    | some p => p.run [⟨v, "N"⟩]
    | none => pure { exits := [⟨v, "N"⟩] }
  pure {
    records := ⟨v, edgesTo v exits⟩ :: (yes.records ++ no.records)
    exits := yes.exits ++ no.exits }

/-- The head leads into the body along `Y` and out along `N`; the body's exits and the continues
lead back. -/
def runCountedLoop (src : Source) (l : Locus) (parts : List Part) : Transfer := fun exits => do
  let v ← Vertex.ofLocus src l
  let body ← partNamed parts "body"
  let piece ← body.run [⟨v, "Y"⟩]
  let breaks ← verticesOf src (breaksBelow l)
  let continues ← verticesOf src (continuesBelow l)
  let back := piece.exits.filter fun e => !(breaks.map (·.id)).contains e.vertex.id
  let again := edgesTo v (back ++ continues.map fun c => { vertex := c })
  pure {
    records := fileEdges v.id again (⟨v, edgesTo v exits⟩ :: piece.records)
    exits := [⟨v, "N"⟩] }

/-- The last recorded vertex with a number. -/
def lastRecorded? (records : List Record) (id : Int) : Option Vertex :=
  (records.reverse.find? fun r => r.vertex.id == id).map (·.vertex)

/-- The recorded vertices of the given jumps. -/
def recordedJumps (src : Source) (records : List Record) (ls : List Locus) :
    Except Fault (List Vertex) := do
  let vs ← verticesOf src ls
  pure (vs.filterMap fun v => lastRecorded? records v.id)

/-- The body runs first; its exits and the continues lead to the condition, which leads back along
`Y` to the first record of the loop and out along `N`. Breaks leave the loop too. -/
def runDo (src : Source) (parts : List Part) : Transfer := fun exits => do
  let body ← partNamed parts "body"
  let piece ← body.run exits
  let condition ← partNamed parts "condition"
  let plain ← Vertex.ofLocus src condition.locus
  let v : Vertex := { plain with text := "while (" ++ plain.text ++ ")", branch := true }
  let breaks ← recordedJumps src piece.records (breaksBelow body.locus)
  let continues ← recordedJumps src piece.records (continuesBelow body.locus)
  let ways := piece.exits ++ continues.map fun c => { vertex := c }
  let records := piece.records ++ [⟨v, edgesTo v ways⟩]
  let records := match records.head? with
    | none => records
    | some first => fileEdges first.vertex.id [edgeTo first.vertex ⟨v, "Y"⟩] records
  pure { records, exits := ⟨v, "N"⟩ :: breaks.map fun b => { vertex := b } }

/-- The head leads into the body; the breaks below leave the statement. -/
def runSwitch (src : Source) (l : Locus) (parts : List Part) : Transfer := fun exits => do
  let v ← Vertex.ofLocus src l
  let head : Record := ⟨v, edgesTo v exits⟩
  match parts.find? fun p => p.locus.node.field == some "body" with
  | none => pure { records := [head], exits := [{ vertex := v }] }
  | some body =>
    let piece ← body.run [{ vertex := v }]
    let breaks ← verticesOf src (breaksBelow l)
    pure {
      records := head :: piece.records
      exits := piece.exits ++ breaks.map fun b => { vertex := b } }

/-- A case runs its statements along `Y` and is passed over along `N`; a default only runs its
statements. -/
def runCase (src : Source) (l : Locus) (parts : List Part) : Transfer := fun exits => do
  let v ← Vertex.ofLocus src l
  let head : Record := ⟨v, edgesTo v exits⟩
  if (parts.head?.map Part.kind) == some "case" then
    let piece ← runAll (parts.drop 3) [⟨v, "Y"⟩]
    pure { records := head :: piece.records, exits := piece.exits ++ [⟨v, "N"⟩] }
  else
    let piece ← runAll (parts.drop 2) [{ vertex := v }]
    pure { records := head :: piece.records, exits := piece.exits }

/-- The meaning of a node from the meanings of its children. Leaves, and code that cannot be
entered, leave no trace. -/
def runNode (src : Source) (l : Locus) (parts : List Part) : Transfer := fun exits =>
  if l.node.isLeaf || exits.isEmpty then .ok { exits }
  else match l.kind with
    | "function_definition" => runFunction src l parts exits
    | "compound_statement" => runBlock src [] [] parts exits
    | "else_clause" =>
      if parts.length > 1 then runAll (parts.filter fun p => p.kind != "else") exits
      else .ok { exits }
    | "if_statement" => runIf src l parts exits
    | "while_statement" => runCountedLoop src l parts exits
    | "for_statement" => runCountedLoop src l parts exits
    | "do_statement" => runDo src parts exits
    | "switch_statement" => runSwitch src l parts exits
    | "case_statement" => runCase src l parts exits
    | "translation_unit" => runAll parts exits
    | _ => runSimple src l exits

mutual

/-- The flow transformer of a tree at a position. -/
def transfer (src : Source) (above : List (Tree × Nat)) : Tree → Transfer
  | .node k a b f cs => fun exits =>
    runNode src ⟨.node k a b f cs, above⟩ (transferAll src (.node k a b f cs) above 0 cs) exits

def transferAll (src : Source) (parent : Tree) (above : List (Tree × Nat)) (i : Nat) :
    List Tree → List Part
  | [] => []
  | t :: ts =>
    ⟨⟨t, (parent, i) :: above⟩, transfer src ((parent, i) :: above) t⟩ ::
      transferAll src parent above (i + 1) ts

end

/-- The records of a function. An exit without meaning opens the way into the function node. -/
def functionRecords (src : Source) (l : Locus) : Except Fault (List Record) :=
  (transfer src l.above l.node [{ vertex := { id := 0 } }]).map (·.records)

/-- The graph of records: vertices in order, the first one of each number, and all edges in
order. -/
def graphOf (records : List Record) : Graph :=
  (records.foldl (fun (g : Graph) r =>
    { g.addVertex r.vertex with edges := g.edges ++ r.edges }) {}).refresh

/-- The control-flow graph of a function. -/
def controlFlow (src : Source) (l : Locus) : Except Fault Graph :=
  (functionRecords src l).map graphOf

end CrossCall.Flow

import CrossCall.Flow.Bench
import CrossCall.Text.Blank
import CrossCall.Text.Lines
/-!
Graphs and statements as printed lists. Statements appear on one line and are cut when they are
long.
-/
namespace CrossCall.Flow

/-- A statement on one line of at most `limit` characters; a longer one ends in three dots. -/
def shortText (limit : Nat) (text : String) : String :=
  let s := Text.replaceChar (Text.trim text) '\n' ' '
  if s.length > limit then Text.takeChars s (limit - 3) ++ "..." else s

def EdgeKind.tag : EdgeKind → String
  | .control => "CFG"
  | .controlDependence => "CDG"
  | .dataDependence => "DDG"
  | .programDependence => "PDG"

def EdgeKind.ofTag? : String → Option EdgeKind
  | "CFG" => some .control
  | "CDG" => some .controlDependence
  | "DDG" => some .dataDependence
  | "PDG" => some .programDependence
  | _ => none

def numbered (n : Nat) (s : String) : String := Text.padLeft 3 (toString n) ++ ". " ++ s

def variableNote (names : List String) : String :=
  if names.isEmpty then "" else " [变量: " ++ String.intercalate ", " names ++ "]"

def labelNote (label : String) : String := if label.isEmpty then "" else " [" ++ label ++ "]"

/-- What a listing of a kind of graph adds to an edge. -/
def edgeNote : EdgeKind → Edge → String
  | .control, _ => ""
  | .controlDependence, e => labelNote e.label
  | .dataDependence, e => variableNote e.names
  | .programDependence, e => " [" ++ e.kind.tag ++ "]" ++ labelNote e.label ++ variableNote e.names

def arrow (s t : Vertex) : String :=
  shortText 50 s.text ++ " (" ++ toString s.id ++ ") --> " ++ shortText 50 t.text ++ " (" ++
    toString t.id ++ ")"

/-- One line per edge. Program dependences without both ends are passed over and do not count; in
the other listings their place is marked. -/
def edgeLines (kind : EdgeKind) : Nat → List Edge → List String
  | _, [] => []
  | n, e :: es =>
    match e.source, e.target with
    | some s, some t => numbered n (arrow s t ++ edgeNote kind e) :: edgeLines kind (n + 1) es
    | _, _ =>
      if kind = .programDependence then edgeLines kind n es
      else numbered n "[无效边: 缺少源节点或目标节点]" :: edgeLines kind (n + 1) es

/-- The name of the construction that a listing asks for. -/
def EdgeKind.construction (kind : EdgeKind) : String := "construct_" ++ kind.tag.toLower ++ "()"

/-- The edges of a graph. -/
def edgeListing (kind : EdgeKind) : Option Graph → List String
  | none => [kind.tag ++ "未构建，请先调用" ++ kind.construction]
  | some g =>
    ("=== " ++ kind.tag ++ " 边信息 ===") ::
      (if g.edges.isEmpty then ["该图没有边"]
       else edgeLines kind 1 g.edges ++ ["", "总计: " ++ toString g.edges.length ++ " 条边"])

def nameList (names : List String) : String :=
  if names.isEmpty then "无" else String.intercalate ", " (sortNames names)

def variableLines (n : Nat) (v : Vertex) : List String :=
  [numbered n ("行" ++ Text.padLeft 3 (toString v.line) ++ ": " ++ shortText 60 v.text),
   "     Defs: " ++ nameList v.defs,
   "     Uses: " ++ nameList v.uses,
   ""]

/-- The vertices of a control-flow graph by line, with their variables. -/
def variableListing : Option Graph → List String
  | none => ["CFG未构建，请先调用construct_cfg()"]
  | some g =>
    "=== CFG 语句的 Defs 和 Uses 信息 ===" ::
      (if g.vertices.isEmpty then ["该图没有节点"]
       else
        let vs := g.vertices.mergeSort fun a b => decide (a.line ≤ b.line)
        (vs.zipIdx 1).flatMap (fun (v, n) => variableLines n v) ++
          ["总计: " ++ toString vs.length ++ " 个语句节点"])

end CrossCall.Flow

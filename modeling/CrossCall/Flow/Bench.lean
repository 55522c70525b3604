import CrossCall.Flow.Control
import CrossCall.Flow.Dependence
/-!
A bench keeps the graphs that were built last and what was reported on the way. Building never
fails: what goes wrong is reported and leaves no graph.
-/
namespace CrossCall.Flow

inductive Language where
  | c
  | cpp
deriving Repr, DecidableEq

namespace Language

def ofName? : String → Option Language
  | "c" => some c
  | "cpp" => some cpp
  | _ => none

def name : Language → String
  | c => "c"
  | cpp => "cpp"

end Language

/-- The graphs of the last constructions, and the report lines so far. -/
structure Bench where
  control : Option Graph := none
  controlDependence : Option Graph := none
  dataDependence : Option Graph := none
  programDependence : Option Graph := none
  log : List String := []
deriving Repr, Inhabited

abbrev BenchM := StateM Bench

namespace Bench

def report (line : String) : BenchM Unit := modify fun b => { b with log := b.log ++ [line] }

/-- Does the parser see an error in the text? A text that it cannot parse counts as one. -/
def hasError (parse : Parser) (code : String) : Bool := (parse code).elim true (·.hasError)

/-- The function that a position stands for: itself, or the first one below it. -/
def functionAt? (l : Locus) : Option Locus :=
  if l.kind = "function_definition" then some l else l.functions.head?

def setControl (g : Option Graph) : BenchM (Option Graph) := do
  modify fun b => { b with control := g }
  pure g

/-- Builds the control-flow graph at a position of a tree. -/
def buildControlAt (src : Source) (l : Locus) : BenchM (Option Graph) := do
  match functionAt? l with
  | none =>
    report "⚠️  CFG构建警告: 未找到函数定义"
    setControl none
  | some f =>
    match controlFlow src f with
    | .ok g => setControl (some g)
    | .error _ =>
      report "⚠️  CFG构建警告: 函数处理失败"
      setControl none

/-- Builds the control-flow graph of the first function of a text. -/
def buildControl (parse : Parser) (code : String) : BenchM (Option Graph) := do
  if hasError parse code then report "⚠️  CFG构建警告: 检测到语法错误，但将继续尝试构建CFG"
  match parse code with
  | none =>
    report "⚠️  CFG构建警告: 函数处理失败"
    setControl none
  | some p => buildControlAt ⟨code⟩ ⟨p.root, []⟩

/-- The frontier of a graph; a failure is reported and leaves an empty table. -/
def frontier (g : Graph) : BenchM (Table Int (List Int)) := do
  match dominanceFrontier g with
  | .ok t => pure t
  | .error _ =>
    report "⚠️  CDG构建警告: dominance_frontier失败"
    pure {}

/-- Builds the control dependences of a control-flow graph. The graph of an earlier construction
stays if there is nothing to build from. -/
def buildControlDependenceOf (cfg : Option Graph) : BenchM (Option Graph) := do
  match cfg with
  | none => pure none
  | some cfg =>
    let reversed := reversedWithExit cfg
    let df ← frontier reversed
    if df.isEmpty then pure none
    else
      let g := Flow.controlDependence reversed df
      modify fun b => { b with controlDependence := some g }
      pure (some g)

def buildControlDependence (parse : Parser) (code : String) : BenchM (Option Graph) := do
  buildControlDependenceOf (← buildControl parse code)

def buildDataDependence (parse : Parser) (code : String) : BenchM (Option Graph) := do
  if hasError parse code then report "⚠️  DDG构建警告: 检测到语法错误，但将继续尝试构建DDG"
  match ← buildControl parse code with
  | none =>
    report "⚠️  DDG构建警告: 未找到任何函数"
    modify fun b => { b with dataDependence := none }
    pure none
  | some cfg =>
    let g := Flow.dataDependence cfg
    modify fun b => { b with dataDependence := some g }
    pure (some g)

/-- Runs a construction on a bench of its own and keeps only its report. -/
def aside {α : Type} (act : BenchM α) : BenchM α := do
  let (x, b) := act.run {}
  modify fun s => { s with log := s.log ++ b.log }
  pure x

def buildProgramDependence (parse : Parser) (code : String) : BenchM (Option Graph) := do
  let cdg ← aside (buildControlDependence parse code)
  let ddg ← aside (buildDataDependence parse code)
  let g := match cdg, ddg with
    | some c, some d => some (Flow.programDependence c d)
    | _, _ => none
  if g.isNone then report "⚠️  PDG构建警告: CDG或DDG构建失败"
  modify fun b => { b with programDependence := g }
  pure g

/-- The four kinds of graph. -/
def build (kind : EdgeKind) (parse : Parser) (code : String) : BenchM (Option Graph) :=
  match kind with
  | .control => buildControl parse code
  | .controlDependence => buildControlDependence parse code
  | .dataDependence => buildDataDependence parse code
  | .programDependence => buildProgramDependence parse code

/-- The graph of a kind that was built last. -/
def graph (b : Bench) : EdgeKind → Option Graph
  | .control => b.control
  | .controlDependence => b.controlDependence
  | .dataDependence => b.dataDependence
  | .programDependence => b.programDependence

end Bench

end CrossCall.Flow

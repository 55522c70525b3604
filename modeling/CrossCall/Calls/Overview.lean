import CrossCall.Calls.Record
/-!
The call graph of one file or of a whole directory, in one of two formats.
-/
namespace CrossCall.Calls.Overview

inductive Format where
  | graph
  | document
deriving Repr, DecidableEq

def Format.ofName? : String → Option Format
  | "simple" => some graph
  | "fasten" => some document
  | _ => none

inductive Fault where
  | analysis (fault : Calls.Fault)
  | unknownFormat (name : String)
deriving Repr, DecidableEq

/-- The Python files below a directory: its own first, then those of the directories in it. -/
def pythonFiles (fs : Files) : Nat → String → List String
  | 0, _ => []
  | depth + 1, dir =>
    let inside := (fs.entries dir).map (Path.join dir)
    inside.filter (fun p => fs.isFile p && Text.hasEnd p ".py") ++
      (inside.filter fs.isDirectory).flatMap (pythonFiles fs depth)

/-- The graph of some entry points. A format is looked at only after the analysis. -/
def ofEntries (w : World) (entries : List String) (package format : String) :
    Except Fault Json := do
  let s ← (analyze w { entries := entries, package := some package }).mapError .analysis
  match Format.ofName? format with
  | some .graph => pure s.graph.toJson
  | some .document =>
    ((s.document w.files (some package) { product := Path.baseName package }).map
      Package.toJson).mapError .analysis
  | none => throw (.unknownFormat format)

/-- The graph of a file, which belongs to its directory unless it is said to belong to another
one. -/
def ofFile (w : World) (path : String) (package : Option String) (format : String) :
    Except Fault Json :=
  ofEntries w [path] (package.getD (Path.dirName (w.files.resolve path))) format

/-- The graph of a directory, from all its Python files unless entry points are given. -/
def ofDirectory (w : World) (package : String) (entries : Option (List String)) (format : String) :
    Except Fault Json :=
  let depth := (w.files.contents.keys.map String.length).foldl max 0
  ofEntries w (entries.getD (pythonFiles w.files depth package)) package format

/-- What the tool says of itself when it has nothing to do. -/
def introduction : List String :=
  let line := String.ofList (List.replicate 50 '-')
  ["示例 1: 生成简单格式的调用图", line, "", "示例 2: 使用面向对象的接口", line, "PyCG Wrapper 已准备就绪！",
    "请参考上面的注释代码来使用此包装器。"]

end CrossCall.Calls.Overview

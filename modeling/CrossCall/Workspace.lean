import CrossCall.Calls.Grammar
import CrossCall.Calls.Session
import CrossCall.Desk
import CrossCall.Parse.Source
/-!
Workspaces written as JSON: files with their contents, syntax trees for C texts, and syntax trees
for Python files.
-/
namespace CrossCall

namespace Workspace

/-! ### Syntax trees -/

mutual

/-- A node is an array of kind, start, end, field and children, of which the last two may be left
out. -/
def readTree : Json → Tree
  | .arr (kind :: start :: stop :: field :: .arr children :: _) =>
    .node (kind.str?.getD "") (start.int?.getD 0).toNat (stop.int?.getD 0).toNat field.str?
      (readTrees children)
  | .arr (kind :: start :: stop :: rest) =>
    .node (kind.str?.getD "") (start.int?.getD 0).toNat (stop.int?.getD 0).toNat
      (rest.head?.bind Json.str?) []
  | _ => .node "" 0 0 none []

def readTrees : List Json → List Tree
  | [] => []
  | j :: js => readTree j :: readTrees js

end

/-- A parser that knows the trees of the listed texts. -/
def parser (j : Json) : Parser :=
  let parsed (t : Json) : Parsed :=
    { root := readTree (t.field "root"), hasError := t.boolD "has_error" false }
  let known := (j.items "trees").map fun t => (t.strD "text", parsed t)
  fun text => (known.find? fun e => e.1 == text).map (·.2)

/-! ### Files -/

def hexBytes : List Char → List UInt8
  | a :: b :: rest =>
    UInt8.ofNat ((Json.hexValue? a).getD 0 * 16 + (Json.hexValue? b).getD 0) :: hexBytes rest
  | _ => []

/-- The contents of a file: a text, bytes in hexadecimal, or the text of a program. -/
def contents : Json → ByteArray
  | .str s => s.toUTF8
  | .torn codes => (Json.mended codes).toUTF8
  | j =>
    match (j.get? "hex").bind Json.str? with
    | some h => ⟨(hexBytes h.toList).toArray⟩
    | none => (j.strD "src").toUTF8

/-- The files of a workspace below a directory. -/
def files (root : String) (j : Json) : Files where
  cwd := Path.absolute root (j.strD "cwd" ".")
  contents :=
    Table.ofList ((j.field "files").members.map fun (p, c) => (Path.absolute root p, contents c))
  extraDirectories := root :: (j.field "dirs").texts.map (Path.absolute root)

/-- The files of a workspace and the programs in them. A file that comes without its constructs is
read here. -/
def world (root : String) (j : Json) : Calls.World :=
  let programs : Table String Calls.Program :=
    Table.ofList ((j.field "files").members.filterMap fun (p, c) =>
    (c.get? "ast").map fun code =>
      (Path.absolute root p, Calls.Reading.program code (c.field "symtable")))
  let fs := files root j
  { files := fs
    program := fun p => (programs.get? p).orElse fun _ =>
    (fs.read .replace p).toOption.map Calls.Grammar.program }

/-- A desk with the files of a workspace, the replies to come, and the keys of an environment. -/
def desk (root : String) (j : Json) : Desk where
  files := files root j
  hasKey := (j.get? "env").elim true fun env => env.members.any fun (_, v) =>
    v.str?.any (!·.isEmpty)
  replies := (j.items "replies").map fun r =>
    (r.get? "raise").elim (.text (r.field "text").wording) fun m => .failure (m.str?.getD "")

end Workspace

end CrossCall

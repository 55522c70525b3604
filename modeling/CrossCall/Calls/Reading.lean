import CrossCall.Calls.Program
import CrossCall.Text.Json
/-!
Programs read from JSON. A construct is an array of its kind, its line and its fields; the blocks of
a program are arrays of kind, name, line and inner blocks. An object with an error in place of
either says why the program could not be read.
-/
namespace CrossCall.Calls.Reading

/-- What was read at one place. -/
inductive Item where
  | nothing
  | text (s : String)
  | number (n : Int)
  | constant (c : Constant)
  | code (c : Code)
  | params (names keywordOnly : List String) (defaults : List Code)
      (keywordDefaults : List (Option Code))
      (notes lateNotes : List Code)
  | param (name : String) (note : List Code)
  | keyword (name : Option String) (value : Code)
  | naming (a : Alias)
  | list (items : List Item)
deriving Inhabited

/-- An item, the last line that was seen in it, and whether its names are ASCII. -/
structure Seen where
  item : Item
  last : Int := 0
  isAscii : Bool := true
deriving Inhabited

namespace Item

def text? : Item → Option String
  | text s => some s
  | _ => none

mutual

/-- The code in an item, in order. -/
def codes : Item → List Code
  | code c => [c]
  | params _ _ ds ks ns ls => ns ++ ks.filterMap id ++ ls ++ ds
  | param _ ns => ns
  | keyword _ c => [c]
  | list xs => allCodes xs
  | _ => []

def allCodes : List Item → List Code
  | [] => []
  | x :: xs => codes x ++ allCodes xs

end

def code? (x : Item) : Option Code := x.codes.head?

def code1 (x : Item) : Code := x.code?.getD (.other [])

def items : Item → List Item
  | list xs => xs
  | _ => []

def aliases (x : Item) : List Alias := x.items.filterMap fun
  | naming a => some a
  | _ => none

def keywords (x : Item) : List (Option String × Code) := x.items.filterMap fun
  | keyword n c => some (n, c)
  | _ => none

def paramName? : Item → Option String
  | param n _ => some n
  | _ => none

def paramNames (x : Item) : List String := x.items.filterMap paramName?

end Item

def constantOf (ms : List (String × Json)) : Constant :=
  match ms with
  | ("int", .str s) :: _ => .int (s.toInt?.getD 0)
  | ("str", .str s) :: _ => .text s
  | ("bool", .bool b) :: _ => .bool b
  | ("float", .str s) :: _ => .number s
  | ("complex", .str s) :: _ => .number s
  | _ => .other

/-- One construct of its kind, the extent it has, and its fields. -/
def build (kind : String) (extent : Extent) (fields : List Item) : Item :=
  match kind, fields with
  | "Constant", .constant c :: _ => .code (.constant c)
  | "Name", .text id :: _ => .code (.name id)
  | "Attribute", value :: .text attr :: _ => .code (.attribute value.code1 attr)
  | "Subscript", value :: slice :: _ => .code (.subscript extent.first value.code1 slice.code1)
  | "Call", callee :: args :: keywords :: _ =>
    .code (.call callee.code1 args.codes keywords.keywords)
  | "Lambda", .params ps ks ds kds _ _ :: body :: _ =>
    .code (.lambda extent ps ks ds kds body.code1)
  | "Tuple", elements :: _ => .code (.tuple elements.codes)
  | "List", elements :: _ => .code (.list elements.codes)
  | "Dict", keys :: values :: _ => .code (.dict ((keys.items.map Item.code?).zip values.codes))
  | "BinOp", left :: _ :: right :: _ => .code (.binary left.code1 right.code1)
  | "FunctionDef", .text id :: .params ps ks ds kds ns ls :: body :: decorators :: result :: _ =>
    .code (.function extent false id ps ks ds kds ns ls result.codes decorators.codes body.codes)
  | "AsyncFunctionDef",
      .text id :: .params ps ks ds kds ns ls :: body :: decorators :: result :: _ =>
    .code (.function extent true id ps ks ds kds ns ls result.codes decorators.codes body.codes)
  | "ClassDef", .text id :: bases :: keywords :: body :: decorators :: _ =>
    .code (.classDef extent id bases.codes keywords.codes decorators.codes body.codes)
  | "Return", value :: _ => .code (.giveBack value.code?)
  | "Yield", value :: _ => .code (.yieldOut value.code?)
  | "Assign", targets :: value :: _ => .code (.assign targets.codes value.code1)
  | "For", target :: iter :: body :: orElse :: _ =>
    .code (.forLoop target.code1 iter.code1 body.codes orElse.codes)
  | "Raise", exception :: cause :: _ => .code (.throw exception.code? cause.code?)
  | "Import", names :: _ => .code (.imports names.aliases)
  | "ImportFrom", module :: names :: level :: _ =>
    .code (.importsFrom module.text? names.aliases (match level with
      | .number n => n
      | _ => 0))
  | "arguments", before :: params :: rest :: keywordOnly :: keywordDefaults :: mapping ::
      defaults :: _ =>
    .params params.paramNames keywordOnly.paramNames defaults.codes
      (keywordDefaults.items.map Item.code?)
      (before.codes ++ params.codes ++ rest.codes ++ keywordOnly.codes) mapping.codes
  | "arg", .text name :: note :: _ => .param name note.codes
  | "keyword", name :: value :: _ => .keyword name.text? value.code1
  | "alias", .text name :: rename :: _ => .naming { name := name, rename := rename.text? }
  | _, fields => .code (.other (Item.allCodes fields))

def isAsciiText (s : String) : Bool := s.toList.all fun c => c.toNat < 128

def lineOf : Json → Int
  | .int n => n
  | _ => 0

def latest (xs : List Seen) : Int := xs.foldl (fun n x => max n x.last) 0

mutual

def read : Json → Seen
  | .null => { item := .nothing }
  | .bool _ => { item := .nothing }
  | .real _ => { item := .nothing }
  | .int n => { item := .number n }
  | .str s => { item := .text s, isAscii := isAsciiText s }
  | .torn codes => { item := .text (Json.mended codes), isAscii := false }
  | .obj ms => { item := .constant (constantOf ms) }
  | .arr (.str kind :: .null :: fields) => construct kind 0 (readAll fields)
  | .arr (.str kind :: .int line :: fields) => construct kind line (readAll fields)
  | .arr xs =>
    let parts := readAll xs
    { item := .list (parts.map (·.item)), last := latest parts, isAscii := parts.all (·.isAscii) }

def readAll : List Json → List Seen
  | [] => []
  | j :: js => read j :: readAll js

def construct (kind : String) (line : Int) (parts : List Seen) : Seen :=
  let last := max line (latest parts)
  { item := build kind { first := line, last := last } (parts.map (·.item)), last := last,
    isAscii := parts.all (·.isAscii) }

end

mutual

def readBlock : Json → Block
  | .arr (.str kind :: .str name :: line :: .arr children :: _) =>
    .node (if kind == "function" then .function else if kind == "class" then .classType
      else .module) name
      (lineOf line) (readBlocks children)
  | _ => .node .module "top" 0 []

def readBlocks : List Json → List Block
  | [] => []
  | j :: js => readBlock j :: readBlocks js

end

def fault? (j : Json) : Option ParseFault := ((j.get? "error").bind Json.str?).map ParseFault.mk

/-- A program from its constructs and its blocks. -/
def program (code blocks : Json) : Program :=
  let seen := read code
  {
    code := match fault? code with
      | some e => .error e
      | none => .ok (match seen.item with
        | .code (.other parts) => parts
        | x => x.codes)
    blocks := match fault? blocks with
      | some e => .error e
      | none => .ok (readBlock blocks)
    hasAsciiNames := seen.isAscii }

end CrossCall.Calls.Reading

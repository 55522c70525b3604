import CrossCall.Embedding.Call
import CrossCall.Text.Json
/-!
Reports of calls. A report is made from entries, which come either from a search or from records
that were stored as JSON; records may lack fields and hold values of any type where a report only
copies them.
-/
namespace CrossCall.Embedding

/-- Why a record cannot be reported. -/
inductive RecordFault where
  /-- A field that is needed is missing. -/
  | missingField
  /-- A value has no fields. -/
  | notRecord
  /-- A value is no list or no text. -/
  | wrongType
deriving Repr, DecidableEq

structure StatementEntry where
  line : Json
  text : Json
  kind : Json
deriving Repr

structure HelperEntry where
  name : Json
  code : Option Json
  line : Json
  file : Json
deriving Repr

/-- One call as it is reported. -/
structure Entry where
  function : Json
  code : Json
  line : Json
  file : Json
  container : Json
  context : List StatementEntry
  helpers : List HelperEntry
deriving Repr

namespace Call

def toEntry (c : Call) : Entry where
  function := .str c.function
  code := .str c.code
  line := .int c.line
  file := .str c.file
  container := .str c.container
  context := c.context.map fun s => ⟨.int s.line, .str s.text, .str s.kind⟩
  helpers := c.helpers.map fun d => ⟨.str d.name, some (.str d.code), .int d.line, .str d.file⟩

end Call

/-! ### Records -/

def needed (j : Json) (name : String) : Except RecordFault Json :=
  match j with
  | .obj ms => (Json.member? name ms).elim (.error .missingField) .ok
  | _ => .error .wrongType

def optional (j : Json) (name : String) (default : Json) : Except RecordFault Json :=
  match j with
  | .obj ms => .ok ((Json.member? name ms).getD default)
  | _ => .error .notRecord

def items : Json → Except RecordFault (List Json)
  | .arr xs => .ok xs
  | _ => .error .wrongType

/-- Empty values count as absent. -/
def isEmptyValue : Json → Bool
  | .null | .bool false | .int 0 | .str "" | .arr [] | .obj [] => true
  | _ => false

def StatementEntry.ofRecord (j : Json) : Except RecordFault StatementEntry := do
  pure ⟨← needed j "line", ← needed j "text", ← needed j "type"⟩

def HelperEntry.ofRecord (j : Json) : Except RecordFault HelperEntry := do
  let name ← optional j "function_name" (.str "")
  let line ← optional j "line" (.int 0)
  let file ← optional j "file" (.str "")
  pure ⟨name, j.get? "code", line, file⟩

def Entry.ofRecord (j : Json) : Except RecordFault Entry := do
  let function ← optional j "call_function" (.str "")
  let code ← optional j "call_code" (.str "")
  let line ← optional j "call_line" (.int 0)
  let file ← optional j "file" (.str "")
  let container ← optional j "containing_function" (.str "")
  let context ← (← items (← optional j "context_statements" (.arr []))).mapM StatementEntry.ofRecord
  let helpers ← optional j "function_definitions" .null
  let helpers ← if isEmptyValue helpers then pure []
    else (← items helpers).mapM HelperEntry.ofRecord
  pure { function, code, line, file, container, context, helpers }

/-- The entries of a stored result. -/
def entriesOfRecord (j : Json) : Except RecordFault (List Entry) := do
  (← items (← optional j "python_calls" (.arr []))).mapM Entry.ofRecord

/-! ### Reports -/

def HelperEntry.toJson (h : HelperEntry) : Json := .obj [
  ("type", .str "Helper_Function"), ("name", h.name), ("code", h.code.getD (.str "")),
  ("line", h.line), ("file", h.file)]

def Entry.toJson (e : Entry) : Json := .obj ([
  ("call_info", .obj [
    ("type", .str "Python_C_API_Call"), ("function", e.function), ("code", e.code),
    ("line", e.line), ("file", e.file), ("containing_function", e.container)]),
  ("context_statements",
    .arr (e.context.map fun s => .obj [("line", s.line), ("code", s.text), ("type", s.kind)]))] ++
  if e.helpers.isEmpty then []
  else [("function_definitions", .arr (e.helpers.map HelperEntry.toJson))])

/-- The calls as JSON. -/
def jsonReport (es : List Entry) : String :=
  Json.render (.obj [("python_api_calls", .arr (es.map Entry.toJson))])

/-- The code of one call: the texts of its context and the codes of its helpers. -/
structure Block where
  context : List String
  helpers : List String
deriving Repr, DecidableEq

def Call.block (c : Call) : Block := ⟨c.context.map (·.text), c.helpers.map (·.code)⟩

def ruler : String := String.ofList (List.replicate 80 '=')

/-- The lines of one call: a headline with its number, the context and an empty line, and every
helper followed by an empty line. -/
def blockLines (n : Nat) (b : Block) : List String :=
  ["", ruler, "C中的Python API调用 #" ++ toString n, ruler, ""] ++
    (if b.context.isEmpty then [] else b.context ++ [""]) ++
    b.helpers.flatMap fun code => [code, ""]

/-- The calls as text. -/
def textReport (bs : List Block) : String :=
  String.intercalate "\n" ((bs.zipIdx 1).flatMap fun (b, n) => blockLines n b)

def textOf : Json → Except RecordFault String
  | .str s => .ok s
  | _ => .error .wrongType

/-- The code of a reported call; a helper needs its code here. -/
def Entry.block (e : Entry) : Except RecordFault Block := do
  let context ← e.context.mapM fun s => textOf s.text
  let helpers ← e.helpers.mapM fun h => h.code.elim (.error .missingField) textOf
  pure ⟨context, helpers⟩

/-- Everything that was found, as a record. -/
def Result.toJson (r : Result) : Json :=
  let statement (s : Statement) : Json := .obj [
    ("line", .int s.line), ("text", .str s.text), ("type", .str s.kind),
    ("defs", .arr ((sortNames s.defs).map .str)), ("uses", .arr ((sortNames s.uses).map .str))]
  let helper (d : Definition) : Json := .obj [
    ("function_name", .str d.name), ("file", .str d.file), ("line", .int d.line),
    ("code", .str d.code)]
  let call (c : Call) : Json := .obj [
    ("call_function", .str c.function), ("call_line", .int c.line), ("call_code", .str c.code),
    ("context_statements", .arr (c.context.map statement)), ("file", .str c.file),
    ("containing_function", .str c.container),
    ("function_definitions", .arr (c.helpers.map helper))]
  .obj [
    ("python_calls", .arr (r.calls.map call)),
    ("total_calls", .int r.calls.length),
    ("global_functions", .arr (r.registry.keys.map .str)),
    ("total_functions", .int r.registry.values.flatten.length)]

end CrossCall.Embedding

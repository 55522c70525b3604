import CrossCall.Assistant.Prompt
import CrossCall.Assistant.Section
import CrossCall.Desk
/-!
Reviews of reports by the assistant. Every piece of a report is a question; the answers are gathered
in a JSON file and turned into Python files. A piece without a usable answer is passed over.
-/
namespace CrossCall.Assistant

open Job

def defaultModel : String := "claude-sonnet-4-20250514"

/-- The model that answers, if there is a key for it. -/
def connect (model : String) : Job String := do
  if (← get).hasKey then pure model else throw .noKey

/-- How one kind of report is reviewed. -/
structure Desired where
  role : String
  prompt : String → String
  /-- The start of the names of the files that keep the last question and its reply. -/
  trace : String

namespace Desired

def promptFile (kind : Desired) (dir : String) : String :=
  Path.below dir (kind.trace ++ "_prompt.txt")

def replyFile (kind : Desired) (dir : String) : String :=
  Path.below dir (kind.trace ++ "_response.txt")

end Desired

def modulesDesired : Desired := ⟨registrationRole, registrationPrompt, "module_registration"⟩

def codeDesired : Desired := ⟨callRole, callPrompt, "python_call"⟩

/-- Asks about a piece and keeps question and reply. -/
def consult (kind : Desired) (model dir code : String) : Job String := do
  let prompt := kind.prompt code
  let reply ← ask { model := model, system := some kind.role, prompt := prompt }
  store (kind.promptFile dir) prompt
  storeWording (kind.replyFile dir) reply
  say ("  Saved prompt to: " ++ kind.promptFile dir)
  say ("  Saved response to: " ++ kind.replyFile dir)
  pure reply.text

/-- Prints what is wrong with a reply, and stands in for the answer. -/
def faultAnswer (fault : ReplyFault) : Job Json := do
  match fault with
  | .failed reason => say ("LLM call error: " ++ reason)
  | .notJson text => sayAll ["JSON parsing error", "Raw response: " ++ text]
  pure (.obj [("error", .str fault.note)])

/-- The answer about a piece. What goes wrong on the way becomes the answer. -/
def answer (kind : Desired) (model dir code : String) : Job Json := do
  match ← attempt (consult kind model dir code) with
  | .error e => faultAnswer (.failed e.message)
  | .ok text =>
    match valueOf text with
    | .ok value => pure value
    | .error fault => faultAnswer fault

/-! ### Membership in an answer -/

/-- Does an answer name something: as a member, as an item, or inside a text? -/
def names (name : String) : Json → Except ShapeFault Bool
  | .obj ms => .ok (ms.any (·.1 == name))
  | .arr xs => .ok (xs.any fun
    | .str s => s == name
    | _ => false)
  | .str s => .ok (Text.hasText s name)
  | .torn codes => .ok (Text.hasText (Json.mended codes) name)
  | _ => .error .wrongType

/-- The folder for Python files. -/
def codeFolder (dir : String) : String := Path.below dir "py"

/-! ### Modules -/

/-- The modules in an answer: those it lists, or itself if it lists none and is no error. -/
def modulesIn (value : Json) : Except ShapeFault (List Json) := do
  let listed ← if ← names "modules" value then (do
      match ← needed value "modules" with
      | .arr ms => pure (some ms)
      | _ => pure none)
    else pure none
  match listed with
  | some ms => pure ms
  | none => pure (if ← names "error" value then [] else [value])

/-- Writes a stub for every module. -/
def writeStubs (modules : List Json) (dir : String) : Job Unit := do
  unless modules.isEmpty do
    let folder := codeFolder dir
    makeDirectories folder
    for m in modules do
      let name ← orStop .shape (needed m "module_name")
      let stub ← orStop .shape (moduleStub m)
      let file := Path.below folder (name.display ++ ".py")
      store file stub
      say ("✓ Python 接口文件已生成: " ++ file)

/-- Announces a piece. Pieces are counted from zero and shown from one. -/
def heading (title : String) (i : Nat) : List String :=
  ["", "Parsing " ++ title ++ " #" ++ toString (i + 1) ++ "..."]

/-- Asks about the pieces of a report one after the other. -/
def eachSection {α : Type} (title : String) (codes : List String) (act : Nat → String → Job α) :
    Job (List α) :=
  codes.zipIdx.mapM fun (code, i) => do
    sayAll (heading title i)
    act (i + 1) code

/-- Reviews a report on registrations. -/
def reviewModules (input output : String) (model : String := defaultModel) : Job Json := do
  say ("Reading file: " ++ input)
  let content ← readText input
  let model ← connect model
  let dir := Path.parent output
  makeDirectories dir
  let found ← eachSection "module" (moduleSections content) fun _ code => do
    orStop .shape (modulesIn (← answer modulesDesired model dir code))
  let modules := found.flatten
  let result : Json := .obj [("total_modules", .int modules.length), ("modules", .arr modules)]
  sayAll ["", "Saving result to: " ++ output]
  storeJson output result
  sayAll [
    "✓ Successfully parsed " ++ toString modules.length ++ " modules",
    "✓ Result saved to: " ++ output, "", "正在生成 Python 接口文件..."]
  writeStubs modules dir
  pure result

/-! ### Calls -/

/-- A piece of Python code and the number of the piece that it stands for. -/
structure Block where
  number : Nat
  code : Json

namespace Block

def toJson (b : Block) : Json := .obj [("block_id", .int b.number), ("python_code", b.code)]

def text (b : Block) : String := "# Block " ++ toString b.number ++ "\n" ++ b.code.display ++ "\n"

end Block

/-- Is there nothing in a value? -/
def isVoid : Json → Bool
  | .null => true
  | .bool b => !b
  | .int n => n == 0
  | .real t => t == "0.0" || t == "-0.0"
  | .str s => s.isEmpty
  | .torn _ => false
  | .arr xs => xs.isEmpty
  | .obj ms => ms.isEmpty

/-- What an answer says about a piece: its code, nothing, or what went wrong. -/
inductive Finding where
  | code (value : Json)
  | nothing
  | problem (note : Json)

def findingIn (value : Json) : Except ShapeFault Finding := do
  if ← names "error" value then
    pure (.problem (← optional value "error" .null))
  else
    let code ← optional value "python_code" (.str "")
    pure (if isVoid code then .nothing else .code code)

/-- The code that an answer has for a piece, if any. -/
def blockIn (n : Nat) (value : Json) : Job (Option Block) := do
  match ← orStop .shape (findingIn value) with
  | .code value => pure (some ⟨n, value⟩)
  | .nothing => pure none
  | .problem note =>
    sayWith ("  Error parsing call block #" ++ toString n ++ ": ") note.wording
    pure none

/-- The code for one piece of a report, if its answer has some. -/
def findBlock (model dir : String) (n : Nat) (code : String) : Job (Option Block) := do
  blockIn n (← answer codeDesired model dir code)

/-- The record of what was found. -/
def blocksJson (blocks : List Block) : Json :=
  .obj [("total_blocks", .int blocks.length), ("blocks", .arr (blocks.map Block.toJson))]

def codeFile (dir : String) : String := Path.below (codeFolder dir) "python_call_in_c.py"

/-- Writes the code of all blocks into one file. -/
def writeCode (blocks : List Block) (dir : String) : Job Unit := do
  unless blocks.isEmpty do
    makeDirectories (codeFolder dir)
    store (codeFile dir) (String.intercalate "\n" (blocks.map Block.text))
    say ("✓ Python code saved to: " ++ codeFile dir)

/-- Asks about the pieces of a report on calls, and writes what was found. -/
def reviewCallSections (model output : String) (codes : List String) : Job Unit := do
  let dir := Path.parent output
  let found ← eachSection "call block" codes (findBlock model dir)
  let blocks := found.filterMap id
  storeJson output (blocksJson blocks)
  say ("✓ JSON result saved to: " ++ output)
  writeCode blocks dir
  sayAll [
    "", "✓ Successfully parsed " ++ toString codes.length ++ " call blocks",
    "✓ Extracted " ++ toString blocks.length ++ " Python code blocks"]

/-- Reviews a report on calls. -/
def reviewCalls (input output : String) (model : String := defaultModel) : Job Unit := do
  say ("Reading file: " ++ input)
  let content ← readText input
  let model ← connect model
  makeDirectories (Path.parent output)
  reviewCallSections model output (callSections content)

def usage : List String := [
  "Usage: python parse_python_call_extraction.py <input_file> [output_file]", "", "Example:",
  "  python parse_python_call_extraction.py output/c_python_call_extraction.txt " ++
    "output/c_python_call_extraction_llm.json"]

/-- The review of a report on calls as a command, with its exit code. -/
def command : List String → Job Nat
  | [] => do
    sayAll usage
    pure 1
  | input :: rest => do
    reviewCalls input (rest.head?.getD "c_python_call_extraction_llm.json")
    pure 0

end CrossCall.Assistant

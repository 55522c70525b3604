import CrossCall.Assistant.Review
import CrossCall.Calls.Record
import CrossCall.Embedding.Report
import CrossCall.Registration.Report
/-!
The survey of a folder that holds Python and C files: the call graph of the Python files, the
modules that the C files register and the Python code that they call, and the reviews of both by the
assistant. All results are files in an output folder.
-/
namespace CrossCall.Survey

open Job

/-- How texts are parsed. -/
structure Parsers where
  c : Parser := fun _ => none
  /-- The program in a file, by its absolute path. -/
  python : String → Option Calls.Program := fun _ => none

/-- The Python and the C files of a folder. -/
structure Found where
  python : List String
  c : List String
deriving Repr, DecidableEq

/-- The files below a folder, by their suffix. -/
def collect (fs : Files) (folder : String) : Except Stop Found :=
  let dir := if folder.isEmpty then "." else folder
  if !fs.doesExist dir then .error (.noFolder folder)
  else if !fs.isDirectory dir then .error (.notFolder folder)
  else
    let top := fs.resolve dir
    let named := (fs.filesBelow dir).map fun f =>
      Path.below (Path.plain dir) (Path.relative fs.cwd f top)
    let withSuffix (ok : String → Bool) : List String :=
      named.filter fun f => ok (Path.suffix f).toLower
    .ok { python := withSuffix (· == ".py"), c := withSuffix fun s => s == ".c" || s == ".h" }

def listFiles (kind : String) (paths : List String) : Job Unit :=
  sayAll (["", "找到 " ++ toString paths.length ++ " 个 " ++ kind ++ " 文件:"] ++
    paths.map ("  - " ++ ·))

/-- Writes two reports, and says so. -/
def storeReports (dir name json text jsonNote textNote : String) : Job Unit := do
  let jsonFile := Path.join dir (name ++ ".json")
  let textFile := Path.join dir (name ++ ".txt")
  store jsonFile json
  say ("✓ " ++ jsonNote ++ "已保存到: " ++ jsonFile)
  store textFile text
  say ("✓ " ++ textNote ++ "已保存到: " ++ textFile)

def label : Calls.Label := { product := "analyzed_code", forge := "local", version := "1.0.0" }

/-- The call graph of Python files. Was there a result? -/
def surveyPython (parsers : Parsers) (paths : List String) (dir : String) : Job Bool := do
  if paths.isEmpty then
    say "未找到 Python 文件"
    return false
  listFiles "Python" paths
  sayAll ["", "正在生成 Python FASTEN call graph..."]
  let world : Calls.World := { files := (← get).files, program := parsers.python }
  let outcome := do (← Calls.analyze world { entries := paths }).document world.files none label
  let saved ← attempt do
    match outcome with
    | .error _ => pure false
    | .ok p =>
      let file := Path.join dir "python_fasten_callgraph.json"
      store file p.toJson.render
      say ("✓ Python FASTEN call graph 已保存到: " ++ file)
      pure true
  match saved with
  | .ok true => return true
  | _ =>
    say "✗ 处理 Python 文件时出错"
    return false

/-- The modules that C files register, if they can be found. -/
def surveyModules (parsers : Parsers) (paths : List String) (dir : String) :
    Job (Option Registration.Registrations) := do
  if paths.isEmpty then
    say "未找到 C/C++ 文件"
    return none
  listFiles "C/C++" paths
  sayAll ["", "正在提取 C 代码中的 Python 模块注册信息..."]
  let outcome := Registration.ofFiles (← get).files parsers.c paths
  let saved ← attempt do
    match outcome with
    | .error _ => pure none
    | .ok r =>
      storeReports dir "c_python_module_registrations" (Registration.jsonReport r)
        (Registration.textReport r)
        "C 模块注册信息（JSON格式，含元数据）" "C 模块注册信息（TXT格式，纯代码）"
      pure (some r)
  match saved with
  | .ok (some r) => return some r
  | _ =>
    say "✗ 处理 C 文件时出错"
    return none

/-- The Python code that C files call. Was there a result? -/
def surveyCalls (parsers : Parsers) (paths : List String) (dir : String) : Job Bool := do
  if paths.isEmpty then
    say "未找到 C/C++ 文件"
    return false
  sayAll ["", "正在提取 C 代码中的 Python C API 调用信息..."]
  let (outcome, bench) := (Embedding.ofFiles (← get).files parsers.c paths).run.run {}
  sayAll bench.log
  let saved ← attempt do
    match outcome with
    | .error _ => pure false
    | .ok r =>
      storeReports dir "c_python_call_extraction"
        (Embedding.jsonReport (r.calls.map Embedding.Call.toEntry))
        (Embedding.textReport (r.calls.map Embedding.Call.block))
        "Python C API 调用信息（JSON格式）" "Python C API 调用信息（TXT格式）"
      pure true
  match saved with
  | .ok true => return true
  | _ =>
    say "✗ 提取 Python C API 调用信息时出错"
    return false

/-- Has the assistant look at what the C files gave. -/
def review (modules : Option Registration.Registrations) (dir : String) : Job Unit := do
  if modules.any fun r => !r.chains.isEmpty then
    sayAll ["", "正在使用 LLM 解析模块注册信息..."]
    let done ← attempt do
      let _ ← Assistant.reviewModules (Path.join dir "c_python_module_registrations.txt")
        (Path.join dir "c_python_module_registrations_llm.json")
      sayAll ["", "正在转换为 Python 代码..."]
    if done.toBool == false then say "✗ LLM 解析出错"
  sayAll ["", "正在使用 LLM 解析 Python 调用信息..."]
  let done ← attempt (Assistant.reviewCalls (Path.join dir "c_python_call_extraction.txt")
    (Path.join dir "c_python_call_extraction_llm.json"))
  if done.toBool == false then say "✗ LLM 解析 Python 调用出错"

def ruler : String := String.ofList (List.replicate 80 '=')

def usage : List String := [
  "用法: python main.py <文件夹路径> [输出目录]", "", "示例:", "  python main.py /path/to/code",
  "  python main.py /path/to/code /path/to/output"]

/-- The whole survey. The arguments are a folder and, if wanted, the output folder. -/
def run (parsers : Parsers) : List String → Job Nat
  | [] => do
    sayAll usage
    return 1
  | folder :: rest => do
    let named := Path.baseName ((← get).files.resolve folder) ++ "_output"
    let dir := rest.head?.getD named
    makeDirectories dir
    sayAll [
      ruler, "PyCTrace - Python-C 跨语言函数调用分析工具", ruler, "", "分析目标: " ++ folder, "输出目录: " ++ dir, "",
      "正在收集文件..."]
    let found ← orStop id (collect (← get).files folder)
    sayAll [
      "", "统计信息:", "  Python 文件: " ++ toString found.python.length ++ " 个",
      "  C/C++ 文件: " ++ toString found.c.length ++ " 个"]
    if found.python.isEmpty && found.c.isEmpty then
      sayAll ["", "未找到任何 Python 或 C/C++ 文件"]
      return 0
    unless found.python.isEmpty do
      let _ ← surveyPython parsers found.python dir
    unless found.c.isEmpty do
      let modules ← surveyModules parsers found.c dir
      let _ ← surveyCalls parsers found.c dir
      review modules dir
    sayAll ["", ruler, "分析完成!", ruler]
    return 0

end CrossCall.Survey

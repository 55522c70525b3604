import CrossCall.Calls.Meaning
/-!
The pass that draws the call graph, once values have stopped flowing.
-/
namespace CrossCall.Calls.Link

open Analysis

/-- Functions and classes that need no import. -/
def builtinNames : List String := [
  "ArithmeticError", "AssertionError", "AttributeError", "BaseException", "BaseExceptionGroup",
  "BlockingIOError", "BrokenPipeError", "BufferError", "BytesWarning", "ChildProcessError",
  "ConnectionAbortedError", "ConnectionError", "ConnectionRefusedError", "ConnectionResetError",
  "DeprecationWarning", "EOFError", "Ellipsis", "EncodingWarning", "EnvironmentError", "Exception",
  "ExceptionGroup", "False", "FileExistsError", "FileNotFoundError", "FloatingPointError",
  "FutureWarning", "GeneratorExit", "IOError", "ImportError", "ImportWarning", "IndentationError",
  "IndexError", "InterruptedError", "IsADirectoryError", "KeyError",
  "KeyboardInterrupt", "LookupError", "MemoryError", "ModuleNotFoundError", "NameError", "None",
  "NotADirectoryError", "NotImplemented", "NotImplementedError", "OSError", "OverflowError",
  "PendingDeprecationWarning", "PermissionError", "ProcessLookupError", "RecursionError",
  "ReferenceError", "ResourceWarning", "RuntimeError", "RuntimeWarning", "StopAsyncIteration",
  "StopIteration", "SyntaxError", "SyntaxWarning", "SystemError", "SystemExit", "TabError",
  "TimeoutError", "True", "TypeError", "UnboundLocalError", "UnicodeDecodeError",
  "UnicodeEncodeError", "UnicodeError", "UnicodeTranslateError",
  "UnicodeWarning", "UserWarning", "ValueError", "Warning", "ZeroDivisionError", "__build_class__",
  "__debug__", "__doc__", "__import__", "__loader__", "__name__", "__package__", "__spec__", "abs",
  "aiter", "all", "anext", "any", "ascii", "bin", "bool", "breakpoint", "bytearray", "bytes",
  "callable", "chr", "classmethod", "compile", "complex", "copyright", "credits", "delattr", "dict",
  "dir", "divmod", "enumerate", "eval", "exec", "exit", "filter", "float", "format", "frozenset",
  "getattr", "globals", "hasattr", "hash", "help", "hex", "id", "input",
  "int", "isinstance", "issubclass", "iter", "len", "license", "list", "locals", "map", "max",
  "memoryview", "min", "next", "object", "oct", "open", "ord", "pow", "print", "property", "quit",
  "range", "repr", "reversed", "round", "set", "setattr", "slice", "sorted", "staticmethod", "str",
  "sum", "super", "tuple", "type", "vars", "zip"]

/-- A call of something from outside. -/
def callOutside (name module : String) : Analysis Unit := do
  addExternal name
  addNode name module
  addCall name

/-- May the owner of an attribute, or an owner further out, come from outside? -/
def hasOutsideOwner : Code → Analysis Bool
  | .attribute value _ => do
    let owners ← ownerNames (← decode value)
    let names ← owners.foldlM (fun all o => do return all ++ (← closureOf o)) []
    let ds := (← get).defs
    if names.any fun n => ((Table.get? ds n).map (·.kind)) == some .external then pure true
    else hasOutsideOwner value
  | _ => pure false

/-- The attributes of a chain, and the name it starts with. -/
def attributeChain : Code → List String → Option (String × List String)
  | .attribute value attr, attrs => attributeChain value (attr :: attrs)
  | .name id, attrs => some (id, attrs)
  | _, _ => none

/-- The full names of a chain of attributes, from what its first name stands for. -/
def chainNames (callee : Code) : Analysis (List String) := do
  match attributeChain callee [] with
  | none => pure []
  | some (id, attrs) =>
    match ← lookup id with
    | none => pure []
    | some n => return (← closureOf n).map (joinNames · (ofPieces attrs))

/-- A call that reaches no known definition. -/
def callUnknown (callee : Code) : Analysis Unit := do
  let isAttribute := match callee with
    | .attribute .. => true
    | _ => false
  if isAttribute && (← hasOutsideOwner callee) then
    for n in ← chainNames callee do callOutside n (topName n)
  else match callee with
    | .name id =>
      if builtinNames.contains id then callOutside (joinNames builtinModule id) builtinModule
    | _ => pure ()

/-- A call of one known definition. -/
def callKnown (n : String) : Analysis Unit := do
  match ← kind? n with
  | none => pure ()
  | some .external => callOutside n (topName n)
  | some .function => addCall n
  | some .classType => for m in ← methodNames n initMethod do addCall m
  | some _ => pure ()

/-- Going through a value calls its iterator. -/
def iterate (m : Meaning) : Analysis Unit := do
  match m.definition? with
  | none => pure ()
  | some n =>
    for v in ← closureOf n do
      for method in [joinNames v iterMethod, joinNames v nextMethod] do
        if (← def? method).isSome then addCall method

/-- Throwing a class makes an object of it. -/
def throwOne (m : Meaning) : Analysis Unit := do
  match m.definition? with
  | none => pure ()
  | some n =>
    for v in ← closureOf n do
      match (← get! (← def? v)).kind with
      | .classType => for i in ← methodNames v initMethod do addCall i
      | .external => addCall v
      | _ => pure ()

/-- Applying a decorator calls it. -/
def applyDecorator (m : Meaning) : Analysis Unit := do
  match m.definition? with
  | none => pure ()
  | some n => for v in ← closureOf n do addCall v

mutual

def visit : Code → Analysis Unit
  | .constant _ => pure ()
  | .name _ => pure ()
  | .attribute value _ => visit value
  | .subscript _ value slice => do visit value; visit slice
  | .call callee args keywords => do
    visitAll args
    visitKeywords keywords
    visit callee
    let names ← calledNames callee
    if names.isEmpty then callUnknown callee
    else
      modify fun s => { s with place := { s.place with lastCalled := names } }
      for n in names do callKnown n
  | .lambda _ _ _ _ _ body => do
    let around ← here
    let name ← countLambda
    let own := joinNames around name
    addNode own (← get).place.module
    setScopes (Scopes.create · own (some around))
    within name true (visit body)
  | .tuple es => visitAll es
  | .list es => do
    let name ← countList
    let own := joinNames (← here) name
    if (← scope? own).isSome then
      resetCounters own
      within name false (visitAll es)
  | .dict entries => do
    let name ← countDict
    let own := joinNames (← here) name
    if (← scope? own).isSome then
      resetCounters own
      within name false (visitEntries entries)
  | .binary left right => do visit left; visit right
  | .function _ _ id _ _ _ _ _ _ _ decorators body => do
    visitDecorators decorators
    addNode (joinNames (← here) id) (← get).place.module
    within id true do
      if (← scope? (← here)).isSome then
        resetCounters (← here)
        visitAll body
  | .classDef _ id _ _ _ body => do
    within id true do
      resetCounters (← here)
      visitAll body
  | .giveBack value => visitOption value
  | .yieldOut value => visitOption value
  | .assign targets value => do visitAll targets; visit value
  | .forLoop target iter body _ => do
    visit iter
    visit target
    for m in ← decode iter do iterate m
    visitAll body
  | .throw exception _ => visitThrown exception
  | .imports _ => pure ()
  | .importsFrom .. => pure ()
  | .other parts => visitAll parts

def visitAll : List Code → Analysis Unit
  | [] => pure ()
  | c :: cs => do visit c; visitAll cs

def visitOption : Option Code → Analysis Unit
  | none => pure ()
  | some c => visit c

def visitThrown : Option Code → Analysis Unit
  | none => pure ()
  | some c => do
    visit c
    for m in ← decode c do throwOne m

def visitDecorators : List Code → Analysis Unit
  | [] => pure ()
  | d :: ds => do
    visit d
    for m in ← decode d do applyDecorator m
    visitDecorators ds

def visitKeywords : List (Option String × Code) → Analysis Unit
  | [] => pure ()
  | (_, a) :: rest => do
    visit a
    visitKeywords rest

def visitEntries : List (Option Code × Code) → Analysis Unit
  | [] => pure ()
  | (k, v) :: rest => do
    visitOption k
    visit v
    visitEntries rest

end

/-- The functions that can be named at a place, as what they finally stand for. -/
def reachable (scopes : Scopes) (defs : Definitions) (closure : Definitions.Closure) (n : String) :
    Except Fault (List String) := do
  let (found, _) ← (Scopes.chain scopes n).foldlM (fun (found, seen) s =>
    s.defs.entries.foldlM (fun (found, seen) (name, d) =>
      if (defs.get? d).any (·.kind = .function) && !List.contains seen name then
        match closure.get? d with
        | none => .error .wrongType
        | some targets => .ok (unionNames found targets, name :: seen)
      else .ok (found, seen)) (found, seen)) ([], [])
  pure found

end CrossCall.Calls.Link

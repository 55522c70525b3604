import CrossCall.Parse.Cursor
import CrossCall.Parse.Source
import CrossCall.Store.Files
import CrossCall.Text.Lines
/-!
The parts of extension modules in a source file: method tables, module definitions, init functions
and the functions with the signature of the interface.
-/
namespace CrossCall.Registration

inductive Role where
  | methodTable
  | moduleDefinition
  | initFunction
  | interfaceFunction
deriving Repr, DecidableEq

def Role.tag : Role → String
  | methodTable => "PyMethodDef"
  | moduleDefinition => "PyModuleDef"
  | initFunction => "PyInit_Function"
  | interfaceFunction => "Python_C_Function"

/-- A declaration or function of a source file. A declaration may have no name. -/
structure Component where
  role : Role
  name : Option String
  code : String
  file : String := ""
  startLine : Nat := 0
  endLine : Nat := 0
  startByte : Nat := 0
  endByte : Nat := 0
deriving Repr, DecidableEq

/-- The parts found in one file, or in several. -/
structure Extraction where
  methodTables : List Component := []
  moduleDefinitions : List Component := []
  initFunctions : List Component := []
  interfaceFunctions : List Component := []
deriving Repr, DecidableEq

namespace Extraction

def append (a b : Extraction) : Extraction where
  methodTables := a.methodTables ++ b.methodTables
  moduleDefinitions := a.moduleDefinitions ++ b.moduleDefinitions
  initFunctions := a.initFunctions ++ b.initFunctions
  interfaceFunctions := a.interfaceFunctions ++ b.interfaceFunctions

instance : Append Extraction := ⟨append⟩

/-- All parts: tables, definitions, init functions and other functions. -/
def all (e : Extraction) : List Component :=
  e.methodTables ++ e.moduleDefinitions ++ e.initFunctions ++ e.interfaceFunctions

end Extraction

/-- The characters of a text from one number to another. The numbers are the byte offsets of a
node. -/
def excerpt (src : Source) (t : Tree) : String :=
  String.ofList ((src.text.toList.take t.stop).drop t.start)

def ofKind (kind : String) (t : Tree) : Bool := t.kind == kind

/-- The first identifier among the children. -/
def identifierIn? (src : Source) (t : Tree) : Option String :=
  (t.children.find? (ofKind "identifier")).map (excerpt src)

/-- The name that a declaration declares: a plain identifier, or one in an initialised declarator,
where it may be an array. -/
def variableName? (src : Source) (t : Tree) : Option String :=
  t.children.findSome? fun c =>
    if c.kind = "init_declarator" then
      c.children.findSome? fun d =>
        if d.kind = "array_declarator" then identifierIn? src d
        else if d.kind = "identifier" then some (excerpt src d)
        else none
    else if c.kind = "identifier" then some (excerpt src c)
    else none

/-- The name of a function, which may return a pointer. -/
def functionName? (src : Source) (t : Tree) : Option String :=
  t.children.findSome? fun c =>
    if c.kind = "function_declarator" then identifierIn? src c
    else if c.kind = "pointer_declarator" then
      c.children.findSome? fun d => if d.kind = "function_declarator" then identifierIn? src d
        else none
    else none

/-- The number of times a text occurs, none of them overlapping. -/
def countFrom (sub : List Char) : Nat → List Char → Nat
  | _, [] => 0
  | k + 1, _ :: cs => countFrom sub k cs
  | 0, c :: cs =>
    if sub.isPrefixOf (c :: cs) then countFrom sub (sub.length - 1) cs + 1 else countFrom sub 0 cs

def count (s sub : String) : Nat := countFrom sub.toList 0 s.toList

/-- Does a parameter list of the declarator name the object type twice? -/
def takesTwoObjects (src : Source) (declarator : Tree) : Bool :=
  declarator.children.any fun c =>
    c.kind == "parameter_list" && count (excerpt src c) "PyObject" ≥ 2

/-- The first declarator that decides about a function, directly below it or below a pointer. -/
def decidingDeclarator? (t : Tree) : Option Tree :=
  t.children.findSome? fun c =>
    if c.kind = "pointer_declarator" then c.children.find? (ofKind "function_declarator")
    else if c.kind = "function_declarator" then some c
    else none

/-- Does a function return and take objects of the interface? -/
def hasInterfaceSignature (src : Source) (t : Tree) : Bool :=
  Text.hasText (Text.takeChars (excerpt src t) 200) "PyObject" &&
    (decidingDeclarator? t).any (takesTwoObjects src)

def component (src : Source) (file : String) (role : Role) (name : Option String) (t : Tree) :
    Component where
  role := role
  name := name
  code := excerpt src t
  file := file
  startLine := (src.point t.start).row + 1
  endLine := (src.point t.stop).row + 1
  startByte := t.start
  endByte := t.stop

/-- Declarations whose text mentions a type. -/
def declarationsOf (src : Source) (file : String) (role : Role) (nodes : List Tree) :
    List Component :=
  nodes.filterMap fun t =>
    if t.kind = "declaration" ∧ Text.hasText (excerpt src t) role.tag then
      some (component src file role (variableName? src t) t)
    else none

/-- Named functions that pass a test. -/
def functionsOf (src : Source) (file : String) (role : Role) (test : String → Tree → Bool)
    (nodes : List Tree) :
    List Component :=
  nodes.filterMap fun t =>
    if t.kind = "function_definition" then
      match functionName? src t with
      | none => none
      | some name =>
        if !name.isEmpty && test name t then some (component src file role (some name) t) else none
    else none

/-- Init functions are known by their name or by the mark of their return type. -/
def isInit (src : Source) (name : String) (t : Tree) : Bool :=
  Text.hasStart name "PyInit_" || Text.hasText (excerpt src t) "PyMODINIT_FUNC"

/-- All parts in a parsed text. -/
def extract (src : Source) (file : String) (root : Tree) : Extraction :=
  let nodes := root.walk
  { methodTables := declarationsOf src file .methodTable nodes
    moduleDefinitions := declarationsOf src file .moduleDefinition nodes
    initFunctions := functionsOf src file .initFunction (isInit src) nodes
    interfaceFunctions :=
      functionsOf src file .interfaceFunction (fun _ => hasInterfaceSignature src) nodes }

end CrossCall.Registration

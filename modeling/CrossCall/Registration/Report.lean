import CrossCall.Registration.Chain
import CrossCall.Text.Blank
import CrossCall.Text.Json
/-!
Registrations as JSON, as text with one headed block per chain, and as plain code.
-/
namespace CrossCall.Registration

namespace Component

def toJson (c : Component) : Json := .obj [
  ("type", .str c.role.tag),
  ("name", c.name.elim .null .str),
  ("code", .str c.code),
  ("file_path", .str c.file),
  ("start_line", .int c.startLine),
  ("end_line", .int c.endLine),
  ("start_byte", .int c.startByte),
  ("end_byte", .int c.endByte)]

end Component

def optionJson (c : Option Component) : Json := c.elim .null Component.toJson

namespace Chain

def toJson (c : Chain) : Json := .obj [
  ("init_function", c.initFunction.name.elim .null .str),
  ("init_function_info", c.initFunction.toJson),
  ("method_def_info", optionJson c.methodTable),
  ("module_def_info", optionJson c.moduleDefinition),
  ("c_functions", .arr (c.functions.map Component.toJson))]

/-- The names in a chain. The functions keep their order or are sorted. -/
def outline (c : Chain) (sorted : Bool) : Json :=
  let nameOf (c : Option Component) : Json := Json.ofOption .str (c.bind (·.name))
  let functions := c.functions.map fun f => f.name.getD ""
  .obj [
    ("init", nameOf c.initFunction), ("module_def", Json.ofOption .str c.moduleName),
    ("module_def_info", nameOf c.moduleDefinition), ("method_def", Json.ofOption .str c.tableName),
    ("method_def_info", nameOf c.methodTable),
    ("c_functions", Json.ofTexts (if sorted then sortNames functions else functions))]

/-- The codes of a chain from the init function down to the functions. -/
def codes (c : Chain) : List String :=
  c.initFunction.code ::
    (c.moduleDefinition.toList ++ c.methodTable.toList ++ c.functions).map (·.code)

end Chain

namespace Registrations

/-- All parts and chains. -/
def toJson (r : Registrations) : Json :=
  let list (cs : List Component) : Json := .arr (cs.map Component.toJson)
  .obj [
    ("py_method_defs", list r.parts.methodTables),
    ("py_module_defs", list r.parts.moduleDefinitions),
    ("py_init_funcs", list r.parts.initFunctions),
    ("py_c_functions", list r.parts.interfaceFunctions), ("all_registrations", list r.parts.all),
    ("module_chains", .arr (r.chains.map Chain.toJson))]

end Registrations

namespace Extraction

def componentsOf? (role : Role) (j : Json) : Option (List Component) := do
  (← j.arr?).mapM fun x => do
    let code ← (← x.get? "code").str?
    let name ← x.get? "name"
    pure { role := role, name := name.str?, code := code }

/-- Reads the parts that one file gave. -/
def ofJson? (j : Json) : Option Extraction := do
  pure {
    methodTables := ← componentsOf? .methodTable (← j.get? "py_method_defs")
    moduleDefinitions := ← componentsOf? .moduleDefinition (← j.get? "py_module_defs")
    initFunctions := ← componentsOf? .initFunction (← j.get? "py_init_funcs")
    interfaceFunctions := ← componentsOf? .interfaceFunction (← j.get? "py_c_functions") }

end Extraction

/-- The chains as JSON. -/
def jsonReport (r : Registrations) : String :=
  Json.render (.obj [("module_chains", .arr (r.chains.map Chain.toJson))])

def ruler : String := String.ofList (List.replicate 80 '=')

/-- A headline between rulers, with empty lines around. -/
def headline (title : String) : List String := ["", ruler, title, ruler, ""]

/-- The lines of one chain: a headline with its number, and every code followed by an empty line. -/
def chainLines (n : Nat) (c : Chain) : List String :=
  headline ("C中的python注册模块 #" ++ toString n) ++ c.codes.flatMap fun code => [code, ""]

/-- The chains as text. -/
def textReport (r : Registrations) : String :=
  String.intercalate "\n" ((r.chains.zipIdx 1).flatMap fun (c, n) => chainLines n c)

/-- Code followed by an empty line. -/
def spaced (cs : List Component) : List String := cs.flatMap fun c => [c.code, ""]

/-- The code of all chains, or of all parts if there is no chain. Several chains are numbered. -/
def codeReport (r : Registrations) : String :=
  let several := r.chains.length > 1
  let lines :=
    if r.chains.isEmpty then spaced r.parts.all
    else (r.chains.zipIdx 1).flatMap fun (c, n) =>
      (if several then ["# Module " ++ toString n ++ ": " ++ c.initFunction.name.getD "None", ""]
        else []) ++
      spaced (c.methodTable.toList ++ c.moduleDefinition.toList ++ [c.initFunction] ++ c.functions)
  Text.trim (String.intercalate "\n" lines)

end CrossCall.Registration

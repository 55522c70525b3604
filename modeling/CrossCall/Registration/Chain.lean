import CrossCall.Registration.Component
import CrossCall.Registration.Pattern
import CrossCall.Store.Files
/-!
Registration chains: from an init function to the module definition it creates a module from, to the
method table that the definition names last, to the functions that the table lists. There are two
ways to follow the links. `link` looks names up in tables in which the last part of a name stays;
`linkFirst` takes the first part of a name and all functions of a name.
-/
namespace CrossCall.Registration

structure Chain where
  initFunction : Component
  /-- The name of the definition, where the linking keeps it. -/
  moduleName : Option String := none
  moduleDefinition : Option Component := none
  /-- The name of the method table, where the linking keeps it. -/
  tableName : Option String := none
  methodTable : Option Component := none
  functions : List Component := []
deriving Repr, DecidableEq

/-- Parts by name; the last one of a name stays. -/
def byName (cs : List Component) : Table (Option String) Component :=
  Table.ofList (cs.map fun c => (c.name, c))

/-- The chain of an init function through tables of names. -/
def link (e : Extraction) (init : Component) : Chain :=
  let base : Chain := { initFunction := init }
  match (createdModule? init.code).bind fun n => (byName e.moduleDefinitions).get? (some n) with
  | none => base
  | some definition =>
    let base := { base with moduleDefinition := some definition }
    match (methodTableName? definition.code).bind fun n =>
      (byName e.methodTables).get? (some n) with
    | none => base
    | some table => {
        base with
        methodTable := some table
        functions := (listedFunctions table.code).filterMap fun f =>
          (byName e.interfaceFunctions).get? (some f) }

/-- Parts together with the chains that their init functions start. -/
structure Registrations where
  parts : Extraction := {}
  chains : List Chain := []
deriving Repr, DecidableEq

/-- Joins the parts of several files and links them. -/
def merge (es : List Extraction) : Registrations :=
  let parts := es.foldl (· ++ ·) {}
  { parts, chains := parts.initFunctions.map (link parts) }

/-- The names that method tables list, each once. -/
def registeredNames (tables : List Component) : List String :=
  tables.foldl (fun s t => unionNames s (listedFunctions t.code)) []

def firstNamed? (cs : List Component) (name : String) : Option Component :=
  cs.find? fun c => c.name == some name

/-- The chain of an init function through first matches. -/
def linkFirst (e : Extraction) (init : Component) : Chain :=
  let base : Chain := { initFunction := init, moduleName := createdModule? init.code }
  match base.moduleName.bind (firstNamed? e.moduleDefinitions) with
  | none => base
  | some definition =>
    let base := { base with
      moduleDefinition := some definition
      tableName := methodTableName? definition.code }
    match base.tableName.bind (firstNamed? e.methodTables) with
    | none => base
    | some table => {
        base with
        methodTable := some table
        functions := (registeredNames [table]).flatMap fun f =>
          e.interfaceFunctions.filter fun c => c.name == some f }

def linkAllFirst (e : Extraction) : List Chain := e.initFunctions.map (linkFirst e)

/-- Why files cannot be searched for registrations. -/
inductive Fault where
  | file (cause : FileFault)
  | unparsed
deriving Repr, DecidableEq

/-- Reads and parses one file. -/
def extractFile (fs : Files) (parse : Parser) (path : String) : Except Fault Extraction := do
  let text ← (fs.read .drop path).mapError .file
  match parse text with
  | none => throw .unparsed
  | some p => pure (extract ⟨text⟩ path p.root)

/-- The registrations of several files. -/
def ofFiles (fs : Files) (parse : Parser) (paths : List String) : Except Fault Registrations := do
  pure (merge (← paths.mapM (extractFile fs parse)))

end CrossCall.Registration

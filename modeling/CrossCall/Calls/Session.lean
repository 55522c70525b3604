import CrossCall.Calls.Catalogue
import CrossCall.Calls.Definition
import CrossCall.Calls.Graph
import CrossCall.Calls.Import
import CrossCall.Calls.Lineage
import CrossCall.Calls.Program
/-!
What an analysis knows at some moment, the place in the program where it stands, and the reasons for
which it may stop.
-/
namespace CrossCall.Calls

/-- Why an analysis stopped. -/
inductive Fault where
  | file (fault : FileFault)
  /-- An entry point without a path. -/
  | noPath
  | unparsed (fault : ParseFault)
  /-- A scope or definition that should be there is not. -/
  | missingPart
  /-- A default without a parameter. -/
  | outOfRange
  /-- A value without parts was taken apart. -/
  | wrongType
  | definition (fault : DefinitionFault)
  | imports (fault : ImportFault)
  | invalidOperation (name : String)
  | unnamedModule (name module : String)
  | missingKey
deriving Repr, DecidableEq

/-- A look-up of a key that a dictionary does not have. -/
structure MissingKey where
  file : String
  line : Int
  owner : String
  key : String
deriving Repr, DecidableEq

/-- Where the analysis stands: the module, the names of the constructs around, those of them that
can be called, what every name finally stands for, and what the last call reached. -/
structure Place where
  module : String := ""
  file : String := ""
  names : List String := []
  callers : List String := []
  closure : Definitions.Closure := {}
  lastCalled : List String := []
  /-- Is there a catalogue to add modules to? -/
  hasCatalogue : Bool := true

structure Session where
  imports : Imports := {}
  scopes : Scopes := {}
  defs : Definitions := {}
  classes : Classes := {}
  catalogue : PlainCatalogue := .empty
  graph : Graph := {}
  missingKeys : List MissingKey := []
  /-- The modules that the current pass has entered. -/
  analyzed : List String := []
  place : Place := {}

/-- The files and the programs in them. -/
structure World where
  files : Files := {}
  /-- The program in a file, by its absolute path. -/
  program : String → Option Program := fun _ => none

abbrev Analysis := StateT Session (Except Fault)

namespace Analysis

def stop {α : Type} (e : Fault) : Analysis α := throw e

def get! {α : Type} (x : Option α) : Analysis α := x.elim (throw .missingPart) pure

/-- The dotted name of the place. -/
def here : Analysis String := do return ofPieces (← get).place.names

/-- The innermost construct around that can be called. -/
def caller : Analysis String := do return ofPieces (← get).place.callers

/-- Runs something inside a construct. -/
def within {α : Type} (name : String) (isCaller : Bool) (act : Analysis α) : Analysis α := do
  let before := (← get).place
  modify fun s => { s with place := { s.place with
    names := before.names ++ [name]
    callers := if isCaller then before.callers ++ [name] else before.callers } }
  let x ← act
  modify fun s =>
    { s with place := { s.place with names := before.names, callers := before.callers } }
  pure x

/-! ### Scopes -/

def scope? (n : String) : Analysis (Option Scope) := do return (← get).scopes.get? n

/-- The scope of the place, which must be there. -/
def scopeHere : Analysis Scope := do get! (← scope? (← here))

def setScopes (f : Scopes → Scopes) : Analysis Unit :=
  modify fun s => { s with scopes := f s.scopes }

def resetCounters (n : String) : Analysis Unit :=
  setScopes (Scopes.update · n fun s => { s with counters := {} })

/-- Numbers one more unnamed thing in the scope of the place. -/
def count (bump : Counters → Counters) (name : Counters → String) : Analysis String := do
  let s ← scopeHere
  let c := bump s.counters
  setScopes (·.insert (← here) { s with counters := c })
  pure (name c)

def countLambda : Analysis String :=
  count (fun c => { c with lambdas := c.lambdas + 1 }) fun c => lambdaName c.lambdas

def countDict : Analysis String :=
  count (fun c => { c with dicts := c.dicts + 1 }) fun c => dictName c.dicts

def countList : Analysis String :=
  count (fun c => { c with lists := c.lists + 1 }) fun c => listName c.lists

/-- The definition of a name, seen from the place. -/
def lookup (name : String) : Analysis (Option String) :=
  do return Scopes.lookup (← get).scopes (← here) name

/-! ### Definitions -/

def def? (n : String) : Analysis (Option Definition) := do return (← get).defs.get? n

def kind? (n : String) : Analysis (Option DefinitionKind) := do return (← def? n).map (·.kind)

def setDefs (f : Definitions → Definitions) : Analysis Unit :=
  modify fun s => { s with defs := f s.defs }

def updateDef (n : String) (f : Definition → Definition) : Analysis Unit :=
  setDefs (Definitions.update · n f)

/-- Defines a name unless it has a definition. -/
def ensureDef (n : String) (kind : DefinitionKind) : Analysis Unit := do
  match ← def? n with
  | some _ => pure ()
  | none =>
    match Definitions.create (← get).defs n kind with
    | .ok ds => setDefs fun _ => ds
    | .error e => stop (.definition e)

/-- Notes something from outside in the catalogue. -/
def addExternal (n : String) : Analysis Unit := do
  if (← get).place.hasCatalogue then modify fun s =>
    { s with catalogue := s.catalogue.addExternal n }
  else stop .missingPart

/-- What a name finally stands for, if it was known when the pass entered the module. -/
def closureOf? (n : String) : Analysis (Option (List String)) :=
  do return (← get).place.closure.get? n

def closureOf (n : String) : Analysis (List String) := do return (← closureOf? n).getD []

def addCall (callee : String) : Analysis Unit := do
  let from_ ← caller
  modify fun s => { s with graph := s.graph.addCall from_ callee }

def addNode (name module : String) : Analysis Unit :=
  modify fun s => { s with graph := s.graph.addNode name module }

end Analysis

end CrossCall.Calls

import CrossCall.Calls.Meaning
import CrossCall.Text.Lines
/-!
The first pass: it opens the scopes of a module, defines its functions, parameters, classes and
variables, and follows its imports.
-/
namespace CrossCall.Calls.Collect

open Analysis

/-! ### Imports -/

/-- Brings a definition of another module into the current scope under a name. -/
def bring (scopeName : String) (scope : Scope) (name source : String) : Analysis Unit := do
  unless scope.defs.contains name do
    let own := joinNames scopeName name
    match ← def? own, ← def? source with
    | none, some d => setDefs (Definitions.assign · own source d)
    | _, _ => pure ()
    updateDef own (·.addName source)
    setScopes (Scopes.addDef · scopeName name own)
  let after ← get! (← scope? scopeName)
  let own ← get! (after.defs.get? name)
  updateDef own (·.addName source)

/-- Brings an imported name, or all names, of a module into the current scope. -/
def bringFrom (module name target : String) : Analysis Unit := do
  let scopeName ← here
  let source ← get! (← scope? module)
  if target == "*" then
    for (n, d) in source.defs.entries do
      bring scopeName (← get! (← scope? scopeName)) n d
  else
    let full := (← def? name).map fun _ => name
    match (source.defs.get? name).or full with
    | some d => bring scopeName (← get! (← scope? scopeName)) target d
    | none => pure ()

/-- Defines an imported name from outside. A dotted name that keeps its name stands for its first
piece. -/
def bringOutside (name target : String) : Analysis Unit := do
  let (name, target) :=
    if name = target ∧ (namePieces name).length > 1 then (topName name, topName target)
    else (name, target)
  ensureDef name .external
  if target != "*" then
    let scopeName ← here
    let _ ← scopeHere
    let own := joinNames scopeName target
    ensureDef own .external
    updateDef own (·.addName name)
    setScopes (Scopes.addDef · scopeName target own)

/-- Is a file below the directory that is analysed? -/
def isInside (file : String) : Analysis Bool := do
  return (← get).imports.directory.elim false fun dir => Text.hasText file dir

/-- One imported name. `enter` analyses another module. -/
def importName (w : World) (enter : String → Analysis Unit) (module : Option String) (level : Int)
    (a : Alias) :
    Analysis Unit := do
  let source := match module.filter (!·.isEmpty) with
    | some m => joinNames m a.name
    | none => a.name
  let (im, outcome) := (← get).imports.resolve w.files source level
  modify fun s => { s with imports := im }
  match outcome with
  | .error (.graph e) => stop (.imports e)
  | .error .noDirectory => stop .wrongType
  | .ok none => bringOutside source a.target
  | .ok (some m) =>
    match (im.file? m).filter (!·.isEmpty) with
    | none => bringOutside source a.target
    | some file =>
      if ← isInside file then
        unless (← get).analyzed.contains m do enter m
        bringFrom m a.name a.target
      else bringOutside source a.target

/-- An import: its names, and then all modules that were found on the way. -/
def importNames (w : World) (enter : String → Analysis Unit) (module : Option String) (level : Int)
    (names : List Alias) : Analysis Unit := do
  for a in names do importName w enter module level a
  let s ← get
  for m in s.imports.importsOf s.place.module do
    match ((← get).imports.file? m).filter (!·.isEmpty) with
    | none => pure ()
    | some file =>
      if ← isInside file then
        unless (← get).analyzed.contains m do enter m

/-! ### Functions -/

/-- The element at an index that counts from the end if it is negative. -/
def atIndex? (xs : List String) (i : Int) : Option String :=
  if i < 0 then (if i + xs.length < 0 then none else xs[(i + xs.length).toNat]?) else xs[i.toNat]?

/-- Lets a parameter stand for its default. -/
def addDefault (param : String) (m : Meaning) : Analysis Unit := do
  match m with
  | .definition n =>
    updateDef param (·.addName n)
    match ← def? n with
    | some d => if d.kind = .function then pure () else updateDef param (·.merge d)
    | none => pure ()
  | m => updateDef param (·.addLiteral m.toLiteral)

/-- Defines a function with its parameters. The first parameter of a method that is not static
stands for the class and has no position. -/
def declare (extent : Extent) (name : String) (isStatic : Bool) (params keywordOnly : List String)
    (defaults : Table String (List Meaning)) : Analysis Unit := do
  let around ← here
  let function := joinNames around name
  setDefs (Definitions.ensureFunction · function)
  modify fun s =>
    let module := s.place.module
    { s with catalogue :=
        s.catalogue.addMember module function (some extent.first) (some extent.last) }
  let kind := (← get! (← def? around)).kind
  let params ← match params with
    | self :: rest =>
      if kind = .classType ∧ ¬ isStatic then
        let own := joinNames function self
        ensureDef own .name
        updateDef own (·.addName around)
        setScopes (Scopes.addDef · function self own)
        pure rest
      else pure params
    | [] => pure []
  for (p, i) in params.zipIdx do
    updateDef function fun d =>
      { d with names := d.names.addPositional (.index i) (some p) [joinNames function p] }
  for p in keywordOnly do
    updateDef function fun d => { d with names := d.names.addArg (some p) [joinNames function p] }
  for p in params ++ keywordOnly do
    let own := joinNames function p
    ensureDef own .name
    setScopes (Scopes.addDef · function p own)
    for m in defaults.getD p [] do addDefault own m

/-! ### The walk -/

def isStaticMark : Code → Bool
  | .name id => id == "staticmethod"
  | _ => false

section

variable (w : World) (enter : String → Analysis Unit)

mutual

def visit : Code → Analysis Unit
  | .constant _ => pure ()
  | .name _ => pure ()
  | .attribute value _ => visit value
  | .subscript _ value slice => do visit value; visit slice
  | .call callee args keywords => do
    visit callee
    match callee with
    | .name id =>
      match ← lookup id with
      | none => pure ()
      | some n =>
        let target := if (← kind? n) = some .classType then joinNames n initMethod else n
        match ← def? target with
        | none => pure ()
        | some _ =>
          passArgs target 0 args
          passKeywords target keywords
    | _ => pure ()
  | .lambda extent params keywordOnly defaults keywordDefaults body => do
    let around ← here
    let name ← countLambda
    let own := joinNames around name
    setScopes (Scopes.create · own (some around))
    let ds ← visitDefaults params (params.length - defaults.length) {} defaults
    let ds ← visitKeywordDefaults keywordOnly ds keywordDefaults
    declare extent name false params keywordOnly ds
    setScopes (Scopes.addDef · around name own)
    within name true (visit body)
  | .tuple es => visitAll es
  | .list es => do
    let name ← countList
    let own := joinNames (← here) name
    if (← scope? own).isSome then
      resetCounters own
      within name false (visitAll es)
  | .dict entries => do
    let name ← countDict
    let own := joinNames (← here) name
    if (← scope? own).isSome then
      resetCounters own
      within name false (visitEntries entries)
  | .binary left right => do visit left; visit right
  | .function extent _ id params keywordOnly defaults keywordDefaults _ _ _ decorators body => do
    let ds ← visitDefaults params (params.length - defaults.length) {} defaults
    let ds ← visitKeywordDefaults keywordOnly ds keywordDefaults
    declare extent id (decorators.any isStaticMark) params keywordOnly ds
    within id true do
      if (← scope? (← here)).isSome then
        resetCounters (← here)
        visitAll body
  | .classDef extent id _ _ _ body => do
    let own := joinNames (← here) id
    ensureDef own .classType
    modify fun s => { s with
      catalogue := s.catalogue.addMember s.place.module own (some extent.first) (some extent.last)
      classes := Classes.create s.classes own s.place.module }
    within id true do
      resetCounters (← here)
      visitAll body
  | .giveBack value => visitResult value
  | .yieldOut value => visitResult value
  | .assign targets value => do
    visit value
    assignAll (.group (← decode value)) targets
  | .forLoop target _ body _ => do
    match target with
    | .name id =>
      let around ← here
      let own := joinNames around id
      if (← def? own).isNone then
        ensureDef own .name
        let _ ← scopeHere
        setScopes (Scopes.addDef · around id own)
    | _ => pure ()
    visitAll body
  | .throw exception cause => do visitOption exception; visitOption cause
  | .imports names => importNames w enter none 0 names
  | .importsFrom module names level => importNames w enter module level names
  | .other parts => visitAll parts

def visitAll : List Code → Analysis Unit
  | [] => pure ()
  | c :: cs => do visit c; visitAll cs

def visitOption : Option Code → Analysis Unit
  | none => pure ()
  | some c => visit c

def visitResult : Option Code → Analysis Unit
  | none => pure ()
  | some c => do
    visit c
    assignResult c

def visitEntries : List (Option Code × Code) → Analysis Unit
  | [] => pure ()
  | (k, v) :: rest => do
    visitOption k
    visit v
    visitEntries rest

/-- Visits defaults and gives the parameters they belong to their values. -/
def visitDefaults (params : List String) (i : Int) (ds : Table String (List Meaning)) :
    List Code → Analysis (Table String (List Meaning))
  | [] => pure ds
  | d :: rest => do
    visit d
    let ms ← decode d
    match atIndex? params i with
    | none => stop .outOfRange
    | some p => visitDefaults params (i + 1) (ds.insert p ms) rest

def visitKeywordDefaults (params : List String) (ds : Table String (List Meaning)) :
    List (Option Code) → Analysis (Table String (List Meaning))
  | [] => pure ds
  | none :: rest => visitKeywordDefaults params.tail ds rest
  | some d :: rest => do
    visit d
    let ms ← decode d
    visitKeywordDefaults params.tail ((params.head?).elim ds fun p => ds.insert p ms) rest

/-- Visits arguments and lets them reach what is called. -/
def passArgs (callee : String) (pos : Int) : List Code → Analysis Unit
  | [] => pure ()
  | a :: rest => do
    visit a
    passPositional callee pos (← decode a)
    passArgs callee (pos + 1) rest

def passKeywords (callee : String) : List (Option String × Code) → Analysis Unit
  | [] => pure ()
  | (name, a) :: rest => do
    visit a
    passKeyword callee name (← decode a)
    passKeywords callee rest

def assignAll (m : Meaning) : List Code → Analysis Unit
  | [] => pure ()
  | t :: ts => do
    assignOne m t
    assignAll m ts

/-- Visits a target and assigns to it. The parts of a tuple are visited once with the tuple and once
more each. -/
def assignOne (m : Meaning) : Code → Analysis Unit
  | .tuple es => do
    visitAll es
    assignParts m 0 es
  | .list es => do
    let name ← countList
    let own := joinNames (← here) name
    if (← scope? own).isSome then
      resetCounters own
      within name false (visitAll es)
  | .attribute value attr => do
    visit value
    assignTarget (.attribute value attr) m
  | .subscript line value slice => do
    visit value
    visit slice
    assignTarget (.subscript line value slice) m
  | .other parts => visitAll parts
  | target => assignTarget target m

def assignParts (m : Meaning) (i : Nat) : List Code → Analysis Unit
  | [] => pure ()
  | t :: ts => do
    match (← tupleParts m)[i]? with
    | some part => assignOne part t
    | none => pure ()
    assignParts m (i + 1) ts

end

end

/-! ### Modules -/

/-- Defines the functions or classes of a module in the scopes around them. -/
def defineAll (kind : DefinitionKind) (names : List String) : Analysis Unit := do
  for n in names do
    ensureDef n kind
    let _ ← get! (← scope? (parentName n))
    setScopes (Scopes.addDef · (parentName n) (ownName n) n)

/-- Opens a module: its entry in the catalogue, its scopes, its functions and classes. -/
def openModule (text : String) (blocks : Except ParseFault Block) : Analysis Unit := do
  let place := (← get).place
  let lines : Int := (Text.lines text).length
  let catalogue := (← get).catalogue.create place.module place.file
  let first : Int := if lines = 0 then 0 else 1
  modify fun s => { s with
    catalogue := catalogue.addMember place.module place.module (some first) (some lines) }
  if (← scope? place.module).isNone then
    match blocks with
    | .error e => stop (.unparsed e)
    | .ok top =>
      let (ss, out) := Scopes.openModule (← get).scopes place.module top
      setScopes fun _ => ss
      ensureDef place.module .module
      setScopes (Scopes.addDef · place.module (ownName place.module) place.module)
      defineAll .function out.functions
      defineAll .classType out.classes
  ensureDef place.module .module

end CrossCall.Calls.Collect

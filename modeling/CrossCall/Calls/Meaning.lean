import CrossCall.Calls.Session
/-!
What an expression may denote: definitions, literals, and groups of these. Reading an attribute of
something from outside defines that attribute.
-/
namespace CrossCall.Calls

inductive Meaning where
  | definition (name : String)
  | unknown
  | int (n : Int)
  | text (s : String)
  /-- A number that is not whole, as it is written. -/
  | number (text : String)
  | group (parts : List Meaning)
deriving Repr

namespace Meaning

def definition? : Meaning → Option String
  | definition n => some n
  | _ => none

def toLiteral : Meaning → Literal
  | int n => .int n
  | text s => .text s
  | _ => .unknown

def sort : Meaning → LiteralSort
  | int _ => .int
  | text _ => .text
  | _ => .unknown

/-- The parts of a value that can be gone through: a text goes character by character. -/
def parts? : Meaning → Option (List Meaning)
  | group ms => some ms
  | text s => some (s.toList.map fun c => text (String.singleton c))
  | _ => none

/-- Lets a definition stand for a value as well. -/
def addTo (m : Meaning) (d : Definition) : Definition :=
  match m with
  | definition n => d.addName n
  | m => d.addLiteral m.toLiteral

end Meaning

def Definition.addMeanings (d : Definition) (ms : List Meaning) : Definition :=
  ms.foldl (fun d m => m.addTo d) d

namespace Analysis

/-- A name as a value. -/
def meaningOf (name : String) : Analysis Meaning := do
  match ← lookup name with
  | some n => pure (.definition n)
  | none => pure .unknown

/-- Those of the names that have definitions. -/
def defined (names : List String) : Analysis (List Meaning) := do
  let ds := (← get).defs
  pure ((names.filter fun n => ds.contains n).map Meaning.definition)

/-- What comes out of a call of something. -/
def result (m : Meaning) : Analysis (Option Meaning) := do
  match m.definition? with
  | none => pure none
  | some n =>
    let target := match ← kind? n with
      | some .function => some (joinNames n returnName)
      | some .classType => some n
      | some .external => some n
      | _ => none
    match target with
    | none => pure none
    | some t =>
      match ← def? t with
      | some _ => pure (some (.definition t))
      | none => pure none

/-- The methods of one name that a class has itself or from its parents. Of parents from outside it
is assumed, if no one else has it. -/
def methodNames (cls name : String) : Analysis (List String) := do
  match (← get).classes.get? cls with
  | none => pure []
  | some c => search c.order []
where
  search : List String → List String → Analysis (List String)
    | [], outside => do
      for n in outside do
        match Definitions.create (← get).defs n .external with
        | .ok ds => setDefs fun _ => ds
        | .error e => stop (.definition e)
        addExternal n
      pure outside
    | c :: rest, outside => do
      let n := joinNames c name
      match ← def? n with
      | some _ => pure (((← closureOf? n).filter (!·.isEmpty)).getD [n])
      | none =>
        match ← kind? c with
        | some .external => search rest (insertName outside n)
        | _ => search rest outside

/-- The definitions that the owner of an attribute may be. -/
def ownerNames (owners : List Meaning) : Analysis (List String) := do
  owners.foldlM (fun names m =>
    match m.definition? with
    | none => pure names
    | some n => do return unionNames names (((← closureOf? n).filter (!·.isEmpty)).getD [n])) []

/-- The names that an attribute may have, by what its owner may be. -/
def attributeOf (attr : String) (owners : List String) : Analysis (List String) := do
  let all ← owners.foldlM (fun names owner => do return names ++ (← closureOf owner)) []
  all.foldlM (fun names n => do
    match ← kind? n with
    | some .classType => return unionNames names (← methodNames n attr)
    | some .function => return insertName names (joinNames n attr)
    | some .module => return insertName names (joinNames n attr)
    | some .external =>
      if Text.hasText n attr then return names
      let full := joinNames n attr
      ensureDef full .external
      return insertName names full
    | _ => return names) []

/-- The names of an attribute of what an action finds. -/
def attributeVia (attr : String) (owner : Analysis (List Meaning)) : Analysis (List String) := do
  if (← get).place.closure.isEmpty then return []
  attributeOf attr (← ownerNames (← owner))

/-- A literal index, written out. -/
def literalIndex? : Code → Option (List Meaning)
  | .constant (.int n) => if n = 0 then none else some [.int n]
  | .constant (.text s) => if s.isEmpty then none else some [.text s]
  | .constant (.bool b) => if b then some [.text (numbered "int" "True")] else none
  | _ => none

/-- A key as it is written in a name. -/
def literalKey : Literal → String
  | .int n => intName n
  | .bool b => numbered "int" (if b then "True" else "False")
  | .text s => s

/-- The keys that an index may be. -/
def keysOf (index : List Meaning) : Analysis (List String) := do
  index.foldlM (fun keys m => do
    match m with
    | .definition n =>
      let names ← closureOf n
      names.foldlM (fun keys n => do
        return unionNames keys (((← def? n).elim [] (·.literals)).map literalKey)) keys
    | .text s => return insertName keys s
    | .int n => return insertName keys (intName n)
    | _ => return keys) []

/-- The names of the entries that an index may select. -/
def entryVia (slice : Code) (index value : Analysis (List Meaning)) : Analysis (List String) := do
  if (← get).place.closure.isEmpty then return []
  let index ← (literalIndex? slice).elim index pure
  let owners ← (← value).foldlM (fun names m =>
    match m.definition? with
    | some n => do return unionNames names (← closureOf n)
    | none => pure names) []
  let keys ← keysOf index
  pure (unionNames [] (owners.flatMap fun o => keys.map (joinNames o)))

mutual

/-- The values that an expression may have. -/
def decode : Code → Analysis (List Meaning)
  | .name id => do return [← meaningOf id]
  | .call callee _ _ => do (← decode callee).filterMapM result
  | .lambda .. => do return [← meaningOf (lambdaName (← scopeHere).counters.lambdas)]
  | .dict _ => do return [← meaningOf (dictName (← scopeHere).counters.dicts)]
  | .list _ => do return [← meaningOf (listName (← scopeHere).counters.lists)]
  | .tuple es => decodeEach es
  | .binary left right => do
    let ms ← decode left
    let _ ← decode right
    pure ms
  | .attribute value attr => do defined (← attributeVia attr (decode value))
  | .subscript _ value slice => do defined (← entryVia slice (decode slice) (decode value))
  | .constant (.int n) => pure [.int n]
  | .constant (.text s) => pure [.text s]
  | .constant (.number t) => pure [.number t]
  | _ => pure []

/-- The values of several expressions, one group each. -/
def decodeEach : List Code → Analysis (List Meaning)
  | [] => pure []
  | e :: es => do
    let ms ← decode e
    return .group ms :: (← decodeEach es)

end

def attributeNames (value : Code) (attr : String) : Analysis (List String) :=
  attributeVia attr (decode value)

def entryNames (value slice : Code) : Analysis (List String) :=
  entryVia slice (decode slice) (decode value)

/-- The classes, with their parents, that the owner of an attribute may be. -/
def classNames (value : Code) : Analysis (List String) := do
  if (← get).place.closure.isEmpty then return []
  (← decode value).foldlM (fun names m =>
    match m.definition? with
    | none => pure names
    | some n => do
      let classes := (← get).classes
      return unionNames names ((← closureOf n).flatMap fun c =>
        (classes.get? c).elim [] (·.order))) []

/-- What a call reaches. A call of a call goes on from what the last one reached. -/
def calledNames (callee : Code) : Analysis (List String) := do
  match callee with
  | .name id =>
    match ← lookup id with
    | some n => closureOf n
    | none => pure []
  | .call .. =>
    (← get).place.lastCalled.foldlM (fun names n => do
      (← closureOf (joinNames n returnName)).foldlM (fun names r => do
        let _ ← get! (← def? r)
        return insertName names r) names) []
  | .attribute value attr => attributeNames value attr
  | .subscript _ value slice =>
    (← entryNames value slice).foldlM (fun names n => do return unionNames names (← closureOf n)) []
  | _ => pure []

/-! ### Values that flow -/

/-- Defines a name, if it is new, and lets it stand for the parts of a value. -/
def assignName (n : String) (m : Meaning) : Analysis Unit := do
  ensureDef n .name
  updateDef n (·.addMeanings (m.parts?.getD []))

/-- What a function gives back. -/
def assignResult (value : Code) : Analysis Unit := do
  assignName (joinNames (← here) returnName) (.group (← decode value))

/-- The names that an assignment to a target gives a value. -/
def targetNames : Code → Analysis (List String)
  | .name id => do return [joinNames (← here) id]
  | .attribute value attr => do return (← classNames value).map (joinNames · attr)
  | .subscript _ value slice => entryNames value slice
  | _ => pure []

/-- An assignment to a target that is no tuple. -/
def assignTarget (target : Code) (m : Meaning) : Analysis Unit := do
  for n in ← targetNames target do
    assignName n m
    setScopes (Scopes.addDef · (parentName n) (ownName n) n)

/-- The values that the parts of a tuple get. Of a definition the parts are not known. -/
def tupleParts (m : Meaning) : Analysis (List Meaning) :=
  match m, m.parts? with
  | .definition _, _ => pure []
  | _, some ms => pure ms
  | _, none => stop .wrongType

/-- Lets a value reach an argument of something that is called. -/
def passTo (callee : String) (reaching : Pointer → Option (List String))
    (add : Pointer → Meaning → Pointer) (values : List Meaning) : Analysis Unit := do
  match ← def? callee with
  | none => pure ()
  | some d =>
    if d.kind = .function then
      for n in (reaching d.names).getD [] do updateDef n (·.addMeanings values)
    else updateDef callee fun d => { d with names := values.foldl add d.names }

def passPositional (callee : String) (pos : Int) (values : List Meaning) : Analysis Unit :=
  passTo callee (·.positional? (.index pos)) (fun p m => match m with
    | .definition n => p.addPositional (.index pos) none [n]
    | m => p.addPositionalLiteral (.index pos) none m.sort) values

def passKeyword (callee : String) (name : Option String) (values : List Meaning) : Analysis Unit :=
  passTo callee (·.arg? name) (fun p m => match m with
    | .definition n => p.addArg name [n]
    | m => p.addLiteralArg name m.sort) values

end Analysis

end CrossCall.Calls

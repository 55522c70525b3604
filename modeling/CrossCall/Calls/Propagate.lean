import CrossCall.Calls.Meaning
/-!
The second pass, which is repeated until nothing changes: values flow through assignments, calls,
decorators, loops and containers, and classes get their parents.
-/
namespace CrossCall.Calls.Propagate

open Analysis

/-- What a class inherits and overrides: every name in it may be reached through each of its
parents. -/
def shareWithParents (cls : String) : Analysis Unit := do
  match (← get).classes.get? cls with
  | none => pure ()
  | some c =>
    for parent in c.order do
      if (← def? parent).isSome && (← scope? parent).isSome then
        let own ← get! (← scope? cls)
        for (key, child) in own.defs.entries do
          unless key == initMethod do
            let names ← methodNames parent key
            let n := joinNames parent key
            ensureDef n .name
            updateDef n fun d => { d with names := (d.names.addAll names).add child }

/-- Lets the variable of a loop stand for what an iterator gives, or for the value itself. -/
def passLoop (target : String) (m : Meaning) : Analysis Unit := do
  match m.definition? with
  | none => pure ()
  | some n =>
    for v in ← closureOf n do
      let next := joinNames (joinNames v nextMethod) returnName
      match ← def? next with
      | some _ => for r in ← closureOf next do updateDef target (·.addName r)
      | none => updateDef target (·.addName v)

/-- Lets what a decorator gets reach its first parameter. The answer is what the decorated name
stands for afterwards. -/
def decorate (previous : List String) (decorator : Code) : Analysis (List String) := do
  (← decode decorator).foldlM (fun names m =>
    match m.definition? with
    | none => pure names
    | some d => do
      (← closureOf d).foldlM (fun names v => do
        match ← closureOf? (joinNames v returnName) with
        | none => pure names
        | some results =>
          for p in previous do
            let first := ((← def? d).bind fun d => d.names.positional? (.index 0)).getD []
            for a in first do
              let _ ← get! (← def? a)
              updateDef a (·.addName p)
          pure (unionNames names results)) names) []

/-- Decorators apply from the innermost one outwards. -/
def decorateAll (function : String) (decorators : List Code) : Analysis Unit := do
  unless decorators.isEmpty do
    let _ ← get! (← def? function)
    let _ ← decorators.reverse.foldlM decorate (← closureOf function)

/-- The names that an entry of a dictionary gets by its key. -/
def entryKeys (m : Meaning) : Analysis (List String) := do
  match m with
  | .definition n => return ((← def? n).elim [] (·.literals)).map literalKey
  | .int n => return [intName n]
  | .text s => return [s]
  | .number t => return [t]
  | .unknown => return ["None"]
  | .group _ => return []

/-- Adds an entry to a dictionary. -/
def addEntry (dict : String) (keys values : List Meaning) : Analysis Unit := do
  for k in keys do
    for name in ← entryKeys k do
      let own := joinNames dict name
      ensureDef own .name
      setScopes (Scopes.addDef · dict name own)
      updateDef own (·.addMeanings values)

/-- Opens a container that was just numbered. -/
def openContainer (name : String) : Analysis String := do
  let around ← here
  let own := joinNames around name
  setScopes (Scopes.create · own (some around))
  ensureDef own .name
  setScopes (Scopes.addDef · around name own)
  pure own

/-- Adds what a base may be, with its parents, to the parents of a class. -/
def addBase (cls : String) (m : Meaning) : Analysis Unit := do
  match m.definition? with
  | none => pure ()
  | some n =>
    let values := (← def? n).elim [] (·.names.values)
    for parent in if values.isEmpty then [n] else values do
      let further := ((← get).classes.get? parent).elim [] (·.order)
      modify fun s => { s with
        classes := Classes.update s.classes cls fun c =>
          (c.addParents [parent]).addParents further }

mutual

def visit : Code → Analysis Unit
  | .constant _ => pure ()
  | .name _ => pure ()
  | .attribute value _ => visit value
  | .subscript _ value slice => do visit value; visit slice
  | .call callee args keywords => do
    visit callee
    let names ← calledNames callee
    unless names.isEmpty do
      modify fun s => { s with place := { s.place with lastCalled := names } }
      for n in names do
        match ← kind? n with
        | none => pure ()
        | some k =>
          if k = .classType then shareWithParents n
          let target := if k = .classType then joinNames n initMethod else n
          match ← def? target with
          | none => pure ()
          | some _ =>
            passArgs target 0 args
            passKeywords target keywords
  | .lambda _ _ _ _ _ body => do
    let around ← here
    let name ← countLambda
    setScopes (Scopes.create · (joinNames around name) (some around))
    within name true (visit body)
  | .tuple es => visitAll es
  | .list es => do
    let name ← countList
    let own ← openContainer name
    within name false (visitElements own 0 es)
  | .dict entries => do
    let name ← countDict
    let own ← openContainer name
    within name false (visitEntries own entries)
  | .binary left right => do visit left; visit right
  | .function _ _ id _ _ _ _ _ _ _ decorators body => do
    decorateAll (joinNames (← here) id) decorators
    within id true do
      if (← scope? (← here)).isSome then
        resetCounters (← here)
        visitAll body
  | .classDef _ id bases _ _ body => do
    let own := joinNames (← here) id
    ensureDef own .classType
    modify fun s => { s with
      classes := Classes.update (Classes.create s.classes own s.place.module) own (·.clear own) }
    visitBases own bases
    within id true do
      resetCounters (← here)
      visitAll body
  | .giveBack value => visitResult value
  | .yieldOut value => visitResult value
  | .assign targets value => do
    visit value
    assignAll (.group (← decode value)) targets
  | .forLoop target iter body _ => do
    match target with
    | .name id =>
      let own := joinNames (← here) id
      if (← def? own).isSome then
        for m in ← decode iter do passLoop own m
    | _ => pure ()
    visitAll body
  | .throw exception cause => do visitOption exception; visitOption cause
  | .imports _ => pure ()
  | .importsFrom .. => pure ()
  | .other parts => visitAll parts

def visitAll : List Code → Analysis Unit
  | [] => pure ()
  | c :: cs => do visit c; visitAll cs

def visitOption : Option Code → Analysis Unit
  | none => pure ()
  | some c => visit c

def visitResult : Option Code → Analysis Unit
  | none => pure ()
  | some c => do
    visit c
    assignResult c

/-- Bases are visited one after the other; each adds to the parents of the class. -/
def visitBases (cls : String) : List Code → Analysis Unit
  | [] => pure ()
  | b :: rest => do
    visit b
    for m in ← decode b do addBase cls m
    visitBases cls rest

/-- The elements of a list are entries with numbers for keys. -/
def visitElements (list : String) (i : Int) : List Code → Analysis Unit
  | [] => pure ()
  | e :: rest => do
    visit e
    let own := joinNames list (intName i)
    ensureDef own .name
    let ms ← decode e
    updateDef own (·.addMeanings ms)
    visitElements list (i + 1) rest

def visitEntries (dict : String) : List (Option Code × Code) → Analysis Unit
  | [] => pure ()
  | (k, v) :: rest => do
    visitOption k
    visit v
    let keys ← match k with
      | some k => decode k
      | none => pure []
    let values ← decode v
    addEntry dict keys values
    visitEntries dict rest

def passArgs (callee : String) (pos : Int) : List Code → Analysis Unit
  | [] => pure ()
  | a :: rest => do
    visit a
    passPositional callee pos (← decode a)
    passArgs callee (pos + 1) rest

def passKeywords (callee : String) : List (Option String × Code) → Analysis Unit
  | [] => pure ()
  | (name, a) :: rest => do
    visit a
    passKeyword callee name (← decode a)
    passKeywords callee rest

def assignAll (m : Meaning) : List Code → Analysis Unit
  | [] => pure ()
  | t :: ts => do
    assignOne m t
    assignAll m ts

/-- Visits a target and assigns to it. The parts of a tuple are visited once with the tuple and once
more each. -/
def assignOne (m : Meaning) : Code → Analysis Unit
  | .tuple es => do
    visitAll es
    assignParts m 0 es
  | .list es => do
    let name ← countList
    let own ← openContainer name
    within name false (visitElements own 0 es)
  | .attribute value attr => do
    visit value
    assignTarget (.attribute value attr) m
  | .subscript line value slice => do
    visit value
    visit slice
    assignTarget (.subscript line value slice) m
  | .other parts => visitAll parts
  | target => assignTarget target m

def assignParts (m : Meaning) (i : Nat) : List Code → Analysis Unit
  | [] => pure ()
  | t :: ts => do
    match (← tupleParts m)[i]? with
    | some part => assignOne part t
    | none => pure ()
    assignParts m (i + 1) ts

end

end CrossCall.Calls.Propagate

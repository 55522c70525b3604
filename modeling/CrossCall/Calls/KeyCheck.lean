import CrossCall.Calls.Meaning
/-!
The pass that looks for keys that a dictionary does not have.
-/
namespace CrossCall.Calls.KeyCheck

open Analysis

/-- Does a name go through a dictionary? It holds the mark of a numbered dictionary on its first
line. -/
def namesDictionary (n : String) : Bool := go (n.toList.takeWhile (· != '\n')) n.toList
where
  mark (cs : List Char) : Bool :=
    match cs with
    | '<' :: 'd' :: 'i' :: 'c' :: 't' :: rest =>
      !(rest.takeWhile Char.isDigit).isEmpty && (rest.dropWhile Char.isDigit).head? == some '>'
    | _ => false
  go (line whole : List Char) : Bool :=
    match line, whole with
    | _ :: line, c :: rest => mark (c :: rest) || go line rest
    | _, whole => mark whole

/-- A look-up under each of the names it may have. -/
def check (line : Int) (value slice : Code) : Analysis Unit := do
  for n in ← entryNames value slice do
    if namesDictionary n && (← def? n).isNone then
      modify fun s => { s with missingKeys := s.missingKeys ++ [
        { file := s.place.file, line := line, owner := parentName n, key := ownName n }] }

mutual

def visit : Code → Analysis Unit
  | .constant _ => pure ()
  | .name _ => pure ()
  | .attribute value _ => visit value
  | .subscript line value slice => do
    visit value
    visit slice
    check line value slice
  | .call callee args keywords => do
    visit callee
    visitAll args
    visitKeywords keywords
  | .lambda _ _ _ _ _ body => do
    let around ← here
    let name ← countLambda
    setScopes (Scopes.create · (joinNames around name) (some around))
    within name true (visit body)
  | .tuple es => visitAll es
  | .list es => do
    let name ← countList
    let own := joinNames (← here) name
    if (← scope? own).isSome then
      resetCounters own
      within name false (visitAll es)
  | .dict entries => do
    let name ← countDict
    let own := joinNames (← here) name
    if (← scope? own).isSome then
      resetCounters own
      within name false (visitEntries entries)
  | .binary left right => do visit left; visit right
  | .function _ isAsync id _ _ defaults keywordDefaults notes lateNotes resultNote
      decorators body => do
    if isAsync then
      visitAll notes
      visitOptions keywordDefaults
      visitAll lateNotes
      visitAll defaults
      visitAll body
      visitAll decorators
      visitAll resultNote
    else
      within id true do
        if (← scope? (← here)).isSome then
          resetCounters (← here)
          visitAll body
  | .classDef _ id _ _ _ body => do
    within id true do
      resetCounters (← here)
      visitAll body
  | .giveBack value => visitOption value
  | .yieldOut value => visitOption value
  | .assign targets value => do visitAll targets; visit value
  | .forLoop _ _ body _ => visitAll body
  | .throw exception cause => do visitOption exception; visitOption cause
  | .imports _ => pure ()
  | .importsFrom .. => pure ()
  | .other parts => visitAll parts

def visitAll : List Code → Analysis Unit
  | [] => pure ()
  | c :: cs => do visit c; visitAll cs

def visitOption : Option Code → Analysis Unit
  | none => pure ()
  | some c => visit c

def visitOptions : List (Option Code) → Analysis Unit
  | [] => pure ()
  | c :: cs => do visitOption c; visitOptions cs

def visitKeywords : List (Option String × Code) → Analysis Unit
  | [] => pure ()
  | (_, a) :: rest => do
    visit a
    visitKeywords rest

def visitEntries : List (Option Code × Code) → Analysis Unit
  | [] => pure ()
  | (k, v) :: rest => do
    visitOption k
    visit v
    visitEntries rest

end

end CrossCall.Calls.KeyCheck

import CrossCall.Calls.Scope
/-!
Python programs as far as the analysis looks at them. What it passes through without a rule of its
own is kept as a bare list of its parts.
-/
namespace CrossCall.Calls

/-- A literal in a program. -/
inductive Constant where
  | int (n : Int)
  | text (s : String)
  | bool (b : Bool)
  /-- A number that is not whole, as it is written. -/
  | number (text : String)
  | other
deriving Repr, DecidableEq

/-- The first line of a construct, and the last line on which one of its parts starts. -/
structure Extent where
  first : Int := 0
  last : Int := 0
deriving Repr, DecidableEq, Inhabited

/-- An imported name and the name it gets. -/
structure Alias where
  name : String
  rename : Option String := none
deriving Repr, DecidableEq

/-- The name that an import brings into scope. -/
def Alias.target (a : Alias) : String := (a.rename.filter (!·.isEmpty)).getD a.name

inductive Code where
  | constant (c : Constant)
  | name (id : String)
  | attribute (value : Code) (attr : String)
  | subscript (line : Int) (value slice : Code)
  /-- A keyword without a name passes a whole mapping. -/
  | call (callee : Code) (args : List Code) (keywords : List (Option String × Code))
  /-- Positional and keyword-only parameters by name, the defaults of the last positional ones, and
  one default or none for each keyword-only one. -/
  | lambda (extent : Extent) (params keywordOnly : List String) (defaults : List Code)
      (keywordDefaults : List (Option Code)) (body : Code)
  | tuple (elements : List Code)
  | list (elements : List Code)
  /-- An entry without a key takes over a whole mapping. -/
  | dict (entries : List (Option Code × Code))
  | binary (left right : Code)
  /-- The notes are the annotations: those before the defaults of keyword-only parameters, those
  after them, and that of the result. -/
  | function (extent : Extent) (isAsync : Bool) (id : String) (params keywordOnly : List String)
      (defaults : List Code) (keywordDefaults : List (Option Code))
      (notes lateNotes resultNote : List Code)
      (decorators body : List Code)
  | classDef (extent : Extent) (id : String) (bases keywords : List Code)
      (decorators body : List Code)
  | giveBack (value : Option Code)
  | yieldOut (value : Option Code)
  | assign (targets : List Code) (value : Code)
  | forLoop (target iter : Code) (body orElse : List Code)
  | throw (exception cause : Option Code)
  | imports (names : List Alias)
  | importsFrom (module : Option String) (names : List Alias) (level : Int)
  | other (parts : List Code)
deriving Repr, Inhabited

/-- Why a program could not be read, in the reader's words. -/
structure ParseFault where
  word : String
deriving Repr, DecidableEq

/-- A module as the reader saw it. -/
structure Program where
  code : Except ParseFault (List Code)
  blocks : Except ParseFault Block
  /-- Are all names in it ASCII? -/
  hasAsciiNames : Bool := true

end CrossCall.Calls

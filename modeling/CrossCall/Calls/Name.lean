import CrossCall.Store.Path
/-!
Dotted names. Everything that a program defines has a dotted name that starts with its module; what
has no name of its own is numbered within its scope and written in angle brackets.
-/
namespace CrossCall.Calls

/-- One dotted name after another. -/
def joinNames (a b : String) : String := a ++ "." ++ b

/-- The pieces of a dotted name. -/
def namePieces (n : String) : List String := Text.splitAt '.' n

def ofPieces (ps : List String) : String := String.intercalate "." ps

/-- All but the last piece. -/
def parentName (n : String) : String := ofPieces (namePieces n).dropLast

/-- The last piece. -/
def ownName (n : String) : String := (namePieces n).getLastD ""

/-- The first piece. -/
def topName (n : String) : String := (namePieces n).headD ""

theorem dot_notMem_topName (n : String) : '.' ∉ (topName n).toList := by
  unfold topName
  cases hpieces : namePieces n with
  | nil => simp
  | cons piece rest => exact Text.notMem_of_mem_splitAt (hpieces ▸ List.mem_cons_self)

/-- The name of something numbered. -/
def numbered (what number : String) : String := "<" ++ what ++ number ++ ">"

def lambdaName (n : Int) : String := numbered "lambda" (toString n)

def dictName (n : Int) : String := numbered "dict" (toString n)

def listName (n : Int) : String := numbered "list" (toString n)

/-- A number as the key of an entry. -/
def intName (n : Int) : String := numbered "int" (toString n)

/-- What a function gives back. -/
def returnName : String := "<RETURN>"

/-- The module of the functions that need no import. -/
def builtinModule : String := "<builtin>"

def initMethod : String := "__init__"

def iterMethod : String := "__iter__"

def nextMethod : String := "__next__"

/-- The module name of a path: no extension, and dots for slashes. -/
def moduleNameOf (path : String) : String := Text.replaceChar (Path.splitExtension path).1 '/' '.'

end CrossCall.Calls

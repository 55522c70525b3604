import CrossCall.Calls.Name
import CrossCall.Table
import CrossCall.Text.Blank
import CrossCall.Text.Word
/-!
What a name may stand for: other names, literals, and, if it can be called, the names that reach
each of its arguments.
-/
namespace CrossCall.Calls

inductive Literal where
  | int (n : Int)
  | bool (b : Bool)
  | text (s : String)
deriving Repr, DecidableEq

namespace Literal

/-- A truth value counts as the number 0 or 1 when literals are told apart. -/
def key : Literal → Int ⊕ String
  | int n => .inl n
  | bool b => .inl (if b then 1 else 0)
  | text s => .inr s

/-- Adds a literal unless an equal one is there. -/
def insert (s : List Literal) (x : Literal) : List Literal :=
  if s.any (fun y => decide (y.key = x.key)) then s else s ++ [x]

def union (s t : List Literal) : List Literal := t.foldl insert s

/-- Stands for every value that is neither a text nor a whole number. -/
def unknown : Literal := text "UNKNOWN"

end Literal

/-- The word for a literal that is passed as an argument. -/
inductive LiteralSort where
  | text
  | int
  | unknown
deriving Repr, DecidableEq

def LiteralSort.word : LiteralSort → String
  | text => "STRING"
  | int => "INTEGER"
  | unknown => "UNKNOWN"

/-- The position of an argument: a number, or a text that reads as one. The two are different
positions. -/
inductive Position where
  | index (n : Int)
  | text (s : String)
deriving Repr, DecidableEq

namespace Position

/-- Digits, with single underscores between them. -/
def isDigitRun : List Char → Bool
  | [] => false
  | [c] => Text.isDigitChar c
  | c :: '_' :: rest => Text.isDigitChar c && isDigitRun rest
  | c :: rest => Text.isDigitChar c && isDigitRun rest

/-- Accepts a text that reads as a whole number, with blanks around it. -/
def ofText? (s : String) : Option Position :=
  let digits := match (Text.trim s).toList with
    | '+' :: rest => rest
    | '-' :: rest => rest
    | cs => cs
  if isDigitRun digits then some (text s) else none

def toText : Position → String
  | index n => toString n
  | text s => s

end Position

/-- The names that a name may stand for, and what may reach its arguments. Arguments go by name;
those that are passed as a whole mapping have no name. -/
structure Pointer where
  values : List String := []
  args : Table (Option String) (List String) := {}
  /-- The argument at a position. -/
  names : Table Position String := {}
  /-- The position of an argument. -/
  positions : Table String Position := {}
deriving Repr, DecidableEq

namespace Pointer

def add (p : Pointer) (x : String) : Pointer := { p with values := insertName p.values x }

def addAll (p : Pointer) (xs : List String) : Pointer := { p with values := unionNames p.values xs }

def addArg (p : Pointer) (name : Option String) (items : List String) : Pointer :=
  { p with args := p.args.alter name [] (unionNames · items) }

def addLiteralArg (p : Pointer) (name : Option String) (sort : LiteralSort) : Pointer :=
  p.addArg name [sort.word]

/-- Gives a position its argument. -/
def place (p : Pointer) (pos : Position) (name : String) : Pointer :=
  { p with names := p.names.insert pos name, positions := p.positions.insert name pos }

/-- An argument at a position. Without a name of its own it takes the one known there, or the
position. -/
def addPositional (p : Pointer) (pos : Position) (name : Option String) (items : List String) :
    Pointer :=
  let own := (name.filter (!·.isEmpty)).getD
    (((p.names.get? pos).filter (!·.isEmpty)).getD pos.toText)
  (p.place pos own).addArg (some own) items

/-- A literal at a position. Without a name of its own it is named by the position. -/
def addPositionalLiteral (p : Pointer) (pos : Position) (name : Option String)
    (sort : LiteralSort) : Pointer :=
  let own := (name.filter (!·.isEmpty)).getD pos.toText
  (p.place pos own).addLiteralArg (some own) sort

/-- What reaches an argument, if anything does. -/
def arg? (p : Pointer) (name : Option String) : Option (List String) :=
  (p.args.get? name).filter (!·.isEmpty)

def positional? (p : Pointer) (pos : Position) : Option (List String) := p.arg? (p.names.get? pos)

def positionOf? (p : Pointer) (name : Option String) : Option Position := name.bind p.positions.get?

/-- All that is known at each position. -/
def positionalArgs (p : Pointer) : List (Position × List String) :=
  p.names.entries.map fun (pos, name) => (pos, p.args.getD (some name) [])

/-- Takes over all that another pointer knows, apart from the positions of names. -/
def merge (p q : Pointer) : Pointer :=
  let p := p.addAll q.values
  let p := { p with names := q.names.entries.foldl (fun t e => t.insert e.1 e.2) p.names }
  q.args.entries.foldl (fun p e => p.addArg e.1 e.2) p

end Pointer

end CrossCall.Calls

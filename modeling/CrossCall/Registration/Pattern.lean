import CrossCall.Text.Blank
import CrossCall.Text.Word
import CrossCall.Text.Lines
/-!
The textual patterns that link the parts of an extension module: the call that creates a module from
its definition, the last name in an initialiser, and the functions listed in a method table. A
pattern is tried at one place and yields what it captured and the text after the match.
-/
namespace CrossCall.Registration

/-- A pattern at the start of a text. -/
abbrev Pattern (α : Type) := List Char → Option (α × List Char)

namespace Pattern

/-- The capture of the leftmost match. -/
def first? {α : Type} (p : Pattern α) : List Char → Option α
  | [] => (p []).map (·.1)
  | c :: cs =>
    match p (c :: cs) with
    | some (a, _) => some a
    | none => first? p cs

/-- The captures of all matches from left to right, none inside another. The counter is the number
of characters that belong to the last match. -/
def allFrom {α : Type} (p : Pattern α) : Nat → List Char → List α
  | _, [] => []
  | k + 1, _ :: cs => allFrom p k cs
  | 0, c :: cs =>
    match p (c :: cs) with
    | some (a, rest) => a :: allFrom p (cs.length - rest.length) cs
    | none => allFrom p 0 cs

def all {α : Type} (p : Pattern α) (s : String) : List α := allFrom p 0 s.toList

end Pattern

def blanks (cs : List Char) : List Char := cs.dropWhile Text.isBlank

/-- Skips blanks and then one character. -/
def blankThen (c : Char) (cs : List Char) : Option (List Char) :=
  match blanks cs with
  | d :: rest => if d = c then some rest else none
  | [] => none

def literal (s : String) (cs : List Char) : Option (List Char) :=
  if s.toList.isPrefixOf cs then some (cs.drop s.length) else none

/-- Skips blanks and takes a non-empty run of word characters. -/
def blankWord (cs : List Char) : Option (String × List Char) :=
  let cs := blanks cs
  let w := cs.takeWhile Text.isWord
  if w.isEmpty then none else some (String.ofList w, cs.drop w.length)

/-- `PyModule_Create(&name)`, blanks allowed between the tokens. -/
def moduleCreation : Pattern String := fun cs => do
  let cs ← literal "PyModule_Create" cs
  let cs ← blankThen '(' cs
  let cs ← blankThen '&' cs
  let (name, cs) ← blankWord cs
  let cs ← blankThen ')' cs
  pure (name, cs)

/-- A comma, a name and a closing brace. -/
def lastName : Pattern String := fun cs => do
  let cs ← literal "," cs
  let (name, cs) ← blankWord cs
  let cs ← blankThen '\x7d' cs
  pure (name, cs)

/-- An opening brace, a non-empty quoted name, the name of a function and the start of its flags. -/
def tableRow : Pattern String := fun cs => do
  let cs ← literal "\x7b" cs
  let cs ← blankThen '"' cs
  let quoted := cs.takeWhile (· != '"')
  if quoted.isEmpty then none
  let cs ← literal "\"" (cs.drop quoted.length)
  let cs ← blankThen ',' cs
  let (name, cs) ← blankWord cs
  let cs ← blankThen ',' cs
  let cs ← literal "METH_" (blanks cs)
  pure (name, cs)

/-- The definition from which the code of an init function creates its module. -/
def createdModule? (code : String) : Option String := moduleCreation.first? code.toList

/-- The name that stands last in the initialiser of a module definition. -/
def methodTableName? (code : String) : Option String := (lastName.all code).getLast?

/-- The functions that a method table lists, in order and with repetitions. -/
def listedFunctions (code : String) : List String := tableRow.all code

end CrossCall.Registration

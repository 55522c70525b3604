import CrossCall.Text.Lines
/-!
Drawings in the DOT language: quoting of names and values, attribute lists, and the text of a
directed graph.
-/
namespace CrossCall.Text.Dot

def keywords : List String := ["node", "edge", "graph", "digraph", "subgraph", "strict"]

/-- A word of ASCII letters, digits and underscores that does not start with a digit. -/
def isWordId : List Char → Bool
  | [] => false
  | c :: cs => (c.isAlpha || c == '_') && cs.all fun c => c.isAlphanum || c == '_'

/-- Digits, or digits around a point, of which only the second run may be all there is. -/
def isUnsigned (cs : List Char) : Bool :=
  match cs.dropWhile Char.isDigit with
  | [] => !cs.isEmpty
  | '.' :: rest => rest.all Char.isDigit && (cs.head? != some '.' || !rest.isEmpty)
  | _ => false

def isNumberId : List Char → Bool
  | '-' :: cs => isUnsigned cs
  | cs => isUnsigned cs

/-- Drops one newline at the end. -/
def dropFinalNewline (cs : List Char) : List Char :=
  if cs.getLast? = some '\n' then cs.dropLast else cs

/-- Text between angle brackets, which is markup and not quoted. -/
def isMarkup (cs : List Char) : Bool :=
  let cs := dropFinalNewline cs
  cs.length ≥ 2 && cs.head? == some '<' && cs.getLast? == some '>'

/-- Puts a backslash before every quotation mark that an odd run of backslashes does not already
protect. -/
def escapeQuotes (odd : Bool) : List Char → List Char
  | [] => []
  | c :: cs =>
    if c = '\\' then c :: escapeQuotes (!odd) cs
    else if c = '"' then (if odd then ['"'] else ['\\', '"']) ++ escapeQuotes false cs
    else c :: escapeQuotes false cs

/-- A name or value as it is written in a drawing. -/
def quote (s : String) : String :=
  let cs := s.toList
  if isMarkup cs then s
  else
    let id := dropFinalNewline cs
    if (isWordId id || isNumberId id) && !keywords.contains s.toLower then s
    else "\"" ++ String.ofList (escapeQuotes false cs) ++ "\""

def escapeMarkupChar (c : Char) : List Char :=
  if c = '&' then "&amp;".toList
  else if c = '<' then "&lt;".toList
  else if c = '>' then "&gt;".toList
  else if c = '"' then "&quot;".toList
  else if c = '\'' then "&#x27;".toList
  else [c]

/-- Text inside markup. -/
def escapeMarkup (s : String) : String := String.ofList (s.toList.flatMap escapeMarkupChar)

/-- Attributes of a statement: a label, which comes first, and others, which are sorted by name. -/
structure Attributes where
  label : Option String := none
  others : List (String × String) := []
deriving Repr

namespace Attributes

def render (a : Attributes) : String :=
  let others := a.others.mergeSort fun x y => decide (x.1 ≤ y.1)
  let items := (a.label.toList.map fun l => "label=" ++ quote l) ++
    others.map fun (k, v) => quote k ++ "=" ++ quote v
  if items.isEmpty then "" else " [" ++ String.intercalate " " items ++ "]"

end Attributes

inductive Statement where
  | node (name : String) (attributes : Attributes)
  | edge (tail head : String) (attributes : Attributes)
deriving Repr

def Statement.render : Statement → String
  | node name a => "\t" ++ quote name ++ a.render ++ "\n"
  | edge tail head a => "\t" ++ quote tail ++ " -> " ++ quote head ++ a.render ++ "\n"

/-- A strict directed graph with a comment, drawn from top to bottom. -/
def digraph (comment : String) (statements : List Statement) : String :=
  String.join ((lines comment).map fun l => "// " ++ l ++ "\n") ++
    "strict digraph \x7b\n\trankdir=TB\n\tnode [fontname=Arial]\n\tedge [fontname=Arial]\n" ++
    String.join (statements.map Statement.render) ++ "\x7d\n"

end CrossCall.Text.Dot

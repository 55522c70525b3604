import CrossCall.Parse.Tree
/-!
A source text with the positions of its bytes. Trees speak of byte offsets; lines and columns count
newline bytes, and the text of a node is the decoding of the bytes that it covers. A parser gives a
tree for some texts and none for others.
-/
namespace CrossCall

/-- A row and a column, both counted from zero in bytes. -/
structure Point where
  row : Nat
  column : Nat
deriving Repr, DecidableEq

/-- A text as the parser sees it. -/
structure Source where
  text : String
deriving Repr

namespace Source

def bytes (s : Source) : ByteArray := s.text.toUTF8

/-- Steps over one byte. -/
def advance (p : Point) (b : UInt8) : Point :=
  if b = 10 then ⟨p.row + 1, 0⟩ else ⟨p.row, p.column + 1⟩

/-- The row and column of a byte offset. -/
def point (s : Source) (offset : Nat) : Point :=
  (s.bytes.extract 0 offset).toList.foldl advance ⟨0, 0⟩

/-- The text that a node covers, if its bytes are well-formed. -/
def textOf? (s : Source) (t : Tree) : Option String :=
  String.fromUTF8? (s.bytes.extract t.start t.stop)

end Source

/-- What a parser says about a text: the tree and whether it met an error. -/
structure Parsed where
  root : Tree
  hasError : Bool := false
deriving Repr

/-- A parser, which may fail to answer. -/
abbrev Parser := String → Option Parsed

end CrossCall

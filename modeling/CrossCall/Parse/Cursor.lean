import CrossCall.Parse.Tree
/-!
A cursor that moves through a tree one step at a time, and the walk that visits every node with it.
The cursor never leaves the node on which it was set.
-/
namespace CrossCall

/-- A focus, its later siblings, and the frames above it, innermost first. The node on which the
cursor was set has no frame and no siblings. -/
structure Cursor where
  focus : Tree
  later : List Tree := []
  above : List (Tree × List Tree) := []
deriving Repr

namespace Cursor

def firstChild? (c : Cursor) : Option Cursor :=
  match c.focus.children with
  | [] => none
  | t :: ts => some ⟨t, ts, (c.focus, c.later) :: c.above⟩

def nextSibling? (c : Cursor) : Option Cursor :=
  match c.later with
  | [] => none
  | t :: ts => some ⟨t, ts, c.above⟩

def parent? (c : Cursor) : Option Cursor :=
  match c.above with
  | [] => none
  | (t, ts) :: up => some ⟨t, ts, up⟩

/-- Visits the focus, then goes down, or on, or up, whichever is possible first. `left` says that
what is below the focus has been visited. -/
def walkFrom : Nat → Bool → Cursor → List Tree
  | 0, _, _ => []
  | n + 1, false, c =>
    c.focus :: match c.firstChild? with
      | some d => walkFrom n false d
      | none => walkFrom n true c
  | n + 1, true, c =>
    match c.nextSibling? with
    | some d => walkFrom n false d
    | none =>
      match c.parent? with
      | some d => walkFrom n true d
      | none => []

end Cursor

mutual

/-- The number of nodes. -/
def Tree.size : Tree → Nat
  | .node _ _ _ _ cs => 1 + Tree.sizeAll cs

def Tree.sizeAll : List Tree → Nat
  | [] => 0
  | t :: ts => t.size + Tree.sizeAll ts

end

/-- The nodes of a tree in the order in which a cursor meets them. Every node is entered and left
once. -/
def Tree.walk (t : Tree) : List Tree := Cursor.walkFrom (2 * t.size) false ⟨t, [], []⟩

end CrossCall

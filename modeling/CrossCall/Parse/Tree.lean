/-!
Concrete syntax trees as a parser returns them, and positions in them. A `Locus` is a node together
with the way back to the root, so that a rule may look at a node's parents and at its place among
its siblings. What goes down a tree by calling itself has room for trees of any depth.
-/
namespace CrossCall

/-- A node of a syntax tree: its kind, the byte range that it covers, the name under which its
parent refers to it, and its children. -/
inductive Tree where
  | node (kind : String) (start stop : Nat) (field : Option String) (children : List Tree)
deriving Repr, Inhabited

namespace Tree

def kind : Tree → String
  | node k _ _ _ _ => k

def start : Tree → Nat
  | node _ a _ _ _ => a

def stop : Tree → Nat
  | node _ _ b _ _ => b

def field : Tree → Option String
  | node _ _ _ f _ => f

def children : Tree → List Tree
  | node _ _ _ _ cs => cs

def isLeaf (t : Tree) : Bool := t.children.isEmpty

/-- The place of the first child that carries a field name. -/
def fieldIndex? (t : Tree) (name : String) : Option Nat :=
  t.children.findIdx? fun c => c.field == some name

/-- The first child that carries a field name. -/
def childByField? (t : Tree) (name : String) : Option Tree :=
  t.children.find? fun c => c.field == some name

/-- The children that stand before the first one with a field name, or all of them if there is
none. -/
def childrenBefore (t : Tree) (name : String) : List Tree :=
  t.children.takeWhile fun c => c.field != some name

mutual

/-- The nodes of a tree, each parent before its children and those from left to right. -/
def preorder : Tree → List Tree
  | node k a b f cs => node k a b f cs :: preorderAll cs

def preorderAll : List Tree → List Tree
  | [] => []
  | t :: ts => preorder t ++ preorderAll ts

end

section

variable (isWanted : Tree → Bool)

mutual

/-- The wanted nodes at and below a node, those of every child joined to the ones before. -/
def collect : Tree → List Tree
  | node k a b f cs =>
    (if isWanted (node k a b f cs) then [node k a b f cs] else []) ++ collectAll cs

def collectAll : List Tree → List Tree
  | [] => []
  | t :: ts => collect t ++ collectAll ts

end

mutual

/-- The wanted nodes at and below a node, each put behind those that were found before. -/
def gather (found : List Tree) : Tree → List Tree
  | node k a b f cs =>
    gatherAll (if isWanted (node k a b f cs) then found ++ [node k a b f cs] else found) cs

def gatherAll (found : List Tree) : List Tree → List Tree
  | [] => found
  | t :: ts => gatherAll (gather found t) ts

end

end

/-- The node that a list of child numbers leads to. -/
def descend? : Tree → List Nat → Option Tree
  | t, [] => some t
  | t, i :: path => t.children[i]? >>= fun c => c.descend? path

end Tree

/-- A node in its tree. `above` lists its ancestors, the parent first, each with the number of the
child through which the way leads. -/
structure Locus where
  node : Tree
  above : List (Tree × Nat) := []
deriving Repr, Inhabited

namespace Locus

def kind (l : Locus) : String := l.node.kind

def parent? (l : Locus) : Option Tree := l.above.head?.map (·.1)

/-- The node `n` steps up, the parent for `n = 0`. -/
def ancestor? (l : Locus) (n : Nat) : Option Tree := l.above[n]?.map (·.1)

def child (l : Locus) (i : Nat) (c : Tree) : Locus := ⟨c, (l.node, i) :: l.above⟩

def children (l : Locus) : List Locus := l.node.children.mapIdx fun i c => l.child i c

def childByField? (l : Locus) (name : String) : Option Locus :=
  l.children.find? fun c => c.node.field == some name

/-- The children that stand before the first one with a field name, or all of them if there is
none. -/
def childrenBefore (l : Locus) (name : String) : List Locus :=
  l.children.takeWhile fun c => c.node.field != some name

/-- Is this node the child that its parent knows under a field name? -/
def isFieldOfParent (l : Locus) (name : String) : Bool :=
  match l.above with
  | [] => false
  | (p, i) :: _ => p.fieldIndex? name == some i

mutual

def preorderOf (above : List (Tree × Nat)) : Tree → List Locus
  | .node k a b f cs =>
    ⟨.node k a b f cs, above⟩ :: preorderOfAll (.node k a b f cs) above 0 cs

def preorderOfAll (parent : Tree) (above : List (Tree × Nat)) (i : Nat) : List Tree → List Locus
  | [] => []
  | t :: ts => preorderOf ((parent, i) :: above) t ++ preorderOfAll parent above (i + 1) ts

end

/-- The nodes below and at a position, in preorder. -/
def preorder (l : Locus) : List Locus := preorderOf l.above l.node

/-- The position that a list of child numbers leads to. -/
def descend? : Locus → List Nat → Option Locus
  | l, [] => some l
  | l, i :: path => l.node.children[i]? >>= fun c => (l.child i c).descend? path

/-- All function definitions at or below a position, in preorder. -/
def functions (l : Locus) : List Locus := l.preorder.filter fun x => x.kind == "function_definition"

end Locus

end CrossCall

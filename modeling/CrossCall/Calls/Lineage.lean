import CrossCall.Table
/-!
Classes and the order in which their attributes are looked up: the class itself, then its parents.
-/
namespace CrossCall.Calls

/-- Keeps the last occurrence of every member. -/
def keepLast {α : Type} [DecidableEq α] : List α → List α
  | [] => []
  | x :: xs => if x ∈ xs then keepLast xs else x :: keepLast xs

structure Class where
  module : String
  order : List String
deriving Repr, DecidableEq

namespace Class

/-- A class without parents. -/
def bare (name module : String) : Class := ⟨module, [name]⟩

def addParents (c : Class) (parents : List String) : Class :=
  { c with order := keepLast (c.order ++ parents) }

def clear (c : Class) (name : String) : Class := { c with order := [name] }

end Class

abbrev Classes := Table String Class

namespace Classes

/-- Adds a class unless it is there. -/
def create (cs : Classes) (name module : String) : Classes :=
  cs.insertNew name (Class.bare name module)

def update (cs : Classes) (name : String) (f : Class → Class) : Classes :=
  match cs.get? name with
  | some c => cs.insert name (f c)
  | none => cs

end Classes

end CrossCall.Calls

import CrossCall.Table
/-!
The call graph: who calls whom, and the module that each node belongs to.
-/
namespace CrossCall.Calls

structure Graph where
  callees : Table String (List String) := {}
  modules : Table String String := {}
deriving Repr, DecidableEq

inductive GraphFault where
  | notText
  | emptyName
deriving Repr, DecidableEq

def GraphFault.message : GraphFault → String
  | notText => "Only string node names allowed"
  | emptyName => "Empty node name"

namespace Graph

/-- Adds a node unless it is there. Its module is the first that is not empty. -/
def addNode (g : Graph) (name module : String) : Graph := {
  callees := g.callees.insertNew name []
  modules := if (g.modules.getD name "").isEmpty then g.modules.insert name module else g.modules }

/-- Adds a node with a name that may not be empty. -/
def addNode? (g : Graph) (name module : String) : Except GraphFault Graph :=
  if name.isEmpty then .error .emptyName else .ok (g.addNode name module)

/-- Adds a call and its two ends. -/
def addCall (g : Graph) (caller callee : String) : Graph :=
  let g := (g.addNode caller "").addNode callee ""
  { g with callees := g.callees.alter caller [] (insertName · callee) }

/-- All calls, as pairs. -/
def calls (g : Graph) : List (String × String) :=
  g.callees.entries.flatMap fun (caller, callees) => callees.map fun callee => (caller, callee)

end Graph

end CrossCall.Calls

import CrossCall.Calls.Name
import CrossCall.Table
/-!
Scopes: which definition a name has where, and how many unnamed things were numbered so far.
-/
namespace CrossCall.Calls

/-- The kinds of block that open a scope. -/
inductive BlockKind where
  | module
  | function
  | classType
deriving Repr, DecidableEq, Inhabited

/-- The blocks of a program. -/
inductive Block where
  | node (kind : BlockKind) (name : String) (line : Int) (children : List Block)
deriving Repr, Inhabited

structure Counters where
  lambdas : Int := 0
  dicts : Int := 0
  lists : Int := 0
deriving Repr, DecidableEq

structure Scope where
  parent : Option String := none
  /-- The dotted name of each definition. -/
  defs : Table String String := {}
  counters : Counters := {}
deriving Repr, DecidableEq

namespace Scope

def addDef (s : Scope) (name target : String) : Scope :=
  { s with defs := s.defs.insert name target }

end Scope

inductive ScopeFault where
  | badParent
  | badName
deriving Repr, DecidableEq

def ScopeFault.message : ScopeFault → String
  | badParent => "Parent must be a ScopeItem instance"
  | badName => "Namespace should be a string"

abbrev Scopes := Table String Scope

namespace Scopes

/-- Opens a scope unless it is there. -/
def create (ss : Scopes) (n : String) (parent : Option String) : Scopes :=
  ss.insertNew n { parent := parent }

def update (ss : Scopes) (n : String) (f : Scope → Scope) : Scopes :=
  match ss.get? n with
  | some s => ss.insert n (f s)
  | none => ss

/-- Gives a name its definition, if the scope is there. -/
def addDef (ss : Scopes) (n name target : String) : Scopes :=
  Scopes.update ss n (·.addDef name target)

def lookupFrom (ss : Scopes) (name : String) : Nat → Option String → Option String
  | 0, _ => none
  | _ + 1, none => none
  | fuel + 1, some n =>
    match ss.get? n with
    | none => none
    | some s =>
      match s.defs.get? name with
      | some d => some d
      | none => lookupFrom ss name fuel s.parent

/-- The definition that a name has in a scope or in one around it. -/
def lookup (ss : Scopes) (n name : String) : Option String :=
  lookupFrom ss name (ss.size + 1) (some n)

def chainFrom (ss : Scopes) : Nat → Option String → List Scope
  | 0, _ => []
  | _ + 1, none => []
  | fuel + 1, some n => (ss.get? n).elim [] fun s => s :: chainFrom ss fuel s.parent

/-- A scope and those around it. -/
def chain (ss : Scopes) (n : String) : List Scope := chainFrom ss (ss.size + 1) (some n)

def resetCounters (ss : Scopes) : Scopes :=
  ⟨ss.entries.map fun (n, s) => (n, { s with counters := {} })⟩

/-- The functions and classes of a program, as dotted names. -/
structure Outline where
  functions : List String := []
  classes : List String := []
deriving Repr

mutual

/-- Opens the scope of a block and of the blocks in it. The outermost block adds no name of its
own. -/
def openBlock (ss : Scopes) (out : Outline) (around : String) (parent : Option String) :
    Block → Scopes × Outline
  | .node kind name line children =>
    let own := if (name == "top" && line == 0) || name.isEmpty then around
      else joinNames around name
    let out := match kind with
      | .function => { out with functions := out.functions ++ [own] }
      | .classType => { out with classes := out.classes ++ [own] }
      | .module => out
    openBlocks (create ss own parent) out own children

def openBlocks (ss : Scopes) (out : Outline) (around : String) : List Block → Scopes × Outline
  | [] => (ss, out)
  | b :: bs =>
    let (ss, out) := openBlock ss out around (some around) b
    openBlocks ss out around bs

end

/-- Opens the scopes of a module. -/
def openModule (ss : Scopes) (name : String) (top : Block) : Scopes × Outline :=
  openBlock ss {} name none top

end Scopes

end CrossCall.Calls

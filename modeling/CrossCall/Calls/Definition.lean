import CrossCall.Calls.Pointer
/-!
Definitions by dotted name, what each of them finally stands for, and the flow of arguments along
names.
-/
namespace CrossCall.Calls

inductive DefinitionKind where
  | function
  | module
  | name
  | classType
  | external
deriving Repr, DecidableEq

namespace DefinitionKind

def tag : DefinitionKind → String
  | function => "FUNCTIONDEF"
  | module => "MODULEDEF"
  | name => "NAMEDEF"
  | classType => "CLASSDEF"
  | external => "EXTERNALDEF"

def ofTag? : String → Option DefinitionKind
  | "FUNCTIONDEF" => some function
  | "MODULEDEF" => some module
  | "NAMEDEF" => some name
  | "CLASSDEF" => some classType
  | "EXTERNALDEF" => some external
  | _ => none

/-- Can something of this kind be called as it is? -/
def isCallable (k : DefinitionKind) : Bool := k = function || k = external

end DefinitionKind

structure Definition where
  kind : DefinitionKind
  names : Pointer := {}
  literals : List Literal := []
deriving Repr, DecidableEq

namespace Definition

def addName (d : Definition) (n : String) : Definition := { d with names := d.names.add n }

def addLiteral (d : Definition) (x : Literal) : Definition :=
  { d with literals := Literal.insert d.literals x }

/-- Takes over all that another definition stands for. -/
def merge (d e : Definition) : Definition :=
  { d with names := d.names.merge e.names, literals := Literal.union d.literals e.literals }

end Definition

inductive DefinitionFault where
  | invalidName
  | invalidKind
  | alreadyThere
deriving Repr, DecidableEq

def DefinitionFault.message : DefinitionFault → String
  | invalidName => "Invalid namespace argument"
  | invalidKind => "Invalid def type argument"
  | alreadyThere => "Definition already exists"

abbrev Definitions := Table String Definition

namespace Definitions

/-- Adds a new definition. -/
def create (ds : Definitions) (n : String) (kind : DefinitionKind) :
    Except DefinitionFault Definitions :=
  if n.isEmpty then .error .invalidName
  else if ds.contains n then .error .alreadyThere
  else .ok (ds.insert n { kind := kind })

/-- Adds a definition unless the name has one. -/
def ensure (ds : Definitions) (n : String) (kind : DefinitionKind) : Definitions :=
  ds.insertNew n { kind := kind }

/-- Changes the definition of a name, if there is one. -/
def update (ds : Definitions) (n : String) (f : Definition → Definition) : Definitions :=
  match ds.get? n with
  | some d => ds.insert n (f d)
  | none => ds

/-- Makes a name a fresh copy of a definition. What a copied function gives back is what the
function gives back. -/
def assign (ds : Definitions) (n source : String) (d : Definition) : Definitions :=
  let ds := ds.insert n (Definition.merge { kind := d.kind } d)
  if d.kind = .function then
    ds.insert (joinNames n returnName)
      (Definition.addName { kind := .name } (joinNames source returnName))
  else ds

/-- The definition of a function and of what it gives back. -/
def ensureFunction (ds : Definitions) (n : String) : Definitions :=
  Definitions.ensure (Definitions.ensure ds n .function) (joinNames n returnName) .name

/-! ### What names finally stand for -/

abbrev Closure := Table String (List String)

/-- Follows the names of a definition. A name that leads nowhere stands for itself; a name that is
met again while it is being followed adds nothing. -/
def follow (ds : Definitions) : Nat → Closure → String → Closure × List String
  | 0, c, _ => (c, [])
  | fuel + 1, c, n =>
    match c.get? n with
    | some s => (c, s)
    | none =>
      let values := (ds.get? n).elim [] (·.names.values)
      let start := if values.isEmpty then [n] else []
      let (c, s) := values.foldl (fun (c, s) m =>
        if ds.contains m then
          let (c, items) := follow ds fuel c m
          (c, unionNames s (if items.isEmpty then [m] else items))
        else (c, s)) (c.insert n start, start)
      (c.insert n s, s)

/-- For every definition, the definitions that it finally stands for. -/
def closure (ds : Definitions) : Closure :=
  ds.keys.foldl (fun c n => (follow ds (ds.size + 1) c n).1) {}

/-! ### Arguments that flow along names -/

/-- Lets the items that reach an argument of `owner` reach what stands at the same argument of a
name it stands for. An item that is such a target itself is dropped. The answer says whether
something new came through. -/
def passItems (owner : String) (targets : List String) (ds : Definitions) (items : List String) :
    Definitions × List String × Bool :=
  targets.foldl (fun (ds, items, changed) target =>
    if !ds.contains target || target == owner then (ds, items, changed)
    else
      let items := items.filter (· != target)
      let known := (ds.get? target).elim [] (·.names.values)
      let live := items.filter fun i => Table.contains ds i
      let fresh := live.filter fun i => !known.contains i
      (Definitions.update ds target fun d => { d with names := d.names.addAll live }, items,
        changed || !fresh.isEmpty)) (ds, items, false)

/-- One argument of `owner` seen from a name it stands for. -/
def passArg (owner target : String) (name : Option String) (ds : Definitions) (changed : Bool) :
    Definitions × Bool :=
  let given := (ds.get? owner).elim {} (·.names)
  let taken := (ds.get? target).elim {} (·.names)
  let items := given.args.getD name []
  let position := given.positionOf? name
  match (match position with
    | some pos => taken.positional? pos
    | none => taken.arg? name) with
  | none =>
    let taken := match position with
      | some pos => taken.addPositional pos none items
      | none => taken.addArg name items
    (Definitions.update ds target fun d => { d with names := taken }, changed)
  | some targets =>
    if changed || sameNames items targets then (ds, changed)
    else
      let (ds, items, fresh) := passItems owner targets ds items
      (Definitions.update ds owner fun d =>
        { d with names := { d.names with args := d.names.args.insert name items } }, fresh)

/-- All arguments of `owner`, along all names it stands for. -/
def passAll (ds : Definitions) (changed : Bool) (owner : String) : Definitions × Bool :=
  let names := (ds.get? owner).elim [] (·.names.values)
  names.foldl (fun (ds, changed) target =>
    if !Table.contains ds target || target == owner then (ds, changed)
    else
      let args := ((ds.get? owner).elim {} (·.names.args)).keys
      args.foldl (fun (ds, changed) name => passArg owner target name ds changed) (ds, changed))
        (ds, changed)

/-- Rounds over all definitions, until one changes nothing. -/
def rounds : Nat → Definitions → Definitions
  | 0, ds => ds
  | n + 1, ds =>
    let (ds, changed) :=
      ds.keys.foldl (fun (ds, changed) owner => passAll ds changed owner) (ds, false)
    if changed then rounds n ds else ds

/-- Lets arguments flow, in at most as many rounds as there are definitions. -/
def complete (ds : Definitions) : Definitions := rounds ds.size ds

end Definitions

end CrossCall.Calls

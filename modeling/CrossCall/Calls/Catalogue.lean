import CrossCall.Calls.Name
import CrossCall.Table
/-!
Modules and what is defined in them, with the first and last line of each definition.
-/
namespace CrossCall.Calls

structure Member where
  name : String
  first : Option Int := none
  last : Option Int := none
deriving Repr, DecidableEq

structure Module where
  name : String
  file : Option String
  members : Table String Member := {}
deriving Repr, DecidableEq

/-- Adds a member unless the name is taken. -/
def Module.addMember (m : Module) (name : String) (first last : Option Int := none) : Module :=
  { m with members := m.members.insertNew name ⟨name, first, last⟩ }

/-- The modules of the analysed program and those it only refers to. -/
structure Catalogue where
  inside : Table String Module := {}
  outside : Table String Module := {}
deriving Repr, DecidableEq

namespace Catalogue

/-- Adds a module without members, in place of one of the same name. -/
def create (c : Catalogue) (name : String) (file : Option String) (external : Bool := false) :
    Catalogue :=
  let m : Module := { name := name, file := file }
  if external then { c with outside := c.outside.insert name m }
  else { c with inside := c.inside.insert name m }

def get? (c : Catalogue) (name : String) : Option Module :=
  (c.inside.get? name).or (c.outside.get? name)

/-- Adds a member to a module that is there. -/
def addMember (c : Catalogue) (module name : String) (first last : Option Int := none) :
    Catalogue :=
  match c.inside.get? module, c.outside.get? module with
  | some m, _ => { c with inside := c.inside.insert module (m.addMember name first last) }
  | none, some m => { c with outside := c.outside.insert module (m.addMember name first last) }
  | none, none => c

/-- Adds something from outside, under the module that its name starts with. -/
def addExternal (c : Catalogue) (name : String) : Catalogue :=
  let module := topName name
  let c := if (c.get? module).isSome then c else (c.create module none true).addMember module module
  c.addMember module name

/-- The modules outside go by single pieces of names. -/
def IsPlain (c : Catalogue) : Prop := ∀ module ∈ c.outside.keys, '.' ∉ module.toList

variable {c : Catalogue}

/-- A member is added to a module that is there. -/
theorem IsPlain.addMember (h : c.IsPlain) (module name : String) (first last : Option Int := none) :
    (c.addMember module name first last).IsPlain := by
  unfold Catalogue.addMember
  split
  · exact h
  · rename_i hm
    intro k hk
    rcases Table.mem_keys_insert.mp hk with rfl | hk
    · exact h _ (Table.mem_keys_of_get? hm)
    · exact h k hk
  · exact h

theorem IsPlain.create_inside (h : c.IsPlain) (name : String) (file : Option String) :
    (c.create name file).IsPlain := h

theorem IsPlain.create_outside (h : c.IsPlain) {name : String} (hname : '.' ∉ name.toList)
    (file : Option String) : (c.create name file true).IsPlain := by
  intro k hk
  rcases Table.mem_keys_insert.mp hk with rfl | hk
  · exact hname
  · exact h k hk

theorem IsPlain.addExternal (h : c.IsPlain) (name : String) : (c.addExternal name).IsPlain := by
  unfold Catalogue.addExternal
  dsimp only
  split
  · exact h.addMember _ _
  · exact ((h.create_outside (dot_notMem_topName name) none).addMember _ _).addMember _ _

end Catalogue

/-- A catalogue as an analysis keeps it. Whatever comes from outside is noted under the first piece
of its name. -/
structure PlainCatalogue extends Catalogue where
  plain : toCatalogue.IsPlain

namespace PlainCatalogue

def empty : PlainCatalogue := ⟨{}, by simp [Catalogue.IsPlain, Table.keys]⟩

instance : Inhabited PlainCatalogue := ⟨empty⟩

/-- Adds a module of the analysed program. -/
def create (c : PlainCatalogue) (name file : String) : PlainCatalogue :=
  ⟨c.toCatalogue.create name (some file), c.plain.create_inside _ _⟩

def addMember (c : PlainCatalogue) (module name : String) (first last : Option Int := none) :
    PlainCatalogue :=
  ⟨c.toCatalogue.addMember module name first last, c.plain.addMember _ _ _ _⟩

def addExternal (c : PlainCatalogue) (name : String) : PlainCatalogue :=
  ⟨c.toCatalogue.addExternal name, c.plain.addExternal name⟩

end PlainCatalogue

end CrossCall.Calls

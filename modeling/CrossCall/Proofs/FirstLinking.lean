import Mathlib
import CrossCall.Proofs.Linking

/-! The two ways to follow the links of a chain. One takes the last part of a name, the other the
first and, for functions, all of them; one follows a table row by row, the other name by name. Where
no name stands for two parts, both lead to the same parts. -/
namespace CrossCall.Registration

/-- No two parts have the same name. Parts without a name do not count, since no link leads to
them. -/
def NamedApart (cs : List Component) : Prop := (cs.filterMap (·.name)).Nodup

instance (cs : List Component) : Decidable (NamedApart cs) :=
  inferInstanceAs (Decidable (List.Nodup _))

variable {e : Extraction} {init c : Component} {name : String} {cs : List Component}

/-! ### Parts of a name -/

theorem NamedApart.tail (h : NamedApart (c :: cs)) : NamedApart cs :=
  h.sublist ((List.sublist_cons_self c cs).filterMap _)

/-- Behind a part there is no other one of its name. -/
theorem NamedApart.notMem (h : NamedApart (c :: cs)) (hc : c.name = some name) :
    ∀ d ∈ cs, d.name ≠ some name := by
  intro d hd hname
  have hnodup : (name :: cs.filterMap (·.name)).Nodup := by simpa [NamedApart, hc] using h
  exact (List.nodup_cons.mp hnodup).1 (List.mem_filterMap.mpr ⟨d, hd, hname⟩)

/-- The first part of a name is the only one. -/
theorem NamedApart.filter_eq (h : NamedApart cs) (name : String) :
    (cs.filter fun c => c.name == some name) = (firstNamed? cs name).toList := by
  induction cs with
  | nil => rfl
  | cons c rest ih =>
    by_cases hc : c.name = some name
    · have hrest : (rest.filter fun d => d.name == some name) = [] := by
        rw [List.filter_eq_nil_iff]
        intro d hd
        simpa using h.notMem hc d hd
      simp [firstNamed?, hc, hrest]
    · simpa [firstNamed?, hc] using ih h.tail

theorem firstNamed?_eq (role : Role) (h : NamedApart (e.ofRole role)) :
    firstNamed? (e.ofRole role) = e.named? role := by
  funext name
  rw [Extraction.named?, h.filter_eq name]
  cases firstNamed? (e.ofRole role) name <;> rfl

/-! ### Chains through first matches -/

theorem initFunction_linkFirst : (linkFirst e init).initFunction = init := by
  unfold linkFirst
  grind

theorem moduleDefinition_linkFirst : (linkFirst e init).moduleDefinition =
    (linkFirst e init).moduleReference?.bind (firstNamed? e.moduleDefinitions) := by
  rw [Chain.moduleReference?, initFunction_linkFirst]
  unfold linkFirst
  dsimp only
  split
  · rename_i hnone
    exact hnone.symm
  · rename_i hsome
    split <;> exact hsome.symm

theorem methodTable_linkFirst : (linkFirst e init).methodTable =
    (linkFirst e init).tableReference?.bind (firstNamed? e.methodTables) := by
  rw [Chain.tableReference?]
  unfold linkFirst
  dsimp only
  split
  · rfl
  · split
    · rename_i hnone
      exact hnone.symm
    · rename_i hsome
      exact hsome.symm

theorem mem_functions_linkFirst {f : Component} : f ∈ (linkFirst e init).functions ↔
    ∃ name ∈ (linkFirst e init).functionReferences, f ∈ e.interfaceFunctions.filter fun c =>
    c.name == some name := by
  rw [Chain.functionReferences]
  unfold linkFirst
  dsimp only
  split
  · simp
  · split
    · simp
    · simp [registeredNames, mem_unionNames]

/-! ### Agreement -/

/-- Two chains have the same parts. Functions may be listed in another order and another number of
times. -/
structure Chain.SameParts (c d : Chain) : Prop where
  initFunction : c.initFunction = d.initFunction
  moduleDefinition : c.moduleDefinition = d.moduleDefinition
  methodTable : c.methodTable = d.methodTable
  functions : ∀ f, f ∈ c.functions ↔ f ∈ d.functions

theorem sameParts_linkFirst (hmodules : NamedApart e.moduleDefinitions)
    (htables : NamedApart e.methodTables) (hfunctions : NamedApart e.interfaceFunctions)
    (init : Component) : (link e init).SameParts (linkFirst e init) := by
  have hmodule : firstNamed? e.moduleDefinitions = e.named? .moduleDefinition :=
    firstNamed?_eq .moduleDefinition hmodules
  have htable : firstNamed? e.methodTables = e.named? .methodTable :=
    firstNamed?_eq .methodTable htables
  have hfunction : firstNamed? e.interfaceFunctions = e.named? .interfaceFunction :=
    firstNamed?_eq .interfaceFunction hfunctions
  have hcreated : (link e init).moduleReference? = (linkFirst e init).moduleReference? := by
    simp only [Chain.moduleReference?, initFunction_link, initFunction_linkFirst]
  -- Each level fixes the names that lead to the next one.
  have hdefinition : (link e init).moduleDefinition = (linkFirst e init).moduleDefinition := by
    rw [moduleDefinition_link, moduleDefinition_linkFirst, hcreated, hmodule]
  have hnamed : (link e init).tableReference? = (linkFirst e init).tableReference? := by
    rw [Chain.tableReference?, Chain.tableReference?, hdefinition]
  have hmethods : (link e init).methodTable = (linkFirst e init).methodTable := by
    rw [methodTable_link, methodTable_linkFirst, hnamed, htable]
  have hlisted : (link e init).functionReferences = (linkFirst e init).functionReferences := by
    rw [Chain.functionReferences, Chain.functionReferences, hmethods]
  refine ⟨initFunction_link.trans initFunction_linkFirst.symm, hdefinition, hmethods, fun f => ?_⟩
  rw [functions_link, mem_functions_linkFirst, hlisted, List.mem_filterMap]
  refine exists_congr fun name => and_congr_right fun _ => ?_
  rw [hfunctions.filter_eq name, Option.mem_toList, hfunction]

theorem merge_singleton (e : Extraction) : (merge [e]).chains = e.initFunctions.map (link e) := rfl

/-- If no two module definitions, no two method tables and no two functions share a name, both
linkings give a chain for each init function, in the same order and with the same parts. -/
theorem chains_sameParts (hmodules : NamedApart e.moduleDefinitions)
    (htables : NamedApart e.methodTables) (hfunctions : NamedApart e.interfaceFunctions) :
    List.Forall₂ Chain.SameParts (merge [e]).chains (linkAllFirst e) := by
  rw [merge_singleton, linkAllFirst, List.forall₂_map_left_iff, List.forall₂_map_right_iff,
    List.forall₂_same]
  intro init _
  exact sameParts_linkFirst hmodules htables hfunctions init

/-- A table that lists one function twice and another that is not there, and an init function
without a module. -/
def twiceListed : Extraction where
  methodTables := [⟨.methodTable, some "t",
    "\x7b\x7b\"a\",f,METH_O\x7d,\x7b\"b\",g,METH_O\x7d,\x7b\"c\",f,METH_O\x7d\x7d", "", 1, 1, 0, 0⟩]
  moduleDefinitions := [⟨.moduleDefinition, some "m", "\x7b0,t\x7d", "", 1, 1, 0, 0⟩]
  initFunctions := [
    ⟨.initFunction, some "PyInit_a", "PyModule_Create(&m)", "", 1, 1, 0, 0⟩,
    ⟨.initFunction, some "PyInit_b", "PyModule_Create(&n)", "", 1, 1, 0, 0⟩]
  interfaceFunctions := [
    ⟨.interfaceFunction, some "f", "", "", 1, 1, 0, 0⟩,
    ⟨.interfaceFunction, some "h", "", "", 1, 1, 0, 0⟩]

theorem chains_sameParts_twiceListed :
    (NamedApart twiceListed.moduleDefinitions ∧ NamedApart twiceListed.methodTables ∧
      NamedApart twiceListed.interfaceFunctions) ∧
    List.Forall₂ Chain.SameParts (merge [twiceListed]).chains (linkAllFirst twiceListed) ∧
    (merge [twiceListed]).chains.map (·.functions.length) = [2, 0] ∧
    (linkAllFirst twiceListed).map (·.functions.length) = [1, 0] := by
  have hmodules : NamedApart twiceListed.moduleDefinitions := by decide
  have htables : NamedApart twiceListed.methodTables := by decide
  have hfunctions : NamedApart twiceListed.interfaceFunctions := by decide
  exact ⟨⟨hmodules, htables, hfunctions⟩, chains_sameParts hmodules htables hfunctions,
    by decide +kernel, by decide +kernel⟩

end CrossCall.Registration

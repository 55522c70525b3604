import Mathlib
import CrossCall.Proofs.Table
import CrossCall.Registration.Chain

/-! Chains over the parts of several files. A name that a chain follows stands for the last part
that has it, and so the last file of the list that holds it decides. A chain of one file stays as it
is exactly as long as no other file takes over one of its names. -/
namespace CrossCall.Registration

/-- The parts that have a role. -/
def Extraction.ofRole (e : Extraction) : Role → List Component
  | .methodTable => e.methodTables
  | .moduleDefinition => e.moduleDefinitions
  | .initFunction => e.initFunctions
  | .interfaceFunction => e.interfaceFunctions

/-- The part that a name stands for: the last one that has it. -/
def Extraction.named? (e : Extraction) (role : Role) (name : String) : Option Component :=
  ((e.ofRole role).filter fun c => c.name == some name).getLast?

namespace Chain

def moduleReference? (c : Chain) : Option String := createdModule? c.initFunction.code

def tableReference? (c : Chain) : Option String :=
  c.moduleDefinition.bind fun d => methodTableName? d.code

def functionReferences (c : Chain) : List String :=
  c.methodTable.elim [] fun t => listedFunctions t.code

/-- The names that a chain follows, each with the role of what it stands for. -/
def references (c : Chain) : List (Role × String) :=
  c.moduleReference?.toList.map (.moduleDefinition, ·) ++
    c.tableReference?.toList.map (.methodTable, ·) ++
    c.functionReferences.map (.interfaceFunction, ·)

end Chain

variable {e whole alone : Extraction} {init : Component} {role : Role} {name : String}

/-! ### What a chain is made of -/

theorem get?_byName (cs : List Component) (name : String) :
    (byName cs).get? (some name) = (cs.filter fun c => c.name == some name).getLast? := by
  have hname :
      ((fun e : Option String × Component => decide (e.1 = some name)) ∘ fun c => (c.name, c)) =
      fun c => c.name == some name := by
    funext c
    exact Bool.eq_iff_iff.mpr (by simp)
  rw [byName, Table.get?_ofList, List.filter_map, List.getLast?_map, Option.map_map, hname]
  exact Option.map_id'

theorem initFunction_link : (link e init).initFunction = init := by
  unfold link
  grind

theorem moduleDefinition_link :
    (link e init).moduleDefinition =
    (link e init).moduleReference?.bind (e.named? .moduleDefinition) := by
  rw [Chain.moduleReference?, initFunction_link]
  unfold link
  simp only [get?_byName]
  split
  · rename_i hnone
    exact hnone.symm
  · rename_i d hsome
    split <;> exact hsome.symm

theorem methodTable_link :
    (link e init).methodTable = (link e init).tableReference?.bind (e.named? .methodTable) := by
  rw [Chain.tableReference?]
  unfold link
  simp only [get?_byName]
  split
  · rfl
  · split
    · rename_i hnone
      exact hnone.symm
    · rename_i hsome
      exact hsome.symm

theorem functions_link :
    (link e init).functions =
    (link e init).functionReferences.filterMap (e.named? .interfaceFunction) := by
  rw [Chain.functionReferences]
  unfold link
  simp only [get?_byName]
  split
  · rfl
  · split <;> rfl

/-- Two look-ups of which one finds more give the same list only if they agree on every name. -/
theorem filterMap_eq_iff {α β : Type} {more fewer : α → Option β}
    (hmore : ∀ x, (fewer x).isSome → (more x).isSome) {xs : List α} :
    xs.filterMap more = xs.filterMap fewer ↔ ∀ x ∈ xs, more x = fewer x := by
  refine ⟨fun h => ?_, fun h => List.filterMap_congr h⟩
  induction xs with
  | nil => simp
  | cons x rest ih =>
    have hlength : (rest.filterMap fewer).length ≤ (rest.filterMap more).length := by
      rw [List.length_filterMap_eq_countP, List.length_filterMap_eq_countP]
      exact List.countP_mono_left fun y _ => hmore y
    have hx := hmore x
    cases hm : more x with
    | none =>
      cases hf : fewer x with
      | none =>
        rw [List.filterMap_cons_none hm, List.filterMap_cons_none hf] at h
        simpa [hm, hf] using ih h
      | some b => simp [hm, hf] at hx
    | some a =>
      cases hf : fewer x with
      | none =>
        rw [List.filterMap_cons_some hm, List.filterMap_cons_none hf] at h
        rw [← h, List.length_cons] at hlength
        omega
      | some b =>
        rw [List.filterMap_cons_some hm, List.filterMap_cons_some hf] at h
        obtain ⟨hab, hrest⟩ := List.cons.inj h
        simpa [hm, hf, hab] using ih hrest

theorem bind_eq_bind_iff {α β : Type} {o : Option α} {f g : α → Option β} :
    o.bind f = o.bind g ↔ ∀ x ∈ o, f x = g x := by
  cases o <;> simp

theorem forall_references {c : Chain} {P : Role × String → Prop} :
    (∀ ref ∈ c.references, P ref) ↔ (∀ n ∈ c.moduleReference?, P (.moduleDefinition, n)) ∧
      (∀ n ∈ c.tableReference?, P (.methodTable, n)) ∧ ∀ n ∈ c.functionReferences,
      P (.interfaceFunction, n) := by
  simp only [Chain.references, List.forall_mem_append, List.forall_mem_map, Option.mem_toList,
    Option.mem_def, and_assoc]

/-- A chain stays the same among more parts exactly if each of its names stands for the same
part. -/
theorem link_same_iff
    (hmore : ∀ name, (alone.named? .interfaceFunction name).isSome →
      (whole.named? .interfaceFunction name).isSome) :
    ((link whole init).moduleDefinition = (link alone init).moduleDefinition ∧
      (link whole init).methodTable = (link alone init).methodTable ∧
        (link whole init).functions = (link alone init).functions) ↔
      ∀ ref ∈ (link alone init).references,
      whole.named? ref.1 ref.2 = alone.named? ref.1 ref.2 := by
  have hcreated : (link whole init).moduleReference? = (link alone init).moduleReference? := by
    simp only [Chain.moduleReference?, initFunction_link]
  rw [forall_references, moduleDefinition_link, moduleDefinition_link, hcreated, bind_eq_bind_iff]
  -- Each step of the chain fixes the names that the next one follows.
  refine and_congr_right fun hmodule => ?_
  have hdefinition : (link whole init).moduleDefinition = (link alone init).moduleDefinition := by
    rw [moduleDefinition_link, moduleDefinition_link, hcreated, bind_eq_bind_iff]
    exact hmodule
  have hnamed : (link whole init).tableReference? = (link alone init).tableReference? := by
    rw [Chain.tableReference?, hdefinition, Chain.tableReference?]
  rw [methodTable_link, methodTable_link, hnamed, bind_eq_bind_iff]
  refine and_congr_right fun htable => ?_
  have hlisted : (link whole init).functionReferences = (link alone init).functionReferences := by
    rw [Chain.functionReferences, methodTable_link, hnamed, bind_eq_bind_iff.mpr htable,
      ← methodTable_link, Chain.functionReferences]
  rw [functions_link, functions_link, hlisted, filterMap_eq_iff hmore]

/-! ### Parts of several files -/

variable {E : String → Extraction} {paths ps qs : List String} {path : String} {c : Component}

/-- The last file of a list that holds a part under a name. -/
def lastHolder? (E : String → Extraction) (role : Role) (name : String) (paths : List String) :
    Option String :=
  (paths.filter fun p => ((E p).ofRole role).any fun c => c.name == some name).getLast?

/-- Every part tells the file that it is from. -/
def Located (E : String → Extraction) : Prop :=
  ∀ path role, ∀ c ∈ (E path).ofRole role, c.file = path

theorem ofRole_empty : ({} : Extraction).ofRole role = [] := by cases role <;> rfl

theorem ofRole_merge (es : List Extraction) :
    (merge es).parts.ofRole role = es.flatMap (·.ofRole role) := by
  have hfold : ∀ e : Extraction,
      (es.foldl (· ++ ·) e).ofRole role = e.ofRole role ++ es.flatMap (·.ofRole role) := by
    induction es with
    | nil => simp
    | cons x rest ih =>
      intro e
      have happend : (e ++ x).ofRole role = e.ofRole role ++ x.ofRole role := by cases role <;> rfl
      rw [List.foldl_cons, ih, happend, List.flatMap_cons, List.append_assoc]
  rw [merge, hfold, ofRole_empty, List.nil_append]

theorem mem_chains_merge {es : List Extraction} {c : Chain} : c ∈ (merge es).chains ↔
    ∃ init ∈ (merge es).parts.ofRole .initFunction, link (merge es).parts init = c :=
  List.mem_map

theorem mem_ofRole_merge (hpath : path ∈ paths) (h : c ∈ (merge ([path].map E)).parts.ofRole role) :
    c ∈ (merge (paths.map E)).parts.ofRole role := by
  rw [ofRole_merge, List.flatMap_map] at h ⊢
  exact List.mem_flatMap.mpr ⟨path, hpath, by simpa using h⟩

theorem named?_isSome :
    (e.named? role name).isSome = (e.ofRole role).any fun c => c.name == some name := by
  rw [Extraction.named?, Bool.eq_iff_iff, List.getLast?_isSome, List.any_eq_true]
  simp

theorem findSome?_eq_bind {α β : Type} (f : α → Option β) (xs : List α) :
    xs.findSome? f = (xs.find? fun x => (f x).isSome).bind f := by
  induction xs with
  | nil => rfl
  | cons x rest ih => cases hx : f x <;> simp [hx, ih]

/-- Among the parts of several files a name stands for what it stands for in the last file that
holds it. -/
theorem named?_merge : (merge (paths.map E)).parts.named? role name =
    (lastHolder? E role name paths).bind fun p => (E p).named? role name := by
  rw [Extraction.named?, ofRole_merge, List.flatMap_map, List.filter_flatMap, List.getLast?_flatMap,
    lastHolder?, List.getLast?_filter]
  simp only [← named?_isSome]
  exact findSome?_eq_bind _ _

theorem lastHolder?_eq (hE : Located E) :
    lastHolder? E role name paths =
    ((merge (paths.map E)).parts.named? role name).map (·.file) := by
  rw [named?_merge]
  cases hlast : lastHolder? E role name paths with
  | none => rfl
  | some p =>
    have hholds : ((E p).named? role name).isSome := by
      rw [named?_isSome]
      exact (List.mem_filter.mp (List.mem_of_getLast? hlast)).2
    obtain ⟨c, hc⟩ := Option.isSome_iff_exists.mp hholds
    have hfile : c.file = p := hE p role c (List.mem_filter.mp (List.mem_of_getLast? hc)).1
    rw [Option.bind_some, hc, Option.map_some, hfile]

theorem named?_merge_eq_iff (hE : Located E) :
    (merge (ps.map E)).parts.named? role name = (merge (qs.map E)).parts.named? role name ↔
      lastHolder? E role name ps = lastHolder? E role name qs := by
  constructor
  · intro h
    rw [lastHolder?_eq hE, lastHolder?_eq hE, h]
  · intro h
    rw [named?_merge, named?_merge, h]

/-- What one of the files holds, the list holds. -/
theorem named?_merge_isSome (hpath : path ∈ paths)
    (h : ((merge ([path].map E)).parts.named? role name).isSome) :
    ((merge (paths.map E)).parts.named? role name).isSome := by
  rw [named?_isSome, List.any_eq_true] at h ⊢
  obtain ⟨c, hc, hname⟩ := h
  exact ⟨c, mem_ofRole_merge hpath hc, hname⟩

/-! ### Files -/

/-- The parts of a file, none if it cannot be read. -/
def extractionOf (fs : Files) (parse : Parser) (path : String) : Extraction :=
  (extractFile fs parse path).toOption.getD {}

/-- A part is made of one of the nodes, under the name of a variable or a function that the node
gives. -/
def MadeOf (src : Source) (path : String) (role : Role) (nodes : List Tree) (c : Component) :
    Prop :=
  ∃ t ∈ nodes, ∃ n, (n = variableName? src t ∨ n = functionName? src t) ∧
    component src path role n t = c

theorem madeOf_of_mem_declarationsOf {src : Source} {nodes : List Tree}
    (h : c ∈ declarationsOf src path role nodes) : MadeOf src path role nodes c := by
  obtain ⟨t, ht, hc⟩ := List.mem_filterMap.mp h
  obtain ⟨-, hc⟩ := Option.ite_none_right_eq_some.mp hc
  exact ⟨t, ht, _, .inl rfl, Option.some.inj hc⟩

theorem madeOf_of_mem_functionsOf {src : Source} {test : String → Tree → Bool} {nodes : List Tree}
    (h : c ∈ functionsOf src path role test nodes) : MadeOf src path role nodes c := by
  obtain ⟨t, ht, hc⟩ := List.mem_filterMap.mp h
  obtain ⟨-, hc⟩ := Option.ite_none_right_eq_some.mp hc
  cases hname : functionName? src t with
  | none => simp [hname] at hc
  | some n =>
    rw [hname] at hc
    obtain ⟨-, hc⟩ := Option.ite_none_right_eq_some.mp hc
    exact ⟨t, ht, _, .inr hname.symm, Option.some.inj hc⟩

theorem madeOf_of_mem_extract {src : Source} {root : Tree}
    (h : c ∈ (extract src path root).ofRole role) :
    MadeOf src path role root.walk c := by
  cases role with
  | methodTable => exact madeOf_of_mem_declarationsOf h
  | moduleDefinition => exact madeOf_of_mem_declarationsOf h
  | initFunction => exact madeOf_of_mem_functionsOf h
  | interfaceFunction => exact madeOf_of_mem_functionsOf h

theorem extractFile_eq_ok {fs : Files} {parse : Parser} (h : extractFile fs parse path = .ok e) :
    ∃ text p, fs.read .drop path = .ok text ∧ parse text = some p ∧
    extract ⟨text⟩ path p.root = e := by
  unfold extractFile at h
  cases hread : fs.read .drop path with
  | error fault =>
    rw [hread] at h
    cases h
  | ok text =>
    rw [hread] at h
    simp only [Except.mapError, bind, Except.bind] at h
    cases hparse : parse text with
    | none =>
      rw [hparse] at h
      cases h
    | some p =>
      rw [hparse] at h
      exact ⟨text, p, rfl, hparse, Except.ok.inj h⟩

theorem located_extractionOf (fs : Files) (parse : Parser) : Located (extractionOf fs parse) := by
  intro path role c hc
  unfold extractionOf at hc
  cases he : extractFile fs parse path with
  | error fault =>
    rw [he] at hc
    have hnone : c ∈ ({} : Extraction).ofRole role := hc
    rw [ofRole_empty] at hnone
    cases hnone
  | ok e =>
    obtain ⟨text, p, -, -, rfl⟩ := extractFile_eq_ok he
    rw [he] at hc
    obtain ⟨t, -, n, -, rfl⟩ := madeOf_of_mem_extract hc
    rfl

theorem mapM_eq_ok {ε α β : Type} {f : α → Except ε β} {g : α → β} {xs : List α}
    (h : ∀ x ∈ xs, f x = .ok (g x)) :
    xs.mapM f = .ok (xs.map g) := by
  induction xs with
  | nil => rfl
  | cons x rest ih =>
    rw [List.mapM_cons, h x List.mem_cons_self, ih fun y hy => h y (List.mem_cons_of_mem x hy)]
    rfl

theorem ofFiles_eq {fs : Files} {parse : Parser}
    (h : ∀ p ∈ paths, ∃ e, extractFile fs parse p = .ok e) :
    ofFiles fs parse paths = .ok (merge (paths.map (extractionOf fs parse))) := by
  have hmap : paths.mapM (extractFile fs parse) = .ok (paths.map (extractionOf fs parse)) := by
    refine mapM_eq_ok fun p hp => ?_
    obtain ⟨e, he⟩ := h p hp
    rw [extractionOf, he]
    rfl
  rw [ofFiles, hmap]
  rfl

/-- If all files of a list can be read, every chain of one of them is among the chains of the list
under the same init function, and it has the same parts there exactly if each name that it follows
is held last by the same file as before. -/
theorem chain_same_iff {fs : Files} {parse : Parser}
    (hread : ∀ p ∈ paths, ∃ e, extractFile fs parse p = .ok e) (hpath : path ∈ paths) :
    ∃ whole alone, ofFiles fs parse paths = .ok whole ∧ ofFiles fs parse [path] = .ok alone ∧
      ∀ c ∈ alone.chains, (∃ d ∈ whole.chains, d.initFunction = c.initFunction) ∧
        ∀ d ∈ whole.chains, d.initFunction = c.initFunction →
          ((d.moduleDefinition = c.moduleDefinition ∧ d.methodTable = c.methodTable ∧
            d.functions = c.functions) ↔
            ∀ ref ∈ c.references, lastHolder? (extractionOf fs parse) ref.1 ref.2 paths =
              lastHolder? (extractionOf fs parse) ref.1 ref.2 [path]) := by
  have hE := located_extractionOf fs parse
  have halone : ∀ p ∈ [path], ∃ e, extractFile fs parse p = .ok e := by simpa using hread path hpath
  refine ⟨_, _, ofFiles_eq hread, ofFiles_eq halone, fun c hc => ?_⟩
  obtain ⟨init, hinit, rfl⟩ := mem_chains_merge.mp hc
  rw [initFunction_link]
  refine ⟨⟨_, mem_chains_merge.mpr ⟨init, mem_ofRole_merge hpath hinit, rfl⟩, initFunction_link⟩,
    fun d hd hsame => ?_⟩
  obtain ⟨init', -, rfl⟩ := mem_chains_merge.mp hd
  rw [initFunction_link] at hsame
  subst hsame
  rw [link_same_iff fun name => named?_merge_isSome hpath]
  simp only [named?_merge_eq_iff hE]

/-- A module with its method table and its init function, and another table of the same name. -/
def registeringText : String :=
  "PyModuleDef m=\x7b0,t\x7d;PyMethodDef t[]=\x7b\x7d;void PyInit_a()\x7bPyModule_Create(&m);\x7d"

def otherTableText : String := "PyMethodDef t[]=\x7b0\x7d;"

/-- The trees of both, down to the declarators. -/
def registeringTree : Tree :=
  .node "translation_unit" 0 76 none [
    .node "declaration" 0 20 none [
      .node "type_identifier" 0 11 (some "type") [],
      .node "init_declarator" 12 19 (some "declarator") [
        .node "identifier" 12 13 (some "declarator") [],
        .node "initializer_list" 14 19 (some "value") []]],
    .node "declaration" 20 39 none [
      .node "type_identifier" 20 31 (some "type") [],
      .node "init_declarator" 32 38 (some "declarator") [
        .node "array_declarator" 32 35 (some "declarator") [
          .node "identifier" 32 33 (some "declarator") []],
        .node "initializer_list" 36 38 (some "value") []]],
    .node "function_definition" 39 76 none [
      .node "primitive_type" 39 43 (some "type") [],
      .node "function_declarator" 44 54 (some "declarator") [
        .node "identifier" 44 52 (some "declarator") [],
        .node "parameter_list" 52 54 (some "parameters") []],
      .node "compound_statement" 54 76 (some "body") []]]

def otherTableTree : Tree :=
  .node "translation_unit" 0 20 none [
    .node "declaration" 0 20 none [
      .node "type_identifier" 0 11 (some "type") [],
      .node "init_declarator" 12 19 (some "declarator") [
        .node "array_declarator" 12 15 (some "declarator") [
          .node "identifier" 12 13 (some "declarator") []],
        .node "initializer_list" 16 19 (some "value") []]]]

def sharedNameFiles : Files :=
  { contents := ⟨[("/a.c", registeringText.toUTF8), ("/b.c", otherTableText.toUTF8)]⟩ }

def sharedNameParser : Parser := fun text =>
  some ⟨if text = otherTableText then otherTableTree else registeringTree, false⟩

def registeringParts : Extraction where
  methodTables := [⟨.methodTable, some "t", "PyMethodDef t[]=\x7b\x7d;", "/a.c", 1, 1, 20, 39⟩]
  moduleDefinitions :=
    [⟨.moduleDefinition, some "m", "PyModuleDef m=\x7b0,t\x7d;", "/a.c", 1, 1, 0, 20⟩]
  initFunctions := [
    ⟨.initFunction, some "PyInit_a", "void PyInit_a()\x7bPyModule_Create(&m);\x7d", "/a.c", 1, 1,
      39, 76⟩]

def otherTableParts : Extraction where
  methodTables := [⟨.methodTable, some "t", "PyMethodDef t[]=\x7b0\x7d;", "/b.c", 1, 1, 0, 20⟩]

theorem eq_ok_of_toOption {ε α : Type} {x : Except ε α} {a : α} (h : x.toOption = some a) :
    x = .ok a := by
  cases x with
  | error _ => cases h
  | ok b =>
    cases h
    rfl

theorem extractFile_registering :
    extractFile sharedNameFiles sharedNameParser "/a.c" = .ok registeringParts :=
  eq_ok_of_toOption (by decide +kernel)

theorem extractFile_otherTable :
    extractFile sharedNameFiles sharedNameParser "/b.c" = .ok otherTableParts :=
  eq_ok_of_toOption (by decide +kernel)

theorem extractionOf_registering :
    extractionOf sharedNameFiles sharedNameParser "/a.c" = registeringParts := by
  rw [extractionOf, extractFile_registering]
  rfl

theorem extractionOf_otherTable :
    extractionOf sharedNameFiles sharedNameParser "/b.c" = otherTableParts := by
  rw [extractionOf, extractFile_otherTable]
  rfl

/-- The file that stands last keeps its table. -/
theorem chain_same_sharedName :
    (∀ p ∈ ["/b.c", "/a.c"], ∃ e, extractFile sharedNameFiles sharedNameParser p = .ok e) ∧
    "/a.c" ∈ ["/b.c", "/a.c"] ∧ ∃ whole alone,
      ofFiles sharedNameFiles sharedNameParser ["/b.c", "/a.c"] = .ok whole ∧
      ofFiles sharedNameFiles sharedNameParser ["/a.c"] = .ok alone ∧
      ∃ c ∈ alone.chains, c.moduleDefinition.isSome ∧ c.methodTable.isSome ∧ ∃ d ∈ whole.chains,
        d.initFunction = c.initFunction ∧ d.moduleDefinition = c.moduleDefinition ∧
        d.methodTable = c.methodTable ∧
          d.functions = c.functions := by
  have hread : ∀ p ∈ ["/b.c", "/a.c"],
      ∃ e, extractFile sharedNameFiles sharedNameParser p = .ok e := by
    simp [extractFile_registering, extractFile_otherTable]
  have hpath : "/a.c" ∈ ["/b.c", "/a.c"] := by simp
  obtain ⟨whole, alone, hwhole, halone, hchains⟩ := chain_same_iff hread hpath
  have hparts : alone = merge [registeringParts] := by
    have hof : ofFiles sharedNameFiles sharedNameParser ["/a.c"] =
        .ok (merge (["/a.c"].map (extractionOf sharedNameFiles sharedNameParser))) :=
      ofFiles_eq (by simp [extractFile_registering])
    rw [halone, List.map_singleton, extractionOf_registering] at hof
    exact Except.ok.inj hof
  have hcomplete : ∃ c ∈ alone.chains, c.moduleDefinition.isSome ∧ c.methodTable.isSome ∧
      c.references = [(.moduleDefinition, "m"), (.methodTable, "t")] := by
    rw [hparts]
    decide +kernel
  obtain ⟨c, hc, hmodule, htable, href⟩ := hcomplete
  obtain ⟨⟨d, hd, hinit⟩, hsame⟩ := hchains c hc
  refine ⟨hread, hpath, whole, alone, hwhole, halone, c, hc, hmodule, htable, d, hd, hinit,
    (hsame d hd hinit).mpr ?_⟩
  rw [href]
  simp only [lastHolder?, List.filter_cons, List.filter_nil, extractionOf_otherTable,
    extractionOf_registering]
  decide +kernel

/-- The file that stands first loses its table to the other one. -/
theorem exists_chain_taken_over : ∃ whole alone,
    ofFiles sharedNameFiles sharedNameParser ["/a.c", "/b.c"] = .ok whole ∧
    ofFiles sharedNameFiles sharedNameParser ["/a.c"] = .ok alone ∧
    ∃ c ∈ alone.chains, c.moduleDefinition.isSome ∧ c.methodTable.isSome ∧
      (∃ d ∈ whole.chains, d.initFunction = c.initFunction) ∧
      ∀ d ∈ whole.chains, d.initFunction = c.initFunction → d.methodTable ≠ c.methodTable := by
  refine ⟨_, _, ofFiles_eq ?_, ofFiles_eq ?_, ?_⟩
  · simp [extractFile_registering, extractFile_otherTable]
  · simp [extractFile_registering]
  · simp only [List.map_cons, List.map_nil, extractionOf_registering, extractionOf_otherTable]
    decide +kernel

end CrossCall.Registration

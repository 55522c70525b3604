import CrossCall.Proofs.FileLocality
import CrossCall.Proofs.Occurrence

/-! The helpers of a call: for every function that the statements around it call, all definitions
that the files have under that name, and nothing else. The names stand in the order of the calls,
the definitions of one name in the order of the files and of their places. -/
namespace CrossCall.Embedding

open CrossCall.Flow (Bench bind_eq_ok map_eq_ok find?_eq_some_of_single exists_ok_of_toOption)

variable {parse : Parser} {src : Source} {text name s : String} {root t : Tree} {cs : List Tree}
  {fs : Files} {paths : List String} {file : String × String} {ds : List Definition}
  {names : List String} {c : Call}

/-! ### Called names -/

/-- The callee of a call expression, where it is an identifier. -/
def identifierCallee? (src : Source) (t : Tree) : Option String :=
  (t.childByField? "function").bind fun c => if c.kind = "identifier" then src.textOf? c else none

/-- The identifiers that are called anywhere in a text, in the order of the calls. -/
def namesCalled (parse : Parser) (text : String) : List String :=
  (parse text).elim [] fun p =>
    (p.root.preorder.filter fun t => t.kind == "call_expression").filterMap
      (identifierCallee? ⟨text⟩)

/-- Does a text reach into a record, directly or through a pointer? -/
def isMemberAccess (s : String) : Bool := s.toList.any fun ch => ch == '.' || ch == '>'

/-- What the grammar says of a node. An identifier or a member that stands directly in a call
expression is what is called, and the operator of a member access occurs in no identifier. -/
structure Grammatical (src : Source) (t : Tree) : Prop where
  function : t.kind = "call_expression" → ∀ c ∈ t.children, c.kind = "identifier" ∨
    c.kind = "field_expression" → c.field = some "function"
  single : t.kind = "call_expression" →
    (t.children.filter fun c => c.field == some "function").length ≤ 1
  identifier : t.kind = "identifier" → ∀ s ∈ src.textOf? t, isMemberAccess s = false
  member : t.kind = "field_expression" → ∀ s ∈ src.textOf? t, isMemberAccess s = true

instance (src : Source) (t : Tree) : Decidable (Grammatical src t) :=
  decidable_of_iff
    ((t.kind = "call_expression" → ∀ c ∈ t.children, c.kind = "identifier" ∨
      c.kind = "field_expression" → c.field = some "function") ∧
    (t.kind = "call_expression" →
      (t.children.filter fun c => c.field == some "function").length ≤ 1) ∧
    (t.kind = "identifier" → ∀ s ∈ src.textOf? t, isMemberAccess s = false) ∧
    (t.kind = "field_expression" → ∀ s ∈ src.textOf? t, isMemberAccess s = true))
    ⟨fun ⟨h₁, h₂, h₃, h₄⟩ => ⟨h₁, h₂, h₃, h₄⟩, fun ⟨h₁, h₂, h₃, h₄⟩ => ⟨h₁, h₂, h₃, h₄⟩⟩

/-- All nodes of all trees are as the grammar says. -/
def FollowsGrammar (parse : Parser) : Prop :=
  ∀ text p, parse text = some p → ∀ t ∈ p.root.preorder, Grammatical ⟨text⟩ t

theorem decoded_eq_ok : decoded src t = .ok s ↔ src.textOf? t = some s := by
  unfold decoded
  cases src.textOf? t <;> simp

theorem Grammatical.callee (h : Grammatical src t) (hk : t.kind = "call_expression") {c : Tree}
    (hc : c ∈ t.children) (hkind : c.kind = "identifier" ∨ c.kind = "field_expression") :
    t.childByField? "function" = some c :=
  find?_eq_some_of_single (h.single hk) hc (by simp [h.function hk c hc hkind])

/-- A callee is an identifier, or it is none that could be defined. -/
theorem calleeName_cases (hg : ∀ t ∈ root.preorder, Grammatical src t) (ht : t ∈ root.preorder)
    (hk : t.kind = "call_expression") (h : calleeName src t = .ok s) :
    identifierCallee? src t = some s ∨ identifierCallee? src t = none ∧
    (s = "" ∨ isMemberAccess s = true) := by
  unfold calleeName at h
  cases hfind : t.children.find? fun c =>
    c.kind == "identifier" || c.kind == "field_expression" with
  | none =>
    rw [hfind] at h
    cases h
    refine .inr ⟨?_, .inl rfl⟩
    unfold identifierCallee?
    cases hf : t.childByField? "function" with
    | none => rfl
    | some c =>
      have hc := List.find?_eq_none.mp hfind c (List.mem_of_find?_eq_some hf)
      simp only [Bool.or_eq_true, beq_iff_eq, not_or] at hc
      simp [hc.1]
  | some c =>
    rw [hfind] at h
    have hmem := List.mem_of_find?_eq_some hfind
    have hkind : c.kind = "identifier" ∨ c.kind = "field_expression" := by
      simpa using List.find?_some hfind
    have hs := decoded_eq_ok.mp h
    rw [identifierCallee?, (hg t ht).callee hk hmem hkind, Option.bind_some]
    rcases hkind with hid | hfield
    · exact .inl (by rw [if_pos hid, hs])
    · refine .inr ⟨by rw [hfield]; rfl, .inr ?_⟩
      have hc := Tree.mem_preorder_trans (Tree.child_mem_preorder hmem) root ht
      exact (hg c hc).member hfield s hs

theorem parseText_eq_ok :
    parseText parse text = .ok root ↔ ∃ p, parse text = some p ∧ p.root = root := by
  unfold parseText
  cases parse text <;> simp

/-- Of the called names those count that may be defined. -/
theorem filter_calledNames (hparse : FollowsGrammar parse) {P : String → Bool}
    (hempty : P "" = false) (hmember : ∀ s, isMemberAccess s = true → P s = false)
    (h : calledNames parse text = .ok names) :
    names.filter P = (namesCalled parse text).filter P := by
  obtain ⟨root, hroot, h⟩ := bind_eq_ok.mp h
  obtain ⟨calls, hcalls, h⟩ := bind_eq_ok.mp h
  cases h
  obtain ⟨p, hp, rfl⟩ := parseText_eq_ok.mp hroot
  have hvalue : ∀ t call, (do pure (t, ← calleeName ⟨text⟩ t) : Except Fault (Tree × String)) =
      .ok call → (t, valueOf (calleeName ⟨text⟩ t)) = call := by
    intro t call h
    obtain ⟨s, hs, h⟩ := bind_eq_ok.mp h
    cases h
    rw [valueOf_eq hs]
  obtain ⟨hnamed, rfl⟩ := (mapM_eq_ok_iff hvalue).mp hcalls
  -- Calls without a name are dropped before the look-up, which would not find them.
  have hkept : ∀ s, (P s && !s.isEmpty) = P s := by
    intro s
    cases hs : s.isEmpty with
    | true => rw [String.isEmpty_iff.mp hs, hempty]; rfl
    | false => simp
  rw [namesCalled, hp, Option.elim_some, List.map_map, List.filter_filter, List.filter_filterMap]
  simp only [hkept]
  rw [← List.filterMap_eq_map, List.filter_filterMap]
  refine List.filterMap_congr fun t ht => ?_
  obtain ⟨htree, hk⟩ := List.mem_filter.mp ht
  obtain ⟨call, hcall⟩ := hnamed t ht
  obtain ⟨s, hs, -⟩ := bind_eq_ok.mp hcall
  simp only [Function.comp_apply, valueOf_eq hs]
  rcases calleeName_cases (hparse text p hp) htree (by simpa using hk) hs with hid | ⟨hnone, hout⟩
  · rw [hid]
  · have hP : P s = false := hout.elim (fun h => h ▸ hempty) (hmember s)
    simp [hnone, Option.filter, hP]

/-! ### Defined names -/

mutual

/-- The function declarators in a declarator, pointers taken off. -/
def functionDeclarators : Tree → List Tree
  | .node k a b f cs =>
    if k = "function_declarator" then [.node k a b f cs]
    else if k = "pointer_declarator" then functionDeclaratorsAmong cs
    else []

def functionDeclaratorsAmong : List Tree → List Tree
  | [] => []
  | t :: ts => functionDeclarators t ++ functionDeclaratorsAmong ts

end

/-- The name in a function declarator: the identifier that stands first in it. -/
def declaredIn? (src : Source) (t : Tree) : Option String :=
  ((t.children.find? fun c => c.kind == "identifier").bind src.textOf?).filter fun s => !s.isEmpty

/-- The name that a function definition defines. -/
def nameDefined? (src : Source) (t : Tree) : Option String :=
  (functionDeclaratorsAmong t.children).findSome? (declaredIn? src)

/-- The definition that a node of a file gives, if it names one. -/
def definitionOf? (src : Source) (file : String) (t : Tree) : Option Definition := do
  let name ← nameDefined? src t
  let code ← src.textOf? t
  pure { name := name, file := file, line := (src.point t.start).row + 1, code := code }

/-- The definitions in a file, in the order of their places. -/
def definitionsOf (parse : Parser) (file : String × String) : List Definition :=
  (parse file.2).elim [] fun p =>
    (p.root.preorder.filter fun t => t.kind == "function_definition").filterMap
      (definitionOf? ⟨file.2⟩ file.1)

theorem declaratorName_eq (h : declaratorName src t = .ok s) :
    declaredIn? src t = if s.isEmpty then none else some s := by
  unfold declaratorName at h
  unfold declaredIn?
  cases hfind : t.children.find? fun c => c.kind == "identifier" with
  | none =>
    rw [hfind] at h
    cases h
    rfl
  | some c =>
    rw [hfind] at h
    rw [Option.bind_some, decoded_eq_ok.mp h]
    cases hs : s.isEmpty <;> simp [Option.filter, hs]

mutual

theorem nameIn_eq : (t : Tree) → (s : String) → nameIn src t = .ok s →
    (functionDeclarators t).findSome? (declaredIn? src) = if s.isEmpty then none else some s
  | .node k a b f cs, s, h => by
    rw [nameIn] at h
    rw [functionDeclarators]
    by_cases hk : k = "function_declarator"
    · rw [if_pos hk] at h ⊢
      rw [List.findSome?_singleton]
      exact declaratorName_eq h
    · rw [if_neg hk] at h ⊢
      by_cases hp : k = "pointer_declarator"
      · rw [if_pos hp] at h ⊢
        exact nameAmong_eq cs s h
      · rw [if_neg hp] at h ⊢
        cases h
        rfl

theorem nameAmong_eq : (cs : List Tree) → (s : String) → nameAmong src cs = .ok s →
    (functionDeclaratorsAmong cs).findSome? (declaredIn? src) = if s.isEmpty then none else some s
  | [], s, h => by
    cases h
    rfl
  | t :: ts, s, h => by
    rw [nameAmong] at h
    obtain ⟨first, hfirst, h⟩ := bind_eq_ok.mp h
    rw [functionDeclaratorsAmong, List.findSome?_append, nameIn_eq t first hfirst]
    cases hempty : first.isEmpty with
    | true =>
      rw [if_pos hempty] at h
      rw [if_pos rfl, Option.none_or]
      exact nameAmong_eq ts s h
    | false =>
      rw [if_neg (by simp [hempty])] at h
      cases h
      rw [if_neg (by simp), hempty]
      rfl

end

theorem definitionAt_eq {file : String} (h : definitionAt src file t = .ok ds) :
    (definitionOf? src file t).toList = ds := by
  obtain ⟨name, hname, h⟩ := bind_eq_ok.mp h
  rw [definitionOf?, nameDefined?, nameAmong_eq _ _ hname]
  cases hempty : name.isEmpty with
  | true =>
    rw [if_pos hempty] at h
    cases h
    rfl
  | false =>
    rw [if_neg (by simp [hempty])] at h
    obtain ⟨code, hcode, h⟩ := bind_eq_ok.mp h
    cases h
    rw [decoded_eq_ok.mp hcode]
    rfl

/-- The definitions that are listed for a file are those in its text. -/
theorem definitionsIn_eq (h : definitionsIn parse file = .ok ds) :
    ds = definitionsOf parse file := by
  obtain ⟨root, hroot, h⟩ := bind_eq_ok.mp h
  obtain ⟨found, hfound, h⟩ := bind_eq_ok.mp h
  cases h
  obtain ⟨p, hp, rfl⟩ := parseText_eq_ok.mp hroot
  obtain ⟨-, rfl⟩ := (mapM_eq_ok_iff fun t ds => definitionAt_eq).mp hfound
  rw [definitionsOf, hp, Option.elim_some, List.filterMap_eq_flatMap_toList]
  rfl

mutual

theorem functionDeclarators_subset : (t d : Tree) → d ∈ functionDeclarators t → d ∈ t.preorder
  | .node k a b f cs, d, h => by
    rw [functionDeclarators] at h
    split at h
    · obtain rfl := List.mem_singleton.mp h
      exact Tree.mem_preorder_self _
    · split at h
      · exact List.mem_cons_of_mem _ (functionDeclaratorsAmong_subset cs d h)
      · cases h

theorem functionDeclaratorsAmong_subset :
    (cs : List Tree) → (d : Tree) → d ∈ functionDeclaratorsAmong cs →
    d ∈ Tree.preorderAll cs
  | t :: ts, d, h => by
    rcases List.mem_append.mp h with h | h
    · exact List.mem_append_left _ (functionDeclarators_subset t d h)
    · exact List.mem_append_right _ (functionDeclaratorsAmong_subset ts d h)

end

/-- A defined name is the text of an identifier, and not empty. -/
theorem exists_identifier (h : nameDefined? src t = some name) :
    name ≠ "" ∧ ∃ x ∈ t.preorder, x.kind = "identifier" ∧ src.textOf? x = some name := by
  obtain ⟨d, hd, h⟩ := List.exists_of_findSome?_eq_some h
  obtain ⟨h, hname⟩ := Option.filter_eq_some_iff.mp h
  obtain ⟨x, hx, htext⟩ := Option.bind_eq_some_iff.mp h
  have hbelow : d ∈ t.preorder := by
    obtain ⟨k, a, b, f, cs⟩ := t
    exact List.mem_cons_of_mem _ (functionDeclaratorsAmong_subset cs d hd)
  have hmem := Tree.child_mem_preorder (List.mem_of_find?_eq_some hx)
  refine ⟨?_, x, Tree.mem_preorder_trans hmem t hbelow, by simpa using List.find?_some hx, htext⟩
  rintro rfl
  exact absurd hname (by decide)

theorem name_of_mem_definitionsOf (hparse : FollowsGrammar parse) {d : Definition}
    (hd : d ∈ definitionsOf parse file) : d.name ≠ "" ∧ isMemberAccess d.name = false := by
  unfold definitionsOf at hd
  cases hp : parse file.2 with
  | none =>
    rw [hp] at hd
    cases hd
  | some p =>
    rw [hp, Option.elim_some] at hd
    obtain ⟨t, ht, hd⟩ := List.mem_filterMap.mp hd
    obtain ⟨name, hname, hd⟩ := Option.bind_eq_some_iff.mp hd
    obtain ⟨code, -, hd⟩ := Option.bind_eq_some_iff.mp hd
    cases hd
    obtain ⟨hne, x, hx, hk, htext⟩ := exists_identifier hname
    have htree := Tree.mem_preorder_trans hx _ (List.mem_filter.mp ht).1
    exact ⟨hne, (hparse _ p hp x htree).identifier hk name htext⟩

/-! ### Look-ups -/

theorem getD_entered (ds : List Definition) (name : String) :
    (ds.foldl enter {}).getD name [] = ds.filter fun d => d.name = name := by
  rw [foldl_enter, Table.getD_collect, List.filterMap_map, ← List.filterMap_eq_filter]
  exact List.filterMap_congr fun d _ => by simp [Option.guard]

theorem contains_entered (ds : List Definition) (name : String) :
    (ds.foldl enter {}).contains name = decide (name ∈ ds.map (·.name)) := by
  induction ds using List.reverseRecOn with
  | nil => rfl
  | append_singleton ds d ih =>
    rw [List.foldl_concat, enter, Table.alter, Table.contains, Table.get?_insert]
    rw [Table.contains] at ih
    by_cases hname : name = d.name
    · simp [hname]
    · simp [hname, ih]

/-- The helpers of a reported call are those that the registry has for its statements. -/
theorem helpers_of_mem (hc : c ∈ (resultAt fs parse paths).calls) :
    helpersOf parse (registryAt fs parse paths) c.context = .ok c.helpers := by
  obtain ⟨d, -, hc⟩ := List.mem_flatMap.mp hc
  cases hcalls : callsFor parse (registryAt fs parse paths) d with
  | error e =>
    rw [hcalls] at hc
    cases hc
  | ok calls =>
    rw [valueOf_eq hcalls] at hc
    obtain ⟨root, -, h⟩ := bind_eq_ok.mp hcalls
    obtain ⟨exprs, -, h⟩ := bind_eq_ok.mp h
    dsimp only at h
    split at h
    · cases h
      cases hc
    · split at h
      · cases h
        cases hc
      · obtain ⟨call, -, h⟩ := exists_of_mem_mapM h hc
        obtain ⟨code, helpers, -, hhelpers, rfl⟩ := describe_eq_ok.mp h
        exact hhelpers

/-- The definitions of the functions that are called, in the order of the calls. -/
def resolved (defs : List Definition) (called : List String) : List Definition :=
  (called.filter fun n => n ∈ defs.map (·.name)).eraseDups.flatMap fun n =>
    defs.filter fun d => d.name = n

theorem helpersOf_entered (hparse : FollowsGrammar parse) {context : List Statement}
    {helpers : List Definition}
    (hdefined : ∀ n ∈ ds.map (·.name), n ≠ "" ∧ isMemberAccess n = false)
    (h : helpersOf parse (ds.foldl enter {}) context = .ok helpers) :
    helpers = resolved ds (context.flatMap fun s => namesCalled parse s.text) := by
  rw [helpersOf_eq] at h
  obtain ⟨names, hnames, h⟩ := map_eq_ok.mp h
  obtain ⟨hcalled, rfl⟩ := (mapM_eq_ok_iff fun s ns => valueOf_eq).mp hnames
  have hfilter : ∀ s ∈ context,
      (valueOf (calledNames parse s.text)).filter (fun n => n ∈ ds.map (·.name)) =
      (namesCalled parse s.text).filter fun n => n ∈ ds.map (·.name) := by
    intro s hs
    obtain ⟨ns, hns⟩ := hcalled s hs
    rw [valueOf_eq hns]
    refine filter_calledNames hparse ?_ ?_ hns
    · exact decide_eq_false fun hn => (hdefined "" hn).1 rfl
    · exact fun n hn => decide_eq_false fun hmem => absurd hn (by simp [(hdefined n hmem).2])
  have hcontains : (ds.foldl enter {}).contains = fun n => decide (n ∈ ds.map (·.name)) :=
    funext (contains_entered ds)
  rw [← h, resolved, unionNames_nil, ← List.flatMap_def, List.filter_flatMap, List.filter_flatMap,
    hcontains, List.flatMap_congr hfilter]
  simp only [getD_entered]

/-- A reported call has exactly the helpers that its statements call: of every called name that some
file defines, all definitions, in the order of the files and of their places, and the names in the
order in which they are first called. -/
theorem helpers_exact (hparse : FollowsGrammar parse) (hpaths : paths.Nodup)
    {text : String → String} (hread : ∀ p ∈ paths, fs.read .drop p = .ok (text p)) {b : Bench}
    {r : Result} (hr : outcome (ofFiles fs parse paths) b = .ok r) (hc : c ∈ r.calls) :
    c.helpers = resolved (paths.flatMap fun p => definitionsOf parse (p, text p))
      (c.context.flatMap fun s => namesCalled parse s.text) := by
  obtain ⟨hsearch, rfl⟩ := (outcome_ofFiles hpaths).mp hr
  have hlisted : ∀ p ∈ paths, definitionsAt fs parse p = definitionsOf parse (p, text p) := by
    intro p hp
    obtain ⟨ds, hds⟩ := (hsearch p hp).listed
    rw [definitionsAt, valueOf_eq hds, definitionsIn_eq hds, textAt, valueOf_eq (hread p hp)]
  have hdefined : ∀ n ∈ (paths.flatMap fun p => definitionsOf parse (p, text p)).map (·.name),
      n ≠ "" ∧ isMemberAccess n = false := by
    intro n hn
    obtain ⟨d, hd, rfl⟩ := List.mem_map.mp hn
    obtain ⟨p, -, hd⟩ := List.mem_flatMap.mp hd
    exact name_of_mem_definitionsOf hparse hd
  have hhelpers := helpers_of_mem hc
  rw [registryAt, List.flatMap_congr hlisted] at hhelpers
  exact helpersOf_entered hparse hdefined hhelpers

theorem followsGrammar_parserOf {trees : Table String Tree}
    (h : ∀ e ∈ trees.entries, ∀ t ∈ e.2.preorder, Grammatical ⟨e.1⟩ t) :
    FollowsGrammar (parserOf trees) := by
  rintro text - ⟨⟩
  rw [Table.getD]
  cases hget : trees.get? text with
  | none =>
    intro t ht
    obtain rfl := List.mem_singleton.mp ht
    constructor <;> exact fun hk => absurd hk (by decide)
  | some root => exact h _ (Table.mem_entries_of_get? hget)

theorem followsGrammar_shared : FollowsGrammar sharedParser := by
  have hall : ∀ e ∈ sharedTrees.entries, ∀ t ∈ e.2.preorder, Grammatical ⟨e.1⟩ t := by
    decide +kernel
  exact followsGrammar_parserOf hall

def sharedText (path : String) : String :=
  if path = "a.c" then "int f()\x7bPyObject_Call(g(g(x)),o.f());\x7d"
  else "int*g()\x7b\x7dint f()\x7bPyObject_Call(y);\x7d"

theorem read_sharedFiles : ∀ p ∈ ["a.c", "b.c"], sharedFiles.read .drop p = .ok (sharedText p) := by
  have hread : ∀ p ∈ ["a.c", "b.c"], (sharedFiles.read .drop p).toOption = some (sharedText p) := by
    decide +kernel
  intro p hp
  have h := hread p hp
  revert h
  cases sharedFiles.read .drop p <;> simp [Except.toOption]

/-- The first file calls `g` twice and a member `f`, and the helper is the `g` of the second file,
once. -/
theorem helpers_exact_nested : FollowsGrammar sharedParser ∧ ["a.c", "b.c"].Nodup ∧
    (∀ p ∈ ["a.c", "b.c"], sharedFiles.read .drop p = .ok (sharedText p)) ∧ ∃ r c,
      outcome (ofFiles sharedFiles sharedParser ["a.c", "b.c"]) {} = .ok r ∧ c ∈ r.calls ∧
      c.file = "a.c" ∧
        (c.helpers.map fun d => (d.name, d.file)) = [("g", "b.c")] ∧
        c.helpers = resolved
          (["a.c", "b.c"].flatMap fun p => definitionsOf sharedParser (p, sharedText p))
          (c.context.flatMap fun s => namesCalled sharedParser s.text) := by
  have hpaths : ["a.c", "b.c"].Nodup := by decide
  obtain ⟨r, hr, hcalls⟩ := exists_ok_of_toOption sharedFiles_calls
  obtain ⟨c, rest, hsplit, hc, -⟩ := List.map_eq_cons_iff.mp hcalls
  have hmem : c ∈ r.calls := hsplit ▸ List.mem_cons_self
  simp only [Prod.mk.injEq] at hc
  exact ⟨followsGrammar_shared, hpaths, read_sharedFiles, r, c, hr, hmem, hc.1, hc.2.2,
    helpers_exact followsGrammar_shared hpaths read_sharedFiles hr hmem⟩

end CrossCall.Embedding

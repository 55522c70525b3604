import CrossCall.Proofs.Occurrence

/-! Which of the names that a declaration or a function declares are its definitions: those that
stand alone in their declarator, those of a parameter that is an array too, and none that other
declarators wrap. -/
namespace CrossCall.Flow

variable {src : Source} {l c d f p x ps : Locus} {v : Vertex} {name k : String}
  {ks js path rest : List String}

/-! ### Declarators -/

/-- The kinds of the declarators that are built around another one. -/
def wrappers : List String :=
  ["pointer_declarator", "array_declarator", "function_declarator", "parenthesized_declarator"]

/-- The declarator at `d` is built around the one at `c`. -/
structure Wraps (d c : Locus) : Prop where
  kind : d.kind ∈ wrappers
  child : c ∈ d.children
  field : c.node.field = some "declarator" ∨ d.kind = "parenthesized_declarator"

/-- The declarator at `d` is that of the variable at `x`, which it wraps in declarators of the kinds
`ks`, the outermost first. -/
inductive Names : Locus → List String → Locus → Prop
  | bare {x : Locus} (hk : x.kind = "identifier") : Names x [] x
  | wrapped {d c x : Locus} {ks : List String} (hw : Wraps d c) (h : Names c ks x) :
      Names d (d.kind :: ks) x

/-- The declarator at `d` is that of a function, and the one at `f`, inside of declarators of the
kinds `js`, holds the parameters: there the function's name stands, at most in brackets. -/
inductive Heads : Locus → List String → Locus → Prop
  | own {f c x : Locus} {ks : List String} (hk : f.kind = "function_declarator") (hw : Wraps f c)
      (h : Names c ks x)
      (hks : ∀ k ∈ ks, k = "parenthesized_declarator") : Heads f [] f
  | wrapped {d c f : Locus} {js : List String} (hw : Wraps d c) (h : Heads c js f) :
      Heads d (d.kind :: js) f

/-- The function at `l` has its parameters at `ps`, below declarators of the kinds `js` and the one
that holds them. -/
def Signature (l : Locus) (js : List String) (ps : Locus) : Prop :=
  ∃ d f, d ∈ l.children ∧ d.node.field = some "declarator" ∧ Heads d js f ∧ ps ∈ f.children ∧
    ps.kind = "parameter_list"

/-- The declaration or function at `l` declares the variable at `x`. Between them stand nodes of the
kinds `path`. -/
inductive Declares (l : Locus) : List String → Locus → Prop
  | plain {d x : Locus} {ks : List String} (hk : l.kind = "declaration") (hd : d ∈ l.children)
      (hf : d.node.field = some "declarator") (h : Names d ks x) : Declares l ks x
  | initialised {i d x : Locus} {ks : List String} (hk : l.kind = "declaration")
      (hi : i ∈ l.children)
      (hf : i.node.field = some "declarator") (hki : i.kind = "init_declarator")
        (hd : Named i "declarator" d)
      (h : Names d ks x) : Declares l ("init_declarator" :: ks) x
  | parameter {ps p d x : Locus} {js ks : List String} (hk : l.kind = "function_definition")
      (hs : Signature l js ps)
      (hp : p ∈ ps.children) (hkp : p.kind = "parameter_declaration") (hd : d ∈ p.children)
      (hf : d.node.field = some "declarator") (h : Names d ks x) :
      Declares l (js ++ "function_declarator" :: "parameter_list" :: "parameter_declaration" :: ks)
      x
  | listed {ps x : Locus} {js : List String} (hk : l.kind = "function_definition")
      (hs : Signature l js ps)
      (hx : x ∈ ps.children) (hkx : x.kind = "identifier") :
      Declares l (js ++ ["function_declarator", "parameter_list"]) x

/-- A function has one declarator with parameters, and that has one list of them. -/
def Signed (t : Tree) : Prop :=
  (t.children.filter fun c => c.kind == "function_declarator").length ≤ 1 ∧
    ∀ c ∈ t.children, (c.children.filter fun p => p.kind == "parameter_list").length ≤ 1

instance (t : Tree) : Decidable (Signed t) := inferInstanceAs (Decidable (_ ∧ _))

/-! ### What stands above a name -/

/-- The kinds of what stands above a position, the parent first. -/
def kindsAbove (x : Locus) : List String := x.above.map (·.1.kind)

theorem exists_parent (h : kindsAbove x = k :: rest) : ∃ t, x.parent? = some t ∧ t.kind = k := by
  obtain ⟨node, above⟩ := x
  cases above with
  | nil => cases h
  | cons a up => exact ⟨a.1, rfl, (List.cons.inj h).1⟩

theorem kindsAbove_child (hc : c ∈ d.children) : kindsAbove c = d.kind :: kindsAbove d := by
  obtain ⟨i, t, -, rfl⟩ := mem_children.mp hc
  rfl

namespace Names

theorem kinds_eq (h : Names d ks x) : kindsAbove x = ks.reverse ++ kindsAbove d := by
  induction h with
  | bare _ => rfl
  | wrapped hw _ ih => simp [ih, kindsAbove_child hw.child]

theorem mem_wrappers (h : Names d ks x) : ∀ k ∈ ks, k ∈ wrappers := by
  induction h with
  | bare _ => simp
  | wrapped hw _ ih => exact List.forall_mem_cons.mpr ⟨hw.kind, ih⟩

theorem identifier (h : Names d ks x) : x.kind = "identifier" := by
  induction h with
  | bare hk => exact hk
  | wrapped _ _ ih => exact ih

theorem mem_preorder (h : Names d ks x) : x ∈ d.preorder := by
  induction h with
  | bare _ => exact mem_preorder_self _
  | wrapped hw _ ih => exact mem_preorder_of_child hw.child ih

theorem eq_of_nil (h : Names d [] x) : d = x := by
  cases h
  rfl

end Names

namespace Heads

theorem kind (h : Heads d js f) : d.kind ∈ wrappers := by
  cases h with
  | own hk _ _ _ => simp [hk, wrappers]
  | wrapped hw _ => exact hw.kind

theorem mem_wrappers (h : Heads d js f) : ∀ j ∈ js, j ∈ wrappers := by
  induction h with
  | own _ _ _ _ => simp
  | wrapped hw _ ih => exact List.forall_mem_cons.mpr ⟨hw.kind, ih⟩

theorem mem_preorder (h : Heads d js f) : f ∈ d.preorder := by
  induction h with
  | own _ _ _ _ => exact mem_preorder_self _
  | wrapped hw _ ih => exact mem_preorder_of_child hw.child ih

end Heads

/-! ### Definitions by what stands above -/

theorem isDefinition_of_wrapper (h : kindsAbove x = k :: rest) (hk : k ∈ wrappers) :
    isDefinition src x =
    .ok (decide (k = "array_declarator" ∧ rest.head? = some "parameter_declaration")) := by
  obtain ⟨t, above⟩ := x
  cases above with
  | nil => cases h
  | cons a up =>
    obtain ⟨hkind, hrest⟩ := List.cons.inj h
    have hup : (Locus.mk t (a :: up)).ancestor? 1 = up.head?.map (·.1) := by
      simp [Locus.ancestor?, List.head?_eq_getElem?]
    simp only [isDefinition, Locus.parent?, List.head?_cons, Option.map_some, hup, hkind, ← hrest,
      List.head?_map]
    simp only [wrappers, List.mem_cons, List.not_mem_nil, or_false] at hk
    rcases hk with rfl | rfl | rfl | rfl <;> simp [Function.comp_def, Bool.beq_eq_decide_eq]

/-- Of the wrapped names only those of arrays among the parameters are given a value. -/
theorem isDefinition_of_names (h : Names d ks x) (hks : ks ≠ []) :
    isDefinition src x = .ok (decide
      (ks = ["array_declarator"] ∧ (kindsAbove d).head? = some "parameter_declaration")) := by
  have hkinds := h.kinds_eq
  have hall := h.mem_wrappers
  -- The last wrapper is the parent, and the one before it, if there is one, hides what is above the
  -- declarator.
  rcases List.eq_nil_or_concat' ks with rfl | ⟨init, k, rfl⟩
  · exact absurd rfl hks
  · rw [List.reverse_append, List.reverse_singleton, List.singleton_append,
      List.cons_append] at hkinds
    rw [isDefinition_of_wrapper hkinds (hall k (by simp))]
    refine congrArg Except.ok (decide_eq_decide.mpr ?_)
    rcases List.eq_nil_or_concat' init with rfl | ⟨init, j, rfl⟩
    · simp
    · refine iff_of_false ?_ fun h => by simpa using congrArg List.length h.1
      rintro ⟨-, hj⟩
      obtain rfl : j = "parameter_declaration" := by simpa using hj
      exact absurd (hall "parameter_declaration" (by simp)) (by decide)

/-! ### Names that are declared -/

/-- What stands between a declaration and the names that it gives a value. -/
def directPaths : List (List String) :=
  [[], ["init_declarator"], ["function_declarator", "parameter_list", "parameter_declaration"],
    ["function_declarator", "parameter_list", "parameter_declaration", "array_declarator"]]

theorem effectVariables_declaration (hk : l.kind = "declaration") :
    effectVariables l = variablesIn l := by
  simp [effectVariables, hk]

theorem effectVariables_function (hk : l.kind = "function_definition") :
    effectVariables l = signatureVariables l := by
  simp [effectVariables, hk]

theorem mem_signatureVariables : x ∈ signatureVariables l ↔ ∃ d ps,
    l.children.find? (fun c => c.kind == "function_declarator") = some d ∧
      d.children.find? (fun c => c.kind == "parameter_list") = some ps ∧ x ∈ ps.preorder ∧
      x.kind = "identifier" := by
  unfold signatureVariables
  cases l.children.find? fun c => c.kind == "function_declarator" with
  | none => simp
  | some d =>
    dsimp only
    cases hps : d.children.find? fun c => c.kind == "parameter_list" with
    | none => simp [hps]
    | some ps => simp [hps]

theorem find?_kind (h : (l.node.children.filter fun c => c.kind == k).length ≤ 1)
    (hc : c ∈ l.children) (hk : c.kind = k) : l.children.find? (fun c => c.kind == k) = some c := by
  refine find?_eq_some_of_single ?_ hc (by simp [hk])
  rw [← map_node_children, List.filter_map, List.length_map] at h
  exact h

/-- The parameters of a function are looked at where its declarator is not wrapped. -/
theorem Signature.mem_iff (hl : Signed l.node) (hs : Signature l js ps) (hx : x ∈ ps.preorder)
    (hk : x.kind = "identifier") : x ∈ signatureVariables l ↔ js = [] := by
  obtain ⟨d, f, hd, -, hheads, hps, hkps⟩ := hs
  rw [mem_signatureVariables]
  constructor
  · rintro ⟨d', ps', hd', hps', hx', -⟩
    have hmem := List.mem_of_find?_eq_some hps'
    have hbelow : x ∈ d.preorder :=
      mem_preorder_trans d f hheads.mem_preorder x (mem_preorder_of_child hps hx)
    obtain rfl :=
      child_unique hd (List.mem_of_find?_eq_some hd') hbelow (mem_preorder_of_child hmem hx')
    cases hheads with
    | own _ _ _ _ => rfl
    | @wrapped _ c _ js hw h =>
      -- The parameters then lie below the inner declarator, and a declarator is no list of
      -- parameters.
      have hinner : x ∈ c.preorder :=
        mem_preorder_trans c f h.mem_preorder x (mem_preorder_of_child hps hx)
      obtain rfl := child_unique hw.child hmem hinner hx'
      have hlist : c.kind = "parameter_list" := by simpa using List.find?_some hps'
      exact absurd (hlist ▸ h.kind) (by decide)
  · rintro rfl
    cases hheads with
    | own hkf _ _ _ =>
      exact ⟨_, ps, find?_kind hl.1 hd hkf, find?_kind (hl.2 _ (node_mem_children hd)) hps hkps, hx,
        hk⟩

theorem Signature.kind (hs : Signature l js ps) : ps.kind = "parameter_list" := by
  obtain ⟨-, -, -, -, -, -, hk⟩ := hs
  exact hk

theorem Signature.mem_wrappers (hs : Signature l js ps) : ∀ j ∈ js, j ∈ wrappers := by
  obtain ⟨d, f, -, -, hheads, -, -⟩ := hs
  exact hheads.mem_wrappers

/-! ### Paths -/

theorem mem_directPaths_wrapped (h : ∀ k ∈ ks, k ∈ wrappers) : ks ∈ directPaths ↔ ks = [] := by
  refine ⟨fun hks => ?_, fun hks => by simp [hks, directPaths]⟩
  simp only [directPaths, List.mem_cons, List.not_mem_nil, or_false] at hks
  rcases hks with rfl | rfl | rfl | rfl
  · rfl
  · exact absurd (h "init_declarator" (by simp)) (by decide)
  · exact absurd (h "parameter_list" (by simp)) (by decide)
  · exact absurd (h "parameter_list" (by simp)) (by decide)

theorem take_wrapped (h : ∀ j ∈ js, j ∈ wrappers) :
    (js ++ "function_declarator" :: "parameter_list" :: rest).take 2 =
    ["function_declarator", "parameter_list"] ↔
      js = [] := by
  rcases js with _ | ⟨j, _ | ⟨k, js⟩⟩
  · simp
  · simp
  · refine iff_of_false (fun heq => ?_) (List.cons_ne_nil _ _)
    obtain ⟨-, rfl⟩ : j = "function_declarator" ∧ k = "parameter_list" := by simpa using heq
    exact absurd (h "parameter_list" (by simp)) (by decide)

theorem take_of_direct (h : path ∈ directPaths) (hlong : 2 ≤ path.length) :
    path.take 2 = ["function_declarator", "parameter_list"] := by
  simp only [directPaths, List.mem_cons, List.not_mem_nil, or_false] at h
  rcases h with rfl | rfl | rfl | rfl
  · simp at hlong
  · simp at hlong
  · rfl
  · rfl

/-! ### Names that count -/

theorem isDefinition_declarator (hk : p.kind = "init_declarator") (h : Named p "declarator" d) :
    isDefinition src d = .ok true := by
  rw [Locus.kind] at hk
  simp [isDefinition, parent?_child h.mem, hk, h.isFieldOfParent]

theorem isDefinition_listed {t : Tree} (hp : x.parent? = some t) (hk : t.kind = "parameter_list") :
    isDefinition src x = .ok false := by
  simp [isDefinition, hp, hk]

theorem Names.given (h : Names d ks x) (hbare : ks = [] → isDefinition src d = .ok true) :
    isDefinition src x = .ok (decide (ks = [] ∨
      ks = ["array_declarator"] ∧ (kindsAbove d).head? = some "parameter_declaration")) := by
  by_cases hks : ks = []
  · subst hks
    rw [← h.eq_of_nil, hbare rfl]
    simp
  · rw [isDefinition_of_names h hks]
    simp [hks]

theorem Names.mem_variablesIn (h : Names d ks x) (hp : p ∈ l.preorder) (hd : d ∈ p.children)
    (hk : p.kind ≠ "call_expression") : x ∈ variablesIn l := by
  have hx : x ∈ l.preorder := mem_preorder_trans l p hp x (mem_preorder_of_child hd h.mem_preorder)
  have hkinds := h.kinds_eq
  rw [kindsAbove_child hd] at hkinds
  cases hrev : ks.reverse with
  | nil =>
    rw [hrev] at hkinds
    obtain ⟨t, ht, hkt⟩ := exists_parent hkinds
    exact CrossCall.Flow.mem_variablesIn hx h.identifier ht (hkt ▸ hk)
  | cons k rest =>
    rw [hrev] at hkinds
    obtain ⟨t, ht, rfl⟩ := exists_parent hkinds
    have hwrapper : t.kind ∈ wrappers :=
      h.mem_wrappers _ (List.mem_reverse.mp (hrev ▸ List.mem_cons_self))
    refine CrossCall.Flow.mem_variablesIn hx h.identifier ht fun hcall => ?_
    exact absurd (hcall ▸ hwrapper) (by decide)

/-- All names of a declaration are looked at, and those of the parameters where the function's
declarator is not wrapped. -/
theorem Declares.mem_iff (hl : l.kind = "function_definition" → Signed l.node)
    (h : Declares l path x) : x ∈ effectVariables l ↔
      l.kind = "declaration" ∨ path.take 2 = ["function_declarator", "parameter_list"] := by
  cases h with
  | plain hk hd _ h =>
    rw [effectVariables_declaration hk]
    exact iff_of_true (h.mem_variablesIn (mem_preorder_self l) hd (by simp [hk])) (.inl hk)
  | initialised hk hi _ hki hd h =>
    rw [effectVariables_declaration hk]
    exact iff_of_true (h.mem_variablesIn (child_mem_preorder hi) hd.mem (by simp [hki])) (.inl hk)
  | parameter hk hs hp _ hd _ h =>
    have hx := mem_preorder_of_child hp (mem_preorder_of_child hd h.mem_preorder)
    rw [effectVariables_function hk, hs.mem_iff (hl hk) hx h.identifier,
      take_wrapped hs.mem_wrappers]
    simp [hk]
  | listed hk hs hx hkx =>
    rw [effectVariables_function hk, hs.mem_iff (hl hk) (child_mem_preorder hx) hkx,
      take_wrapped hs.mem_wrappers]
    simp [hk]

/-- A name that is looked at is given a value exactly on the direct paths. -/
theorem Declares.given (hl : l.kind = "function_definition" → Signed l.node)
    (h : Declares l path x) (hx : x ∈ effectVariables l) :
    isDefinition src x = .ok (decide (path ∈ directPaths)) := by
  rw [h.mem_iff hl] at hx
  cases h with
  | plain hk hd _ h =>
    have hbare : isDefinition src _ = .ok true :=
      isDefinition_of_parent (parent?_child hd) hk (by decide)
    rw [h.given fun _ => hbare, kindsAbove_child hd, hk]
    refine congrArg Except.ok (decide_eq_decide.mpr ?_)
    simp [mem_directPaths_wrapped h.mem_wrappers]
  | initialised hk hi _ hki hd h =>
    have hbare : isDefinition src _ = .ok true := isDefinition_declarator hki hd
    rw [h.given fun _ => hbare, kindsAbove_child hd.mem, hki]
    simp [directPaths]
  | parameter hk hs _ hkp hd _ h =>
    have hjs := hx.resolve_left (by simp [hk])
    rw [take_wrapped hs.mem_wrappers] at hjs
    have hbare : isDefinition src _ = .ok true :=
      isDefinition_of_parent (parent?_child hd) hkp (by decide)
    rw [h.given fun _ => hbare, kindsAbove_child hd, hkp, hjs]
    simp [directPaths]
  | listed hk hs hchild _ =>
    have hjs := hx.resolve_left (by simp [hk])
    rw [take_wrapped hs.mem_wrappers] at hjs
    rw [isDefinition_listed (parent?_child hchild) hs.kind, hjs]
    simp [directPaths]

theorem Declares.kind_ne (h : Declares l path x) : l.kind ≠ "call_expression" := by
  cases h with
  | plain hk _ _ _ | initialised hk _ _ _ _ _ | parameter hk _ _ _ _ _ _ | listed hk _ _ _ =>
    simp [hk]

theorem Declares.mem_of_direct (hl : l.kind = "function_definition" → Signed l.node)
    (h : Declares l path x) (hdirect : path ∈ directPaths) : x ∈ effectVariables l := by
  rw [h.mem_iff hl]
  cases h with
  | plain hk _ _ _ | initialised hk _ _ _ _ _ => exact .inl hk
  | parameter _ _ _ _ _ _ _ | listed _ _ _ _ =>
    refine .inr (take_of_direct hdirect ?_)
    rw [List.length_append]
    exact Nat.le_add_left_of_le (by simp)

/-- A declared name is defined exactly where it stands on a direct path, or where the same name is
given a value at another place of the statement. A name that the statement looks at on any other
path counts as used. -/
theorem declared_iff_direct (hl : l.kind = "function_definition" → Signed l.node)
    (h : Declares l path x) (hv : Vertex.ofLocus src l = .ok v)
    (hname : src.textOf? x.node = some name) :
    (name ∈ v.defs ↔ path ∈ directPaths ∨ ∃ y ∈ effectVariables l, y ≠ x ∧ Occurs src name true y) ∧
      (path ∉ directPaths → l.kind = "declaration" ∨
        path.take 2 = ["function_declarator", "parameter_list"] → name ∈ v.uses) := by
  have hnone : ¬ Handed src l name := fun hh => h.kind_ne hh.1
  rw [mem_defs_ofLocus hv, mem_uses_ofLocus hv, or_iff_left hnone, or_iff_left hnone]
  refine ⟨⟨?_, ?_⟩, ?_⟩
  · rintro ⟨y, hy, hoccurs⟩
    by_cases heq : y = x
    · subst heq
      have hgiven := (h.given hl hy).symm.trans hoccurs.given
      exact .inl (by simpa using hgiven)
    · exact .inr ⟨y, hy, heq, hoccurs⟩
  · rintro (hdirect | ⟨y, hy, -, hoccurs⟩)
    · have hx := h.mem_of_direct hl hdirect
      exact ⟨x, hx, hname, (h.given hl hx).trans (by simp [hdirect])⟩
    · exact ⟨y, hy, hoccurs⟩
  · intro hdirect hplace
    have hx := (h.mem_iff hl).mpr hplace
    exact ⟨x, hx, hname, (h.given hl hx).trans (by simp [hdirect])⟩

/-! ### Two statements -/

def arrayAndPointerSource : Source := ⟨"int f(int a[],int*b)\x7b\x7d"⟩

/-- The function in this text. -/
def arrayAndPointer : Locus where
  node := .node "function_definition" 0 22 none [
    .node "primitive_type" 0 3 (some "type") [],
    .node "function_declarator" 4 20 (some "declarator") [
      .node "identifier" 4 5 (some "declarator") [],
      .node "parameter_list" 5 20 (some "parameters") [
        .node "(" 5 6 none [],
        .node "parameter_declaration" 6 13 none [
          .node "primitive_type" 6 9 (some "type") [],
          .node "array_declarator" 10 13 (some "declarator") [
            .node "identifier" 10 11 (some "declarator") [], .node "[" 11 12 none [],
            .node "]" 12 13 none []]],
        .node "," 13 14 none [],
        .node "parameter_declaration" 14 19 none [
          .node "primitive_type" 14 17 (some "type") [],
          .node "pointer_declarator" 17 19 (some "declarator") [
            .node "*" 17 18 none [], .node "identifier" 18 19 (some "declarator") []]],
        .node ")" 19 20 none []]],
    .node "compound_statement" 20 22 (some "body") [.node "\x7b" 20 21 none [],
      .node "\x7d" 21 22 none []]]

theorem arrayAndPointer_declares :
    (∃ x, Declares arrayAndPointer
      ["function_declarator", "parameter_list", "parameter_declaration", "array_declarator"] x ∧
        arrayAndPointerSource.textOf? x.node = some "a") ∧
    ∃ y, Declares arrayAndPointer
      ["function_declarator", "parameter_list", "parameter_declaration", "pointer_declarator"] y ∧
        arrayAndPointerSource.textOf? y.node = some "b" := by
  have hsignature : Signature arrayAndPointer [] _ := ⟨_, _, child_mem_children (i := 1) rfl, rfl,
    .own rfl ⟨by decide, child_mem_children (i := 0) rfl, .inl rfl⟩ (.bare rfl) (by simp),
    child_mem_children (i := 1) rfl, rfl⟩
  have ha := Declares.parameter rfl hsignature (child_mem_children (i := 1) rfl) rfl
    (child_mem_children (i := 1) rfl)
    rfl (.wrapped ⟨by decide, child_mem_children (i := 0) rfl, .inl rfl⟩ (.bare rfl))
  have hb := Declares.parameter rfl hsignature (child_mem_children (i := 3) rfl) rfl
    (child_mem_children (i := 1) rfl)
    rfl (.wrapped ⟨by decide, child_mem_children (i := 1) rfl, .inl rfl⟩ (.bare rfl))
  exact ⟨⟨_, ha, by decide +kernel⟩, _, hb, by decide +kernel⟩

theorem declared_iff_direct_parameters :
    arrayAndPointer.kind = "function_definition" ∧ Signed arrayAndPointer.node ∧ ∃ x y v,
    Declares arrayAndPointer
      ["function_declarator", "parameter_list", "parameter_declaration", "array_declarator"] x ∧
    Declares arrayAndPointer
      ["function_declarator", "parameter_list", "parameter_declaration", "pointer_declarator"] y ∧
    arrayAndPointerSource.textOf? x.node = some "a" ∧
    arrayAndPointerSource.textOf? y.node = some "b" ∧
    Vertex.ofLocus arrayAndPointerSource arrayAndPointer = .ok v ∧ "a" ∈ v.defs ∧ "b" ∈ v.uses ∧
    "b" ∉ v.defs := by
  have hsigned : Signed arrayAndPointer.node := by decide
  have heval : (Vertex.ofLocus arrayAndPointerSource arrayAndPointer).toOption.map (·.defs) =
      some ["a"] := by
    decide +kernel
  obtain ⟨v, hv, hdefs⟩ := exists_ok_of_toOption heval
  obtain ⟨⟨x, hx, hxname⟩, y, hy, hyname⟩ := arrayAndPointer_declares
  refine ⟨rfl, hsigned, x, y, v, hx, hy, hxname, hyname, hv, ?_, ?_, by simp [hdefs]⟩
  · exact (declared_iff_direct (fun _ => hsigned) hx hv hxname).1.mpr (.inl (by decide))
  · exact (declared_iff_direct (fun _ => hsigned) hy hv hyname).2 (by decide) (.inr rfl)

def pointerDeclarationSource : Source := ⟨"PyObject *r = PyObject_CallObject(f, a);"⟩

def pointerDeclarationTree : Tree :=
  .node "declaration" 0 40 none [
    .node "type_identifier" 0 8 (some "type") [],
    .node "init_declarator" 9 39 (some "declarator") [
      .node "pointer_declarator" 9 11 (some "declarator") [
        .node "*" 9 10 none [], .node "identifier" 10 11 (some "declarator") []],
      .node "=" 12 13 none [],
      .node "call_expression" 14 39 (some "value") [
        .node "identifier" 14 33 (some "function") [],
        .node "argument_list" 33 39 (some "arguments") [
          .node "(" 33 34 none [], .node "identifier" 34 35 none [], .node "," 35 36 none [],
          .node "identifier" 37 38 none [], .node ")" 38 39 none []]]],
    .node ";" 39 40 none []]

/-- The declaration as the only statement of its text. -/
def pointerDeclaration : Locus :=
  Locus.child ⟨.node "translation_unit" 0 40 none [pointerDeclarationTree], []⟩ 0
    pointerDeclarationTree

/-- A pointer that is declared with a value counts as used and not as defined. -/
theorem declared_pointer_used :
    ∃ x v, Declares pointerDeclaration ["init_declarator", "pointer_declarator"] x ∧
    pointerDeclarationSource.textOf? x.node = some "r" ∧
      Vertex.ofLocus pointerDeclarationSource pointerDeclaration = .ok v ∧ "r" ∉ v.defs ∧
      "r" ∈ v.uses := by
  have heval : (Vertex.ofLocus pointerDeclarationSource pointerDeclaration).toOption.map
      (fun v => (v.defs, v.uses)) = some ([], ["r", "f", "a"]) := by decide +kernel
  obtain ⟨v, hv, heffect⟩ := exists_ok_of_toOption heval
  obtain ⟨hdefs, huses⟩ := Prod.mk.inj heffect
  refine ⟨_, v, .initialised rfl (child_mem_children (i := 1) rfl) rfl rfl ⟨0, _, rfl, rfl, rfl⟩
    (.wrapped ⟨by decide, child_mem_children (i := 1) rfl, .inl rfl⟩ (.bare rfl)),
    by decide +kernel, hv, ?_⟩
  simp [hdefs, huses]

end CrossCall.Flow

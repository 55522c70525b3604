import CrossCall.Proofs.CallSearch
import CrossCall.Proofs.Header

/-! Variables among the arguments of a call. Each counts once, as the place says where it stands,
and in both ways only if the statement has it in the other way at another place, or if the vertex is
that of the call expression itself. -/
namespace CrossCall.Flow

variable {src : Source} {l c call x : Locus} {v : Vertex} {name : String} {names : List String}

/-! ### Arguments -/

/-- The variable at `x` is among the arguments of the call at `call`. -/
def ArgumentOf (call x : Locus) : Prop :=
  call.kind = "call_expression" ∧ ∃ args a, Named call "arguments" args ∧ a ∈ args.children ∧
    a.kind ≠ "," ∧ x ∈ a.preorder ∧ IsVariable x

/-- The text is no string and no number. -/
def isName (s : String) : Bool := !s.isEmpty && !s.toList.head?.any (· == '"') && !Text.isNumeral s

/-- The vertex of the statement at `l` speaks for what stands at `c`: for the header of a branching
statement, and for the whole of a case and of any other statement. -/
inductive SpeaksFor (l : Locus) : Locus → Prop
  | header {c : Locus} (hk : l.kind ∈ "for_statement" :: conditionKinds) (hc : HeadPart l c) :
      SpeaksFor l c
  | whole (hk : l.kind ∉ "function_definition" :: "for_statement" :: conditionKinds) : SpeaksFor l l

namespace ArgumentOf

theorem mem_preorder (h : ArgumentOf call x) : x ∈ call.preorder := by
  obtain ⟨-, args, a, hargs, ha, -, hx, -⟩ := h
  exact mem_preorder_of_child hargs.mem (mem_preorder_of_child ha hx)

theorem isVariable (h : ArgumentOf call x) : IsVariable x := by
  obtain ⟨-, args, a, -, -, -, -, hvar⟩ := h
  exact hvar

theorem exists_parent (h : ArgumentOf call x) : ∃ p, x.parent? = some p := by
  obtain ⟨-, args, a, -, ha, -, hx, -⟩ := h
  exact exists_parent_below ha hx

theorem mem_variablesIn (h : ArgumentOf call x) (hcall : call ∈ c.preorder) :
    x ∈ variablesIn c := by
  obtain ⟨p, hp⟩ := h.exists_parent
  have hx := mem_preorder_trans c call hcall x h.mem_preorder
  exact CrossCall.Flow.mem_variablesIn hx h.isVariable.1 hp (h.isVariable.2 p hp)

end ArgumentOf

theorem SpeaksFor.mem_effectVariables (hc : SpeaksFor l c) (hx : x ∈ variablesIn c) :
    x ∈ effectVariables l := by
  cases hc with
  | header hk hc =>
    rcases List.mem_cons.mp hk with hk | hk
    · exact (effectVariables_for hk).mpr ⟨c, hc, hx⟩
    · exact (effectVariables_conditional hk).mpr ⟨c, hc, hx⟩
  | whole hk =>
    have hwhole : effectVariables l = variablesIn l := by
      simp only [conditionKinds, List.mem_cons, List.not_mem_nil, or_false, not_or] at hk
      simp [effectVariables, hk]
    rwa [hwhole]

/-! ### Arguments that are handed over -/

theorem mem_texts {xs : List Locus} (h : (xs.mapM fun x => readText src x.node) = .ok names) :
    name ∈ names ↔ ∃ x ∈ xs, src.textOf? x.node = some name := by
  obtain ⟨hread, rfl⟩ := (Embedding.mapM_eq_ok_iff fun x _ h => Embedding.valueOf_eq h).mp h
  rw [List.mem_map]
  refine exists_congr fun x => and_congr_right fun hx => ?_
  obtain ⟨s, hs⟩ := hread x hx
  rw [Embedding.valueOf_eq hs, readText_eq_ok.mp hs, Option.some.injEq]

theorem mem_argumentNames (hk : l.kind = "call_expression") (h : argumentNames src l = .ok names) :
    name ∈ names ↔ isName name = true ∧ ∃ x, ArgumentOf l x ∧ src.textOf? x.node = some name := by
  have hargument : ∀ x, ArgumentOf l x ↔ ∃ args, Named l "arguments" args ∧
      x ∈ (args.children.filter fun c => c.kind != ",").flatMap variablesIn := by
    intro x
    simp only [ArgumentOf, hk, true_and, List.mem_flatMap, List.mem_filter, bne_iff_ne]
    refine exists_congr fun args => ⟨?_, ?_⟩
    · rintro ⟨a, hargs, ha, hcomma, hx, hvar⟩
      exact ⟨hargs, a, ⟨ha, hcomma⟩, (mem_variablesIn_child ha).mpr ⟨hx, hvar⟩⟩
    · rintro ⟨hargs, a, ⟨ha, hcomma⟩, hx⟩
      obtain ⟨hx, hvar⟩ := (mem_variablesIn_child ha).mp hx
      exact ⟨a, hargs, ha, hcomma, hx, hvar⟩
  unfold argumentNames at h
  cases hargs : l.childByField? "arguments" with
  | none =>
    have hno : ∀ args, ¬ Named l "arguments" args :=
      fun args h => by simp [childByField?_eq_some.mpr h] at hargs
    rw [hargs] at h
    cases h
    simp [hargument, hno]
  | some args =>
    rw [hargs] at h
    obtain ⟨texts, htexts, h⟩ := bind_eq_ok.mp h
    cases h
    have hnamed := childByField?_eq_some.mp hargs
    have hone : ∀ d, Named l "arguments" d ↔ d = args :=
      fun d => ⟨fun hd => hd.unique hnamed, fun hd => hd ▸ hnamed⟩
    simp only [List.mem_filter, mem_texts htexts, hargument, hone, exists_eq_left]
    exact and_comm

/-- A call is handed the names of its own arguments. -/
theorem handed_iff (hv : Vertex.ofLocus src l = .ok v) :
    Handed src l name ↔ isName name = true ∧ ∃ x, ArgumentOf l x ∧
    src.textOf? x.node = some name := by
  constructor
  · rintro ⟨hk, names, hnames, hname⟩
    exact (mem_argumentNames hk hnames).mp hname
  · rintro ⟨hname, x, hx, htext⟩
    obtain ⟨plain, -, h⟩ := bind_eq_ok.mp (effect_ofLocus hv)
    rw [if_pos hx.1] at h
    obtain ⟨names, hnames, -⟩ := bind_eq_ok.mp h
    exact ⟨hx.1, names, hnames, (mem_argumentNames hx.1 hnames).mpr ⟨hname, x, hx, htext⟩⟩

/-! ### Both ways -/

theorem isDefinition_argument (h : parentIs x "argument_list" = true) :
    isDefinition src x = .ok false := by
  obtain ⟨p, hp, hk⟩ : ∃ p, x.parent? = some p ∧ p.kind = "argument_list" := by
    simpa [parentIs] using h
  simp [isDefinition, hp, hk]

/-- A variable among the arguments of a call is defined where it is given a value and used where it
is not, as it is where it is an argument by itself. It counts in both ways exactly if the statement
has it in the other way at another place, or is itself a call expression that is handed it. -/
theorem argument_both_iff (hc : SpeaksFor l c) (hcall : call ∈ c.preorder) (hx : ArgumentOf call x)
    (hname : src.textOf? x.node = some name) (hv : Vertex.ofLocus src l = .ok v) :
    ∃ given, isDefinition src x = .ok given ∧ (parentIs x "argument_list" = true → given = false) ∧
      name ∈ (if given then v.defs else v.uses) ∧
        (name ∈ v.defs ∧ name ∈ v.uses ↔
          (∃ y ∈ effectVariables l, y ≠ x ∧ Occurs src name (!given) y) ∨
            isName name = true ∧ ∃ y, ArgumentOf l y ∧ src.textOf? y.node = some name) := by
  have hmem : x ∈ effectVariables l := hc.mem_effectVariables (hx.mem_variablesIn hcall)
  obtain ⟨given, hgiven⟩ := exists_given hv hmem
  have hhere : ∃ y ∈ effectVariables l, Occurs src name given y := ⟨x, hmem, hname, hgiven⟩
  have hother : (∃ y ∈ effectVariables l, y ≠ x ∧ Occurs src name (!given) y) ↔
      ∃ y ∈ effectVariables l, Occurs src name (!given) y := by
    refine exists_congr fun y => and_congr_right fun _ => and_iff_right_of_imp ?_
    rintro hoccurs rfl
    exact absurd (hgiven.symm.trans hoccurs.given) (by simp)
  refine ⟨given, hgiven, ?_, ?_, ?_⟩
  · intro hparent
    exact Except.ok.inj (hgiven.symm.trans (isDefinition_argument hparent))
  · cases given
    · exact (mem_uses_ofLocus hv).mpr (.inl hhere)
    · exact (mem_defs_ofLocus hv).mpr (.inl hhere)
  · rw [hother, ← handed_iff hv, mem_defs_ofLocus hv, mem_uses_ofLocus hv]
    cases given
    · simp only [hhere, true_or, and_true, Bool.not_false]
    · simp only [hhere, true_or, true_and, Bool.not_true]

/-! ### Two statements -/

def passedOnSource : Source := ⟨"a=f(b,a);"⟩

def passedOnTree : Tree :=
  .node "expression_statement" 0 9 none [
    .node "assignment_expression" 0 8 none [
      .node "identifier" 0 1 (some "left") [], .node "=" 1 2 (some "operator") [],
      .node "call_expression" 2 8 (some "right") [
        .node "identifier" 2 3 (some "function") [],
        .node "argument_list" 3 8 (some "arguments") [
          .node "(" 3 4 none [], .node "identifier" 4 5 none [], .node "," 5 6 none [],
          .node "identifier" 6 7 none [], .node ")" 7 8 none []]]],
    .node ";" 8 9 none []]

/-- The assignment as the only statement of its text. -/
def passedOn : Locus :=
  Locus.child ⟨.node "translation_unit" 0 9 none [passedOnTree], []⟩ 0 passedOnTree

/-- The second argument of the call, and the place that is assigned to under the same name. -/
theorem passedOn_occurrences : (∃ call ∈ passedOn.preorder, ∃ x, ArgumentOf call x ∧
      passedOnSource.textOf? x.node = some "a" ∧ parentIs x "argument_list" = true) ∧
    ∃ y ∈ effectVariables passedOn, parentIs y "argument_list" = false ∧
    Occurs passedOnSource "a" true y := by
  refine ⟨?_, _, List.mem_cons_self, rfl, by decide +kernel, rfl⟩
  refine ⟨_, mem_preorder_of_child (child_mem_children (i := 0) rfl)
    (child_mem_preorder (child_mem_children (i := 2) rfl)), _, ⟨rfl, _, _, ⟨1, _, rfl, rfl, rfl⟩,
      child_mem_children (i := 3) rfl, by decide, mem_preorder_self _, rfl, ?_⟩, by decide +kernel,
      rfl⟩
  rintro p ⟨⟩
  decide

/-- The second argument is assigned to as well, so it counts in both ways. -/
theorem argument_both_iff_passedOn :
    SpeaksFor passedOn passedOn ∧ ∃ call ∈ passedOn.preorder, ∃ x v,
    ArgumentOf call x ∧ passedOnSource.textOf? x.node = some "a" ∧
    Vertex.ofLocus passedOnSource passedOn = .ok v ∧
      "a" ∈ v.defs ∧ "a" ∈ v.uses := by
  have hspeaks : SpeaksFor passedOn passedOn := .whole (by decide)
  have heval : (Vertex.ofLocus passedOnSource passedOn).toOption.map (·.branch) = some false := by
    decide +kernel
  obtain ⟨v, hv, -⟩ := exists_ok_of_toOption heval
  obtain ⟨⟨call, hcall, x, hx, hname, hparent⟩, y, hy, hyparent, hoccurs⟩ := passedOn_occurrences
  obtain ⟨given, -, halone, -, hboth⟩ := argument_both_iff hspeaks hcall hx hname hv
  obtain rfl := halone hparent
  have hne : y ≠ x := by
    rintro rfl
    exact absurd (hyparent.symm.trans hparent) (by decide)
  exact ⟨hspeaks, call, hcall, x, v, hx, hname, hv, hboth.mpr (.inl ⟨y, hy, hne, hoccurs⟩)⟩

def bareCallSource : Source := ⟨"f(a);"⟩

def bareCallTree : Tree :=
  .node "expression_statement" 0 5 none [
    .node "call_expression" 0 4 none [
      .node "identifier" 0 1 (some "function") [],
      .node "argument_list" 1 4 (some "arguments") [
        .node "(" 1 2 none [], .node "identifier" 2 3 none [], .node ")" 3 4 none []]],
    .node ";" 4 5 none []]

/-- The call as the only statement of its text. -/
def bareCall : Locus :=
  Locus.child ⟨.node "translation_unit" 0 5 none [bareCallTree], []⟩ 0 bareCallTree

/-- The argument of a call that is a statement counts as used and not as defined. -/
theorem exists_argument_used_only : ∃ call ∈ bareCall.preorder, ∃ x v, ArgumentOf call x ∧
    bareCallSource.textOf? x.node = some "a" ∧ Vertex.ofLocus bareCallSource bareCall = .ok v ∧
      "a" ∈ v.uses ∧ "a" ∉ v.defs := by
  have heval : (Vertex.ofLocus bareCallSource bareCall).toOption.map (fun v => (v.defs, v.uses)) =
      some ([], ["a"]) := by decide +kernel
  obtain ⟨v, hv, heffect⟩ := exists_ok_of_toOption heval
  obtain ⟨hdefs, huses⟩ := Prod.mk.inj heffect
  refine ⟨_, child_mem_preorder (child_mem_children (i := 0) rfl), _, v,
    ⟨rfl, _, _, ⟨1, _, rfl, rfl, rfl⟩, child_mem_children (i := 1) rfl, by decide,
      mem_preorder_self _, rfl, ?_⟩, by decide +kernel, hv, ?_⟩
  · rintro p ⟨⟩
    decide
  · simp [hdefs, huses]

end CrossCall.Flow

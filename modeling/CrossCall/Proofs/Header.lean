import CrossCall.Proofs.Occurrence

/-! What the head of a branching statement defines and uses. An if, while, for or switch has the
variables of its header and none that only its body has; a case has those of the statements behind
its label too. -/
namespace CrossCall.Flow

variable {src : Source} {l b c x : Locus} {v : Vertex} {name : String}

/-! ### Headers and bodies -/

/-- The statements that have a single condition. -/
def conditionKinds : List String := ["if_statement", "while_statement", "switch_statement"]

/-- The child at `c` belongs to the header of the statement at `l`. -/
inductive HeadPart (l : Locus) : Locus → Prop
  | condition {c : Locus} (hk : l.kind = "if_statement" ∨ l.kind = "while_statement")
      (hc : Named l "condition" c) :
      HeadPart l c
  | value {c : Locus} (hk : l.kind = "switch_statement") (hc : Named l "value" c) : HeadPart l c
  /-- Without a name the condition is what stands before the body. -/
  | unnamed {c : Locus} (hk : l.kind ∈ conditionKinds)
      (hnone : l.node.fieldIndex? (conditionField l.kind) = none)
      (hc : c ∈ l.childrenBefore (bodyField l.kind)) : HeadPart l c
  | clause {c : Locus} (hk : l.kind = "for_statement") (hc : c ∈ l.childrenBefore "body") :
      HeadPart l c
  | label {c : Locus} (hk : l.kind = "case_statement")
      (hc : c ∈ l.children.takeWhile fun c => c.kind != ":") :
      HeadPart l c

/-- The child at `b` belongs to what the header of the statement at `l` lets control into. -/
inductive BodyPart (l : Locus) : Locus → Prop
  | body {b : Locus} (hk : l.kind ∈ conditionKinds ∨ l.kind = "for_statement")
      (hb : Named l (bodyField l.kind) b) :
      BodyPart l b
  | alternative {b c : Locus} (hk : l.kind = "if_statement") (hc : Named l "condition" c)
      (hb : Named l "alternative" b) : BodyPart l b
  | statement {b : Locus} (hk : l.kind = "case_statement")
      (hb : b ∈ l.children.dropWhile fun c => c.kind != ":") :
      BodyPart l b

/-- The node at `x` is an identifier that stands for a variable: right below a call it would name
what is called. -/
def IsVariable (x : Locus) : Prop :=
  x.kind = "identifier" ∧ ∀ p, x.parent? = some p → p.kind ≠ "call_expression"

/-- A variable stands at or below a position. -/
def Mentions (src : Source) (c : Locus) (name : String) : Prop :=
  ∃ x ∈ c.preorder, IsVariable x ∧ src.textOf? x.node = some name

/-! ### Children -/

theorem childByField?_eq_some : l.childByField? name = some c ↔ Named l name c := by
  have hindex : (l.children.findIdx? fun c => c.node.field == some name) =
      l.node.fieldIndex? name := by
    rw [Tree.fieldIndex?, ← map_node_children, List.findIdx?_map]
    rfl
  rw [Locus.childByField?, List.find?_eq_bind_findIdx?_getElem?, hindex]
  simp only [Option.bind_eq_some_iff, getElem?_children, Option.map_eq_some_iff]
  constructor
  · rintro ⟨i, hi, t, ht, rfl⟩
    exact ⟨i, t, hi, ht, rfl⟩
  · rintro ⟨i, t, hi, ht, rfl⟩
    exact ⟨i, hi, t, ht, rfl⟩

theorem Named.field (h : Named l name c) : c.node.field = some name := by
  simpa using List.find?_some (childByField?_eq_some.mpr h)

theorem not_named (h : l.node.fieldIndex? name = none) (c : Locus) : ¬ Named l name c := by
  rintro ⟨i, t, hi, -⟩
  rw [h] at hi
  cases hi

theorem nodup_children (l : Locus) : l.children.Nodup := by
  rw [List.nodup_iff_getElem?_ne_getElem?]
  intro i j hij hj heq
  rw [List.getElem?_eq_getElem hj, getElem?_children, Option.map_eq_some_iff] at heq
  obtain ⟨t, -, heq⟩ := heq
  simp only [Locus.children, List.getElem_mapIdx, Locus.child, Locus.mk.injEq, List.cons.injEq,
    Prod.mk.injEq] at heq
  exact absurd heq.2.1.2 hij.ne

theorem exists_parent_below (hc : c ∈ l.children) (hx : x ∈ c.preorder) :
    ∃ p, x.parent? = some p := by
  obtain ⟨i, t, -, rfl⟩ := mem_children.mp hc
  obtain ⟨rest, hrest⟩ := above_suffix _ x hx
  cases habove : x.above with
  | nil => simp [habove, Locus.child] at hrest
  | cons a up => exact ⟨a.1, by simp [Locus.parent?, habove]⟩

theorem mem_variablesIn_child (hc : c ∈ l.children) :
    x ∈ variablesIn c ↔ x ∈ c.preorder ∧ IsVariable x := by
  rw [variablesIn, List.mem_filter]
  refine and_congr_right fun hx => ?_
  obtain ⟨p, hp⟩ := exists_parent_below hc hx
  simp [IsVariable, parentIs, hp]

/-! ### The variables of a header -/

theorem HeadPart.mem_children (h : HeadPart l c) : c ∈ l.children := by
  cases h with
  | condition _ hc | value _ hc => exact hc.mem
  | unnamed _ _ hc | clause _ hc | label _ hc => exact (List.takeWhile_sublist _).subset hc

theorem BodyPart.mem_children (h : BodyPart l b) : b ∈ l.children := by
  cases h with
  | body _ hb | alternative _ _ hb => exact hb.mem
  | statement _ hb => exact (List.dropWhile_sublist _).subset hb

theorem headPart_conditional (hk : l.kind ∈ conditionKinds) : HeadPart l c ↔
    Named l (conditionField l.kind) c ∨
      l.node.fieldIndex? (conditionField l.kind) = none ∧
      c ∈ l.childrenBefore (bodyField l.kind) := by
  constructor
  · intro h
    cases h with
    | condition hk hc =>
      exact .inl (by rcases hk with hk | hk <;> simpa [hk, conditionField] using hc)
    | value hk hc => exact .inl (by simpa [hk, conditionField] using hc)
    | unnamed _ hnone hc => exact .inr ⟨hnone, hc⟩
    | clause hk' _ | label hk' _ => simp [hk', conditionKinds] at hk
  · rintro (hc | ⟨hnone, hc⟩)
    · simp only [conditionKinds, List.mem_cons, List.not_mem_nil, or_false] at hk
      rcases hk with hk | hk | hk <;> simp only [hk, conditionField] at hc
      · exact .condition (.inl hk) hc
      · exact .condition (.inr hk) hc
      · exact .value hk hc
    · exact .unnamed hk hnone hc

theorem effectVariables_conditional (hk : l.kind ∈ conditionKinds) :
    x ∈ effectVariables l ↔ ∃ c, HeadPart l c ∧ x ∈ variablesIn c := by
  have hkinds : l.kind = "if_statement" ∨ l.kind = "while_statement" ∨
      l.kind = "switch_statement" := by
    simpa [conditionKinds] using hk
  simp only [headPart_conditional hk, effectVariables, if_pos hkinds]
  rcases named_or_none l (conditionField l.kind) with ⟨c, hc⟩ | hnone
  · rw [childByField?_eq_some.mpr hc]
    constructor
    · exact fun hx => ⟨c, .inl hc, hx⟩
    · rintro ⟨d, hd | ⟨hnone, -⟩, hx⟩
      · rwa [hc.unique hd]
      · exact absurd hc (not_named hnone c)
  · have hnot : l.childByField? (conditionField l.kind) = none :=
      Option.eq_none_iff_forall_ne_some.mpr fun d hd =>
        not_named hnone d (childByField?_eq_some.mp hd)
    simp [hnot, not_named hnone, hnone]

theorem effectVariables_for (hk : l.kind = "for_statement") :
    x ∈ effectVariables l ↔ ∃ c, HeadPart l c ∧ x ∈ variablesIn c := by
  have hhead : ∀ c, HeadPart l c ↔ c ∈ l.childrenBefore "body" := by
    refine fun c => ⟨fun h => ?_, .clause hk⟩
    cases h with
    | clause _ hc => exact hc
    | condition hk' _ | value hk' _ | unnamed hk' _ _ | label hk' _ =>
      simp [hk, conditionKinds] at hk'
  simp [effectVariables, hk, hhead]

theorem variablesIn_children (hk : l.kind ≠ "identifier") :
    x ∈ variablesIn l ↔ ∃ c ∈ l.children, x ∈ variablesIn c := by
  simp only [variablesIn, List.mem_filter]
  constructor
  · rintro ⟨hx, hvar⟩
    rcases mem_preorder.mp hx with rfl | ⟨i, t, ht, hx⟩
    · simp [hk] at hvar
    · exact ⟨l.child i t, child_mem_children ht, hx, hvar⟩
  · rintro ⟨c, hc, hx, hvar⟩
    exact ⟨mem_preorder_of_child hc hx, hvar⟩

theorem effectVariables_case (hk : l.kind = "case_statement") :
    x ∈ effectVariables l ↔ ∃ c, (HeadPart l c ∨ BodyPart l c) ∧ x ∈ variablesIn c := by
  have hwhole : effectVariables l = variablesIn l := by simp [effectVariables, hk]
  rw [hwhole, variablesIn_children (by simp [hk])]
  refine exists_congr fun c => and_congr_left fun _ =>
    ⟨fun hc => ?_, fun hc => hc.elim (·.mem_children) (·.mem_children)⟩
  rw [← List.takeWhile_append_dropWhile (p := fun c => c.kind != ":") (l := l.children),
    List.mem_append] at hc
  exact hc.imp (.label hk) (.statement hk)

/-! ### Header and body apart -/

theorem field_childrenBefore (hc : c ∈ l.childrenBefore name) : c.node.field ≠ some name := by
  simpa using List.mem_takeWhile_imp hc

theorem kind_ne_case (hk : l.kind ∈ conditionKinds) : l.kind ≠ "case_statement" := by
  rintro hcase
  simp [hcase, conditionKinds] at hk

theorem HeadPart.field_ne (hc : HeadPart l c) (hk : l.kind ≠ "case_statement") :
    c.node.field ≠ some (bodyField l.kind) := by
  cases hc with
  | condition _ hc | value _ hc =>
    rw [hc.field, bodyField]
    split <;> decide
  | unnamed _ _ hc => exact field_childrenBefore hc
  | clause hk hc =>
    rw [hk]
    exact field_childrenBefore hc
  | label hk' _ => exact absurd hk' hk

theorem HeadPart.ne (hc : HeadPart l c) (hb : BodyPart l b) : c ≠ b := by
  rintro rfl
  cases hb with
  | body hk hb => exact hc.field_ne (hk.elim kind_ne_case fun hk => by simp [hk]) hb.field
  | alternative hk hd hb =>
    have hcond : l.kind ∈ conditionKinds := by simp [hk, conditionKinds]
    rcases (headPart_conditional hcond).mp hc with hc | ⟨hnone, -⟩
    · have hfields := hc.field.symm.trans hb.field
      simp [hk, conditionField] at hfields
    · rw [hk] at hnone
      exact not_named hnone _ hd
  | statement hk hb =>
    cases hc with
    | label _ hc =>
      have hnodup := nodup_children l
      rw [← List.takeWhile_append_dropWhile (p := fun c => c.kind != ":") (l := l.children)]
        at hnodup
      exact (List.nodup_append'.mp hnodup).2.2 hc hb
    | condition hk' _ | value hk' _ | unnamed hk' _ _ | clause hk' _ =>
      simp [hk, conditionKinds] at hk'

/-- Header and body have no place in common. -/
theorem HeadPart.apart (hc : HeadPart l c) (hb : BodyPart l b) (hx : x ∈ c.preorder) :
    x ∉ b.preorder :=
  fun hxb => hc.ne hb (child_unique hc.mem_children hb.mem_children hx hxb)

/-! ### What a header contributes -/

/-- The statements with a header. -/
def headedKinds : List String := "case_statement" :: "for_statement" :: conditionKinds

theorem mem_effectVariables_headed (hk : l.kind ∈ headedKinds) : x ∈ effectVariables l ↔
    ∃ c, (HeadPart l c ∨ l.kind = "case_statement" ∧ BodyPart l c) ∧ x ∈ variablesIn c := by
  rcases List.mem_cons.mp hk with hk | hk
  · simp [effectVariables_case hk, hk]
  rcases List.mem_cons.mp hk with hk | hk
  · simp [effectVariables_for hk, hk]
  · simp [effectVariables_conditional hk, kind_ne_case hk]

theorem mentions_iff (hc : c ∈ l.children) :
    Mentions src c name ↔ ∃ x ∈ variablesIn c, src.textOf? x.node = some name := by
  simp only [Mentions, mem_variablesIn_child hc, and_assoc]

theorem mem_headed (hk : l.kind ∈ headedKinds) (hv : Vertex.ofLocus src l = .ok v) :
    name ∈ v.defs ∨ name ∈ v.uses ↔
    ∃ c, (HeadPart l c ∨ l.kind = "case_statement" ∧ BodyPart l c) ∧ Mentions src c name := by
  have hnone : ¬ Handed src l name := by
    rintro ⟨hcall, -⟩
    simp [hcall, headedKinds, conditionKinds] at hk
  have hchild : ∀ c, HeadPart l c ∨ l.kind = "case_statement" ∧ BodyPart l c → c ∈ l.children :=
    fun c hc => hc.elim (·.mem_children) (·.2.mem_children)
  rw [mem_defs_or_uses hv, or_iff_left hnone]
  constructor
  · rintro ⟨x, hx, htext⟩
    obtain ⟨c, hc, hx⟩ := (mem_effectVariables_headed hk).mp hx
    exact ⟨c, hc, (mentions_iff (hchild c hc)).mpr ⟨x, hx, htext⟩⟩
  · rintro ⟨c, hc, hmentions⟩
    obtain ⟨x, hx, htext⟩ := (mentions_iff (hchild c hc)).mp hmentions
    exact ⟨x, (mem_effectVariables_headed hk).mpr ⟨c, hc, hx⟩, htext⟩

/-- A branching statement defines or uses the variables of its header. Of its body it takes none,
except that a case takes those of the statements behind its label, so it has the variables of its
header and no others exactly if its statements mention none beside them. -/
theorem headed_effect_iff (hk : l.kind ∈ headedKinds) (hv : Vertex.ofLocus src l = .ok v) :
    (∀ name, name ∈ v.defs ∨ name ∈ v.uses ↔ (∃ c, HeadPart l c ∧ Mentions src c name) ∨
      l.kind = "case_statement" ∧ ∃ b, BodyPart l b ∧ Mentions src b name) ∧
    ((∀ name, name ∈ v.defs ∨ name ∈ v.uses ↔ ∃ c, HeadPart l c ∧ Mentions src c name) ↔
      (l.kind = "case_statement" → ∀ b name, BodyPart l b → Mentions src b name →
        ∃ c, HeadPart l c ∧ Mentions src c name)) ∧
    ∀ c b, HeadPart l c → BodyPart l b → ∀ x ∈ c.preorder, x ∉ b.preorder := by
  have hall : ∀ name, name ∈ v.defs ∨ name ∈ v.uses ↔ (∃ c, HeadPart l c ∧ Mentions src c name) ∨
      l.kind = "case_statement" ∧ ∃ b, BodyPart l b ∧ Mentions src b name := by
    intro name
    rw [mem_headed hk hv]
    simp only [or_and_right, exists_or, and_assoc, exists_and_left]
  refine ⟨hall, ?_, fun c b hc hb x hx => hc.apart hb hx⟩
  simp only [hall, or_iff_left_iff_imp]
  constructor
  · exact fun h hcase b name hb hmentions => h name ⟨hcase, b, hb, hmentions⟩
  · rintro h name ⟨hcase, b, hb, hmentions⟩
    exact h hcase b name hb hmentions

/-! ### A branch and a case -/

def branchSource : Source := ⟨"if(a<f(b))c=d;else e;"⟩

def branchTree : Tree :=
  .node "if_statement" 0 21 none [
    .node "if" 0 2 none [],
    .node "parenthesized_expression" 2 10 (some "condition") [
      .node "(" 2 3 none [],
      .node "binary_expression" 3 9 none [
        .node "identifier" 3 4 (some "left") [], .node "<" 4 5 (some "operator") [],
        .node "call_expression" 5 9 (some "right") [
          .node "identifier" 5 6 (some "function") [],
          .node "argument_list" 6 9 (some "arguments") [
            .node "(" 6 7 none [], .node "identifier" 7 8 none [], .node ")" 8 9 none []]]],
      .node ")" 9 10 none []],
    .node "expression_statement" 10 14 (some "consequence") [
      .node "assignment_expression" 10 13 none [
        .node "identifier" 10 11 (some "left") [], .node "=" 11 12 (some "operator") [],
        .node "identifier" 12 13 (some "right") []],
      .node ";" 13 14 none []],
    .node "else_clause" 14 21 (some "alternative") [
      .node "else" 14 18 none [],
      .node "expression_statement" 19 21 none [.node "identifier" 19 20 none [],
        .node ";" 20 21 none []]]]

/-- The branch as the only statement of its text. -/
def branchStatement : Locus :=
  Locus.child ⟨.node "translation_unit" 0 21 none [branchTree], []⟩ 0 branchTree

/-- The branch has the variables of its condition, and not the `c` that one of its sides sets. -/
theorem headed_effect_iff_branch : branchStatement.kind ∈ headedKinds ∧ ∃ v b,
    Vertex.ofLocus branchSource branchStatement = .ok v ∧ v.defs = [] ∧ v.uses = ["a", "b"] ∧
      BodyPart branchStatement b ∧ Mentions branchSource b "c" ∧
        ∀ name, name ∈ v.defs ∨ name ∈ v.uses ↔
        ∃ c, HeadPart branchStatement c ∧ Mentions branchSource c name := by
  have hk : branchStatement.kind ∈ headedKinds := by decide
  have heval :
      (Vertex.ofLocus branchSource branchStatement).toOption.map (fun v => (v.defs, v.uses)) =
      some ([], ["a", "b"]) := by decide +kernel
  obtain ⟨v, hv, heffect⟩ := exists_ok_of_toOption heval
  obtain ⟨hdefs, huses⟩ := Prod.mk.inj heffect
  have hbody : Named branchStatement "consequence" _ := ⟨2, _, rfl, rfl, rfl⟩
  refine ⟨hk, v, _, hv, hdefs, huses, .body (.inl (by decide)) hbody, ?_, ?_⟩
  · refine ⟨_, mem_preorder_of_child (child_mem_children (i := 0) rfl)
      (child_mem_preorder (child_mem_children (i := 0) rfl)), ⟨rfl, ?_⟩, by decide +kernel⟩
    rintro p ⟨⟩
    decide
  · exact (headed_effect_iff hk hv).2.1.mpr fun hcase => absurd hcase (by decide)

def labelledSource : Source := ⟨"void f()\x7bswitch(a)\x7bcase 1:b;\x7d\x7d"⟩

def labelledCase : Tree :=
  .node "case_statement" 19 28 none [
    .node "case" 19 23 none [], .node "number_literal" 24 25 (some "value") [],
    .node ":" 25 26 none [],
    .node "expression_statement" 26 28 none [.node "identifier" 26 27 none [],
      .node ";" 27 28 none []]]

def labelledCases : Tree :=
  .node "compound_statement" 18 29 (some "body") [
    .node "\x7b" 18 19 none [], labelledCase, .node "\x7d" 28 29 none []]

def labelledSwitch : Tree :=
  .node "switch_statement" 9 29 none [
    .node "switch" 9 15 none [],
    .node "parenthesized_expression" 15 18 (some "condition") [
      .node "(" 15 16 none [], .node "identifier" 16 17 none [], .node ")" 17 18 none []],
    labelledCases]

def labelledBody : Tree :=
  .node "compound_statement" 8 30 (some "body") [
    .node "\x7b" 8 9 none [], labelledSwitch, .node "\x7d" 29 30 none []]

def labelledFunction : Tree :=
  .bareFunction 0 4 labelledBody

/-- The case of the switch in this text. -/
def labelledStatement : Locus :=
  ((((Locus.child ⟨.node "translation_unit" 0 30 none [labelledFunction], []⟩ 0
    labelledFunction).child 2
    labelledBody).child 1 labelledSwitch).child 2 labelledCases).child 1 labelledCase

theorem labelledStatement_header {c : Locus} (hc : HeadPart labelledStatement c) (name : String) :
    ¬ Mentions labelledSource c name := by
  have hlabel :
      (labelledStatement.children.takeWhile fun c => c.kind != ":").flatMap variablesIn = [] := by
    rfl
  cases hc with
  | label _ hc =>
    rw [mentions_iff ((List.takeWhile_sublist _).subset hc), List.flatMap_eq_nil_iff.mp hlabel c hc]
    simp
  | condition hk _ | value hk _ | unnamed hk _ _ | clause hk _ => exact absurd hk (by decide)

/-- A case uses a variable of the statement behind its label. -/
theorem exists_case_using_body :
    ∃ v, Vertex.ofLocus labelledSource labelledStatement = .ok v ∧ v.branch = true ∧
    v.text = " case 1" ∧ "b" ∈ v.uses ∧ ¬ ∃ c, HeadPart labelledStatement c ∧
    Mentions labelledSource c "b" := by
  have heval : (Vertex.ofLocus labelledSource labelledStatement).toOption.map
      (fun v => (v.branch, v.text, v.uses)) = some (true, " case 1", ["b"]) := by decide +kernel
  obtain ⟨v, hv, heffect⟩ := exists_ok_of_toOption heval
  obtain ⟨hbranch, htext, huses⟩ : v.branch = true ∧ v.text = " case 1" ∧ v.uses = ["b"] := by
    simpa using heffect
  refine ⟨v, hv, hbranch, htext, by simp [huses], ?_⟩
  rintro ⟨c, hc, hmentions⟩
  exact labelledStatement_header hc "b" hmentions

end CrossCall.Flow

import CrossCall.Proofs.GuardDependence

/-! What a vertex defines and uses, by the places at which a variable stands in its statement: it is
defined where one of them gives it a value, and used where one of them does not. -/
namespace CrossCall.Flow

variable {α : Type} {src : Source} {l c d x : Locus} {t : Tree} {v : Vertex} {e e' : Effect}
  {ls : List Locus} {name field kind : String} {names : List String}

/-! ### Places in a tree -/

theorem find?_eq_some_of_single {xs : List α} {p : α → Bool} {z : α} (h : (xs.filter p).length ≤ 1)
    (hz : z ∈ xs) (hp : p z = true) : xs.find? p = some z := by
  have hmem : z ∈ xs.filter p := List.mem_filter.mpr ⟨hz, hp⟩
  obtain ⟨z', hz'⟩ := List.length_eq_one_iff.mp (le_antisymm h (List.length_pos_of_mem hmem))
  rw [hz', List.mem_singleton] at hmem
  rw [← List.head?_filter, hz', hmem, List.head?_cons]

theorem mem_children : c ∈ l.children ↔ ∃ i t, l.node.children[i]? = some t ∧ c = l.child i t := by
  rw [List.mem_iff_getElem?]
  simp only [getElem?_children, Option.map_eq_some_iff]
  exact exists_congr fun i => exists_congr fun t => and_congr_right fun _ => eq_comm

/-- What stands above a position stands above all that is below it. -/
theorem above_suffix (l : Locus) : ∀ x ∈ l.preorder, l.above <:+ x.above := by
  induction l using locus_induction with
  | step l ih =>
    intro x hx
    rcases mem_preorder.mp hx with rfl | ⟨i, t, ht, hx⟩
    · exact List.suffix_rfl
    · exact (List.suffix_cons _ _).trans (ih _ (child_mem_children ht) x hx)

/-- A position lies below one child at most. -/
theorem child_unique (hc : c ∈ l.children) (hd : d ∈ l.children) (hxc : x ∈ c.preorder)
    (hxd : x ∈ d.preorder) :
    c = d := by
  obtain ⟨i, s, hs, rfl⟩ := mem_children.mp hc
  obtain ⟨j, t, ht, rfl⟩ := mem_children.mp hd
  -- The ways up from the two children are ends of the way up from `x`, and of the same length.
  have hsuffix := List.suffix_of_suffix_length_le (above_suffix _ x hxc)
    (above_suffix _ x hxd) (by simp [Locus.child])
  have hone := hsuffix.eq_of_length (by simp [Locus.child])
  simp only [Locus.child, List.cons.injEq, Prod.mk.injEq, true_and, and_true] at hone
  subst hone
  rw [Option.some.inj (hs.symm.trans ht)]

theorem Named.isFieldOfParent (h : Named l field c) : c.isFieldOfParent field = true := by
  obtain ⟨i, t, hi, -, rfl⟩ := h
  simp [Locus.isFieldOfParent, Locus.child, hi]

theorem parent?_child (hc : c ∈ l.children) : c.parent? = some l.node := by
  obtain ⟨i, t, -, rfl⟩ := mem_children.mp hc
  rfl

theorem child_mem_preorder (hc : c ∈ l.children) : c ∈ l.preorder :=
  mem_preorder_of_child hc (mem_preorder_self c)

theorem mem_variablesIn (hx : x ∈ l.preorder) (hk : x.kind = "identifier") (hp : x.parent? = some t)
    (hne : t.kind ≠ "call_expression") : x ∈ variablesIn l := by
  simp [variablesIn, hx, hk, hp, parentIs, hne]

/-! ### Occurrences -/

/-- The kinds of nodes whose own identifiers are all given a value. -/
def givingKinds : List String := ["declaration", "parameter_declaration", "update_expression"]

theorem isDefinition_of_parent (hp : x.parent? = some t) (hk : t.kind = kind)
    (hgiving : kind ∈ givingKinds) :
    isDefinition src x = .ok true := by
  simp only [givingKinds, List.mem_cons, List.not_mem_nil, or_false] at hgiving
  rcases hgiving with rfl | rfl | rfl <;> simp [isDefinition, hp, hk]

/-- A variable stands at a position, and there it is given a value or not. -/
structure Occurs (src : Source) (name : String) (given : Bool) (x : Locus) : Prop where
  text : src.textOf? x.node = some name
  given : isDefinition src x = .ok given

/-- A variable is among the arguments that a call hands over. -/
def Handed (src : Source) (l : Locus) (name : String) : Prop :=
  l.kind = "call_expression" ∧ ∃ names, argumentNames src l = .ok names ∧ name ∈ names

theorem readText_eq_ok : readText src t = .ok name ↔ src.textOf? t = some name := by
  unfold readText
  cases src.textOf? t <;> simp

theorem mem_classify (h : classify src e ls = .ok e') :
    (name ∈ e'.defs ↔ name ∈ e.defs ∨ ∃ x ∈ ls, Occurs src name true x) ∧
      (name ∈ e'.uses ↔ name ∈ e.uses ∨ ∃ x ∈ ls, Occurs src name false x) := by
  induction ls generalizing e with
  | nil =>
    cases h
    simp
  | cons x rest ih =>
    obtain ⟨given, hgiven, h⟩ := bind_eq_ok.mp h
    obtain ⟨s, hs, h⟩ := bind_eq_ok.mp h
    have hhere : ∀ b, Occurs src name b x ↔ name = s ∧ b = given := by
      intro b
      constructor
      · rintro ⟨htext, hb⟩
        rw [readText_eq_ok.mp hs] at htext
        rw [hgiven] at hb
        cases htext
        cases hb
        exact ⟨rfl, rfl⟩
      · rintro ⟨rfl, rfl⟩
        exact ⟨readText_eq_ok.mp hs, hgiven⟩
    obtain ⟨hdefs, huses⟩ := ih h
    rw [hdefs, huses]
    simp only [List.exists_mem_cons_iff, hhere]
    cases given <;> simp [Effect.define, Effect.use, mem_insertName, or_assoc]

theorem given_of_classify (h : classify src e ls = .ok e') (hx : x ∈ ls) :
    ∃ given, isDefinition src x = .ok given := by
  induction ls generalizing e with
  | nil => cases hx
  | cons y rest ih =>
    obtain ⟨given, hgiven, h⟩ := bind_eq_ok.mp h
    obtain ⟨s, -, h⟩ := bind_eq_ok.mp h
    rcases List.mem_cons.mp hx with rfl | hx
    · exact ⟨given, hgiven⟩
    · exact ih h hx

theorem mem_handed (e : Effect) :
    (name ∈ (names.foldl (fun e x => (e.define x).use x) e).defs ↔ name ∈ e.defs ∨ name ∈ names) ∧
      (name ∈ (names.foldl (fun e x => (e.define x).use x) e).uses ↔
        name ∈ e.uses ∨ name ∈ names) := by
  induction names generalizing e with
  | nil => simp
  | cons s rest ih =>
    rw [List.foldl_cons, (ih _).1, (ih _).2]
    simp [Effect.define, Effect.use, mem_insertName, or_assoc]

theorem mem_effect (h : effect src l = .ok e) :
    (name ∈ e.defs ↔ (∃ x ∈ effectVariables l, Occurs src name true x) ∨ Handed src l name) ∧
      (name ∈ e.uses ↔ (∃ x ∈ effectVariables l, Occurs src name false x) ∨ Handed src l name) := by
  obtain ⟨plain, hplain, h⟩ := bind_eq_ok.mp h
  have hdefs : name ∈ plain.defs ↔ _ := (mem_classify hplain).1
  have huses : name ∈ plain.uses ↔ _ := (mem_classify hplain).2
  by_cases hk : l.kind = "call_expression"
  · rw [if_pos hk] at h
    obtain ⟨args, hargs, h⟩ := bind_eq_ok.mp h
    cases h
    simp [mem_handed, hdefs, huses, Handed, hk, hargs]
  · rw [if_neg hk] at h
    cases h
    simp [hdefs, huses, Handed, hk]

theorem effect_ofLocus (h : Vertex.ofLocus src l = .ok v) :
    effect src l = .ok ⟨v.defs, v.uses⟩ := by
  obtain ⟨text, -, h⟩ := bind_eq_ok.mp h
  obtain ⟨e, he, h⟩ := bind_eq_ok.mp h
  cases h
  exact he

theorem mem_defs_ofLocus (h : Vertex.ofLocus src l = .ok v) :
    name ∈ v.defs ↔ (∃ x ∈ effectVariables l, Occurs src name true x) ∨ Handed src l name :=
  (mem_effect (effect_ofLocus h)).1

theorem mem_uses_ofLocus (h : Vertex.ofLocus src l = .ok v) :
    name ∈ v.uses ↔ (∃ x ∈ effectVariables l, Occurs src name false x) ∨ Handed src l name :=
  (mem_effect (effect_ofLocus h)).2

theorem exists_given (h : Vertex.ofLocus src l = .ok v) (hx : x ∈ effectVariables l) :
    ∃ given, isDefinition src x = .ok given := by
  obtain ⟨plain, hplain, -⟩ := bind_eq_ok.mp (effect_ofLocus h)
  exact given_of_classify hplain hx

/-- A vertex defines or uses the variables at all places that its statement is answerable for, and
those that a call is handed. -/
theorem mem_defs_or_uses (h : Vertex.ofLocus src l = .ok v) : name ∈ v.defs ∨ name ∈ v.uses ↔
    (∃ x ∈ effectVariables l, src.textOf? x.node = some name) ∨ Handed src l name := by
  rw [mem_defs_ofLocus h, mem_uses_ofLocus h]
  constructor
  · rintro ((⟨x, hx, hoccurs⟩ | hhanded) | (⟨x, hx, hoccurs⟩ | hhanded))
    · exact .inl ⟨x, hx, hoccurs.text⟩
    · exact .inr hhanded
    · exact .inl ⟨x, hx, hoccurs.text⟩
    · exact .inr hhanded
  · rintro (⟨x, hx, htext⟩ | hhanded)
    · obtain ⟨given, hgiven⟩ := exists_given h hx
      cases given
      · exact .inr (.inl ⟨x, hx, htext, hgiven⟩)
      · exact .inl (.inl ⟨x, hx, htext, hgiven⟩)
    · exact .inl (.inr hhanded)

end CrossCall.Flow

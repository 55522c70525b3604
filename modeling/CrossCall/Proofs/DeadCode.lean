import CrossCall.Proofs.Destination
import CrossCall.Proofs.Visit
import CrossCall.Proofs.Walk

/-! Dead code. In functions of blocks, branches, while and for loops and statements without inner
structure, a statement is recorded exactly if all that stands before it can complete, and the graph
has no vertex that cannot be reached from its function. -/
namespace CrossCall.Flow

/-- Control may go on behind a piece of syntax. Tokens hand it on; a row of statements does if all
its members do. -/
def completes : Tree → Bool := foldTree fun t cs =>
  if t.isLeaf then true
  else match t.kind with
    | "compound_statement" => (atPlaces t cs).all id
    | "else_clause" => (atPlaces t cs).all id
    | "if_statement" => (t.fieldIndex? "alternative").isNone || (atPlaces t cs).any id
    | k => !hasKind ["return_statement", "break_statement", "continue_statement"] k

/-- Control that comes to a position comes to a statement inside: in each row on the way, all
members before the one that is entered can complete. -/
inductive Comes : Locus → Locus → Prop
  | here {l : Locus} : Comes l l
  | inside {l x : Locus} {i : Nat} {t : Tree} (hi : i ∈ places l.node)
      (ht : l.node.children[i]? = some t)
      (hbefore : isRow l.kind → ∀ k < i, ∀ s, l.node.children[k]? = some s → completes s = true)
      (h : Comes (l.child i t) x) : Comes l x

/-- A statement other than a wrapper of statements. -/
def isStatement (l : Locus) : Prop := l.node.isLeaf = false ∧ ¬ isRow l.kind

/-- Blocks, branches, while and for loops, and statements without inner structure. -/
def elementary : Tree → Bool := foldTree fun t bs =>
  wellShaped t && !hasKind ["do_statement", "switch_statement", "case_statement"] t.kind &&
    (atPlaces t bs).all id

/-- All that is run inside a node is elementary. -/
def elementaryInside (t : Tree) : Bool := (inner t).all elementary

variable {src : Source} {l c x f : Locus} {t : Tree} {i : Nat} {s : Site} {vs : List Visit}
  {name : String} {E X : List Exit} {p p₁ p₂ p' : Piece} {rs : List Record} {pending : List Vertex}
  {qs : List Part} {ls : List Locus} {v : Vertex} {g : Graph} {R : Int → Prop}

theorem completes_eq (t : Tree) : completes t =
    if t.isLeaf then true
    else match t.kind with
      | "compound_statement" => (inner t).all completes
      | "else_clause" => (inner t).all completes
      | "if_statement" => (t.fieldIndex? "alternative").isNone || (inner t).any completes
      | k => !hasKind ["return_statement", "break_statement", "continue_statement"] k := by
  have hall : (atPlaces t (t.children.map completes)).all id = (inner t).all completes := by
    rw [atPlaces_map, List.all_map]
    rfl
  have hany : (atPlaces t (t.children.map completes)).any id = (inner t).any completes := by
    rw [atPlaces_map, List.any_map]
    rfl
  rw [completes, foldTree_eq, ← completes, hall, hany]

theorem completes_row (hleaf : t.isLeaf = false)
    (hk : t.kind = "compound_statement" ∨ t.kind = "else_clause") :
    completes t = (inner t).all completes := by
  rw [completes_eq, hleaf]
  rcases hk with hk | hk <;> simp [hk]

theorem completes_if (hleaf : t.isLeaf = false) (hk : t.kind = "if_statement") :
    completes t = ((t.fieldIndex? "alternative").isNone || (inner t).any completes) := by
  rw [completes_eq, hleaf]
  simp [hk]

theorem completes_other (hleaf : t.isLeaf = false)
    (hk : t.kind ≠ "compound_statement" ∧ t.kind ≠ "else_clause" ∧ t.kind ≠ "if_statement") :
    completes t = !hasKind ["return_statement", "break_statement", "continue_statement"]
    t.kind := by
  rw [completes_eq, hleaf]
  split <;> simp_all

theorem elementary_iff : elementary t = true ↔ wellShaped t = true ∧
    hasKind ["do_statement", "switch_statement", "case_statement"] t.kind = false ∧
    elementaryInside t = true := by
  rw [elementary, foldTree_eq, atPlaces_map, List.all_map, Bool.and_eq_true, Bool.and_eq_true,
    Bool.not_eq_true', and_assoc]
  rfl

theorem elementaryInside_iff : elementaryInside t = true ↔ ∀ c ∈ inner t, elementary c = true :=
  List.all_eq_true

theorem elementary_child (he : elementaryInside l.node = true) (hi : i ∈ places l.node)
    (ht : l.node.children[i]? = some t) : elementary (l.child i t).node = true :=
  elementaryInside_iff.mp he t (mem_inner.mpr ⟨i, hi, ht⟩)

theorem elementary_kinds (he : elementary t = true) :
    (t.kind = "compound_statement" ∨ t.kind = "else_clause") ∨ t.kind = "if_statement" ∨
      isCountedLoop t.kind = true ∨ t.kind ∉ structuredKinds := by
  obtain ⟨hw, hkinds, -⟩ := elementary_iff.mp he
  obtain ⟨hfunction, hunit, -⟩ := wellShaped_iff.mp hw
  simp only [hasKind, List.contains_eq_mem, List.mem_cons, List.not_mem_nil, or_false,
    decide_eq_false_iff_not, not_or] at hkinds
  simp only [structuredKinds, isCountedLoop, List.mem_cons, List.not_mem_nil, or_false, not_or,
    Bool.or_eq_true, beq_iff_eq]
  tauto

theorem kinds_of_head {kind : String}
    (hk : kind = "if_statement" ∨ isCountedLoop kind = true ∨ kind ∉ structuredKinds) :
    kind ≠ "compound_statement" ∧ kind ≠ "else_clause" ∧ kind ≠ "do_statement" := by
  rcases hk with hk | hk | hk
  · simp [hk]
  · exact kinds_of_counted hk
  · simp only [structuredKinds, List.mem_cons, not_or] at hk
    exact ⟨hk.2.1, hk.2.2.1, hk.2.2.2.2.2.2.1⟩

/-! ### Rows -/

theorem goesOn_row : (Visit.row vs).goesOn = vs.all (·.goesOn) := by
  induction vs with
  | nil => rfl
  | cons V vs ih =>
    rw [Visit.row, List.all_cons, ← ih]
    cases hV : V.goesOn <;> simp [hV]

/-- Control comes to a site of a row where it goes on behind all members before. -/
theorem mem_sites_row :
    s ∈ (Visit.row vs).sites ↔ ∃ (i : Nat) (V : Visit), vs[i]? = some V ∧ s ∈ V.sites ∧
    ∀ k < i, ∀ W : Visit, vs[k]? = some W → W.goesOn = true := by
  induction vs with
  | nil => simp [Visit.row]
  | cons V vs ih =>
    rw [Visit.row]
    split
    · rename_i hon
      rw [List.mem_append, ih]
      constructor
      · rintro (hs | ⟨i, W, hW, hs, hbefore⟩)
        · exact ⟨0, V, rfl, hs, fun k hk => absurd hk (Nat.not_lt_zero k)⟩
        · refine ⟨i + 1, W, hW, hs, ?_⟩
          rintro (_ | k) hk U hU
          · cases hU
            exact hon
          · exact hbefore k (by omega) U hU
      · rintro ⟨_ | i, W, hW, hs, hbefore⟩
        · cases hW
          exact .inl hs
        · exact .inr ⟨i, W, hW, hs, fun k hk U hU => hbefore (k + 1) (by omega) U hU⟩
    · rename_i hoff
      constructor
      · exact fun hs => ⟨0, V, rfl, hs, fun k hk => absurd hk (Nat.not_lt_zero k)⟩
      · rintro ⟨_ | i, W, hW, hs, hbefore⟩
        · cases hW
          exact hs
        · exact absurd (hbefore 0 (by omega) V rfl) hoff

/-- Members that leave no trace may be left out. -/
theorem row_filter {keep : Locus → Bool} (h : ∀ c ∈ ls, keep c = false → visitAt c = {}) :
    Visit.row ((ls.filter keep).map visitAt) = .row (ls.map visitAt) := by
  induction ls with
  | nil => rfl
  | cons c rest ih =>
    have hrest := ih fun c hc => h c (List.mem_cons_of_mem _ hc)
    cases hkeep : keep c with
    | true =>
      rw [List.filter_cons_of_pos hkeep, List.map_cons, List.map_cons, Visit.row, Visit.row, hrest]
    | false =>
      rw [List.filter_cons_of_neg (by simp [hkeep]), hrest, List.map_cons, Visit.row,
        h c List.mem_cons_self hkeep]
      simp

theorem visitAt_row (hleaf : l.node.isLeaf = false) (hw : wellShaped l.node = true)
    (hk : l.kind = "compound_statement" ∨ l.kind = "else_clause") :
    visitAt l = .row (l.children.map visitAt) := by
  rcases hk with hk | hk
  · simp [visitAt_eq l, visitNode, hleaf, hk]
  obtain ⟨-, -, helse, -⟩ := wellShaped_iff.mp hw
  obtain ⟨hword, hmany⟩ := helse hk
  rw [visitAt_else hleaf hk]
  split
  · refine row_filter fun c hc hdrop =>
      visitAt_leaf ((hword c.node (node_mem_children hc)).resolve_left ?_)
    simpa [Locus.kind] using hdrop
  · rename_i hfew
    have hlength : l.node.children.length = l.children.length := by
      rw [← map_node_children, List.length_map]
    have hleaves := hmany.resolve_left (by rwa [hlength])
    have hnone := row_filter fun c hc (_ : (fun _ : Locus => false) c = false) =>
      visitAt_leaf (hleaves c.node (node_mem_children hc))
    rw [← hnone, List.filter_false, List.map_nil]

/-! ### Sites -/

theorem named_or_none (l : Locus) (name : String) :
    (∃ c, Named l name c) ∨ l.node.fieldIndex? name = none := by
  cases hi : l.node.fieldIndex? name with
  | none => exact .inr rfl
  | some i =>
    obtain ⟨hlt, -⟩ := List.findIdx?_eq_some_iff_getElem.mp hi
    exact .inl ⟨_, i, _, hi, List.getElem?_eq_getElem hlt, rfl⟩

theorem filterMap_fieldIndex (t : Tree) (name : String) :
    (t.fieldIndex? name).toList.filterMap (fun i => t.children[i]?) =
    (named? t t.children name).toList := by
  unfold named?
  cases t.fieldIndex? name with
  | none => rfl
  | some i => cases hi : t.children[i]? <;> simp [hi]

theorem inner_if (hk : t.kind = "if_statement") :
    inner t = (named? t t.children "consequence").toList ++
    (named? t t.children "alternative").toList := by
  rw [inner, atPlaces, places_if hk, List.filterMap_append, filterMap_fieldIndex,
    filterMap_fieldIndex]

theorem inner_of_body
    (hk : isLoop t.kind = true ∨ t.kind = "switch_statement" ∨ t.kind = "function_definition") :
    inner t = (named? t t.children "body").toList := by
  rw [inner, atPlaces, places_body hk, filterMap_fieldIndex]

theorem named?_node (h : Named l name c) : named? l.node l.node.children name = some c.node := by
  rw [← named?_children (·.node) h, map_node_children]

/-- Control goes on behind a branch where one of its sides lets it. -/
theorem goesOn_if (hleaf : l.node.isLeaf = false) (hk : l.kind = "if_statement")
    (hin : ∀ c ∈ l.children, c.node ∈ inner l.node → (visitAt c).goesOn = completes c.node) :
    (visitAt l).goesOn = completes l.node := by
  have hside : ∀ name c, Named l name c → name = "consequence" ∨ name = "alternative" →
      (visitAt c).goesOn = completes c.node :=
    fun name c hc hname => hin c hc.mem (mem_inner_if hk hc hname)
  rw [visitAt_if hleaf hk, completes_if hleaf hk, inner_if hk]
  rcases named_or_none l "alternative" with ⟨d, hd⟩ | hnone
  · have hsome : (l.node.fieldIndex? "alternative").isNone = false := by
      obtain ⟨i, t, hi, -⟩ := hd
      rw [hi]
      rfl
    rw [named?_children visitAt hd, named?_node hd, hsome]
    rcases named_or_none l "consequence" with ⟨c, hc⟩ | hnone
    · rw [named?_children visitAt hc, named?_node hc]
      simp [hside _ c hc (.inl rfl), hside _ d hd (.inr rfl)]
    · rw [named?_none hnone, named?_none hnone]
      simp [hside _ d hd (.inr rfl)]
  · rw [named?_none hnone, hnone]
    simp

/-- Control goes on behind elementary code where it can complete. -/
theorem goesOn_visitAt (l : Locus) :
    elementary l.node = true → (visitAt l).goesOn = completes l.node := by
  induction l using locus_induction with
  | step l ih =>
    intro he
    obtain ⟨hw, -, hin⟩ := elementary_iff.mp he
    have ih : ∀ c ∈ l.children, c.node ∈ inner l.node → (visitAt c).goesOn = completes c.node :=
      fun c hc hmem => ih c hc (elementaryInside_iff.mp hin c.node hmem)
    cases hleaf : l.node.isLeaf with
    | true =>
      rw [visitAt_leaf hleaf, completes_eq, if_pos hleaf]
    | false =>
      rcases elementary_kinds he with hk | hk | hk | hk
      · rw [visitAt_row hleaf hw hk, goesOn_row, completes_row hleaf hk, inner_row hk,
          ← map_node_children, Bool.eq_iff_iff]
        simp only [List.all_map, List.all_eq_true, Function.comp_apply]
        exact forall₂_congr fun c hc => by rw [ih c hc (node_mem_row hk hc)]
      · exact goesOn_if hleaf hk ih
      · have hkind : l.node.kind = "while_statement" ∨ l.node.kind = "for_statement" := by
          simpa [isCountedLoop] using hk
        rw [visitAt_loop hleaf hk,
          completes_other hleaf (by rcases hkind with hk | hk <;> simp [hk])]
        rcases hkind with hk | hk <;> simp [hk, hasKind]
      · rw [visitAt_simple hleaf hk]
        simp only [structuredKinds, List.mem_cons, List.not_mem_nil, not_or, or_false] at hk
        rw [completes_other hleaf ⟨hk.2.1, hk.2.2.1, hk.2.2.2.1⟩, Locus.kind]

theorem mem_sites_named {V : Visit} (hV : V.sites = []) :
    s ∈ ((named? l.node (l.children.map visitAt) name).getD V).sites ↔
      ∃ i t, i ∈ (l.node.fieldIndex? name).toList ∧ l.node.children[i]? = some t ∧
        s ∈ (visitAt (l.child i t)).sites := by
  rcases named_or_none l name with ⟨c, hc⟩ | hnone
  · rw [named?_children visitAt hc]
    obtain ⟨i, t, hi, ht, rfl⟩ := hc
    simp [hi, ht]
  · rw [named?_none hnone, hnone]
    simp [hV]

/-- Control that comes to a head comes to each of the statements below it. -/
theorem mem_sites_head (hleaf : l.node.isLeaf = false) (hkind : l.kind = "function_definition" ∨
    l.kind = "if_statement" ∨ isCountedLoop l.kind = true ∨ l.kind ∉ structuredKinds) :
    s ∈ (visitAt l).sites ↔ s = .statement l ∨
      ∃ i t, i ∈ places l.node ∧ l.node.children[i]? = some t ∧
      s ∈ (visitAt (l.child i t)).sites := by
  rcases hkind with hk | hk | hk | hk
  · rw [visitAt_function hleaf hk, places_body (.inr (.inr hk)), List.mem_append,
      List.mem_singleton, mem_sites_named rfl, or_comm]
  · rw [visitAt_if hleaf hk, places_if hk, List.mem_cons, List.mem_append, mem_sites_named rfl,
      mem_sites_named rfl]
    simp only [List.mem_append, or_and_right, exists_or]
  · rw [visitAt_loop hleaf hk, places_body (.inl (isLoop_of_counted hk)), List.mem_cons,
      mem_sites_named rfl]
  · rw [visitAt_simple hleaf hk, places_simple hk]
    simp

theorem not_isRow_head (hkind : l.kind = "function_definition" ∨ l.kind = "if_statement" ∨
    isCountedLoop l.kind = true ∨ l.kind ∉ structuredKinds) : ¬ isRow l.kind := by
  rcases hkind with hk | hk | hk | hk
  · simp [isRow, hk]
  · simp [isRow, hk]
  · have hk : l.kind = "while_statement" ∨ l.kind = "for_statement" := by
      simpa [isCountedLoop] using hk
    rcases hk with hk | hk <;> simp [isRow, hk]
  · simp only [structuredKinds, List.mem_cons, not_or] at hk
    simp [isRow, hk]

theorem mem_sites_members (hleaf : l.node.isLeaf = false) (he : elementary l.node = true)
    (hk : l.kind = "compound_statement" ∨ l.kind = "else_clause") : s ∈ (visitAt l).sites ↔
      ∃ i t, i ∈ places l.node ∧ l.node.children[i]? = some t ∧
        (∀ k < i, ∀ u, l.node.children[k]? = some u → completes u = true) ∧
        s ∈ (visitAt (l.child i t)).sites := by
  obtain ⟨hw, -, hin⟩ := elementary_iff.mp he
  have hplaces : ∀ {i t}, l.node.children[i]? = some t → i ∈ places l.node := by
    intro i t ht
    obtain ⟨hlt, -⟩ := List.getElem?_eq_some_iff.mp ht
    have hrange : places l.node = List.range l.node.children.length := by
      unfold places
      rcases hk with hk | hk <;> simp [show l.node.kind = _ from hk]
    rw [hrange]
    exact List.mem_range.mpr hlt
  have hon : ∀ {k u}, l.node.children[k]? = some u → (visitAt (l.child k u)).goesOn = completes u :=
    fun hu => goesOn_visitAt _ (elementary_child hin (hplaces hu) hu)
  rw [visitAt_row hleaf hw hk, mem_sites_row]
  simp only [List.getElem?_map, getElem?_children, Option.map_map, Option.map_eq_some_iff,
    Function.comp_apply]
  constructor
  · rintro ⟨i, -, ⟨t, ht, rfl⟩, hs, hbefore⟩
    refine ⟨i, t, hplaces ht, ht, fun k hki u hu => ?_, hs⟩
    rw [← hon hu]
    exact hbefore k hki _ ⟨u, hu, rfl⟩
  · rintro ⟨i, t, -, ht, hbefore, hs⟩
    refine ⟨i, _, ⟨t, ht, rfl⟩, hs, ?_⟩
    rintro k hki - ⟨u, hu, rfl⟩
    rw [hon hu]
    exact hbefore k hki u hu

theorem comes_iff : Comes l x ↔ x = l ∨ ∃ i t, i ∈ places l.node ∧ l.node.children[i]? = some t ∧
    (isRow l.kind → ∀ k < i, ∀ u, l.node.children[k]? = some u → completes u = true) ∧
    Comes (l.child i t) x := by
  constructor
  · rintro (_ | ⟨hi, ht, hbefore, h⟩)
    · exact .inl rfl
    · exact .inr ⟨_, _, hi, ht, hbefore, h⟩
  · rintro (rfl | ⟨i, t, hi, ht, hbefore, h⟩)
    · exact .here
    · exact .inside hi ht hbefore h

/-- The sites of a function, and of elementary code, are the statements that control comes to. -/
theorem mem_sites_iff (l : Locus) : elementaryInside l.node = true →
    l.kind = "function_definition" ∨ elementary l.node = true → ∀ s, s ∈ (visitAt l).sites ↔
      ∃ x, s = .statement x ∧ Comes l x ∧ isStatement x := by
  induction l using locus_induction with
  | step l ih =>
    intro hin hkind s
    have ih : ∀ {i t}, i ∈ places l.node → l.node.children[i]? = some t →
        (s ∈ (visitAt (l.child i t)).sites ↔
        ∃ x, s = .statement x ∧ Comes (l.child i t) x ∧ isStatement x) := by
      intro i t hi ht
      have hmem : l.child i t ∈ l.children :=
        List.mem_of_getElem? (by rw [getElem?_children, ht, Option.map_some])
      have he := elementary_child hin hi ht
      exact ih _ hmem (elementary_iff.mp he).2.2 (.inr he) s
    cases hleaf : l.node.isLeaf with
    | true =>
      rw [visitAt_leaf hleaf]
      refine iff_of_false nofun ?_
      rintro ⟨x, rfl, hx, hstatement⟩
      rcases comes_iff.mp hx with rfl | ⟨i, t, -, ht, -⟩
      · rw [hstatement.1] at hleaf
        cases hleaf
      · rw [List.isEmpty_iff.mp hleaf] at ht
        cases ht
    | false =>
      have hstep : s ∈ (visitAt l).sites ↔ s = .statement l ∧ ¬ isRow l.kind ∨
          ∃ i t, i ∈ places l.node ∧ l.node.children[i]? = some t ∧
            (isRow l.kind → ∀ k < i, ∀ u, l.node.children[k]? = some u → completes u = true) ∧
              s ∈ (visitAt (l.child i t)).sites := by
        by_cases hk : l.kind = "compound_statement" ∨ l.kind = "else_clause"
        · have hrow : isRow l.kind := hk.imp_right .inl
          have he : elementary l.node = true :=
            hkind.resolve_left (by rcases hk with hk | hk <;> simp [hk])
          simp only [mem_sites_members hleaf he hk, hrow, not_true_eq_false, and_false, false_or,
            true_implies]
        · have hhead := hkind.imp_right fun he => (elementary_kinds he).resolve_left hk
          simp only [mem_sites_head hleaf hhead, not_isRow_head hhead, not_false_eq_true, and_true,
            false_implies, true_and]
      rw [hstep]
      constructor
      · rintro (⟨rfl, hrow⟩ | ⟨i, t, hi, ht, hbefore, hs⟩)
        · exact ⟨l, rfl, .here, hleaf, hrow⟩
        · obtain ⟨x, rfl, hx, hstatement⟩ := (ih hi ht).mp hs
          exact ⟨x, rfl, .inside hi ht hbefore hx, hstatement⟩
      · rintro ⟨x, rfl, hx, hstatement⟩
        rcases comes_iff.mp hx with rfl | ⟨i, t, hi, ht, hbefore, hx⟩
        · exact .inl ⟨rfl, hstatement.2⟩
        · exact .inr ⟨i, t, hi, ht, hbefore, (ih hi ht).mpr ⟨x, rfl, hx, hstatement⟩⟩

/-! ### Reachability -/

/-- What holds at the source of an edge holds at its target. -/
def Spreads (R : Int → Prop) (es : List Edge) : Prop :=
  ∀ e ∈ es, ∀ a b, e.ends? = some (a, b) → R a → R b

@[simp] theorem spreads_append {es es' : List Edge} :
    Spreads R (es ++ es') ↔ Spreads R es ∧ Spreads R es' :=
  List.forall_mem_append

theorem Spreads.target (h : Spreads R (edgesTo v X)) (hX : X ≠ []) (hR : ∀ e ∈ X, R e.vertex.id) :
    R v.id := by
  obtain ⟨e, rest, rfl⟩ := List.exists_cons_of_ne_nil hX
  exact h (edgeTo v e) List.mem_cons_self _ _ rfl (hR e List.mem_cons_self)

/-- What spreads along the edges of a piece from its entries holds of all that is recorded, and of
the exits. -/
def Carries (E : List Exit) (p : Piece) : Prop :=
  ∀ R, Spreads R (filedEdges p.records) → (∀ e ∈ E, R e.vertex.id) →
    (∀ x ∈ recordedIds p.records, R x) ∧ ∀ e ∈ p.exits, R e.vertex.id

theorem Carries.pass : Carries E { exits := E } := fun _ _ hE => ⟨nofun, hE⟩

theorem Carries.seq (h₁ : Carries E p₁) (h₂ : Carries p₁.exits p₂) :
    Carries E (p₁.followedBy p₂) := by
  intro R hR hE
  simp only [Piece.followedBy, filedEdges_append, spreads_append, recordedIds_append] at hR ⊢
  obtain ⟨hids₁, hexits₁⟩ := h₁ R hR.1 hE
  obtain ⟨hids₂, hexits₂⟩ := h₂ R hR.2 hexits₁
  exact ⟨fun x hx => (List.mem_append.mp hx).elim (hids₁ x) (hids₂ x), hexits₂⟩

theorem Carries.single (hE : E ≠ []) (hX : ∀ e ∈ X, e.vertex = v) :
    Carries E ⟨[⟨v, edgesTo v E⟩], X⟩ := by
  intro R hR hentries
  have hv : R v.id := (spreads_append.mp hR).1.target hE hentries
  exact ⟨by simpa using hv, fun e he => by rwa [hX e he]⟩

theorem Carries.forked (hE : E ≠ []) (h₁ : Carries [⟨v, "Y"⟩] p₁) (h₂ : Carries [⟨v, "N"⟩] p₂) :
    Carries E (.forked v E p₁ p₂) := by
  intro R hR hentries
  simp only [Piece.forked, filedEdges_cons, filedEdges_append, spreads_append] at hR
  have hv : R v.id := hR.1.target hE hentries
  obtain ⟨hids₁, hexits₁⟩ := h₁ R hR.2.1 (by simpa using hv)
  obtain ⟨hids₂, hexits₂⟩ := h₂ R hR.2.2 (by simpa using hv)
  simp only [Piece.forked, recordedIds_cons, recordedIds_append, List.forall_mem_cons,
    List.forall_mem_append]
  exact ⟨⟨hv, hids₁, hids₂⟩, hexits₁, hexits₂⟩

theorem Carries.looped (hE : E ≠ []) (h : Carries [⟨v, "Y"⟩] p) :
    Carries E (.looped v E { p with exits := X }) := by
  intro R hR hentries
  simp only [Piece.looped, filedEdges_cons, spreads_append] at hR
  have hv : R v.id := hR.1.1.target hE hentries
  obtain ⟨hids, -⟩ := h R hR.2 (by simpa using hv)
  simp only [Piece.looped, recordedIds_cons, List.forall_mem_cons]
  exact ⟨⟨hv, hids⟩, by simpa using hv⟩

/-- The edges that a block files beside those of its members do no harm. -/
theorem runBlock_carries (hrow : ∀ p', runAll (ls.map (partAt src)) E = .ok p' → Carries E p')
    (h : runBlock src [] [] (ls.map (partAt src)) E = .ok p) : Carries E p := by
  obtain ⟨p', hp', hexits, hids⟩ := runBlock_ids h
  obtain ⟨late, hperm, -⟩ := runBlock_perm h hp'
  intro R hR hE
  rw [hids, hexits]
  refine hrow p' hp' R (fun e he => hR e (hperm.mem_iff.mpr ?_)) hE
  exact List.mem_append_left _ he

theorem runAll_carries (hls : ∀ c ∈ ls, ∀ E p, (partAt src c).run E = .ok p → Carries E p)
    (h : runAll (ls.map (partAt src)) E = .ok p) : Carries E p := by
  induction ls generalizing E p with
  | nil =>
    cases h
    exact .pass
  | cons c rest ih =>
    obtain ⟨p₁, p₂, h₁, h₂, rfl⟩ := runAll_cons h
    exact (hls c List.mem_cons_self E p₁ h₁).seq
      (ih (fun c hc => hls c (List.mem_cons_of_mem _ hc)) h₂)

theorem carries (l : Locus) :
    elementary l.node = true → ∀ E p, (partAt src l).run E = .ok p → Carries E p := by
  induction l using locus_induction with
  | step l ih =>
    intro he E p h
    obtain ⟨hw, hkinds, hin⟩ := elementary_iff.mp he
    have ih : ∀ c ∈ l.children, c.node ∈ inner l.node → ∀ E p, (partAt src c).run E = .ok p →
        Carries E p :=
      fun c hc hmem => ih c hc (elementaryInside_iff.mp hin c.node hmem)
    have hno : ∀ k ∈ ["do_statement", "switch_statement", "case_statement"], l.kind ≠ k := by
      rintro k hk rfl
      exact Bool.false_ne_true (hkinds.symm.trans (List.contains_iff_mem.mpr hk))
    rcases builds hw h with ⟨-, rfl⟩ | ⟨-, hE, hb⟩
    · exact .pass
    cases hb with
    | block hk h =>
      exact runBlock_carries (fun p' => runAll_carries fun c hc =>
        ih c hc (node_mem_row (.inl hk) hc)) h
    | clause hk h => exact runAll_carries (fun c hc => ih c hc (node_mem_row (.inr hk) hc)) h
    | @branch v c yes no hk hv hc hyes hno =>
      refine .forked hE (ih c hc.mem (mem_inner_if hk hc (.inl rfl)) _ _ hyes) ?_
      rcases hno with ⟨d, hd, hno⟩ | ⟨-, rfl⟩
      · exact ih d hd.mem (mem_inner_if hk hd (.inr rfl)) _ _ hno
      · exact .pass
    | @loop v c body bs cs hk hv hc hbody =>
      have hmem : c.node ∈ inner l.node := by
        rw [inner_body (.inl (isLoop_of_counted hk)) hc]
        exact List.mem_cons_self
      exact .looped hE (ih c hc.mem hmem _ _ hbody)
    | doLoop hk => exact absurd hk (hno _ (by simp))
    | bare hk => exact absurd hk (hno _ (by simp))
    | switch hk => exact absurd hk (hno _ (by simp))
    | label hk => exact absurd hk (hno _ (by simp))
    | simple hk hv =>
      refine .single hE fun e he => ?_
      split at he
      · cases he
      · cases List.mem_singleton.mp he
        rfl

/-- Every vertex of the graph of a function can be reached from the function. -/
theorem reaches_ids (hk : f.kind = "function_definition") (hin : elementaryInside f.node = true)
    (hleaf : f.node.isLeaf = false) (h : functionRecords src f = .ok rs) :
    ∀ y ∈ (graphOf rs).ids, Reaches (graphOf rs).successors (spanId src f.node) y := by
  obtain ⟨v, q, p, hv, hq, hp, rfl⟩ := functionRecords_eq_ok hk hleaf h
  rw [parts_eq] at hq
  obtain ⟨c, hc, rfl⟩ := partNamed_children hq
  have hmem : c.node ∈ inner f.node := by
    rw [inner_body (.inr (.inr hk)) hc]
    exact List.mem_cons_self
  rw [← id_ofLocus hv]
  have hspreads : Spreads (Reaches (graphOf (p.records ++ [⟨v, []⟩])).successors v.id)
      (filedEdges p.records) := by
    rintro e he a b hends ⟨xs, hxs⟩
    refine ⟨_, hxs.snoc (mem_successors.mpr (Graph.mem_arcs.mpr ⟨e, ?_, hends⟩))⟩
    rw [edges_graphOf_eq, filedEdges_append]
    exact List.mem_append_left _ he
  have hcarries :=
    (carries c (elementaryInside_iff.mp hin _ hmem) _ p hp _ hspreads (by simp [Reaches.refl])).1
  intro y hy
  rw [mem_ids_graphOf, recordedIds_append, List.mem_append] at hy
  rcases hy with hy | hy
  · exact hcarries y hy
  · cases List.mem_singleton.mp hy
    exact .refl

/-- In elementary code the records are those of the statements that control comes to, and of no
others; and all vertices can be reached. -/
theorem recorded_iff_comes (hk : f.kind = "function_definition")
    (hin : elementaryInside f.node = true) (hg : controlFlow src f = .ok g) :
    ∃ rs ss, functionRecords src f = .ok rs ∧ g = graphOf rs ∧
      List.Forall₂ (fun x r => Vertex.ofLocus src x = .ok r.vertex) ss rs ∧
        (∀ x, x ∈ ss ↔ Comes f x ∧ isStatement x) ∧
          ∀ y ∈ g.ids, Reaches g.successors (spanId src f.node) y := by
  obtain ⟨rs, hr, rfl⟩ := map_eq_ok.mp hg
  have hsites := mem_sites_iff f hin (.inl hk)
  have hrecords := functionRecords_sites hr
  refine ⟨rs, (visitAt f).sites.map Site.locus, hr, rfl, ?_, ?_, ?_⟩
  · rw [List.forall₂_map_left_iff]
    obtain ⟨hlength, hzip⟩ := List.forall₂_iff_zip.mp hrecords
    refine List.forall₂_iff_zip.mpr ⟨hlength, fun {s r} hmem => ?_⟩
    obtain ⟨x, rfl, -⟩ := (hsites s).mp (List.of_mem_zip hmem).1
    exact hzip hmem
  · intro x
    rw [List.mem_map]
    constructor
    · rintro ⟨s, hs, rfl⟩
      obtain ⟨x, rfl, hx⟩ := (hsites s).mp hs
      exact hx
    · exact fun hx => ⟨.statement x, (hsites _).mpr ⟨x, rfl, hx⟩, rfl⟩
  · cases hleaf : f.node.isLeaf with
    | false => exact reaches_ids hk hin hleaf hr
    | true =>
      rw [visitAt_leaf hleaf] at hrecords
      cases hrecords
      exact nofun

/-- A statement behind a break, and one behind a branch of which one side returns. -/
def deadInLoop : Source := ⟨"void f()\x7bwhile(a)\x7bbreak;b;\x7dif(c)return;else d;e;\x7d"⟩

def deadInLoopFunction : Locus :=
  ⟨.bareFunction 0 4 (.node "compound_statement" 8 49 (some "body") [
    .node "\x7b" 8 9 none [],
    .node "while_statement" 9 27 none [
      .node "while" 9 14 none [],
      .node "parenthesized_expression" 14 17 (some "condition") [
        .node "(" 14 15 none [],
        .node "identifier" 15 16 none [],
        .node ")" 16 17 none []],
      .node "compound_statement" 17 27 (some "body") [
        .node "\x7b" 17 18 none [],
        .node "break_statement" 18 24 none [.node "break" 18 23 none [], .node ";" 23 24 none []],
        .node "expression_statement" 24 26 none [.node "identifier" 24 25 none [],
          .node ";" 25 26 none []],
        .node "\x7d" 26 27 none []]],
    .node "if_statement" 27 46 none [
      .node "if" 27 29 none [],
      .node "parenthesized_expression" 29 32 (some "condition") [
        .node "(" 29 30 none [],
        .node "identifier" 30 31 none [],
        .node ")" 31 32 none []],
      .node "return_statement" 32 39 (some "consequence") [.node "return" 32 38 none [],
        .node ";" 38 39 none []],
      .node "else_clause" 39 46 (some "alternative") [
        .node "else" 39 43 none [],
        .node "expression_statement" 44 46 none [.node "identifier" 44 45 none [],
          .node ";" 45 46 none []]]],
    .node "expression_statement" 46 48 none [.node "identifier" 46 47 none [],
      .node ";" 47 48 none []],
    .node "\x7d" 48 49 none []]), []⟩

theorem recorded_deadInLoop : ∃ g, deadInLoopFunction.kind = "function_definition" ∧
    elementaryInside deadInLoopFunction.node = true ∧
    controlFlow deadInLoop deadInLoopFunction = .ok g ∧
      g.ids.length = 7 ∧ ∃ rs ss, functionRecords deadInLoop deadInLoopFunction = .ok rs ∧
      g = graphOf rs ∧
        List.Forall₂ (fun x r => Vertex.ofLocus deadInLoop x = .ok r.vertex) ss rs ∧
          (∀ x, x ∈ ss ↔ Comes deadInLoopFunction x ∧ isStatement x) ∧
            ∀ y ∈ g.ids, Reaches g.successors (spanId deadInLoop deadInLoopFunction.node) y := by
  have hin : elementaryInside deadInLoopFunction.node = true := by decide +kernel
  have hbuilt : ((controlFlow deadInLoop deadInLoopFunction).toOption.map fun g => g.ids.length) =
      some 7 := by
    decide +kernel
  obtain ⟨g, hg, hlength⟩ := exists_ok_of_toOption hbuilt
  exact ⟨g, rfl, hin, hg, hlength, recorded_iff_comes rfl hin hg⟩

end CrossCall.Flow

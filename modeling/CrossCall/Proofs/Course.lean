import CrossCall.Proofs.DeadCode
import CrossCall.Proofs.JumpFlow

/-! The course of elementary code. Its vertices have an order, that of the text but with the head of
each loop behind the body, in which all edges go forward except those from the head of a loop into
its body. Where every loop can be left, control therefore comes to an end from every vertex, over
later ones only. -/
namespace CrossCall.Flow

/-- The numbers of a tree in the order of the text, but that of a while or for loop behind those of
its body. -/
def course (src : Source) : Tree → List Int := foldTree fun t os =>
  if isCountedLoop t.kind then (atPlaces t os).flatten ++ ownNumbers src t
  else ownNumbers src t ++ (atPlaces t os).flatten

/-- All places to which control goes from a statement, or is taken from inside it, are in the
list. -/
structure Behind (src : Source) (l : Locus) (later : List Int) : Prop where
  plain : parentIs l "do_statement" = false
  next : ∀ y, onward src true l.above = some y → y ∈ later
  waiting : ∀ y, waiting? src l = some y → y ∈ later
  taken : ∀ kind, ∀ y ∈ targets src kind l.above, y ∈ later

variable {src : Source} {f l a c : Locus} {t : Tree} {ts : List Tree} {i : Nat} {x y : Int}
  {kind label : String} {rs : List Record} {E : List Exit} {p : Piece} {g : Graph}
  {later more xs ys zs : List Int}

/-! ### The order of the vertices -/

theorem course_eq (src : Source) (t : Tree) : course src t =
    if isCountedLoop t.kind then (inner t).flatMap (course src) ++ ownNumbers src t
    else ownNumbers src t ++ (inner t).flatMap (course src) := by
  rw [course, foldTree_eq, atPlaces_map, List.flatMap]
  rfl

theorem course_of_loop (hk : isCountedLoop t.kind = true) :
    course src t = (inner t).flatMap (course src) ++ ownNumbers src t := by
  rw [course_eq, if_pos hk]

theorem course_of_other (hk : isCountedLoop t.kind = false) :
    course src t = ownNumbers src t ++ (inner t).flatMap (course src) := by
  rw [course_eq, if_neg (by simp [hk])]

theorem child_mem_children (ht : l.node.children[i]? = some t) : l.child i t ∈ l.children :=
  List.mem_of_getElem? (by rw [getElem?_children, ht, Option.map_some])

/-- The course has the numbers of the tree, each as often. -/
theorem course_perm (src : Source) (l : Locus) : (course src l.node).Perm (numbers src l.node) := by
  induction l using locus_induction with
  | step l ih =>
    have hinner :
        ((inner l.node).flatMap (course src)).Perm ((inner l.node).flatMap (numbers src)) := by
      refine List.Perm.flatMap_left _ fun t ht => ?_
      obtain ⟨i, -, ht⟩ := mem_inner.mp ht
      exact ih (l.child i t) (child_mem_children ht)
    rw [course_eq, numbers_eq]
    split
    · exact List.perm_append_comm.trans (hinner.append_left _)
    · exact hinner.append_left _

theorem mem_course : x ∈ course src t ↔ x ∈ numbers src t := (course_perm src ⟨t, []⟩).mem_iff

theorem entrance?_mem (l : Locus) :
    ∀ y, entrance? src l.node = some y → y ∈ numbers src l.node := by
  induction l using locus_induction with
  | step l ih =>
    intro y hy
    have hfirst : firstEntrance? src (inner l.node) = some y → y ∈ numbers src l.node := by
      intro hy
      obtain ⟨t, ht, hy⟩ := List.exists_of_findSome?_eq_some hy
      obtain ⟨i, -, hi⟩ := mem_inner.mp ht
      exact numbers_subset ht (ih (l.child i t) (child_mem_children hi) y hy)
    have hown : y ∈ ownNumbers src l.node → y ∈ numbers src l.node :=
      fun hy => mem_numbers.mpr (.inl hy)
    cases hleaf : l.node.isLeaf with
    | true =>
      rw [entrance?_leaf hleaf] at hy
      cases hy
    | false =>
      by_cases hrow : l.node.kind = "compound_statement" ∨ l.node.kind = "else_clause"
      · rw [entrance?_row hleaf hrow, ← inner_row hrow] at hy
        exact hfirst hy
      by_cases hdo : l.node.kind = "do_statement"
      · rw [entrance?_do hleaf hdo, Option.or_eq_some_iff] at hy
        rw [ownNumbers_do hleaf hdo, Option.mem_toList] at hown
        exact hy.elim hfirst fun hy => hown hy.2
      · rw [not_or] at hrow
        rw [entrance?_own hleaf ⟨hrow.1, hrow.2, hdo⟩] at hy
        rw [ownNumbers_own hleaf ⟨hrow.1, hrow.2, hdo⟩] at hown
        exact hown (by simpa using hy.symm)

theorem firstEntrance?_mem (h : firstEntrance? src ts = some y) : y ∈ ts.flatMap (course src) := by
  obtain ⟨t, ht, hy⟩ := List.exists_of_findSome?_eq_some h
  exact List.mem_flatMap.mpr ⟨t, ht, mem_course.mpr (entrance?_mem ⟨t, []⟩ y hy)⟩

theorem stop?_mem (h : stop? src ts = some y) : y ∈ ts.flatMap (course src) := by
  obtain ⟨t, ht, hy⟩ := List.mem_flatMap.mp (firstEntrance?_mem h)
  exact List.mem_flatMap.mpr ⟨t, (List.mem_filter.mp ht).1, hy⟩

/-! ### What is behind a statement -/

namespace Behind

theorem mono (h : Behind src l later) (hsub : ∀ y ∈ later, y ∈ more) : Behind src l more where
  plain := h.plain
  next y hy := hsub y (h.next y hy)
  waiting y hy := hsub y (h.waiting y hy)
  taken kind y hy := hsub y (h.taken kind y hy)

/-- Behind a member of a row are the members after it. -/
theorem row (h : Behind src a later) (hk : a.kind = "compound_statement" ∨ a.kind = "else_clause") :
    Behind src (a.child i t) ((a.node.children.drop (i + 1)).flatMap (course src) ++ later) := by
  have hk : a.node.kind = "compound_statement" ∨ a.node.kind = "else_clause" := hk
  have hrow : isRow a.node.kind := hk.imp_right .inl
  have hcounted : isCountedLoop a.node.kind = false := isRow_not_counted hrow
  refine ⟨?_, ?_, ?_, ?_⟩
  · rcases hk with hk | hk <;> simp [parentIs, Locus.parent?, Locus.child, hk]
  · intro y hy
    rw [Locus.child, onward_row hrow, Option.or_eq_some_iff] at hy
    rcases hy with hy | ⟨-, hy⟩
    · exact List.mem_append_left _ (firstEntrance?_mem hy)
    · exact List.mem_append_right _ (h.next y hy)
  · intro y hy
    simp only [waiting?, Locus.child] at hy
    split at hy
    · exact List.mem_append_left _ (stop?_mem hy)
    · cases hy
  · intro kind y hy
    have houtlets : outlets src kind a = [] := by
      rw [outlets_of_parent h.plain]
      rcases hk with hk | hk <;> simp [isLoop, isCountedLoop, Locus.kind, hk]
    have htakes : takes src kind a = [] := by
      rcases hk with hk | hk <;> simp [takes, isCountedLoop, Locus.kind, hk]
    have hne : a.node.kind ≠ "function_definition" := by rcases hk with hk | hk <;> simp [hk]
    rw [Locus.child, targets, if_neg hne, hcounted, houtlets, htakes] at hy
    exact List.mem_append_right _ (h.taken kind y (by simpa using hy))

/-- Behind a side of a branch is what is behind the branch. -/
theorem side (h : Behind src a later) (hk : a.kind = "if_statement") :
    Behind src (a.child i t) later := by
  have hk : a.node.kind = "if_statement" := hk
  refine ⟨?_, ?_, ?_, ?_⟩
  · simp [parentIs, Locus.parent?, Locus.child, hk]
  · intro y hy
    refine h.next y ?_
    simpa [Locus.child, onward, hk] using hy
  · intro y hy
    simp [waiting?, Locus.child, hk] at hy
  · intro kind y hy
    have houtlets : outlets src kind a = [] := by
      rw [outlets_of_parent h.plain]
      simp [isLoop, isCountedLoop, Locus.kind, hk]
    have htakes : takes src kind a = [] := by simp [takes, isCountedLoop, Locus.kind, hk]
    rw [Locus.child, targets, if_neg (by simp [hk]), houtlets, htakes] at hy
    refine h.taken kind y ?_
    simpa [isCountedLoop, hk] using hy

/-- Behind the body of a loop is its head. What a loop leaves waiting stops behind the loop. -/
theorem body (h : Behind src a later) (hk : isCountedLoop a.kind = true) :
    Behind src (a.child i t) (spanId src a.node :: later) := by
  have hloop : isLoop a.kind = true := isLoop_of_counted hk
  have hk' : a.node.kind = "while_statement" ∨ a.node.kind = "for_statement" := by
    simpa [isCountedLoop, Locus.kind] using hk
  refine ⟨?_, ?_, ?_, ?_⟩
  · rcases hk' with hk' | hk' <;> simp [parentIs, Locus.parent?, Locus.child, hk']
  · intro y hy
    have hy : spanId src a.node = y := by
      rcases hk' with hk' | hk' <;> simpa [Locus.child, onward, hk'] using hy
    exact hy ▸ List.mem_cons_self
  · intro y hy
    rcases hk' with hk' | hk' <;> simp [waiting?, Locus.child, hk'] at hy
  · intro kind y hy
    have hne : a.node.kind ≠ "function_definition" := by rcases hk' with hk' | hk' <;> simp [hk']
    have hswitch : a.kind ≠ "switch_statement" := by
      rcases hk' with hk' | hk' <;> simp [Locus.kind, hk']
    have hcounted : isCountedLoop a.node.kind = true := hk
    rw [Locus.child, targets, if_neg hne, hcounted, if_pos rfl, List.append_nil, List.mem_append,
      takes, if_neg hswitch, hk, outlets_of_parent h.plain, hloop] at hy
    by_cases hbreak : kind = "break_statement"
    · exact List.mem_cons_of_mem _ (h.waiting y (by simpa [hbreak] using hy))
    · have hy : y = spanId src a.node := by simpa [hbreak] using hy
      exact hy ▸ List.mem_cons_self

/-- Nothing is behind the body of a function. -/
theorem function (hk : f.kind = "function_definition") : Behind src (f.child i t) [] := by
  have hk : f.node.kind = "function_definition" := hk
  refine ⟨?_, ?_, ?_, ?_⟩
  · simp [parentIs, Locus.parent?, Locus.child, hk]
  · simp [Locus.child, onward, hk]
  · simp [waiting?, Locus.child, hk]
  · simp [Locus.child, targets, hk]

/-- What is behind a child, with the part of the course that is left at the child. -/
theorem child (h : Behind src a later) (he : elementary a.node = true) (hi : i ∈ places a.node)
    (ht : a.node.children[i]? = some t) :
    ∃ more, course src t ++ more <:+ course src a.node ++ later ∧
    Behind src (a.child i t) more := by
  have hleaf := isLeaf_of_child ht
  obtain ⟨before, after, hinner⟩ := List.append_of_mem (mem_inner.mpr ⟨i, hi, ht⟩)
  rcases elementary_kinds he with hk | hk | hk | hk
  · refine ⟨_, ?_, h.row hk⟩
    have hcounted : isCountedLoop a.node.kind = false := isRow_not_counted (hk.imp_right .inl)
    rw [course_of_other hcounted, inner_row hk]
    conv => rhs; rw [split_at ht]
    exact ⟨ownNumbers src a.node ++ (a.node.children.take i).flatMap (course src), by simp⟩
  · refine ⟨after.flatMap (course src) ++ later, ?_, (h.side hk).mono fun y hy =>
      List.mem_append_right _ hy⟩
    have hcounted : isCountedLoop a.node.kind = false := by simp [hk, isCountedLoop]
    rw [course_of_other hcounted, hinner]
    exact ⟨ownNumbers src a.node ++ before.flatMap (course src), by simp⟩
  · refine ⟨after.flatMap (course src) ++ spanId src a.node :: later, ?_,
      (h.body hk).mono fun y hy => List.mem_append_right _ hy⟩
    rw [course_of_loop hk, hinner, ownNumbers_own hleaf (kinds_of_counted hk)]
    exact ⟨before.flatMap (course src), by simp⟩
  · rw [places_simple hk] at hi
    cases hi

end Behind

theorem Inside.elementary (h : Inside f l) (he : elementaryInside f.node = true) :
    CrossCall.Flow.elementary l.node = true := by
  induction h with
  | body hi ht => exact elementary_child he hi ht
  | child _ hi ht ih => exact elementary_child (elementary_iff.mp ih).2.2 hi ht

/-- The course of a function from a statement on: first the statement, and behind it all to which
control may go. -/
theorem Inside.behind (h : Inside f l) (hk : f.kind = "function_definition")
    (he : elementaryInside f.node = true) :
    ∃ later, course src l.node ++ later <:+ (inner f.node).flatMap (course src) ∧
    Behind src l later := by
  induction h with
  | @body i t hi ht =>
    refine ⟨[], ?_, .function hk⟩
    have hinner :=
      inner_body (.inr (.inr hk)) ⟨i, t, by simpa [places_body (.inr (.inr hk))] using hi, ht, rfl⟩
    simp [hinner, Locus.child]
  | child ha hi ht ih =>
    obtain ⟨later, hsuffix, hbehind⟩ := ih
    obtain ⟨more, hmore, hchild⟩ := hbehind.child (ha.elementary he) hi ht
    exact ⟨more, hmore.trans hsuffix, hchild⟩

/-- Every number is that of a statement. -/
theorem Inside.exists_own (a : Locus) : Inside f a → x ∈ numbers src a.node →
    ∃ l, Inside f l ∧ x ∈ ownNumbers src l.node := by
  induction a using locus_induction with
  | step a ih =>
    intro ha hx
    rcases mem_numbers.mp hx with hx | ⟨t, ht, hx⟩
    · exact ⟨a, ha, hx⟩
    · obtain ⟨i, hi, ht⟩ := mem_inner.mp ht
      exact ih (a.child i t) (child_mem_children ht) (.child ha hi ht) hx

/-! ### Edges go forward -/

theorem onward_of_false {above : List (Tree × Nat)} (h : onward src false above = some y) :
    onward src true above = some y := by
  induction above with
  | nil => cases h
  | cons q rest ih =>
    obtain ⟨q, i⟩ := q
    unfold onward at h ⊢
    split at h <;> simp_all [Option.or_eq_some_iff]
    tauto

theorem Builds.branch_of (h : Builds src l E p) (hk : l.kind = "if_statement") :
    ∃ v c yes no, v.id = spanId src l.node ∧ Named l "consequence" c ∧
    (partAt src c).run [⟨v, "Y"⟩] = .ok yes ∧
      ((∃ d, Named l "alternative" d ∧ (partAt src d).run [⟨v, "N"⟩] = .ok no) ∨
        l.node.fieldIndex? "alternative" = none ∧ no = { exits := [⟨v, "N"⟩] }) ∧
        p = .forked v E yes no := by
  cases h with
  | branch _ hv hc hyes hno => exact ⟨_, _, _, _, hv, hc, hyes, hno, rfl⟩
  | loop hk' => simp [hk, isCountedLoop] at hk'
  | simple hk' => simp [hk, structuredKinds] at hk'
  | block hk' | clause hk' | doLoop hk' | bare hk' | switch hk' | label hk' => simp [hk] at hk'

/-- From inside a statement that is no loop, jumps go only to where the nodes around take them. -/
theorem Behind.jumps (h : Behind src l later) (hk : isLoop l.kind = false)
    (hj : Jumps src kind l x y) : y ∈ later := by
  rcases hj with ⟨-, hy⟩ | ⟨-, hy⟩
  · rw [outlets_of_parent h.plain, hk] at hy
    simp at hy
  · exact h.taken kind y hy

/-- The edges that the piece of a branch has from its head lead to the entrances of its sides. -/
theorem Context.leads_inner (h : Context src rs l E p) (ho : orderly l.node = true)
    (hd : (numbers src l.node).Nodup) (hk : l.kind = "if_statement" ∨ l.kind ∉ structuredKinds)
    (hown : spanId src l.node ∈ ownNumbers src l.node)
    (hleads : Leads p.records (spanId src l.node) label y) :
    y ∈ (inner l.node).flatMap (course src) := by
  obtain ⟨hw, hin⟩ := orderly_iff.mp ho
  have hclean := h.clean _ (mem_numbers.mpr (.inl hown)) label
  rcases builds hw h.run with ⟨-, rfl⟩ | ⟨-, -, hb⟩
  · exact absurd hleads not_leads_nil
  rcases hk with hk | hk
  · obtain ⟨v, c, yes, no, hv, hc, hyes, hno, rfl⟩ := hb.branch_of hk
    have hside : ∀ name d X q, name = "consequence" ∨ name = "alternative" → Named l name d →
        (partAt src d).run X = .ok q → Leads q.records (spanId src l.node) label y →
          y ∈ (inner l.node).flatMap (course src) := by
      intro name d X q hname hd' hq hleads
      have hmem := mem_inner_if hk hd' hname
      have hpass :=
        passes d ((orderlyInside_iff.mp hin).1 d.node hmem) (own_notMem_inner hd hown hmem) X q hq
      have hy := ((hpass.leads label y).mp hleads).2
      exact List.mem_flatMap.mpr ⟨d.node, hmem, mem_course.mpr (entrance?_mem d y hy)⟩
    rw [Piece.forked, leads_cons, leads_append] at hleads
    rcases hleads with ⟨-, hopen⟩ | hleads | hleads
    · exact absurd hopen hclean
    · exact hside _ c _ yes (.inl rfl) hc hyes hleads
    · rcases hno with ⟨d, hd', hno⟩ | ⟨-, rfl⟩
      · exact hside _ d _ no (.inr rfl) hd' hno hleads
      · exact absurd hleads not_leads_nil
  · obtain ⟨v, hv, rfl⟩ := hb.simple_of hk
    rw [leads_cons] at hleads
    rcases hleads with ⟨-, hopen⟩ | hleads
    · exact absurd hopen hclean
    · exact absurd hleads not_leads_nil

/-- From a branch, and from a statement without inner structure, control goes forward. -/
theorem Context.leads_later (h : Context src rs l E p) (ho : orderly l.node = true)
    (hd : (numbers src l.node).Nodup) (hbehind : Behind src l later)
    (hk : l.kind = "if_statement" ∨ l.kind ∉ structuredKinds)
    (hown : spanId src l.node ∈ ownNumbers src l.node)
    (hrec : spanId src l.node ∈ recordedIds p.records)
    (hleads : Leads rs (spanId src l.node) label y) :
    y ∈ (inner l.node).flatMap (course src) ++ later := by
  have hloop : isLoop l.kind = false := by
    rcases hk with hk | hk
    · simp [hk, isLoop, isCountedLoop]
    · simp only [structuredKinds, List.mem_cons, not_or] at hk
      simp [hk, isLoop, isCountedLoop]
  rw [h.fate _ (mem_numbers.mpr (.inl hown)) hrec] at hleads
  rcases hleads with hleads | ⟨-, hnext⟩ | ⟨-, hj | hj⟩
  · exact List.mem_append_left _ (h.leads_inner ho hd hk hown hleads)
  · refine List.mem_append_right _ (hbehind.next y ?_)
    cases hback : loopsBack src (spanId src l.node) l <;> rw [hback] at hnext
    · exact onward_of_false hnext
    · exact hnext
  · exact List.mem_append_right _ (hbehind.jumps hloop hj)
  · exact List.mem_append_right _ (hbehind.jumps hloop hj)

/-! ### Ways out -/

theorem eq_of_suffix (hd : zs.Nodup) (h₁ : x :: xs <:+ zs) (h₂ : x :: ys <:+ zs) : xs = ys := by
  have hlonger : ∀ {xs ys : List Int}, x :: ys <:+ zs → x :: xs <:+ x :: ys → xs = ys := by
    intro xs ys h₂ h
    rcases List.suffix_cons_iff.mp h with heq | h
    · exact (List.cons.inj heq).2
    · have hnd := hd.sublist h₂.sublist
      exact absurd (h.subset List.mem_cons_self) (List.nodup_cons.mp hnd).1
  rcases List.suffix_or_suffix_of_suffix h₁ h₂ with h | h
  · exact hlonger h₂ h
  · exact (hlonger h₁ h).symm

theorem headId?_of_counted (hk : isCountedLoop l.kind = true) :
    headId? src l.node = some (spanId src l.node) := by
  have hne : l.node.kind ≠ "do_statement" := (kinds_of_counted hk).2.2
  rw [headId?, if_neg hne]

theorem exits_successor (hk : isCountedLoop l.kind = true) (h : Exits src (graphOf rs) l y) :
    y ∈ (graphOf rs).successors (spanId src l.node) := by
  rw [Exits, if_pos (isLoop_of_counted hk), headId?_of_counted hk] at h
  obtain ⟨z, hz, e, he, hends, -⟩ := h
  cases hz
  exact mem_successors.mpr (Graph.mem_arcs.mpr ⟨e, he, hends⟩)

/-- Every loop that control comes to can be left. -/
def Leavable (src : Source) (f : Locus) (rs : List Record) : Prop :=
  ∀ l, Inside f l → isCountedLoop l.kind = true → spanId src l.node ∈ recordedIds rs →
    ∃ y, Exits src (graphOf rs) l y

theorem Legible.course_nodup (h : Legible src f rs) :
    ((inner f.node).flatMap (course src)).Nodup := by
  have hnodup := (course_perm src f).nodup_iff.mpr h.distinct
  have hcounted : isCountedLoop f.node.kind = false := by
    simp [show f.node.kind = _ from h.function, isCountedLoop]
  rw [course_of_other hcounted] at hnodup
  exact (List.nodup_append'.mp hnodup).2.1

/-- What is behind a statement is outside it. -/
theorem Legible.behind (h : Legible src f rs) (he : elementaryInside f.node = true)
    (hl : Inside f l) :
    ∃ later, later <:+ (inner f.node).flatMap (course src) ∧ Behind src l later ∧
      ∀ z ∈ numbers src l.node, z ∉ later := by
  obtain ⟨later, hsuffix, hbehind⟩ := @Inside.behind src f l hl h.function he
  refine ⟨later, (List.suffix_append _ _).trans hsuffix, hbehind, fun z hz => ?_⟩
  have hnodup := h.course_nodup.sublist hsuffix.sublist
  exact (List.nodup_append'.mp hnodup).2.2 (mem_course.mpr hz)

/-- Where loops can be left, control ends at a vertex or has a later one to go to. -/
theorem Legible.ends_or_goes_forward (h : Legible src f rs) (he : elementaryInside f.node = true)
    (hleave : Leavable src f rs) (hsuffix : x :: xs <:+ (inner f.node).flatMap (course src))
    (hx : x ∈ recordedIds rs) :
    (graphOf rs).successors x = [] ∨ ∃ y ∈ xs, y ∈ (graphOf rs).successors x := by
  obtain ⟨t, ht, hxt⟩ := List.mem_flatMap.mp (hsuffix.subset List.mem_cons_self)
  obtain ⟨i, hi, ht⟩ := mem_inner.mp ht
  obtain ⟨l, hl, hown⟩ := Inside.exists_own (f.child i t) (.body hi ht) (mem_course.mp hxt)
  obtain ⟨later, hlater, hbehind⟩ := @Inside.behind src f l hl h.function he
  obtain ⟨E, p, hctx⟩ := h.context hl
  have ho := hl.orderly h.orderly
  have hrec := (hctx.ids x (mem_numbers.mpr (.inl hown))).mp hx
  have hnodup := h.course_nodup
  have hleaf : l.node.isLeaf = false := by
    rcases builds (orderly_iff.mp ho).1 hctx.run with ⟨-, rfl⟩ | ⟨hleaf, -⟩
    · cases hrec
    · exact hleaf
  -- A row has no number of its own; all other statements have the one of their span.
  rcases elementary_kinds (hl.elementary he) with hk | hk
  · rw [ownNumbers, hleaf] at hown
    rcases hk with hk | hk <;> simp [hk] at hown
  have hsimple : ownNumbers src l.node = [spanId src l.node] :=
    ownNumbers_own hleaf (kinds_of_head hk)
  obtain rfl : x = spanId src l.node := by simpa [hsimple] using hown
  cases hcounted : isCountedLoop l.node.kind with
  | true =>
    rw [course_of_loop hcounted, hsimple, List.append_assoc] at hlater
    obtain rfl := eq_of_suffix hnodup hsuffix ((List.suffix_append _ _).trans hlater)
    obtain ⟨y, hy⟩ := hleave l hl hcounted hx
    have hnext := (h.exits hl (mem_numbers.mpr (.inl hown)) hx).mp hy
    exact .inr ⟨y, hbehind.next y hnext, exits_successor hcounted hy⟩
  | false =>
    have hk := hk.imp_right fun hk => hk.resolve_left (by simp [hcounted])
    rw [course_of_other hcounted, hsimple, List.append_assoc, List.singleton_append] at hlater
    obtain rfl := eq_of_suffix hnodup hsuffix hlater
    rcases List.eq_nil_or_concat
      ((graphOf rs).successors (spanId src l.node)) with hnil | ⟨_, y, hy⟩
    · exact .inl hnil
    · have hy : y ∈ (graphOf rs).successors (spanId src l.node) := by simp [hy]
      obtain ⟨label, hleads⟩ := mem_successors_iff.mp hy
      exact .inr ⟨y, hctx.leads_later ho (hl.nodup h.distinct) hbehind hk hown hrec hleads, hy⟩

/-- Where every vertex ends or has a later one to go to, control comes to an end over later
vertices. -/
theorem exists_walk_to_end (hclosed : ∀ a ∈ g.arcs, a.2 ∈ g.ids)
    (hforward : ∀ x xs, x :: xs <:+ zs → x ∈ g.ids →
      g.successors x = [] ∨ ∃ y ∈ xs, y ∈ g.successors x)
    (hxs : xs <:+ zs) : ∀ x ∈ xs, x ∈ g.ids →
      ∃ t ∈ g.ids, g.successors t = [] ∧ ∃ ys, Walk g.successors x ys t ∧ ∀ y ∈ ys, y ∈ xs := by
  induction xs with
  | nil => exact nofun
  | cons a rest ih =>
    have ih := ih ((List.suffix_cons a rest).trans hxs)
    intro x hx hids
    rcases List.mem_cons.mp hx with rfl | hx
    · rcases hforward x rest hxs hids with hend | ⟨y, hy, hstep⟩
      · exact ⟨x, hids, hend, [x], .here, by simp⟩
      · obtain ⟨t, ht, hend, ys, hw, hys⟩ := ih y hy (hclosed _ (mem_successors.mp hstep))
        refine ⟨t, ht, hend, x :: ys, .step hstep hw, ?_⟩
        exact fun z hz => (List.mem_cons.mp hz).elim (fun h => by simp [h]) fun hz =>
          List.mem_cons_of_mem _ (hys z hz)
    · obtain ⟨t, ht, hend, ys, hw, hys⟩ := ih x hx hids
      exact ⟨t, ht, hend, ys, hw, fun y hy => List.mem_cons_of_mem _ (hys y hy)⟩

end CrossCall.Flow

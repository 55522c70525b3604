import CrossCall.Proofs.Fragment
import CrossCall.Proofs.Graph

/-! The control flow of structured code: the paths of the graph are the beginnings of the
executions. -/
namespace CrossCall.Flow

variable {src : Source} {l : Locus} {s : Stmt} {v : Vertex} {E : List Exit} {p : Piece}
  {t parent : Tree} {above : List (Tree × Nat)} {i : Nat} {cs : List Tree} {parts : List Part}
  {ms : List Member} {name : String} {part : Part} {rs : List Record}

/-! ### Structured trees -/

theorem preorder_eq (t : Tree) : t.preorder = t :: Tree.preorderAll t.children := by
  cases t
  rfl

/-- All of these trees are structured code. -/
def AllStructured (cs : List Tree) : Prop := ∀ x ∈ Tree.preorderAll cs, isPlain x = true

theorem allStructured_cons :
    AllStructured (t :: cs) ↔ (isPlain t = true ∧ Structured t) ∧ AllStructured cs := by
  simp only [AllStructured, Structured, Tree.preorderAll, preorder_eq, List.cons_append,
    List.forall_mem_cons, List.forall_mem_append, and_assoc]

theorem isPlain_kind (h : isPlain t = true) : t.kind ∉ unstructuredKinds := by
  simp only [isPlain, Bool.and_eq_true] at h
  simpa using h.1.1

mutual

theorem jumpsBelow_structured (above : List (Tree × Nat)) :
    (t : Tree) → Structured t → jumpsBelow above t = []
  | .node k a b f cs, h => jumpsAmong_structured (.node k a b f cs) above 0 cs h

theorem jumpsAmong_structured (parent : Tree) (above : List (Tree × Nat)) (i : Nat) :
    (cs : List Tree) → AllStructured cs → jumpsAmong parent above i cs = []
  | [], _ => rfl
  | t :: ts, h => by
    obtain ⟨⟨hplain, ht⟩, hts⟩ := allStructured_cons.mp h
    have hjump : isJump t.kind = false := by
      have hkind := isPlain_kind hplain
      simp only [unstructuredKinds, List.mem_cons, not_or] at hkind
      simp [isJump, hkind]
    rw [jumpsAmong, jumpsAmong_structured parent above (i + 1) ts hts, jumpsBelow_structured _ t ht,
      hjump]
    simp

end

theorem breaksBelow_structured (h : Structured l.node) : breaksBelow l = [] := by
  rw [breaksBelow, jumpsBelow_structured l.above l.node h, List.filter_nil]

theorem continuesBelow_structured (h : Structured l.node) : continuesBelow l = [] := by
  rw [continuesBelow, jumpsBelow_structured l.above l.node h, List.filter_nil]

/-! ### Parts -/

theorem bind_eq_ok {ε α β : Type} {x : Except ε α} {f : α → Except ε β} {r : β} :
    x >>= f = .ok r ↔ ∃ a, x = .ok a ∧ f a = .ok r := by
  cases x with
  | error e => simp [bind, Except.bind]
  | ok a => simp [bind, Except.bind]

/-- The transformer builds pieces that agree with the statement. -/
structure Follows (src : Source) (s : Stmt) (run : Transfer) : Prop where
  dead : run [] = .ok {}
  adequate : ∀ E p, E ≠ [] → run E = .ok p → p.vertices.Nodup → Adequate src s E p

/-- A part and a member stand for the same structured child. -/
structure Matches (src : Source) (part : Part) (m : Member) : Prop where
  locus : part.locus = m.locus
  structured : Structured part.locus.node
  leaf : part.locus.node.isLeaf = true → ∀ E, part.run E = .ok { exits := E }
  follows : Follows src m.stmt part.run

theorem find?_matches (h : List.Forall₂ (Matches src) parts ms) (name : String) :
    Option.Rel (Matches src) (parts.find? fun q => q.locus.node.field == some name)
      (ms.find? fun m => m.locus.node.field == some name) := by
  induction h with
  | nil => exact .none
  | @cons q m parts ms hq _ ih =>
    rw [List.find?_cons, List.find?_cons, hq.locus]
    split
    · exact .some hq
    · exact ih

theorem partNamed_eq_ok :
    partNamed parts name = .ok part ↔
    (parts.find? fun q => q.locus.node.field == some name) = some part := by
  unfold partNamed
  cases parts.find? fun q => q.locus.node.field == some name <;> simp

theorem partNamed_matches (h : List.Forall₂ (Matches src) parts ms)
    (hp : partNamed parts name = .ok part) :
    Structured part.locus.node ∧ Follows src (Stmt.named ms name) part.run := by
  have hrel := find?_matches h name
  rw [partNamed_eq_ok.mp hp] at hrel
  unfold Stmt.named
  generalize (ms.find? fun m => m.locus.node.field == some name) = found at hrel ⊢
  cases hrel with
  | some hm => exact ⟨hm.structured, hm.follows⟩

theorem runAll_follows (h : List.Forall₂ (Matches src) parts ms) :
    Follows src (Stmt.sequence ms) (runAll parts) := by
  induction h with
  | nil =>
    refine ⟨rfl, ?_⟩
    intro E p _ hp _
    cases hp
    exact adequate_skip
  | @cons q m parts ms hq _ ih =>
    refine ⟨?_, ?_⟩
    · rw [runAll, hq.follows.dead]
      simp [bind, Except.bind, ih.dead, pure, Except.pure]
    · intro E p hE hp hnodup
      obtain ⟨p₁, hp₁, hp⟩ := bind_eq_ok.mp hp
      obtain ⟨p₂, hp₂, hp⟩ := bind_eq_ok.mp hp
      cases hp
      have hsplit : (p₁.vertices ++ p₂.vertices).Nodup := by simpa [Piece.vertices] using hnodup
      obtain ⟨hn₁, hn₂, hd⟩ := List.nodup_append'.mp hsplit
      refine Adequate.seq hE (hq.follows.adequate E p₁ hE hp₁ hn₁) ?_ ?_ hd
      · exact fun hX => ih.adequate _ _ hX hp₂ hn₂
      · intro hX
        rw [hX, ih.dead] at hp₂
        exact (Except.ok.inj hp₂).symm

/-- Where no breaks wait, a block runs its members in order. -/
theorem runBlock_eq (h : ∀ q ∈ parts, breaksBelow q.locus = []) :
    runBlock src rs [] parts E = (runAll parts E).map fun p =>
    { p with records := rs ++ p.records } := by
  induction parts generalizing rs E with
  | nil => simp [runBlock, runAll, Except.map]
  | cons q parts ih =>
    have hq : breaksBelow q.locus = [] := h q List.mem_cons_self
    have hrest : ∀ q ∈ parts, breaksBelow q.locus = [] :=
      fun q hq => h q (List.mem_cons_of_mem _ hq)
    rw [runBlock, runAll]
    cases q.run E with
    | error e => rfl
    | ok piece =>
      have hnone : verticesOf src [] = .ok [] := rfl
      simp only [bind, Except.bind, pure, Except.pure, hq, hnone, List.append_nil, List.isEmpty_nil,
        Bool.true_or, if_true, ite_self]
      rw [ih hrest]
      cases runAll parts piece.exits with
      | error e => rfl
      | ok rest => simp [Except.map]

/-- Parts that hand on what they are given may be left out. -/
theorem runAll_filter {keep : Part → Bool}
    (h : ∀ q ∈ parts, keep q = false → ∀ E, q.run E = .ok { exits := E }) :
    runAll (parts.filter keep) E = runAll parts E := by
  induction parts generalizing E with
  | nil => rfl
  | cons q parts ih =>
    have hrest : ∀ q ∈ parts, keep q = false → ∀ E, q.run E = .ok { exits := E } :=
      fun q hq => h q (List.mem_cons_of_mem _ hq)
    cases hk : keep q with
    | true =>
      rw [List.filter_cons_of_pos hk, runAll, runAll]
      simp only [ih hrest]
    | false =>
      rw [List.filter_cons_of_neg (by simp [hk]), ih hrest, runAll, h q List.mem_cons_self hk E]
      simp only [bind, Except.bind]
      cases runAll parts E <;> rfl

/-! ### Branches and loops -/

theorem runIf_adequate (h : List.Forall₂ (Matches src) parts ms) (hp : runIf src l parts E = .ok p)
    (hn : p.vertices.Nodup) :
    Adequate src (.branch l (Stmt.named ms "consequence") (Stmt.named ms "alternative")) E p := by
  obtain ⟨v, hv, hp⟩ := bind_eq_ok.mp hp
  obtain ⟨yes, hyes, hp⟩ := bind_eq_ok.mp hp
  obtain ⟨p₁, hp₁, hp⟩ := bind_eq_ok.mp hp
  obtain ⟨-, hfollows⟩ := partNamed_matches h hyes
  obtain ⟨p₂, hp₂, rfl⟩ : ∃ p₂,
      (p₂.vertices.Nodup → Adequate src (Stmt.named ms "alternative") [⟨v, "N"⟩] p₂) ∧
      p = .forked v E p₁ p₂ := by
    have hrel := find?_matches h "alternative"
    unfold Stmt.named
    generalize (parts.find? fun q => q.locus.node.field == some "alternative") = found at hp hrel
    generalize (ms.find? fun m => m.locus.node.field == some "alternative") = found' at hrel ⊢
    cases hrel with
    | none =>
      cases hp
      exact ⟨_, fun _ => adequate_skip, rfl⟩
    | some hm =>
      obtain ⟨p₂, hp₂, hp⟩ := bind_eq_ok.mp hp
      cases hp
      exact ⟨p₂, hm.follows.adequate _ _ (by simp) hp₂, rfl⟩
  have hsplit : (v :: (p₁.vertices ++ p₂.vertices)).Nodup := by
    simpa [Piece.vertices, Piece.forked] using hn
  obtain ⟨hvn, hsplit⟩ := List.nodup_cons.mp hsplit
  obtain ⟨hn₁, hn₂, hd⟩ := List.nodup_append'.mp hsplit
  obtain ⟨hv₁, hv₂⟩ := not_or.mp (List.mem_append.not.mp hvn)
  exact .branch hv (hfollows.adequate _ _ (by simp) hp₁ hn₁) (hp₂ hn₂) hv₁ hv₂ hd

theorem runCountedLoop_adequate (h : List.Forall₂ (Matches src) parts ms) (hl : Structured l.node)
    (hp : runCountedLoop src l parts E = .ok p) (hn : p.vertices.Nodup) :
    Adequate src (.loop l (Stmt.named ms "body")) E p := by
  obtain ⟨v, hv, hp⟩ := bind_eq_ok.mp hp
  obtain ⟨body, hbody, hp⟩ := bind_eq_ok.mp hp
  obtain ⟨piece, hpiece, hp⟩ := bind_eq_ok.mp hp
  obtain ⟨-, hfollows⟩ := partNamed_matches h hbody
  rw [breaksBelow_structured hl, continuesBelow_structured hl] at hp
  obtain rfl : p = .looped v E piece := by
    cases hp
    simp [Piece.looped, fileEdges]
  have hsplit : (v :: piece.vertices).Nodup := by
    simpa [Piece.vertices, Piece.looped] using hn
  obtain ⟨hvn, hn⟩ := List.nodup_cons.mp hsplit
  exact .loop hv (hfollows.adequate _ _ (by simp) hpiece hn) hvn

theorem childByField?_eq (hl : parts.map (·.locus) = l.children)
    (hp : partNamed parts name = .ok part) :
    l.childByField? name = some part.locus := by
  rw [Locus.childByField?, ← hl, List.find?_map, Function.comp_def, partNamed_eq_ok.mp hp,
    Option.map_some]

theorem runDo_adequate (h : List.Forall₂ (Matches src) parts ms)
    (hl : parts.map (·.locus) = l.children) (hE : E ≠ []) (hp : runDo src parts E = .ok p)
    (hn : p.vertices.Nodup) :
    Adequate src (.doLoop (Stmt.named ms "body") l) E p := by
  obtain ⟨body, hbody, hp⟩ := bind_eq_ok.mp hp
  obtain ⟨piece, hpiece, hp⟩ := bind_eq_ok.mp hp
  obtain ⟨condition, hcondition, hp⟩ := bind_eq_ok.mp hp
  obtain ⟨plain, hplain, hp⟩ := bind_eq_ok.mp hp
  obtain ⟨hstructured, hfollows⟩ := partNamed_matches h hbody
  rw [breaksBelow_structured hstructured, continuesBelow_structured hstructured] at hp
  have hc : conditionVertex src l =
      .ok { plain with text := "while (" ++ plain.text ++ ")", branch := true } := by
    rw [conditionVertex, childByField?_eq hl hcondition]
    simp only [hplain, Except.map]
  obtain rfl : p = .repeated
      { plain with text := "while (" ++ plain.text ++ ")", branch := true } piece := by
    cases hp
    unfold Piece.repeated
    cases piece.records <;> simp [withBack, fileEdges, edgesTo]
  rw [vertices_repeated] at hn
  obtain ⟨hn, -, hd⟩ := List.nodup_append'.mp hn
  exact .doLoop hc (hfollows.adequate _ _ hE hpiece hn) fun hc => hd hc List.mem_cons_self

/-! ### Nodes -/

theorem matches_of_mem (h : List.Forall₂ (Matches src) parts ms) (hq : part ∈ parts) :
    ∃ m, Matches src part m := by
  induction h with
  | nil => cases hq
  | cons hm _ ih =>
    rcases List.mem_cons.mp hq with rfl | hq
    · exact ⟨_, hm⟩
    · exact ih hq

theorem node_mem_children {c : Locus} (h : c ∈ l.children) : c.node ∈ l.node.children := by
  obtain ⟨i, hi, rfl⟩ := List.mem_mapIdx.mp h
  exact List.getElem_mem hi

theorem runBlock_follows (h : List.Forall₂ (Matches src) parts ms) :
    Follows src (Stmt.sequence ms) (runBlock src [] [] parts) := by
  have hnone : ∀ q ∈ parts, breaksBelow q.locus = [] := by
    intro q hq
    obtain ⟨m, hm⟩ := matches_of_mem h hq
    exact breaksBelow_structured hm.structured
  have heq : runBlock src [] [] parts = runAll parts := by
    funext E
    rw [runBlock_eq hnone]
    cases runAll parts E <;> rfl
  rw [heq]
  exact runAll_follows h

/-- An else clause runs all its members: the word itself is a leaf. -/
theorem runElse_eq (hl : parts.map (·.locus) = l.children)
    (hleaf : ∀ q ∈ parts, q.locus.node.isLeaf = true → ∀ E, q.run E = .ok { exits := E })
    (hword : ∀ c ∈ l.node.children, c.kind ≠ "else" ∨ c.isLeaf = true)
    (hmany : 1 < l.node.children.length ∨ ∀ c ∈ l.node.children, c.isLeaf = true) :
    (if parts.length > 1 then runAll (parts.filter fun q => q.kind != "else") E
      else .ok { exits := E }) =
      runAll parts E := by
  have hmem : ∀ q ∈ parts, q.locus.node ∈ l.node.children := by
    intro q hq
    exact node_mem_children (hl ▸ List.mem_map_of_mem hq)
  have hlength : parts.length = l.node.children.length := by
    simpa [Locus.children] using congrArg List.length hl
  split
  · apply runAll_filter
    intro q hq hkeep
    exact hleaf q hq ((hword _ (hmem q hq)).resolve_left fun hne =>
      hne (by simpa [Part.kind, Locus.kind] using hkeep))
  · rename_i hone
    have hleaves := hmany.resolve_left (hlength ▸ hone)
    have hskip : runAll (parts.filter fun _ => false) E = runAll parts E :=
      runAll_filter fun q hq _ => hleaf q hq (hleaves _ (hmem q hq))
    rw [← hskip, List.filter_false]
    rfl

theorem runElse_follows (h : List.Forall₂ (Matches src) parts ms)
    (hl : parts.map (·.locus) = l.children) (hplain : isPlain l.node = true)
    (hk : l.kind = "else_clause") :
    Follows src (Stmt.sequence ms) fun E =>
      if parts.length > 1 then runAll (parts.filter fun q => q.kind != "else") E
      else .ok { exits := E } := by
  have hleaf : ∀ q ∈ parts, q.locus.node.isLeaf = true → ∀ E, q.run E = .ok { exits := E } := by
    intro q hq
    obtain ⟨m, hm⟩ := matches_of_mem h hq
    exact hm.leaf
  have hk' : l.node.kind = "else_clause" := hk
  simp only [isPlain, hk', Bool.and_eq_true, Bool.or_eq_true, List.all_eq_true, decide_eq_true_eq,
    bne_iff_ne] at hplain
  obtain ⟨hword, hmany⟩ := hplain.2.resolve_left (by decide)
  have heq : (fun E => if parts.length > 1 then runAll (parts.filter fun q => q.kind != "else") E
      else .ok { exits := E }) = runAll parts := by
    funext E
    exact runElse_eq hl hleaf hword hmany
  rw [heq]
  exact runAll_follows h

theorem runSimple_adequate (hp : runSimple src l E = .ok p) (hkind : l.kind ∉ unstructuredKinds) :
    Adequate src (if l.kind = "return_statement" then .ret l else .visit l) E p := by
  obtain ⟨v, hv, hp⟩ := bind_eq_ok.mp hp
  cases hp
  by_cases hk : l.kind = "return_statement"
  · rw [if_pos hk, if_pos (by simp [hasKind, hk])]
    exact adequate_ret hv
  · simp only [unstructuredKinds, List.mem_cons, not_or] at hkind
    rw [if_neg hk, if_neg (by simp [hasKind, hk, hkind])]
    exact adequate_visit hv

theorem runNode_follows (h : List.Forall₂ (Matches src) parts ms)
    (hl : parts.map (·.locus) = l.children) (hplain : isPlain l.node = true)
    (hs : Structured l.node) :
    Follows src (Stmt.ofNode l ms) (runNode src l parts) := by
  refine ⟨by simp [runNode], ?_⟩
  intro E p hE hp hn
  by_cases hleaf : l.node.isLeaf = true
  · have hp : p = { exits := E } := by simpa [runNode, hleaf, eq_comm] using hp
    rw [hp, Stmt.ofNode, if_pos hleaf]
    exact adequate_skip
  have hkind : l.kind ∉ unstructuredKinds := isPlain_kind hplain
  rw [runNode, if_neg (by simp [hleaf, hE])] at hp
  rw [Stmt.ofNode, if_neg hleaf]
  split at hp
  · rename_i hk
    simp [hk, unstructuredKinds] at hkind
  · rename_i hk
    rw [hk]
    exact (runBlock_follows h).adequate E p hE hp hn
  · rename_i hk
    rw [hk]
    exact (runElse_follows h hl hplain hk).adequate E p hE hp hn
  · rename_i hk
    rw [hk]
    exact runIf_adequate h hp hn
  · rename_i hk
    rw [hk]
    exact runCountedLoop_adequate h hs hp hn
  · rename_i hk
    rw [hk]
    exact runCountedLoop_adequate h hs hp hn
  · rename_i hk
    rw [hk]
    exact runDo_adequate h hl hE hp hn
  · rename_i hk
    simp [hk, unstructuredKinds] at hkind
  · rename_i hk
    simp [hk, unstructuredKinds] at hkind
  · rename_i hk
    simp [hk, unstructuredKinds] at hkind
  · have hcomment : l.kind ≠ "comment" := by
      intro hk
      have hk' : l.node.kind = "comment" := hk
      simp [isPlain, hk', hleaf] at hplain
    have hsimple := runSimple_adequate hp hkind
    split <;> simp_all

theorem loci_transferAll (cs : List Tree) (i : Nat) :
    (transferAll src parent above i cs).map (·.locus) = cs.mapIdx fun j c =>
    ⟨c, (parent, j + i) :: above⟩ := by
  induction cs generalizing i with
  | nil => rfl
  | cons c rest ih =>
    rw [transferAll, List.map_cons, ih, List.mapIdx_cons]
    simp [Nat.add_assoc, Nat.add_comm 1 i]

theorem loci_eq_children (l : Locus) :
    (transferAll src l.node l.above 0 l.node.children).map (·.locus) = l.children :=
  loci_transferAll _ 0

theorem transfer_leaf (h : t.isLeaf = true) (E : List Exit) :
    transfer src above t E = .ok { exits := E } := by
  cases t
  simp [transfer, runNode, h]

mutual

/-- Structured code is translated into pieces that agree with it. -/
theorem transfer_follows (src : Source) (above : List (Tree × Nat)) :
    (t : Tree) → isPlain t = true → Structured t →
    Follows src (Stmt.ofTree above t) (transfer src above t)
  | .node k a b f cs, hplain, hs =>
    runNode_follows (transferAll_matches src (.node k a b f cs) above 0 cs hs)
      (loci_eq_children ⟨.node k a b f cs, above⟩) hplain hs

theorem transferAll_matches (src : Source) (parent : Tree) (above : List (Tree × Nat)) (i : Nat) :
    (cs : List Tree) → AllStructured cs →
      List.Forall₂ (Matches src) (transferAll src parent above i cs)
      (Stmt.members parent above i cs)
  | [], _ => .nil
  | t :: ts, h => by
    obtain ⟨⟨hplain, ht⟩, hts⟩ := allStructured_cons.mp h
    refine .cons ⟨rfl, ht, ?_, ?_⟩ (transferAll_matches src parent above (i + 1) ts hts)
    · exact transfer_leaf
    · exact transfer_follows src ((parent, i) :: above) t hplain ht

end

/-! ### Graphs of records -/

theorem edges_graphOf (rs : List Record) : (graphOf rs).edges = rs.flatMap (·.edges) := by
  suffices hs : ∀ g : Graph,
      (rs.foldl (fun g r => { g.addVertex r.vertex with edges := g.edges ++ r.edges }) g).edges =
      g.edges ++ rs.flatMap (·.edges) from hs {}
  induction rs with
  | nil => simp
  | cons r rest ih =>
    intro g
    rw [List.foldl_cons, ih, List.flatMap_cons, List.append_assoc]

theorem vertices_graphOf (h : (rs.map (·.vertex.id)).Nodup) :
    (graphOf rs).vertices = rs.map (·.vertex) := by
  suffices hs : ∀ g : Graph, (∀ r ∈ rs, r.vertex.id ∉ g.ids) →
      (rs.foldl (fun g r => { g.addVertex r.vertex with edges := g.edges ++ r.edges }) g).vertices =
        g.vertices ++ rs.map (·.vertex) from hs {} (by simp [Graph.ids])
  induction rs with
  | nil => simp
  | cons r rest ih =>
    intro g hnew
    obtain ⟨hr, hrest⟩ := List.nodup_cons.mp h
    have hvertices : (g.addVertex r.vertex).vertices = g.vertices ++ [r.vertex] :=
      Graph.vertices_addVertex (hnew r List.mem_cons_self)
    rw [List.foldl_cons, ih hrest]
    · simp [hvertices]
    · intro r' hr' hmem
      rcases Graph.mem_ids_addVertex.mp hmem with hmem | heq
      · exact hnew r' (List.mem_cons_of_mem _ hr') hmem
      · exact hr (List.mem_map.mpr ⟨r', hr', heq⟩)

/-- A sequence of vertices of a graph, each of which is a successor of the one before. -/
def Graph.IsPath (g : Graph) (vs : List Vertex) : Prop :=
  (∀ v ∈ vs, v ∈ g.vertices) ∧ vs.IsChain fun a b => b.id ∈ g.successors a.id

section Numbered

variable {a b : Vertex} {vs : List Vertex} (hd : (rs.map (·.vertex.id)).Nodup)
  (hin : ∀ a b, Joins rs a b → a ∈ rs.map (·.vertex) ∧ b ∈ rs.map (·.vertex))

include hd hin

theorem mem_successors_graphOf (ha : a ∈ rs.map (·.vertex)) (hb : b ∈ rs.map (·.vertex)) :
    b.id ∈ (graphOf rs).successors a.id ↔ Joins rs a b := by
  have hinj : ∀ x ∈ rs.map (·.vertex), ∀ y ∈ rs.map (·.vertex), x.id = y.id → x = y := by
    have hnodup : ((rs.map (·.vertex)).map (·.id)).Nodup := by rwa [List.map_map]
    exact fun x hx y hy => List.inj_on_of_nodup_map hnodup hx hy
  rw [mem_successors, Graph.mem_arcs, edges_graphOf]
  constructor
  · rintro ⟨e, he, hends⟩
    obtain ⟨r, hr, he⟩ := List.mem_flatMap.mp he
    obtain ⟨x, y, hx, hy, hxa, hyb⟩ := Edge.ends?_eq_some.mp hends
    have hj : Joins rs x y := ⟨r, hr, e, he, hx, hy⟩
    rw [← hinj x (hin x y hj).1 a ha hxa, ← hinj y (hin x y hj).2 b hb hyb]
    exact hj
  · rintro ⟨r, hr, e, he, hx, hy⟩
    exact ⟨e, List.mem_flatMap.mpr ⟨r, hr, he⟩, Edge.ends?_eq_some.mpr ⟨a, b, hx, hy, rfl, rfl⟩⟩

theorem isPath_iff_trail (hv : v ∈ rs.map (·.vertex)) :
    vs.head? = some v ∧ (graphOf rs).IsPath vs ↔ ∃ b, Trail (Joins rs) v vs b := by
  have hchain : (∀ x ∈ vs, x ∈ rs.map (·.vertex)) →
      ((vs.IsChain fun a b => b.id ∈ (graphOf rs).successors a.id) ↔ vs.IsChain (Joins rs)) :=
    fun hvs => List.IsChain.iff_of_mem_imp fun a b ha hb =>
      mem_successors_graphOf hd hin (hvs a ha) (hvs b hb)
  rw [Trail.exists_iff_isChain, Graph.IsPath, vertices_graphOf hd]
  constructor
  · rintro ⟨hhead, hvs, h⟩
    exact ⟨hhead, (hchain hvs).mp h⟩
  · rintro ⟨hhead, h⟩
    obtain ⟨b, ht⟩ := Trail.exists_iff_isChain.mpr ⟨hhead, h⟩
    have hvs : ∀ x ∈ vs, x ∈ rs.map (·.vertex) := ht.all hv fun a b hj => (hin a b hj).2
    exact ⟨hhead, hvs, (hchain hvs).mpr h⟩

end Numbered

/-! ### Functions -/

theorem transfer_eq (l : Locus) : transfer src l.above l.node =
    runNode src l (transferAll src l.node l.above 0 l.node.children) := by
  obtain ⟨⟨k, a, b, f, cs⟩, above⟩ := l
  rfl

theorem ofTree_eq (l : Locus) : Stmt.ofTree l.above l.node =
    Stmt.ofNode l (Stmt.members l.node l.above 0 l.node.children) := by
  obtain ⟨⟨k, a, b, f, cs⟩, above⟩ := l
  rfl

/-- The records of a function are those of its body and its own. -/
theorem functionRecords_eq_ok (hk : l.kind = "function_definition") (hleaf : l.node.isLeaf = false)
    (hr : functionRecords src l = .ok rs) :
    ∃ v body p, Vertex.ofLocus src l = .ok v ∧
      partNamed (transferAll src l.node l.above 0 l.node.children) "body" = .ok body ∧
        body.run [{ vertex := v }] = .ok p ∧ rs = p.records ++ [⟨v, []⟩] := by
  have hnode :
      runNode src l (transferAll src l.node l.above 0 l.node.children) [{ vertex := { id := 0 } }] =
      runFunction src l
      (transferAll src l.node l.above 0 l.node.children) [{ vertex := { id := 0 } }] := by
    simp [runNode, hk, hleaf]
  rw [functionRecords, transfer_eq, hnode] at hr
  cases hpiece : runFunction src l
    (transferAll src l.node l.above 0 l.node.children) [{ vertex := { id := 0 } }] with
  | error e =>
    rw [hpiece] at hr
    cases hr
  | ok piece =>
    rw [hpiece] at hr
    cases hr
    obtain ⟨v, hv, hpiece⟩ := bind_eq_ok.mp hpiece
    obtain ⟨body, hbody, hpiece⟩ := bind_eq_ok.mp hpiece
    obtain ⟨p, hp, hpiece⟩ := bind_eq_ok.mp hpiece
    cases hpiece
    exact ⟨v, body, p, hv, hbody, hp, rfl⟩

theorem ofLocus_leaf (src : Source) (hk : l.kind = "function_definition")
    (hleaf : l.node.isLeaf = true) :
    ∃ v, Vertex.ofLocus src l = .ok v := by
  obtain ⟨⟨k, a, b, f, cs⟩, above⟩ := l
  obtain rfl : cs = [] := by simpa [Tree.isLeaf, Tree.children] using hleaf
  obtain rfl : k = "function_definition" := hk
  exact ⟨_, rfl⟩

theorem begins_skip {vs : List Vertex} : Begins src .skip vs ↔ vs = [] := by
  constructor
  · rintro ⟨ys, o, hx, hp⟩
    cases hx
    exact List.prefix_nil.mp hp
  · rintro rfl
    exact Executes.skip.begins

/-- From a vertex that enters a piece, the trails are what executions visit that begin with that
vertex. -/
theorem trail_iff_begins {vs : List Vertex} (hv : Vertex.ofLocus src l = .ok v)
    (h : Adequate src s [{ vertex := v }] p) (hvp : v ∉ p.vertices) :
    (∃ b, Trail (Joins p.records) v vs b) ↔ vs ≠ [] ∧ Begins src (.seq (.visit l) s) vs := by
  constructor
  · rintro ⟨b, ht⟩
    obtain ⟨ys, rfl, hbegin, -⟩ := h.trails_from hvp ht
    exact ⟨List.cons_ne_nil v ys, .seq_right (.visit hv) hbegin⟩
  · rintro ⟨hne, xs, o, hx, hprefix⟩
    rcases executes_seq.mp hx with ⟨us, ws, rfl, hu, hw⟩ | ⟨-, hu⟩
    · cases hu with
      | visit h' =>
        cases hv.symm.trans h'
        obtain ⟨b, ht, -⟩ := h.runs_from (open_singleton.mpr rfl) hw
        exact ht.initial hprefix hne
    · cases hu

theorem joins_function : Joins (p.records ++ [⟨v, []⟩]) = Joins p.records := by
  funext a b
  simp [Joins]

theorem function_within {a b : Vertex} (h : Adequate src s [{ vertex := v }] p)
    (hj : Joins (p.records ++ [⟨v, []⟩]) a b) :
    a ∈ (p.records ++ [(⟨v, []⟩ : Record)]).map (·.vertex) ∧
      b ∈ (p.records ++ [(⟨v, []⟩ : Record)]).map (·.vertex) := by
  rw [joins_function] at hj
  obtain ⟨ha, hb⟩ := h.joins_within hj
  rw [open_singleton] at ha
  simp only [List.map_append, List.mem_append, List.map_cons, List.map_nil, List.mem_singleton]
  exact ⟨ha, .inl hb⟩

/-- The paths of a structured function's graph that start at the function are the beginnings of its
executions. -/
theorem controlFlow_adequate (hk : l.kind = "function_definition") (hs : Structured l.node)
    (hr : functionRecords src l = .ok rs) (hd : (rs.map (·.vertex.id)).Nodup) :
    ∃ g v, controlFlow src l = .ok g ∧ Vertex.ofLocus src l = .ok v ∧
      ∀ vs, vs.head? = some v ∧ g.IsPath vs ↔
      vs ≠ [] ∧ Begins src (Stmt.ofTree l.above l.node) vs := by
  have hg : controlFlow src l = .ok (graphOf rs) := by
    rw [controlFlow, hr]
    rfl
  cases hleaf : l.node.isLeaf with
  | true =>
    obtain ⟨v, hv⟩ := ofLocus_leaf src hk hleaf
    refine ⟨_, v, hg, hv, ?_⟩
    rw [functionRecords, transfer_leaf hleaf] at hr
    cases hr
    intro vs
    rw [ofTree_eq, Stmt.ofNode, if_pos hleaf, begins_skip]
    constructor
    · rintro ⟨hhead, hall, -⟩
      exact (List.not_mem_nil (hall v (List.mem_of_head? hhead))).elim
    · rintro ⟨hne, heq⟩
      exact (hne heq).elim
  | false =>
    obtain ⟨v, body, p, hv, hbody, hp, rfl⟩ := functionRecords_eq_ok hk hleaf hr
    obtain ⟨-, hfollows⟩ := partNamed_matches (transferAll_matches src l.node l.above 0 _ hs) hbody
    have hnodup : (p.vertices ++ [v]).Nodup := by
      apply List.Nodup.of_map (·.id)
      simpa [Piece.vertices, Function.comp_def] using hd
    obtain ⟨hn, -, hvp⟩ := List.nodup_append'.mp hnodup
    rw [List.disjoint_singleton] at hvp
    have h := hfollows.adequate _ _ (by simp) hp hn
    refine ⟨_, v, hg, hv, ?_⟩
    intro vs
    have hv' : v ∈ (p.records ++ [(⟨v, []⟩ : Record)]).map (·.vertex) := by simp
    rw [isPath_iff_trail hd (fun a b => function_within h) hv', joins_function,
      trail_iff_begins hv h hvp]
    simp [ofTree_eq, Stmt.ofNode, hleaf, hk]

/-- A loop with a do loop inside that has nothing to do, and a way out of both. -/
def waiting : Source :=
  ⟨"f() \x7b while (a) \x7b do \x7b \x7d while (b); if (c) return; \x7d d; \x7d"⟩

def waitingFunction : Locus :=
  ⟨.node "function_definition" 0 57 none [
    .node "function_declarator" 0 3 (some "declarator") [],
    .node "compound_statement" 4 57 (some "body") [
      .node "while_statement" 6 52 none [
        .node "while" 6 11 none [],
        .node "parenthesized_expression" 12 15 (some "condition") [],
        .node "compound_statement" 16 52 (some "body") [
          .node "do_statement" 18 35 none [
            .node "do" 18 20 none [],
            .node "compound_statement" 21 24 (some "body") [
              .node "\x7b" 21 22 none [],
              .node "\x7d" 23 24 none []],
            .node "while" 25 30 none [],
            .node "parenthesized_expression" 31 34 (some "condition") []],
          .node "if_statement" 36 50 none [
            .node "if" 36 38 none [],
            .node "parenthesized_expression" 39 42 (some "condition") [],
            .node "return_statement" 43 50 (some "consequence") [.node "return" 43 49 none []]]]],
      .node "expression_statement" 53 55 none [.node "identifier" 53 54 none []]]], []⟩

theorem waiting_recorded :
    ∃ rs, functionRecords waiting waitingFunction = .ok rs ∧ (rs.map (·.vertex.id)).Nodup := by
  have hids : (functionRecords waiting waitingFunction).toOption.map (·.map (·.vertex.id)) =
      some [359018, 663805, 245182, 628699, 902775, 822345] := by decide +kernel
  cases hr : functionRecords waiting waitingFunction with
  | error e =>
    rw [hr] at hids
    cases hids
  | ok rs =>
    rw [hr] at hids
    have hlist : rs.map (·.vertex.id) = [359018, 663805, 245182, 628699, 902775, 822345] :=
      Option.some.inj hids
    refine ⟨rs, rfl, ?_⟩
    rw [hlist]
    decide

theorem controlFlow_waiting :
    (waitingFunction.kind = "function_definition" ∧ Structured waitingFunction.node ∧
    ∃ rs, functionRecords waiting waitingFunction = .ok rs ∧ (rs.map (·.vertex.id)).Nodup) ∧
    ∃ g v, controlFlow waiting waitingFunction = .ok g ∧
    Vertex.ofLocus waiting waitingFunction = .ok v ∧
      ∀ vs, vs.head? = some v ∧ g.IsPath vs ↔
        vs ≠ [] ∧ Begins waiting (Stmt.ofTree waitingFunction.above waitingFunction.node) vs := by
  have hs : Structured waitingFunction.node := by decide
  obtain ⟨rs, hr, hd⟩ := waiting_recorded
  exact ⟨⟨rfl, hs, rs, hr, hd⟩, controlFlow_adequate rfl hs hr hd⟩

end CrossCall.Flow

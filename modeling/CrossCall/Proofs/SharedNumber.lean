import CrossCall.Proofs.ProgramDependence

/-! Statements that share a number. The number of a vertex is a hash of its span with a million
values, and a graph keeps one vertex for each number; so two statements that stand at different
places may meet in one vertex, and the later one is lost. -/
namespace CrossCall.Flow

variable {src : Source} {l f : Locus} {g : Graph} {u : Vertex} {rs : List Record} {x : Int}

/-! ### The graph of records with shared numbers -/

theorem ids_addVertex : (g.addVertex u).ids = insertName g.ids u.id := by
  unfold insertName
  split
  · rename_i hmem
    rw [Graph.addVertex, if_pos (Graph.find?_isSome.mpr hmem)]
  · rename_i hnew
    rw [Graph.ids, Graph.vertices_addVertex hnew, List.map_append]
    rfl

theorem ids_ofVertices (vs : List Vertex) :
    (Graph.ofVertices vs).ids = unionNames [] (vs.map (·.id)) := by
  suffices hs : ∀ g : Graph,
      (vs.foldl Graph.addVertex g).ids = unionNames g.ids (vs.map (·.id)) from hs {}
  induction vs with
  | nil => exact fun _ => rfl
  | cons v rest ih =>
    intro g
    rw [List.foldl_cons, ih, ids_addVertex]
    rfl

theorem vertices_addVertex_congr {g' : Graph} (h : g.vertices = g'.vertices) :
    (g.addVertex u).vertices = (g'.addVertex u).vertices := by
  have hfind : g.find? u.id = g'.find? u.id := by rw [Graph.find?, Graph.find?, h]
  unfold Graph.addVertex
  rw [hfind]
  split
  · exact h
  · rw [h]

/-- But for its edges the graph of records is that of their vertices. -/
theorem vertices_graphOf_eq (rs : List Record) :
    (graphOf rs).vertices = (Graph.ofVertices (rs.map (·.vertex))).vertices := by
  suffices hs : ∀ g g' : Graph, g.vertices = g'.vertices →
      (rs.foldl (fun g r => { g.addVertex r.vertex with edges := g.edges ++ r.edges }) g).vertices =
        ((rs.map (·.vertex)).foldl Graph.addVertex g').vertices from hs {} {} rfl
  induction rs with
  | nil => exact fun _ _ h => h
  | cons r rest ih => exact fun g g' h => ih _ _ (vertices_addVertex_congr h)

/-- The numbers stand in the order of their first records. -/
theorem ids_graphOf (rs : List Record) : (graphOf rs).ids = unionNames [] (recordedIds rs) := by
  rw [Graph.ids, vertices_graphOf_eq, ← Graph.ids, ids_ofVertices, recordedIds_eq]

/-- Of the records with a number the first one gives the vertex. -/
theorem find?_graphOf (rs : List Record) :
    (graphOf rs).find? x = (rs.map (·.vertex)).find? fun v => v.id == x := by
  rw [Graph.find?, vertices_graphOf_eq, ← Graph.find?, Graph.find?_ofVertices]

theorem vertices_graphOf_iff :
    (graphOf rs).vertices = rs.map (·.vertex) ↔ (recordedIds rs).Nodup := by
  constructor
  · intro h
    have hids : (graphOf rs).ids = recordedIds rs := by rw [Graph.ids, h, recordedIds_eq]
    exact hids ▸ (tabled_graphOf rs).nodup
  · exact vertices_graphOf

/-! ### Spans -/

/-- The first and the last point of a site. -/
def Site.span (src : Source) (s : Site) : Point × Point :=
  (src.point s.locus.node.start, src.point s.locus.node.stop)

/-- The number that a vertex with this span has. -/
def spanNumber (p : Point × Point) : Int := SpanHash.ofSpan p.1 p.2

theorem spanNumber_mem (p : Point × Point) : spanNumber p ∈ Finset.Ico (0 : Int) 1000000 :=
  Finset.mem_Ico.mpr ⟨Int.emod_nonneg _ (by decide), Int.emod_lt_of_pos _ (by decide)⟩

/-- There are no more vertices than numbers. -/
theorem length_vertices_le (hr : functionRecords src f = .ok rs) :
    (graphOf rs).vertices.length ≤ 1000000 := by
  have hsub : (graphOf rs).ids.toFinset ⊆ Finset.Ico 0 1000000 := by
    intro x hx
    rw [List.mem_toFinset, mem_ids_graphOf, recordedIds_sites hr, List.mem_map] at hx
    obtain ⟨s, -, rfl⟩ := hx
    exact spanNumber_mem (s.span src)
  calc (graphOf rs).vertices.length
      = (graphOf rs).ids.length := (List.length_map _).symm
    _ = (graphOf rs).ids.toFinset.card :=
      (List.toFinset_card_of_nodup (tabled_graphOf rs).nodup).symm
    _ ≤ (Finset.Ico (0 : Int) 1000000).card := Finset.card_le_card hsub
    _ = 1000000 := Int.card_Ico 0 1000000

/-- Where statements stand at different places, each has a vertex of its own exactly if no two of
their spans have one number. Otherwise the first record of a number gives the vertex, the others of
that number are lost, and all edges stay. A million vertices are the most that there can be. -/
theorem one_vertex_each_iff (b : Bench) (hf : Bench.functionAt? l = some f)
    (hspans : ((visitAt f).sites.map (Site.span src)).Nodup)
    (hg : ((Bench.buildControlAt src l).run b).1 = some g) : ∃ rs, functionRecords src f = .ok rs ∧
      List.Forall₂ (fun s r => s.vertex src = .ok r.vertex) (visitAt f).sites rs ∧
      (g.vertices = rs.map (·.vertex) ↔ ∀ p ∈ (visitAt f).sites.map (Site.span src),
        ∀ q ∈ (visitAt f).sites.map (Site.span src), spanNumber p = spanNumber q → p = q) ∧
      g.ids = unionNames [] (recordedIds rs) ∧
      (∀ x, g.find? x = (rs.map (·.vertex)).find? fun v => v.id == x) ∧ g.edges = filedEdges rs ∧
      g.vertices.length ≤ 1000000 := by
  obtain ⟨f', hf', hflow⟩ := (buildControlAt_eq_some b).mp hg
  obtain rfl := Option.some.inj (hf.symm.trans hf')
  obtain ⟨rs, hr, rfl⟩ := map_eq_ok.mp hflow
  refine ⟨rs, hr, functionRecords_sites hr, ?_, ids_graphOf rs, fun x => find?_graphOf rs,
    edges_graphOf_eq rs, length_vertices_le hr⟩
  have hnumbers : recordedIds rs = ((visitAt f).sites.map (Site.span src)).map spanNumber := by
    rw [recordedIds_sites hr, List.map_map]
    rfl
  rw [vertices_graphOf_iff, hnumbers, List.nodup_map_iff_inj_on hspans]

/-- Two assignments with blank lines around them, whose spans have one number. -/
def blankLines : Source := ⟨"int f()\x7b\n\n\n\n\n\n\n  count = count+1;\n\n\n\n\nb=0;\x7d"⟩

def blankLinesFunction : Locus :=
  ⟨.bareFunction 0 3 (.node "compound_statement" 7 43 (some "body") [
    .node "\x7b" 7 8 none [],
    .node "expression_statement" 17 33 none [
      .node "assignment_expression" 17 32 none [
        .node "identifier" 17 22 (some "left") [],
        .node "=" 23 24 (some "operator") [],
        .node "binary_expression" 25 32 (some "right") [
          .node "identifier" 25 30 (some "left") [],
          .node "+" 30 31 (some "operator") [],
          .node "number_literal" 31 32 (some "right") []]],
      .node ";" 32 33 none []],
    .node "expression_statement" 38 42 none [
      .node "assignment_expression" 38 41 none [
        .node "identifier" 38 39 (some "left") [],
        .node "=" 39 40 (some "operator") [],
        .node "number_literal" 40 41 (some "right") []],
      .node ";" 41 42 none []],
    .node "\x7d" 42 43 none []]), []⟩

theorem blankLines_built : ((visitAt blankLinesFunction).sites.map (Site.span blankLines)).Nodup ∧
    ∃ rs, functionRecords blankLines blankLinesFunction = .ok rs ∧
    ((Bench.buildControlAt blankLines blankLinesFunction).run {}).1 = some (graphOf rs) ∧
      rs.map (·.vertex.defs) = [["count"], ["b"], []] ∧
      (graphOf rs).vertices.map (·.defs) = [["count"], []] := by
  have hrecords : ((functionRecords blankLines blankLinesFunction).toOption.map fun rs =>
      (rs.map (·.vertex.defs), (graphOf rs).vertices.map (·.defs))) =
        some ([["count"], ["b"], []], [["count"], []]) := by decide +kernel
  obtain ⟨rs, hr, hdefs⟩ := exists_ok_of_toOption hrecords
  have hflow : controlFlow blankLines blankLinesFunction = .ok (graphOf rs) :=
    map_eq_ok.mpr ⟨rs, hr, rfl⟩
  exact ⟨by decide +kernel, rs, hr, (buildControlAt_eq_some {}).mpr ⟨_, rfl, hflow⟩,
    congrArg Prod.fst hdefs, congrArg Prod.snd hdefs⟩

theorem one_vertex_each_blankLines :
    ∃ g, Bench.functionAt? blankLinesFunction = some blankLinesFunction ∧
    ((visitAt blankLinesFunction).sites.map (Site.span blankLines)).Nodup ∧
    ((Bench.buildControlAt blankLines blankLinesFunction).run {}).1 = some g ∧
    ∃ rs, functionRecords blankLines blankLinesFunction = .ok rs ∧
      List.Forall₂ (fun s r => s.vertex blankLines = .ok r.vertex)
      (visitAt blankLinesFunction).sites rs ∧
      (g.vertices = rs.map (·.vertex) ↔
        ∀ p ∈ (visitAt blankLinesFunction).sites.map (Site.span blankLines),
        ∀ q ∈ (visitAt blankLinesFunction).sites.map (Site.span blankLines),
        spanNumber p = spanNumber q → p = q) ∧
      g.ids = unionNames [] (recordedIds rs) ∧
      (∀ x, g.find? x = (rs.map (·.vertex)).find? fun v => v.id == x) ∧ g.edges = filedEdges rs ∧
      g.vertices.length ≤ 1000000 := by
  obtain ⟨hspans, rs, -, hg, -⟩ := blankLines_built
  exact ⟨graphOf rs, rfl, hspans, hg, one_vertex_each_iff {} rfl hspans hg⟩

/-- Three statements stand at three places, and the graph has two vertices: the one that gives `b`
its value is lost. -/
theorem exists_statement_lost :
    ∃ rs g, ((visitAt blankLinesFunction).sites.map (Site.span blankLines)).Nodup ∧
    functionRecords blankLines blankLinesFunction = .ok rs ∧
    ((Bench.buildControlAt blankLines blankLinesFunction).run {}).1 = some g ∧
      rs.map (·.vertex.defs) = [["count"], ["b"], []] ∧
      g.vertices.map (·.defs) = [["count"], []] := by
  obtain ⟨hspans, rs, hr, hg, hrecorded, hkept⟩ := blankLines_built
  exact ⟨rs, graphOf rs, hspans, hr, hg, hrecorded, hkept⟩

end CrossCall.Flow

import CrossCall.Proofs.DataDependence
import CrossCall.Proofs.StoredGraph

/-! The program dependence graph as the union of two graphs that were built apart. Both take their
vertices from the control flow of the same text, and both draw an edge only between vertices that
they find by number. So the union has no loose ends, even where the control flow has some. -/
namespace CrossCall.Flow

variable {src : Source} {f : Locus} {rs : List Record} {cfg cdg g pdg : Graph} {us : List Vertex}
  {e : Edge} {b : Bench} {parse : Parser} {code : String} {df : Table Int (List Int)}

/-! ### Vertices and tables -/

/-- No number stands for two vertices, and the tables speak of vertices only. -/
structure Graph.Tabled (g : Graph) : Prop where
  nodup : g.ids.Nodup
  defs : ∀ k ∈ g.defs.keys, k ∈ g.ids
  uses : ∀ k ∈ g.uses.keys, k ∈ g.ids

/-- Entering vertices into a table adds their numbers to its keys, and nothing else. -/
theorem mem_keys_entered {k : Int} (names : Vertex → List String) (t : Table Int (List String)) :
    k ∈ (us.foldl (fun t v => t.insert v.id (names v)) t).keys ↔
    k ∈ us.map (·.id) ∨ k ∈ t.keys := by
  induction us generalizing t with
  | nil => simp
  | cons u rest ih =>
    rw [List.foldl_cons, ih, Table.mem_keys_insert, List.map_cons, List.mem_cons]
    tauto

namespace Graph.Tabled

theorem addVertex (h : g.Tabled) (u : Vertex) : (g.addVertex u).Tabled := by
  have hids : ∀ k, k = u.id ∨ k ∈ g.ids → k ∈ (g.addVertex u).ids :=
    fun k hk => mem_ids_addVertex.mpr hk.symm
  refine ⟨nodup_ids_addVertex h.nodup, ?_, ?_⟩
  · intro k hk
    apply hids
    unfold Graph.addVertex at hk
    split at hk
    · exact .inr (h.defs k hk)
    · exact (Table.mem_keys_insert.mp hk).imp_right (h.defs k)
  · intro k hk
    apply hids
    unfold Graph.addVertex at hk
    split at hk
    · exact .inr (h.uses k hk)
    · exact (Table.mem_keys_insert.mp hk).imp_right (h.uses k)

theorem refresh (h : g.Tabled) : g.refresh.Tabled where
  nodup := h.nodup
  defs k hk := ((mem_keys_entered Vertex.defs g.defs).mp hk).elim id (h.defs k)
  uses k hk := ((mem_keys_entered Vertex.uses g.uses).mp hk).elim id (h.uses k)

end Graph.Tabled

theorem tabled_graphOf (rs : List Record) : (graphOf rs).Tabled := by
  suffices hs : ∀ g : Graph, g.Tabled →
      (rs.foldl (fun g r => { g.addVertex r.vertex with edges := g.edges ++ r.edges })
        g).Tabled from
    (hs {} ⟨List.nodup_nil, fun _ hk => hk, fun _ hk => hk⟩).refresh
  induction rs with
  | nil => exact fun _ h => h
  | cons r rest ih =>
    intro g h
    have hadded := h.addVertex r.vertex
    exact ih _ ⟨hadded.nodup, hadded.defs, hadded.uses⟩

theorem vertices_ofVertices (h : (us.map (·.id)).Nodup) : (Graph.ofVertices us).vertices = us := by
  suffices hs : ∀ g : Graph, (∀ u ∈ us, u.id ∉ g.ids) →
      (us.foldl Graph.addVertex g).vertices = g.vertices ++ us from
    hs {} (by simp [Graph.ids])
  induction us with
  | nil => simp
  | cons u rest ih =>
    intro g hnew
    obtain ⟨hu, hrest⟩ := List.nodup_cons.mp h
    rw [List.foldl_cons, ih hrest, Graph.vertices_addVertex (hnew u List.mem_cons_self),
      List.append_assoc]
    · rfl
    · intro u' hu' hmem
      rcases Graph.mem_ids_addVertex.mp hmem with hmem | heq
      · exact hnew u' (List.mem_cons_of_mem _ hu') hmem
      · exact hu (List.mem_map.mpr ⟨u', hu', heq⟩)

theorem nodup_ids_with_exit (h : cfg.ids.Nodup) (hexit : exitVertex.id ∉ cfg.ids) :
    ((cfg.vertices ++ [exitVertex]).map (·.id)).Nodup := by
  rw [List.map_append]
  exact List.nodup_append'.mpr ⟨h, by simp, List.disjoint_singleton.mpr hexit⟩

theorem vertices_reversed (h : cfg.ids.Nodup) (hexit : exitVertex.id ∉ cfg.ids) :
    (reversedWithExit cfg).vertices = cfg.vertices ++ [exitVertex] := by
  have hreverse : cfg.reverse.vertices = cfg.vertices := vertices_ofVertices h
  have hnew : exitVertex.id ∉ cfg.reverse.ids := by rwa [Graph.ids, hreverse]
  exact (Graph.vertices_addVertex hnew).trans (by rw [hreverse])

/-- All numbers are those of spans, so none is that of the exit. -/
theorem exit_notMem_graphOf (hr : functionRecords src f = .ok rs) :
    exitVertex.id ∉ (graphOf rs).ids := by
  rw [mem_ids_graphOf, recordedIds_sites hr, List.mem_map]
  rintro ⟨site, -, hnumber⟩
  have hnonneg : 0 ≤ site.number src := Int.emod_nonneg _ (by decide)
  rw [hnumber] at hnonneg
  exact absurd hnonneg (by decide)

/-! ### Edges -/

/-- Both ends are vertices of the graph, and they have different numbers. -/
def Edge.Apart (e : Edge) (g : Graph) : Prop :=
  ∃ s ∈ g.vertices, ∃ t ∈ g.vertices, e.source = some s ∧ e.target = some t ∧ s.id ≠ t.id

theorem Edge.Apart.mono (h : e.Apart cfg) (hsub : ∀ v ∈ cfg.vertices, v ∈ g.vertices) :
    e.Apart g := by
  obtain ⟨s, hs, t, ht, hends⟩ := h
  exact ⟨s, hsub s hs, t, hsub t ht, hends⟩

theorem frontierEdge_apart (h : e ∈ frontierEdges g df) :
    e.kind = .controlDependence ∧ e.Apart g := by
  obtain ⟨y, xs, controlled, x, -, controller, -, hne, hc, hy, rfl⟩ := mem_frontierEdges h
  refine ⟨rfl, controller, List.mem_of_find?_eq_some hc, controlled, List.mem_of_find?_eq_some hy,
    rfl, rfl, ?_⟩
  rwa [Graph.id_of_find? hc, Graph.id_of_find? hy]

theorem Lists.mem_keys {t : Table Int (List String)} {k : Int} {x : String} (h : Lists t k x) :
    k ∈ t.keys := by
  obtain ⟨xs, he, -⟩ := h
  exact List.mem_map.mpr ⟨_, he, rfl⟩

/-- What defines and what uses a variable is looked up in the tables, so both are vertices. -/
theorem dataEdge_apart (h : cfg.Tabled) (he : e ∈ (dataDependence cfg).edges) :
    e.kind = .dataDependence ∧ e.Apart cfg := by
  obtain ⟨d, u, xs, hget, rfl⟩ := mem_edges_dataDependence.mp he
  obtain ⟨hne, hnil, -, hmem⟩ := reachingPairs_spec hget
  obtain ⟨x, hx⟩ := List.exists_mem_of_ne_nil xs hnil
  obtain ⟨hdefs, huses, -⟩ := (hmem x).mp hx
  obtain ⟨s, hs, hsid⟩ := Graph.exists_find? (h.defs d hdefs.mem_keys)
  obtain ⟨t, ht, htid⟩ := Graph.exists_find? (h.uses u huses.mem_keys)
  refine ⟨rfl, s, List.mem_of_find?_eq_some hs, t, List.mem_of_find?_eq_some ht, hs, ht, ?_⟩
  rwa [hsid, htid]

/-! ### The union -/

section Union

variable (h : cfg.Tabled) (hexit : exitVertex.id ∉ cfg.ids)

include h hexit

theorem vertices_controlDependence (df : Table Int (List Int)) :
    (controlDependence (reversedWithExit cfg) df).vertices = cfg.vertices ++ [exitVertex] := by
  have hreversed := vertices_reversed h.nodup hexit
  have hnodup := nodup_ids_with_exit h.nodup hexit
  exact (vertices_ofVertices (hreversed ▸ hnodup)).trans hreversed

theorem vertices_programDependence (df : Table Int (List Int)) (ddg : Graph) :
    (programDependence (controlDependence (reversedWithExit cfg) df) ddg).vertices =
    cfg.vertices ++ [exitVertex] := by
  have hcontrol := vertices_controlDependence h hexit df
  have hnodup := nodup_ids_with_exit h.nodup hexit
  exact (vertices_ofVertices (hcontrol ▸ hnodup)).trans hcontrol

/-- An edge of the union is a control dependence or a data dependence, and the latter stays among
the vertices of the control flow. -/
theorem mem_edges_union
    (he : e ∈ (programDependence (controlDependence (reversedWithExit cfg) df)
      (dataDependence cfg)).edges) :
    e.Apart (programDependence (controlDependence (reversedWithExit cfg) df) (dataDependence cfg)) ∧
      (e.kind = .dataDependence → e.Apart cfg) := by
  have hvertices := vertices_programDependence h hexit df (dataDependence cfg)
  rcases List.mem_append.mp he with hcontrol | hdata
  · rw [edges_controlDependence] at hcontrol
    obtain ⟨hkind, hapart⟩ := frontierEdge_apart hcontrol
    refine ⟨hapart.mono fun v hv => ?_, fun hd => absurd (hkind.symm.trans hd) (by decide)⟩
    rwa [hvertices, ← vertices_reversed h.nodup hexit]
  · have hapart := (dataEdge_apart h hdata).2
    refine ⟨hapart.mono fun v hv => ?_, fun _ => hapart⟩
    rw [hvertices]
    exact List.mem_append_left _ hv

end Union

/-- What a construction returns does not depend on the bench. -/
theorem fst_run_build (kind : EdgeKind) (parse : Parser) (code : String) (b : Bench) :
    ((Bench.build kind parse code).run b).1 = Bench.returned parse code kind := by
  obtain ⟨b', hrun, -⟩ := Bench.run_build kind parse code b
  rw [hrun]

theorem dependencesOf_eq_some (h : Bench.dependencesOf cfg = some cdg) :
    ∃ df, cdg = controlDependence (reversedWithExit cfg) df := by
  obtain ⟨df, -, h⟩ := Option.bind_eq_some_iff.mp h
  split at h
  · cases h
  · exact ⟨df, (Option.some.inj h).symm⟩

theorem controlOf_eq_some (h : Bench.controlOf parse code = some cfg) :
    ∃ f rs, functionRecords ⟨code⟩ f = .ok rs ∧ cfg = graphOf rs := by
  obtain ⟨p, -, h⟩ := Option.bind_eq_some_iff.mp h
  obtain ⟨f, -, h⟩ := Option.bind_eq_some_iff.mp h
  cases hr : functionRecords ⟨code⟩ f with
  | error fault =>
    rw [controlFlow, hr] at h
    cases h
  | ok rs =>
    rw [controlFlow, hr] at h
    cases h
    exact ⟨f, rs, hr, rfl⟩

/-- The vertices of the program dependence graph are those of the control flow and the exit, each
once. Its edges are the control dependences and then the data dependences; each joins two different
vertices of the graph, and the exit takes part in no data dependence. -/
theorem programDependence_union
    (h : ((Bench.buildProgramDependence parse code).run b).1 = some pdg) :
    ∃ cfg cdg ddg,
      (∀ b, ((Bench.buildControl parse code).run b).1 = some cfg) ∧
      (∀ b, ((Bench.buildControlDependence parse code).run b).1 = some cdg) ∧
      (∀ b, ((Bench.buildDataDependence parse code).run b).1 = some ddg) ∧
      pdg.ids = cfg.ids ++ [-1] ∧ pdg.ids.Nodup ∧ pdg.edges = cdg.edges ++ ddg.edges ∧
      (∀ e ∈ pdg.edges, e.Apart pdg) ∧ (∀ e ∈ ddg.edges, e.kind = .dataDependence) ∧
      ∀ e ∈ pdg.edges, e.kind = .dataDependence → ∀ v, e.source = some v ∨ e.target = some v →
      v.id ≠ -1 := by
  have hpdg := (fst_run_build .programDependence parse code b).symm.trans h
  obtain ⟨cdg, hcdg, hpdg⟩ := Option.bind_eq_some_iff.mp hpdg
  obtain ⟨ddg, hddg, rfl⟩ := Option.map_eq_some_iff.mp hpdg
  obtain ⟨cfg, hcfg, rfl⟩ := Option.map_eq_some_iff.mp hddg
  have hcontrol := fun b => (fst_run_build .control parse code b).trans hcfg
  have hcontrolled := fun b => (fst_run_build .controlDependence parse code b).trans hcdg
  have hdata := fun b => (fst_run_build .dataDependence parse code b).trans hddg
  rw [hcfg, Option.bind_some] at hcdg
  obtain ⟨df, rfl⟩ := dependencesOf_eq_some hcdg
  obtain ⟨f, rs, hr, rfl⟩ := controlOf_eq_some hcfg
  have htabled := tabled_graphOf rs
  have hexit := exit_notMem_graphOf hr
  have hids : (programDependence (controlDependence (reversedWithExit (graphOf rs)) df)
      (dataDependence (graphOf rs))).ids = (graphOf rs).ids ++ [-1] := by
    rw [Graph.ids, vertices_programDependence htabled hexit, List.map_append]
    rfl
  refine ⟨graphOf rs, _, _, hcontrol, hcontrolled, hdata, hids, nodup_ids_ofVertices _, rfl,
    fun e he => (mem_edges_union htabled hexit he).1, fun e he => (dataEdge_apart htabled he).1, ?_⟩
  intro e he hkind v hv hid
  obtain ⟨s, hs, t, ht, hsource, htarget, -⟩ := (mem_edges_union htabled hexit he).2 hkind
  have hmem : v ∈ (graphOf rs).vertices := by
    rcases hv with hv | hv
    · exact Option.some.inj (hsource.symm.trans hv) ▸ hs
    · exact Option.some.inj (htarget.symm.trans hv) ▸ ht
  exact hexit (List.mem_map.mpr ⟨v, hmem, hid⟩)

/-- A loop that is never left, with a second continue behind the first. -/
def endlessLoop : String := "void f()\x7bwhile(a)\x7bif(a)a=b;continue;continue;\x7d\x7d"

def endlessLoopParser : Parser := fun _ => some ⟨.node "translation_unit" 0 47 none [
  .bareFunction 0 4 (.node "compound_statement" 8 47 (some "body") [
    .node "\x7b" 8 9 none [],
    .node "while_statement" 9 46 none [
      .node "while" 9 14 none [],
      .node "parenthesized_expression" 14 17 (some "condition") [
        .node "(" 14 15 none [],
        .node "identifier" 15 16 none [],
        .node ")" 16 17 none []],
      .node "compound_statement" 17 46 (some "body") [
        .node "\x7b" 17 18 none [],
        .node "if_statement" 18 27 none [
          .node "if" 18 20 none [],
          .node "parenthesized_expression" 20 23 (some "condition") [
            .node "(" 20 21 none [],
            .node "identifier" 21 22 none [],
            .node ")" 22 23 none []],
          .node "expression_statement" 23 27 (some "consequence") [
            .node "assignment_expression" 23 26 none [
              .node "identifier" 23 24 (some "left") [],
              .node "=" 24 25 (some "operator") [],
              .node "identifier" 25 26 (some "right") []],
            .node ";" 26 27 none []]],
        .node "continue_statement" 27 36 none [.node "continue" 27 35 none [],
          .node ";" 35 36 none []],
        .node "continue_statement" 36 45 none [.node "continue" 36 44 none [],
          .node ";" 44 45 none []],
        .node "\x7d" 45 46 none []]],
    .node "\x7d" 46 47 none []])], false⟩

theorem endlessLoop_built : ∃ cfg cdg, Bench.controlOf endlessLoopParser endlessLoop = some cfg ∧
    Bench.dependencesOf cfg = some cdg ∧ (735691, 364216) ∈ cfg.arcs ∧ 735691 ∉ cfg.ids ∧
      cdg.arcs = [(990761, 361616), (990761, 869077)] ∧
        (dataDependence cfg).arcs = [(361616, 364216), (361616, 990761)] := by
  have hbuilt : (Bench.controlOf endlessLoopParser endlessLoop).bind (fun cfg =>
      (Bench.dependencesOf cfg).map fun cdg =>
        (decide ((735691, 364216) ∈ cfg.arcs ∧ 735691 ∉ cfg.ids), cdg.arcs,
          (dataDependence cfg).arcs)) =
        some (true, [(990761, 361616), (990761, 869077)],
          [(361616, 364216), (361616, 990761)]) := by decide +kernel
  obtain ⟨cfg, hcfg, hbuilt⟩ := Option.bind_eq_some_iff.mp hbuilt
  obtain ⟨cdg, hcdg, heq⟩ := Option.map_eq_some_iff.mp hbuilt
  obtain ⟨hstray, hedges⟩ := Prod.mk.inj heq
  obtain ⟨hcontrol, hdata⟩ := Prod.mk.inj hedges
  obtain ⟨harc, hid⟩ := of_decide_eq_true hstray
  exact ⟨cfg, cdg, hcfg, hcdg, harc, hid, hcontrol, hdata⟩

/-- The control flow of the loop has an edge from a continue that is no vertex, and the union is
closed all the same. -/
theorem programDependence_endlessLoop : ∃ pdg,
    ((Bench.buildProgramDependence endlessLoopParser endlessLoop).run {}).1 = some pdg ∧
      ∃ cfg cdg ddg,
        (∀ b, ((Bench.buildControl endlessLoopParser endlessLoop).run b).1 = some cfg) ∧
        (∀ b, ((Bench.buildControlDependence endlessLoopParser endlessLoop).run b).1 = some cdg) ∧
        (∀ b, ((Bench.buildDataDependence endlessLoopParser endlessLoop).run b).1 = some ddg) ∧
        (∃ a ∈ cfg.arcs, a.1 ∉ cfg.ids) ∧ cdg.edges ≠ [] ∧ ddg.edges ≠ [] ∧
        pdg.ids = cfg.ids ++ [-1] ∧ pdg.ids.Nodup ∧ pdg.edges = cdg.edges ++ ddg.edges ∧
        (∀ e ∈ pdg.edges, e.Apart pdg) ∧ (∀ e ∈ ddg.edges, e.kind = .dataDependence) ∧
        ∀ e ∈ pdg.edges, e.kind = .dataDependence → ∀ v, e.source = some v ∨ e.target = some v →
        v.id ≠ -1 := by
  obtain ⟨cfg, cdg, hcfg, hcdg, harc, hid, hcontrol, hdata⟩ := endlessLoop_built
  have hpdg : Bench.returned endlessLoopParser endlessLoop .programDependence =
      some (programDependence cdg (dataDependence cfg)) := by
    simp only [Bench.returned, hcfg, hcdg, Option.bind_some, Option.map_some]
  have hbuilt := (fst_run_build .programDependence endlessLoopParser endlessLoop {}).trans hpdg
  obtain ⟨cfg', cdg', ddg', h₁, h₂, h₃, hunion⟩ := programDependence_union hbuilt
  have hcfg' : cfg = cfg' := by
    have hsame := (fst_run_build .control endlessLoopParser endlessLoop {}).symm.trans (h₁ {})
    exact Option.some.inj (hcfg.symm.trans hsame)
  have hcdg' : cdg = cdg' := by
    have hsame :=
      (fst_run_build .controlDependence endlessLoopParser endlessLoop {}).symm.trans (h₂ {})
    rw [Bench.returned, hcfg, Option.bind_some, hcdg] at hsame
    exact Option.some.inj hsame
  have hddg' : dataDependence cfg = ddg' := by
    have hsame :=
      (fst_run_build .dataDependence endlessLoopParser endlessLoop {}).symm.trans (h₃ {})
    rw [Bench.returned, hcfg, Option.map_some] at hsame
    exact Option.some.inj hsame
  refine ⟨_, hbuilt, cfg', cdg', ddg', h₁, h₂, h₃, ⟨_, hcfg' ▸ harc, hcfg' ▸ hid⟩, ?_, ?_, hunion⟩
  · rintro hnil
    rw [hcdg', Graph.arcs, hnil] at hcontrol
    cases hcontrol
  · rintro hnil
    rw [hddg', Graph.arcs, hnil] at hdata
    cases hdata

end CrossCall.Flow

import CrossCall.Proofs.Controller
import CrossCall.Proofs.Departure

/-! The function's own vertex among the control dependences. It should be their root, from which all
that no branch controls depends on the entry; but one edge at most leaves it in the control flow, so
that it controls nothing. -/
namespace CrossCall.Flow

variable {src : Source} {f : Locus} {rs : List Record} {cfg cdg g : Graph} {x y : Int} {e : Edge}
  {b : Bench} {parse : Parser} {code : String} {parsed : Parsed} {df : Table Int (List Int)}

/-! ### Construction -/

theorem buildControl_run (hp : parse code = some parsed)
    (hf : Bench.functionAt? ⟨parsed.root, []⟩ = some f) (hr : functionRecords ⟨code⟩ f = .ok rs)
    (b : Bench) :
    ((Bench.buildControl parse code).run b).1 = some (graphOf rs) := by
  have hbuilt : ∀ b, ((Bench.buildControlAt ⟨code⟩ ⟨parsed.root, []⟩).run b).1 =
      some (graphOf rs) :=
    fun b => (buildControlAt_eq_some b).mpr ⟨f, hf, map_eq_ok.mpr ⟨rs, hr, rfl⟩⟩
  unfold Bench.buildControl
  simp only [hp]
  split
  · exact hbuilt _
  · exact hbuilt b

/-- The dependences of a text are those of the graph of its first function. -/
theorem buildControlDependence_run (hp : parse code = some parsed)
    (hf : Bench.functionAt? ⟨parsed.root, []⟩ = some f) (hr : functionRecords ⟨code⟩ f = .ok rs)
    (b : Bench) :
    ∃ b', (Bench.buildControlDependence parse code).run b =
      (Bench.buildControlDependenceOf (some (graphOf rs))).run b' := by
  refine ⟨((Bench.buildControl parse code).run b).2, ?_⟩
  rw [← buildControl_run hp hf hr b]
  rfl

/-! ### The entry -/

theorem length_successors_le_outgoing : (g.successors x).length ≤ (g.outgoing x).length := by
  rw [Graph.successors, Graph.arcs, List.filterMap_filterMap, List.length_filterMap_eq_countP,
    Graph.outgoing, ← List.countP_eq_length_filter]
  refine List.countP_mono_left fun e _ he => ?_
  obtain ⟨p, hp⟩ := Option.isSome_iff_exists.mp he
  obtain ⟨a, ha, hp⟩ := Option.bind_eq_some_iff.mp hp
  obtain ⟨s, t, hs, -, hid, -⟩ := Edge.ends?_eq_some.mp ha
  split at hp
  · rename_i hx
    simp [hs, hid, hx]
  · cases hp

/-- One edge at most leaves the vertex of a function. -/
theorem length_successors_function (hk : f.kind = "function_definition")
    (hr : functionRecords src f = .ok rs) (hd : (recordedIds rs).count (spanId src f.node) ≤ 1)
    (hapart : JumpsElsewhere src (spanId src f.node) f) :
    ((graphOf rs).successors (spanId src f.node)).length ≤ 1 := by
  refine length_successors_le_outgoing.trans ?_
  cases hleaf : f.node.isLeaf with
  | true =>
    rw [functionRecords, transfer_leaf hleaf] at hr
    cases hr
    exact Nat.zero_le _
  | false =>
    have hs : Site.statement f ∈ (visitAt f).sites := by
      rw [visitAt_function hleaf hk]
      simp
    have hlabels : (Site.statement f).labels = [""] := by
      simp [Site.labels, Site.branches, Site.returns, Site.isJump, isJump, isCountedLoop, hk]
    have hnumber : (Site.statement f).number src = spanId src f.node := rfl
    rw [← hnumber] at hd hapart ⊢
    have hlength := (outgoing_subperm hk hr hd hs hapart).length_le
    rwa [hlabels, List.length_map] at hlength

/-- The label of a dependence tells what the controller is to the first function among the
vertices. -/
theorem label_of_mem_frontierEdges (h : e ∈ frontierEdges g df) : ∃ controller controlled,
    e.source = some controller ∧ e.target = some controlled ∧
      e.label = dependenceLabel (g.vertices.find? fun v => v.kind == "function_definition")
      controller controlled := by
  obtain ⟨y, xs, controlled, x, -, controller, -, -, -, -, rfl⟩ := mem_frontierEdges h
  exact ⟨controller, controlled, rfl, rfl, rfl⟩

theorem mem_vertices_addVertex {u v : Vertex} (h : v ∈ (g.addVertex u).vertices) :
    v ∈ g.vertices ∨ v = u := by
  unfold Graph.addVertex at h
  split at h
  · exact .inl h
  · simpa using h

theorem mem_vertices_ofVertices {us : List Vertex} {v : Vertex}
    (h : v ∈ (Graph.ofVertices us).vertices) : v ∈ us := by
  have hfold : ∀ g : Graph, v ∈ (us.foldl Graph.addVertex g).vertices →
      v ∈ g.vertices ∨ v ∈ us := by
    clear h
    induction us with
    | nil => exact fun _ h => .inl h
    | cons u rest ih =>
      intro g h
      rcases ih _ h with h | h
      · refine (mem_vertices_addVertex h).imp_right ?_
        rintro rfl
        exact List.mem_cons_self
      · exact .inr (List.mem_cons_of_mem _ h)
  exact (hfold {} h).resolve_left (by simp)

theorem mem_vertices_reversed {v : Vertex} (h : v ∈ (reversedWithExit cfg).vertices) :
    v ∈ cfg.vertices ∨ v = exitVertex := by
  rcases mem_vertices_addVertex (g := cfg.reverse) h with h | h
  · exact .inl (mem_vertices_ofVertices h)
  · exact .inr h

/-- A dependence whose controller has not the number of a function's vertex has no label. -/
theorem label_of_mem_dependences {controller : Vertex}
    (h : e ∈ frontierEdges (reversedWithExit cfg) df) (hsource : e.source = some controller)
    (hne : ∀ v ∈ cfg.vertices, v.kind = "function_definition" → v.id ≠ controller.id) :
    e.label = "" := by
  obtain ⟨controller', controlled, hsource', -, hlabel⟩ := label_of_mem_frontierEdges h
  obtain rfl : controller = controller' := Option.some.inj (hsource.symm.trans hsource')
  rw [hlabel, dependenceLabel, if_neg]
  intro hentry
  cases hv : (reversedWithExit cfg).vertices.find? fun v => v.kind == "function_definition" with
  | none =>
    rw [hv] at hentry
    cases hentry
  | some v =>
    rw [hv] at hentry
    have hkind : v.kind = "function_definition" := by simpa using List.find?_some hv
    rcases mem_vertices_reversed (List.mem_of_find?_eq_some hv) with hmem | rfl
    · exact hne v hmem hkind (by simpa using hentry)
    · exact absurd hkind (by decide)

/-- Where the vertex of the function has a number of its own, it controls nothing: every dependence
leaves a vertex that several edges leave, nothing depends on the entry, and no label says that
anything does. -/
theorem entry_controls_nothing (hp : parse code = some parsed)
    (hf : Bench.functionAt? ⟨parsed.root, []⟩ = some f) (hr : functionRecords ⟨code⟩ f = .ok rs)
    (hd : (recordedIds rs).count (spanId ⟨code⟩ f.node) ≤ 1)
    (hapart : JumpsElsewhere ⟨code⟩ (spanId ⟨code⟩ f.node) f)
    (h : ((Bench.buildControlDependence parse code).run b).1 = some cdg) :
    (∀ e ∈ cdg.edges, ∃ x y, e.ends? = some (x, y) ∧ 1 < ((graphOf rs).successors x).length ∧
      x ≠ spanId ⟨code⟩ f.node) ∧
    (∀ y, Reaches cdg.successors (spanId ⟨code⟩ f.node) y → y = spanId ⟨code⟩ f.node) ∧
    ((∀ v ∈ (graphOf rs).vertices, v.kind = "function_definition" → v.id = spanId ⟨code⟩ f.node) →
      ∀ e ∈ cdg.edges, e.label = "") := by
  obtain ⟨b', hb⟩ := buildControlDependence_run hp hf hr b
  rw [hb] at h
  have hedges : ∀ e ∈ cdg.edges, ∃ x y, e.ends? = some (x, y) ∧
      1 < ((graphOf rs).successors x).length ∧ x ≠ spanId ⟨code⟩ f.node := by
    intro e he
    obtain ⟨x, y, hends, hseveral⟩ := several_of_mem_edges h he
    refine ⟨x, y, hends, hseveral, ?_⟩
    rintro rfl
    have hone := length_successors_function (kind_functionAt hf) hr hd hapart
    omega
  refine ⟨hedges, ?_, ?_⟩
  · intro y hy
    refine hy.invariant (P := fun y => y = spanId ⟨code⟩ f.node) rfl ?_
    intro x hx z hz
    obtain ⟨e, he, hends⟩ := Graph.mem_arcs.mp (mem_successors.mp hz)
    obtain ⟨x', z', hends', -, hne⟩ := hedges e he
    rw [hends] at hends'
    cases hends'
    exact absurd hx hne
  · intro honly e he
    obtain ⟨x, y, hends, -, hne⟩ := hedges e he
    obtain ⟨df, -, rfl⟩ := buildControlDependenceOf_eq_some h
    obtain ⟨controller, -, hsource, -, hid, -⟩ := Edge.ends?_eq_some.mp hends
    refine label_of_mem_dependences he hsource fun v hv hkind hvid => ?_
    exact hne (hid.symm.trans (hvid.symm.trans (honly v hv hkind)))

/-- A branch, and a statement behind it. -/
def guardedStep : String := "void f()\x7bif(a)b;c;\x7d"

def guardedStepFunction : Tree :=
  .bareFunction 0 4 (.node "compound_statement" 8 19 (some "body") [
    .node "\x7b" 8 9 none [],
    .node "if_statement" 9 16 none [
      .node "if" 9 11 none [],
      .node "parenthesized_expression" 11 14 (some "condition") [
        .node "(" 11 12 none [],
        .node "identifier" 12 13 none [],
        .node ")" 13 14 none []],
      .node "expression_statement" 14 16 (some "consequence") [
        .node "identifier" 14 15 none [],
        .node ";" 15 16 none []]],
    .node "expression_statement" 16 18 none [.node "identifier" 16 17 none [],
      .node ";" 17 18 none []],
    .node "\x7d" 18 19 none []])

/-- The function in its file. -/
def guardedStepLocus : Locus :=
  ⟨guardedStepFunction, [(.node "translation_unit" 0 19 none [guardedStepFunction], 0)]⟩

def guardedStepParser : Parser :=
  fun _ => some ⟨.node "translation_unit" 0 19 none [guardedStepFunction], false⟩

theorem guardedStep_built : ∃ rs cdg, functionRecords ⟨guardedStep⟩ guardedStepLocus = .ok rs ∧
    ((Bench.buildControlDependence guardedStepParser guardedStep).run {}).1 = some cdg ∧
      recordedIds rs = [195659, 171291, 195401, 163019] ∧
        (graphOf rs).arcs =
        [(163019, 195659), (195659, 171291), (171291, 195401), (195659, 195401)] ∧
          cdg.arcs = [(195659, 171291)] := by
  have hrecords : ((functionRecords ⟨guardedStep⟩ guardedStepLocus).toOption.map fun rs =>
      (recordedIds rs, (graphOf rs).arcs)) = some ([195659, 171291, 195401, 163019],
        [(163019, 195659), (195659, 171291), (171291, 195401), (195659, 195401)]) := by
      decide +kernel
  have hdependences : ((Bench.buildControlDependence guardedStepParser guardedStep).run {}).1.map
      (·.arcs) = some [(195659, 171291)] := by decide +kernel
  obtain ⟨rs, hr, heq⟩ := exists_ok_of_toOption hrecords
  obtain ⟨cdg, hcdg, harcs⟩ := Option.map_eq_some_iff.mp hdependences
  exact ⟨rs, cdg, hr, hcdg, congrArg Prod.fst heq, congrArg Prod.snd heq, harcs⟩

theorem guardedStep_entry : spanId ⟨guardedStep⟩ guardedStepLocus.node = 163019 ∧
    JumpsElsewhere ⟨guardedStep⟩ 163019 guardedStepLocus := by
  unfold JumpsElsewhere
  constructor <;> decide +kernel

theorem entry_controls_nothing_guardedStep :
    ∃ parsed rs cdg, guardedStepParser guardedStep = some parsed ∧
    Bench.functionAt? ⟨parsed.root, []⟩ = some guardedStepLocus ∧
      functionRecords ⟨guardedStep⟩ guardedStepLocus = .ok rs ∧
        (recordedIds rs).count (spanId ⟨guardedStep⟩ guardedStepLocus.node) ≤ 1 ∧
          JumpsElsewhere ⟨guardedStep⟩
          (spanId ⟨guardedStep⟩ guardedStepLocus.node) guardedStepLocus ∧
            ((Bench.buildControlDependence guardedStepParser guardedStep).run {}).1 = some cdg ∧
    (∀ e ∈ cdg.edges, ∃ x y, e.ends? = some (x, y) ∧ 1 < ((graphOf rs).successors x).length ∧
      x ≠ spanId ⟨guardedStep⟩ guardedStepLocus.node) ∧
    (∀ y, Reaches cdg.successors (spanId ⟨guardedStep⟩ guardedStepLocus.node) y →
      y = spanId ⟨guardedStep⟩ guardedStepLocus.node) ∧
    ((∀ v ∈ (graphOf rs).vertices, v.kind = "function_definition" →
      v.id = spanId ⟨guardedStep⟩ guardedStepLocus.node) → ∀ e ∈ cdg.edges, e.label = "") := by
  obtain ⟨rs, cdg, hr, hcdg, hids, -⟩ := guardedStep_built
  obtain ⟨hentry, hjumps⟩ := guardedStep_entry
  have hd : (recordedIds rs).count (spanId ⟨guardedStep⟩ guardedStepLocus.node) ≤ 1 := by
    rw [hids, hentry]
    decide
  have hapart : JumpsElsewhere ⟨guardedStep⟩
      (spanId ⟨guardedStep⟩ guardedStepLocus.node) guardedStepLocus := by
    rwa [hentry]
  exact ⟨_, rs, cdg, rfl, rfl, hr, hd, hapart, hcdg,
    entry_controls_nothing rfl rfl hr hd hapart hcdg⟩

/-- The statement behind the branch depends on no vertex, and not on the entry either. -/
theorem exists_statement_beside_entry : ∃ cfg cdg y,
    ((Bench.buildControl guardedStepParser guardedStep).run {}).1 = some cfg ∧
      ((Bench.buildControlDependence guardedStepParser guardedStep).run {}).1 = some cdg ∧
      y ∈ cfg.ids ∧
        y ≠ spanId ⟨guardedStep⟩ guardedStepLocus.node ∧ (∀ x, ¬ ControlDependent cfg y x) ∧
          ¬ Reaches cdg.successors (spanId ⟨guardedStep⟩ guardedStepLocus.node) y := by
  obtain ⟨rs, cdg, hr, hcdg, hids, harcs, hdependences⟩ := guardedStep_built
  have hcfg : ((Bench.buildControl guardedStepParser guardedStep).run {}).1 = some (graphOf rs) :=
    buildControl_run rfl rfl hr {}
  rw [guardedStep_entry.1]
  refine ⟨_, cdg, 195401, hcfg, hcdg, ?_, by decide, ?_, ?_⟩
  · rw [mem_ids_graphOf, hids]
    decide
  · -- It is the only end, and so on every way to an end.
    rintro x ⟨-, hnot⟩
    apply hnot
    intro t ht hend xs hw
    have hlast : t = 195401 := by
      rw [mem_ids_graphOf, hids] at ht
      rw [Graph.successors, harcs] at hend
      revert hend
      simp only [List.mem_cons, List.not_mem_nil, or_false] at ht
      rcases ht with rfl | rfl | rfl | rfl <;> decide
    exact hlast ▸ hw.stop_mem
  · intro hreach
    have hstay := hreach.invariant (P := fun z => z = 163019) rfl fun x hx z hz => by
      rw [Graph.successors, hdependences, hx] at hz
      cases hz
    cases hstay

end CrossCall.Flow

import CrossCall.Flow.Bench
import CrossCall.Proofs.Frontier

/-! Control dependence by paths: a vertex depends on another if it lies on every path to an end from
one of the other's successors, but not on every path from the other itself. The depth of the graph
is not bounded. -/
namespace CrossCall.Flow

variable {cfg g : Graph} {a b e m v w x y : Int} {xs : List Int} {vs : List Vertex} {u : Vertex}
  {df : Table Int (List Int)}

/-- `y` lies on every path from `x` to a vertex without a way on. -/
def PostDominates (cfg : Graph) (y x : Int) : Prop :=
  ∀ t ∈ cfg.ids, cfg.successors t = [] → ∀ xs, Walk cfg.successors x xs t → y ∈ xs

/-- Whether `y` is met is decided at `x`. -/
def ControlDependent (cfg : Graph) (y x : Int) : Prop :=
  (∃ s ∈ cfg.successors x, PostDominates cfg y s) ∧ ¬ PostDominates cfg y x

/-! ### The reversed graph -/

theorem mem_ids_reversed : x ∈ (reversedWithExit cfg).ids ↔ x ∈ cfg.ids ∨ x = exitVertex.id := by
  change x ∈ (cfg.reverse.addVertex exitVertex).ids ↔ _
  rw [Graph.mem_ids_addVertex]
  exact or_congr_left Graph.mem_ids_ofVertices

theorem mem_arcs_reverse : (a, b) ∈ cfg.reverse.arcs ↔ (b, a) ∈ cfg.arcs := by
  have hedges : cfg.reverse.edges = (cfg.edges.filter (·.target.isSome)).map Edge.flip := rfl
  rw [Graph.mem_arcs, Graph.mem_arcs, hedges]
  constructor
  · rintro ⟨e, he, hends⟩
    obtain ⟨e, he', rfl⟩ := List.mem_map.mp he
    rw [Edge.ends?_flip, Option.map_eq_some_iff] at hends
    obtain ⟨p, hp, hswap⟩ := hends
    rw [← Prod.swap_swap p, hswap] at hp
    exact ⟨e, (List.mem_filter.mp he').1, hp⟩
  · rintro ⟨e, he, hends⟩
    refine ⟨e.flip, List.mem_map_of_mem (List.mem_filter.mpr ⟨he, ?_⟩), by
      rw [Edge.ends?_flip, hends]; rfl⟩
    obtain ⟨_, _, _, ht, _⟩ := Edge.ends?_eq_some.mp hends
    simp [ht]

/-- What the reversed edges enter has a way on in the graph itself. -/
theorem entered_reverse :
    x ∈ cfg.reverse.edges.filterMap (fun e => e.target.map (·.id)) ↔ cfg.successors x ≠ [] := by
  rw [List.mem_filterMap]
  constructor
  · rintro ⟨e, he, hx⟩
    obtain ⟨e, he', rfl⟩ := List.mem_map.mp he
    obtain ⟨hmem, htarget⟩ := List.mem_filter.mp he'
    obtain ⟨t, ht⟩ := Option.isSome_iff_exists.mp htarget
    obtain ⟨s, hs, hid⟩ := Option.map_eq_some_iff.mp hx
    have harc := Graph.mem_arcs.mpr ⟨e, hmem, Edge.ends?_eq_some.mpr ⟨s, t, hs, ht, hid, rfl⟩⟩
    exact List.ne_nil_of_mem (mem_successors.mpr harc)
  · intro hne
    obtain ⟨b, hb⟩ := List.exists_mem_of_ne_nil _ hne
    obtain ⟨e, he, hends⟩ := Graph.mem_arcs.mp (mem_arcs_reverse.mpr (mem_successors.mp hb))
    obtain ⟨_, t, _, ht, _, hid⟩ := Edge.ends?_eq_some.mp hends
    exact ⟨e, he, by simp [ht, hid]⟩

theorem mem_arcs_reversed (hne : exitVertex.id ∉ cfg.ids) :
    (a, b) ∈ (reversedWithExit cfg).arcs ↔
      (b, a) ∈ cfg.arcs ∨ a = exitVertex.id ∧ b ∈ cfg.ids ∧ cfg.successors b = [] := by
  have hedges : (cfg.reverse.addVertex exitVertex).edges = cfg.reverse.edges :=
    Graph.edges_addVertex
  have hrev : (b, a) ∈ cfg.arcs ↔ (a, b) ∈ cfg.reverse.arcs := mem_arcs_reverse.symm
  rw [hrev]
  simp only [reversedWithExit, Graph.arcs, hedges, List.filterMap_append, List.mem_append]
  refine or_congr_right ?_
  simp only [List.mem_filterMap, List.mem_map, List.mem_filter, Bool.and_eq_true, bne_iff_ne,
    Bool.not_eq_true', List.contains_eq_mem, decide_eq_false_iff_not]
  constructor
  · rintro ⟨e, ⟨u, ⟨hu, hid, hopen⟩, rfl⟩, hends⟩
    obtain ⟨rfl, rfl⟩ : exitVertex.id = a ∧ u.id = b := by simpa [Edge.ends?] using hends
    refine ⟨rfl, ?_, ?_⟩
    · have hm : u.id ∈ (reversedWithExit cfg).ids := List.mem_map_of_mem hu
      exact (mem_ids_reversed.mp hm).resolve_right hid
    · rw [← List.mem_filterMap, entered_reverse, not_not] at hopen
      exact hopen
  · rintro ⟨rfl, hb, hsink⟩
    obtain ⟨u, hu, rfl⟩ := List.mem_map.mp (mem_ids_reversed.mpr (.inl hb))
    refine ⟨_, ⟨u, ⟨hu, ?_, ?_⟩, rfl⟩, rfl⟩
    · intro he
      exact hne (he ▸ hb)
    · rw [← List.mem_filterMap, entered_reverse, not_not]
      exact hsink

/-! ### Postdomination -/

/-- A graph whose arcs join listed vertices, all numbered above zero. -/
structure Enclosed (cfg : Graph) : Prop where
  joined : ∀ a ∈ cfg.arcs, a.1 ∈ cfg.ids ∧ a.2 ∈ cfg.ids
  positive : ∀ v ∈ cfg.ids, 0 < v

namespace Enclosed

theorem exit_notMem (h : Enclosed cfg) : exitVertex.id ∉ cfg.ids := by
  intro hm
  have := h.positive _ hm
  simp [exitVertex] at this

/-- An arc of the reversed graph leads to a listed vertex, from a successor or from the exit. -/
theorem mem_successors_reversed (h : Enclosed cfg) : b ∈ (reversedWithExit cfg).successors a ↔
    a ∈ cfg.successors b ∨ a = exitVertex.id ∧ b ∈ cfg.ids ∧ cfg.successors b = [] := by
  rw [mem_successors, mem_arcs_reversed h.exit_notMem, mem_successors]

theorem walk_reversed (h : Enclosed cfg) (hw : Walk cfg.successors x xs y) :
    Walk (reversedWithExit cfg).successors y xs.reverse x :=
  hw.reverse (P := fun _ => True) trivial
    fun _ _ _ hy => ⟨trivial, h.mem_successors_reversed.mpr (.inl hy)⟩

theorem walk_of_reversed (h : Enclosed cfg) (hw : Walk (reversedWithExit cfg).successors y xs x)
    (hy : y ≠ exitVertex.id) : Walk cfg.successors x xs.reverse y := by
  apply hw.reverse (P := fun v => v ≠ exitVertex.id) hy
  intro a ha b hb
  have hab := (h.mem_successors_reversed.mp hb).resolve_right fun he => ha he.1
  refine ⟨?_, hab⟩
  rintro rfl
  exact h.exit_notMem (h.joined _ (mem_successors.mp hab)).1

theorem listed (h : Enclosed cfg) : Listed (reversedWithExit cfg) where
  exit_mem := mem_ids_reversed.mpr (.inr rfl)
  zero := by
    intro hm
    rcases mem_ids_reversed.mp hm with hm | hm
    · have := h.positive _ hm
      omega
    · simp [exitVertex] at hm
  joined := by
    rintro ⟨a, b⟩ ha
    rw [mem_ids_reversed, mem_ids_reversed]
    rcases (mem_arcs_reversed h.exit_notMem).mp ha with ha | ⟨rfl, hb, _⟩
    · exact ⟨.inl (h.joined _ ha).2, .inl (h.joined _ ha).1⟩
    · exact ⟨.inr rfl, .inl hb⟩

/-- The exit reaches a vertex backwards if that one can come to an end. -/
theorem reaches_reversed (h : Enclosed cfg) (hx : x ∈ cfg.ids) :
    Reaches (reversedWithExit cfg).successors exitVertex.id x ↔
      ∃ t ∈ cfg.ids, cfg.successors t = [] ∧ Reaches cfg.successors x t := by
  constructor
  · rintro ⟨xs, hw⟩
    cases hw with
    | here => exact (h.exit_notMem hx).elim
    | @step _ t _ xs ht hw =>
      rcases h.mem_successors_reversed.mp ht with ht | ⟨_, ht, hsink⟩
      · exact (h.exit_notMem (h.joined _ (mem_successors.mp ht)).2).elim
      · exact ⟨t, ht, hsink, _, h.walk_of_reversed hw fun he => h.exit_notMem (he ▸ ht)⟩
  · rintro ⟨t, ht, hsink, xs, hw⟩
    exact ⟨_, .step (h.mem_successors_reversed.mpr (.inr ⟨rfl, ht, hsink⟩)) (h.walk_reversed hw)⟩

/-- Walks from the exit are paths to an end, backwards. -/
theorem dominates_reversed (h : Enclosed cfg) (hx : x ∈ cfg.ids) (hy : y ∈ cfg.ids) :
    Dominates (reversedWithExit cfg).successors exitVertex.id y x ↔ PostDominates cfg y x := by
  have hy' : y ≠ exitVertex.id := fun he => h.exit_notMem (he ▸ hy)
  constructor
  · intro hd t ht hsink xs hw
    have hm :=
      hd _ (.step (h.mem_successors_reversed.mpr (.inr ⟨rfl, ht, hsink⟩)) (h.walk_reversed hw))
    simpa [hy'] using hm
  · intro hp xs hw
    cases hw with
    | here => exact (h.exit_notMem hx).elim
    | @step _ t _ xs ht hw =>
      rcases h.mem_successors_reversed.mp ht with ht | ⟨_, ht, hsink⟩
      · exact (h.exit_notMem (h.joined _ (mem_successors.mp ht)).2).elim
      · have hm := hp t ht hsink _ (h.walk_of_reversed hw fun he => h.exit_notMem (he ▸ ht))
        simp at hm
        exact List.mem_cons_of_mem _ hm

end Enclosed

/-- A graph whose edges join listed vertices and from whose vertices, all numbered above zero,
control may come to an end. -/
structure Ending (cfg : Graph) : Prop where
  joined : ∀ e ∈ cfg.edges, ∃ s t, e.ends? = some (s, t) ∧ s ∈ cfg.ids ∧ t ∈ cfg.ids
  positive : ∀ v ∈ cfg.ids, 0 < v
  ends : ∀ v ∈ cfg.ids, ∃ t ∈ cfg.ids, cfg.successors t = [] ∧ Reaches cfg.successors v t

namespace Ending

theorem enclosed (h : Ending cfg) : Enclosed cfg where
  positive := h.positive
  joined := by
    intro a ha
    obtain ⟨e, he, hends⟩ := Graph.mem_arcs.mp ha
    obtain ⟨s, t, hst, hs, ht⟩ := h.joined e he
    rw [hends] at hst
    cases hst
    exact ⟨hs, ht⟩

theorem rooted (h : Ending cfg) : Rooted (reversedWithExit cfg) where
  exit_mem := h.enclosed.listed.exit_mem
  zero := h.enclosed.listed.zero
  joined := h.enclosed.listed.joined
  reached := by
    intro v hv
    rcases mem_ids_reversed.mp hv with hv | rfl
    · exact (h.enclosed.reaches_reversed hv).mpr (h.ends v hv)
    · exact .refl
  entry := by
    rw [List.eq_nil_iff_forall_not_mem]
    intro p hp
    have harc : (p, exitVertex.id) ∈ (reversedWithExit cfg).arcs := mem_predecessors.mp hp
    rcases (mem_arcs_reversed h.enclosed.exit_notMem).mp harc with ha | ⟨_, hb, _⟩
    · exact h.enclosed.exit_notMem (h.enclosed.joined _ ha).1
    · exact h.enclosed.exit_notMem hb

/-- Domination in the reversed graph ends where control dependence begins. -/
theorem endsAt_reversed (h : Ending cfg) (hx : x ∈ cfg.ids) (hy : y ∈ cfg.ids) :
    EndsAt (reversedWithExit cfg) y x ↔ y ≠ x ∧ ControlDependent cfg y x := by
  have hexit : (reversedWithExit cfg).exitId = exitVertex.id := rfl
  have h := h.enclosed
  unfold EndsAt ControlDependent
  rw [hexit, h.dominates_reversed hx hy]
  refine and_congr_right fun _ => and_congr_left fun _ => ?_
  constructor
  · rintro ⟨p, hp, hd⟩
    rcases (mem_arcs_reversed h.exit_notMem).mp (mem_predecessors.mp hp) with ha | ⟨rfl, _, _⟩
    · exact ⟨p, mem_successors.mpr ha, (h.dominates_reversed (h.joined _ ha).2 hy).mp hd⟩
    · have hm := hd _ .here
      exact (h.exit_notMem (List.mem_singleton.mp hm ▸ hy)).elim
  · rintro ⟨s, hs, hp⟩
    have ha := mem_successors.mp hs
    refine ⟨s, mem_predecessors.mpr ((mem_arcs_reversed h.exit_notMem).mpr (.inl ha)), ?_⟩
    exact (h.dominates_reversed (h.joined _ ha).2 hy).mpr hp

/-- Nothing ends at the exit, and the exit's domination ends nowhere. -/
theorem endsAt_ne_exit (h : Ending cfg) (he : EndsAt (reversedWithExit cfg) y x) :
    x ≠ exitVertex.id ∧ y ≠ exitVertex.id := by
  constructor
  · rintro rfl
    obtain ⟨_, ⟨p, hp, _⟩, _⟩ := he
    have hentry : (reversedWithExit cfg).predecessors exitVertex.id = [] := h.rooted.entry
    simp [hentry] at hp
  · rintro rfl
    exact he.2.2 .of_root

end Ending

/-! ### The graph of dependences -/

/-- Every edge comes from an entry, and leads from what is entered to its holder, both found by
number. -/
theorem mem_frontierEdges {e : Edge} (h : e ∈ frontierEdges g df) :
    ∃ y xs controlled, ∃ x ∈ xs, ∃ controller,
    (y, xs) ∈ df.entries ∧ x ≠ y ∧ g.find? x = some controller ∧ g.find? y = some controlled ∧
      e = {
        source := some controller
        target := some controlled
        label := dependenceLabel (g.vertices.find? fun v => v.kind == "function_definition")
          controller controlled
        kind := .controlDependence } := by
  obtain ⟨⟨y, xs⟩, hentry, he⟩ := List.mem_flatMap.mp h
  simp only at he
  split at he
  · cases he
  · rename_i controlled hy
    obtain ⟨x, hx, hsome⟩ := List.mem_filterMap.mp he
    split at hsome
    · cases hsome
    · rename_i hne
      obtain ⟨controller, hc, rfl⟩ := Option.map_eq_some_iff.mp hsome
      exact ⟨y, xs, controlled, x, hx, controller, hentry, hne, hc, hy, rfl⟩

theorem entered_of_mem_frontierEdges {e : Edge} (hdf : df.Distinct) (h : e ∈ frontierEdges g df) :
    e.kind = .controlDependence ∧
      ∃ x y, e.ends? = some (x, y) ∧ x ≠ y ∧ Entered df y x ∧ x ∈ g.ids ∧ y ∈ g.ids := by
  obtain ⟨y, xs, controlled, x, hx, controller, hentry, hne, hc, hy, rfl⟩ := mem_frontierEdges h
  refine ⟨rfl, x, y, ?_, hne, ⟨xs, (Table.mem_entries_iff hdf).mp hentry, hx⟩, ?_, ?_⟩
  · rw [← Graph.id_of_find? hy, ← Graph.id_of_find? hc]
    rfl
  · exact Graph.find?_isSome.mp (by simp [hc])
  · exact Graph.find?_isSome.mp (by simp [hy])

theorem exists_frontierEdge (hdf : df.Distinct) (h : Entered df y x) (hne : x ≠ y) (hx : x ∈ g.ids)
    (hy : y ∈ g.ids) : ∃ e ∈ frontierEdges g df, e.ends? = some (x, y) := by
  obtain ⟨xs, hxs, hmem⟩ := h
  obtain ⟨controller, hc, hcx⟩ := Graph.exists_find? hx
  obtain ⟨controlled, hd, hdy⟩ := Graph.exists_find? hy
  let e : Edge := {
    source := some controller
    target := some controlled
    label := dependenceLabel (g.vertices.find? fun v => v.kind == "function_definition")
      controller controlled
    kind := .controlDependence }
  refine ⟨e, List.mem_flatMap.mpr ⟨(y, xs), (Table.mem_entries_iff hdf).mpr hxs, ?_⟩, ?_⟩
  · simp only [hd]
    exact List.mem_filterMap.mpr ⟨x, hmem, by simp [hne, hc, e]⟩
  · simp [Edge.ends?, e, hcx, hdy]

theorem edges_controlDependence : (controlDependence g df).edges = frontierEdges g df := rfl

/-- The construction succeeds on what has a frontier. -/
theorem buildControlDependenceOf_run (b : Bench)
    (hdf : dominanceFrontier (reversedWithExit cfg) = .ok df) (hne : df.isEmpty = false) :
    (Bench.buildControlDependenceOf (some cfg)).run b =
      (some (controlDependence (reversedWithExit cfg) df),
        { b with controlDependence := some (controlDependence (reversedWithExit cfg) df) }) := by
  simp only [Bench.buildControlDependenceOf, Bench.frontier, hdf, StateT.run, bind, StateT.bind,
    pure, StateT.pure, hne]
  rfl

/-- The edges of the control-dependence graph are exactly the control dependences. -/
theorem controlDependence_exact (h : Ending cfg) (b : Bench) :
    ∃ cdg b', (Bench.buildControlDependenceOf (some cfg)).run b = (some cdg, b') ∧
      (∀ x ∈ cfg.ids, ∀ y ∈ cfg.ids, x ≠ y →
        ((∃ e ∈ cdg.edges, e.kind = .controlDependence ∧ e.ends? = some (x, y)) ↔
          ControlDependent cfg y x)) ∧
      ∀ e ∈ cdg.edges, ∃ x y, e.ends? = some (x, y) ∧ x ≠ y ∧ x ≠ exitVertex.id ∧
      y ≠ exitVertex.id := by
  obtain ⟨df, hdf, hledger, hmem⟩ := h.rooted.frontier
  have hne : df.isEmpty = false := by
    obtain ⟨xs, hxs⟩ := hledger.listed _ h.rooted.exit_mem
    have hentry := (Table.mem_entries_iff hledger.distinct).mpr hxs
    cases hnil : df.entries <;> simp_all [Table.isEmpty]
  refine ⟨_, _, buildControlDependenceOf_run b hdf hne, ?_, ?_⟩
  · intro x hx y hy hxy
    rw [edges_controlDependence]
    have hx' := mem_ids_reversed.mpr (.inl hx)
    have hy' := mem_ids_reversed.mpr (.inl hy)
    constructor
    · rintro ⟨e, he, _, hends⟩
      obtain ⟨_, x₁, y₁, hends₁, _, hentered, _, _⟩ :=
        entered_of_mem_frontierEdges hledger.distinct he
      rw [hends] at hends₁
      cases hends₁
      exact ((h.endsAt_reversed hx hy).mp ((hmem y x).mp hentered).2).2
    · intro hdep
      have hentered := (hmem y x).mpr ⟨hx', (h.endsAt_reversed hx hy).mpr ⟨hxy.symm, hdep⟩⟩
      obtain ⟨e, he, hends⟩ := exists_frontierEdge hledger.distinct hentered hxy hx' hy'
      exact ⟨e, he, (entered_of_mem_frontierEdges hledger.distinct he).1, hends⟩
  · intro e he
    obtain ⟨_, x, y, hends, hxy, hentered, _, _⟩ := entered_of_mem_frontierEdges hledger.distinct he
    exact ⟨x, y, hends, hxy, h.endsAt_ne_exit ((hmem y x).mp hentered).2⟩

/-- A way past a vertex that may repeat, with one edge drawn twice. -/
def selfLoop : Graph :=
  { Graph.ofVertices [{ id := 1 }, { id := 2 }, { id := 3 }] with
    edges := [(1, 2), (1, 3), (1, 3), (2, 2), (2, 3)].map fun a =>
      { source := some { id := a.1 }, target := some { id := a.2 } } }

theorem selfLoop_ending : Ending selfLoop where
  joined := by
    have hlisted : ∀ a ∈ ([(1, 2), (1, 3), (1, 3), (2, 2), (2, 3)] : List (Int × Int)),
        a.1 ∈ selfLoop.ids ∧ a.2 ∈ selfLoop.ids := by decide
    intro e he
    obtain ⟨a, ha, rfl⟩ := List.mem_map.mp he
    exact ⟨a.1, a.2, rfl, hlisted a ha⟩
  positive := by decide
  ends := by
    have hend : selfLoop.successors 3 = [] := by decide
    have h3 : Walk selfLoop.successors 3 [3] 3 := .here
    intro v hv
    refine ⟨3, by decide, hend, ?_⟩
    have hcases : v = 1 ∨ v = 2 ∨ v = 3 := by
      revert v
      decide
    rcases hcases with rfl | rfl | rfl
    · exact ⟨_, .step (by decide) h3⟩
    · exact ⟨_, .step (by decide) h3⟩
    · exact ⟨_, h3⟩

theorem controlDependence_selfLoop : Ending selfLoop ∧
    ∃ cdg b', (Bench.buildControlDependenceOf (some selfLoop)).run {} = (some cdg, b') ∧
      (∀ x ∈ selfLoop.ids, ∀ y ∈ selfLoop.ids, x ≠ y →
        ((∃ e ∈ cdg.edges, e.kind = .controlDependence ∧ e.ends? = some (x, y)) ↔
          ControlDependent selfLoop y x)) ∧
      ∀ e ∈ cdg.edges, ∃ x y, e.ends? = some (x, y) ∧ x ≠ y ∧ x ≠ exitVertex.id ∧
      y ≠ exitVertex.id :=
  ⟨selfLoop_ending, controlDependence_exact selfLoop_ending {}⟩

example :
    ((Bench.buildControlDependenceOf (some selfLoop)).run {}).1.map (·.arcs) = some [(1, 2)] := by
  rfl

end CrossCall.Flow

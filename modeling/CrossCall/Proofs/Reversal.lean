import CrossCall.Proofs.ProgramDependence

/-! Turning a graph around. Turned twice, a graph is what it was, but for the edges that lack an
end; and there is a path from one vertex to another around obstacles exactly if there is one back in
the turned graph. For the first half a graph must be one that its operations make: they keep every
number for one vertex only, and variables for data dependences. -/
namespace CrossCall.Flow

variable {g : Graph} {e : Edge} {es : List Edge} {a b x y : Int} {avoid : List Int}

/-! ### Graphs that the operations make -/

/-- Only data dependences carry variables. -/
def Edge.Proper (e : Edge) : Prop := ∀ xs, e.cargo = .names xs → e.kind = .dataDependence

/-- The same edge with its ends changed in place. -/
def Edge.amend (f : Vertex → Vertex) (e : Edge) : Edge :=
  { e with source := e.source.map f, target := e.target.map f }

/-- A graph after any number of operations, starting from nothing. Vertices may be changed in place,
their numbers apart. -/
inductive Graph.Assembled : Graph → Prop
  | empty : Assembled {}
  | addVertex {g : Graph} (v : Vertex) : Assembled g → Assembled (g.addVertex v)
  | addEdge {g : Graph} {e : Edge} : Assembled g → e.Proper → Assembled (g.addEdge e)
  | connect {g : Graph} {es : List Edge} (v : Vertex) : Assembled g → (∀ e ∈ es, e.Proper) →
      Assembled (g.connect v es)
  | amend {g : Graph} {f : Vertex → Vertex} : Assembled g → (∀ v, (f v).id = v.id) →
      Assembled { g with vertices := g.vertices.map f, edges := g.edges.map (·.amend f) }
  | refresh {g : Graph} : Assembled g → Assembled g.refresh
  | setExit {g : Graph} (exit : Option Int) : Assembled g → Assembled { g with exit }
  | reverse {g : Graph} : Assembled g → Assembled g.reverse

/-- No number stands for two vertices, and all edges are proper. -/
structure Graph.Sound (g : Graph) : Prop where
  nodup : g.ids.Nodup
  proper : ∀ e ∈ g.edges, e.Proper

theorem Edge.proper_flip (e : Edge) : e.flip.Proper := by
  intro xs hcargo
  have hnames : e.cargo = .names xs := hcargo
  simp [Edge.flip, hnames]

theorem Edge.flip_flip (h : e.Proper) : e.flip.flip = e := by
  obtain ⟨source, target, label, kind, cargo⟩ := e
  cases cargo with
  | nothing => rfl
  | token xs => rfl
  | names xs =>
    obtain rfl : kind = .dataDependence := h xs rfl
    rfl

namespace Graph.Sound

theorem addVertex (h : g.Sound) (v : Vertex) : (g.addVertex v).Sound := by
  refine ⟨nodup_ids_addVertex h.nodup, ?_⟩
  rw [Graph.edges_addVertex]
  exact h.proper

theorem append (h : g.Sound) (hes : ∀ e ∈ es, e.Proper) :
    Sound { g with edges := g.edges ++ es } := by
  refine ⟨h.nodup, fun e he => ?_⟩
  rcases List.mem_append.mp he with he | he
  · exact h.proper e he
  · exact hes e he

theorem addTargets (h : g.Sound) (es : List Edge) :
    (es.foldl (fun g e => e.target.elim g g.addVertex) g).Sound := by
  induction es generalizing g with
  | nil => exact h
  | cons e rest ih =>
    have hadded : (e.target.elim g g.addVertex).Sound := by
      cases e.target with
      | none => exact h
      | some t => exact h.addVertex t
    exact ih hadded

theorem connect (h : g.Sound) (hes : ∀ e ∈ es, e.Proper) (v : Vertex) : (g.connect v es).Sound := by
  refine ((h.addVertex v).addTargets _).append fun e he => ?_
  obtain ⟨e', he', rfl⟩ := List.mem_map.mp he
  exact hes e' he'

theorem amend {f : Vertex → Vertex} (h : g.Sound) (hf : ∀ v, (f v).id = v.id) :
    Sound { g with vertices := g.vertices.map f, edges := g.edges.map (·.amend f) } := by
  refine ⟨?_, fun e he => ?_⟩
  · have hids : (g.vertices.map f).map (·.id) = g.ids := by
      rw [List.map_map]
      exact List.map_congr_left fun v _ => hf v
    rw [Graph.ids, hids]
    exact h.nodup
  · obtain ⟨e', he', rfl⟩ := List.mem_map.mp he
    exact h.proper e' he'

theorem reverse (g : Graph) : g.reverse.Sound := by
  refine ⟨nodup_ids_ofVertices g.vertices, fun e he => ?_⟩
  obtain ⟨e', -, rfl⟩ := List.mem_map.mp he
  exact e'.proper_flip

end Graph.Sound

theorem Graph.Assembled.sound (h : g.Assembled) : g.Sound := by
  induction h with
  | empty => exact ⟨List.nodup_nil, fun _ he => absurd he List.not_mem_nil⟩
  | addVertex v _ ih => exact ih.addVertex v
  | addEdge _ he ih => exact ih.append (List.forall_mem_singleton.mpr he)
  | connect v _ hes ih => exact ih.connect hes v
  | amend _ hf ih => exact ih.amend hf
  | refresh _ ih => exact ⟨ih.nodup, ih.proper⟩
  | setExit _ _ ih => exact ⟨ih.nodup, ih.proper⟩
  | reverse _ _ => exact .reverse _

/-! ### Turning twice -/

theorem Graph.Sound.vertices_reverse (h : g.Sound) : g.reverse.vertices = g.vertices :=
  vertices_ofVertices h.nodup

theorem Graph.Sound.edges_reverse_reverse (h : g.Sound) :
    g.reverse.reverse.edges = g.edges.filter fun e => e.source.isSome && e.target.isSome := by
  have hturned : ∀ g : Graph, g.reverse.edges = (g.edges.filter (·.target.isSome)).map Edge.flip :=
    fun _ => rfl
  have hback : ∀ e ∈ g.edges.filter (fun e => e.source.isSome && e.target.isSome),
      (Edge.flip ∘ Edge.flip) e = e :=
    fun e he => Edge.flip_flip (h.proper e (List.mem_filter.mp he).1)
  rw [hturned, hturned, List.filter_map, List.filter_filter, List.map_map]
  exact (List.map_congr_left hback).trans (List.map_id _)

/-! ### Paths back -/

theorem Graph.PathAvoiding.turn {next next' : Int → List Int} (h : PathAvoiding next avoid a b)
    (hback : ∀ x, ∀ y ∈ next x, x ∈ next' y) : PathAvoiding next' avoid b a := by
  induction h with
  | arc hm => exact .arc (hback _ _ hm)
  | step hm hclear _ ih => exact ih.snoc hclear (hback _ _ hm)

theorem mem_successors_reverse : x ∈ g.reverse.successors y ↔ y ∈ g.successors x := by
  rw [mem_successors, mem_successors, mem_arcs_reverse]

theorem hasPathAvoiding_reverse (g : Graph) (a b : Int) (avoid : List Int) :
    g.reverse.hasPathAvoiding b a avoid = g.hasPathAvoiding a b avoid := by
  by_cases hab : a = b
  · rw [Graph.hasPathAvoiding, Graph.hasPathAvoiding, if_pos hab, if_pos hab.symm]
  by_cases hends : a ∈ avoid ∨ b ∈ avoid
  · rw [Graph.hasPathAvoiding, Graph.hasPathAvoiding, if_neg hab, if_neg (Ne.symm hab),
      if_pos hends, if_pos hends.symm]
  -- Where the search is run it decides whether there is a path, and a path can be turned.
  obtain ⟨ha, hb⟩ := not_or.mp hends
  rw [Bool.eq_iff_iff, Graph.hasPathAvoiding_iff (Ne.symm hab) hb ha,
    Graph.hasPathAvoiding_iff hab ha hb]
  constructor
  · exact fun h => h.turn fun x y hy => mem_successors_reverse.mp hy
  · exact fun h => h.turn fun x y hy => mem_successors_reverse.mpr hy

/-- A graph that is turned twice has its vertices, and its edges with two ends, as they were; and
turning it turns reachability around. -/
theorem reverse_involutive (h : g.Assembled) : g.reverse.reverse.vertices = g.vertices ∧
    (g.reverse.reverse.edges = g.edges.filter fun e => e.source.isSome && e.target.isSome) ∧
      ∀ start goal avoid, g.reverse.hasPathAvoiding goal start avoid =
      g.hasPathAvoiding start goal avoid := by
  have hsound := h.sound
  refine ⟨?_, hsound.edges_reverse_reverse, hasPathAvoiding_reverse g⟩
  rw [(Graph.Sound.reverse g).vertices_reverse, hsound.vertices_reverse]

/-- A ring of three vertices with an edge of each sort, and two edges that lack an end. -/
def brokenRing : Graph :=
  let one := Graph.connect {} { id := 1 } [{ target := some { id := 2 }, label := "Y" }]
  let two := one.connect { id := 2 }
    [{ target := some { id := 3 }, kind := .dataDependence, cargo := .names ["x"] }, {}]
  (two.addEdge { target := some { id := 2 } }).connect { id := 3 }
    [{ target := some { id := 1 }, cargo := .token ["t"] }]

theorem brokenRing_assembled : brokenRing.Assembled := by
  refine .connect _ (.addEdge (.connect _ (.connect _ .empty ?_) ?_) ?_) ?_ <;> simp [Edge.Proper]

theorem reverse_involutive_brokenRing : brokenRing.Assembled ∧ brokenRing.edges.length = 5 ∧
    brokenRing.reverse.edges.length = 4 ∧ brokenRing.hasPathAvoiding 1 3 [] = true ∧
    brokenRing.hasPathAvoiding 1 3 [2] = false ∧
    brokenRing.reverse.reverse.vertices = brokenRing.vertices ∧
    (brokenRing.reverse.reverse.edges = brokenRing.edges.filter fun e =>
      e.source.isSome && e.target.isSome) ∧
      ∀ start goal avoid, brokenRing.reverse.hasPathAvoiding goal start avoid =
        brokenRing.hasPathAvoiding start goal avoid :=
  ⟨brokenRing_assembled, by decide, by decide, by decide, by decide,
    reverse_involutive brokenRing_assembled⟩

end CrossCall.Flow

import CrossCall.Proofs.Table
import CrossCall.Proofs.Walk

/-! Graphs as sets of numbers and arcs: what the operations add, and tables of neighbours. -/
namespace CrossCall.Flow

variable {g : Graph} {a b v w x : Int} {vs : List Vertex} {u : Vertex}

/-! ### Vertices -/

namespace Graph

theorem find?_isSome : (g.find? x).isSome = true ↔ x ∈ g.ids := by
  simp [find?, ids, List.find?_isSome]

theorem id_of_find? (h : g.find? x = some u) : u.id = x := by
  simpa using List.find?_some h

theorem exists_find? (h : x ∈ g.ids) : ∃ u, g.find? x = some u ∧ u.id = x := by
  obtain ⟨u, hu⟩ := Option.isSome_iff_exists.mp (find?_isSome.mpr h)
  exact ⟨u, hu, id_of_find? hu⟩

theorem mem_ids_addVertex : x ∈ (g.addVertex u).ids ↔ x ∈ g.ids ∨ x = u.id := by
  unfold addVertex
  split
  · rename_i h
    rw [find?_isSome] at h
    constructor
    · exact .inl
    · rintro (hx | rfl)
      · exact hx
      · exact h
  · simp [ids]

theorem vertices_addVertex (h : u.id ∉ g.ids) : (g.addVertex u).vertices = g.vertices ++ [u] := by
  rw [addVertex, if_neg (by rwa [find?_isSome])]

theorem edges_addVertex : (g.addVertex u).edges = g.edges := by
  unfold addVertex
  split <;> rfl

theorem find?_addVertex :
    (g.addVertex u).find? x = (g.find? x).or (if u.id = x then some u else none) := by
  unfold addVertex
  by_cases hu : u.id = x
  · subst hu
    cases hf : g.find? u.id with
    | none =>
      rw [find?] at hf
      simp [find?, List.find?_append, hf]
    | some v => simp [hf]
  · rw [if_neg hu, Option.or_none]
    split
    · rfl
    · simp [find?, List.find?_append, hu]

/-- Of vertices with one number the first is kept. -/
theorem find?_ofVertices : (ofVertices vs).find? x = vs.find? fun v => v.id == x := by
  suffices hs : ∀ g : Graph,
      (vs.foldl addVertex g).find? x = (g.find? x).or (vs.find? fun v => v.id == x) from
    hs {}
  induction vs with
  | nil => simp
  | cons u rest ih =>
    intro g
    rw [List.foldl_cons, ih, find?_addVertex, Option.or_assoc, List.find?_cons]
    by_cases hu : u.id = x
    · simp [hu]
    · rw [if_neg hu, Option.none_or, beq_false_of_ne hu]

theorem mem_ids_ofVertices : x ∈ (ofVertices vs).ids ↔ x ∈ vs.map (·.id) := by
  suffices hs : ∀ g : Graph, x ∈ (vs.foldl addVertex g).ids ↔ x ∈ g.ids ∨ x ∈ vs.map (·.id) from
    (hs {}).trans (or_iff_right (by simp [ids]))
  induction vs with
  | nil => simp
  | cons u rest ih =>
    intro g
    rw [List.foldl_cons, ih, mem_ids_addVertex, List.map_cons, List.mem_cons, or_assoc]

theorem mem_arcs {p : Int × Int} : p ∈ g.arcs ↔ ∃ e ∈ g.edges, e.ends? = some p :=
  List.mem_filterMap

end Graph

theorem Edge.ends?_eq_some {e : Edge} :
    e.ends? = some (a, b) ↔ ∃ s t, e.source = some s ∧ e.target = some t ∧ s.id = a ∧ t.id = b := by
  obtain ⟨source, target, _, _, _⟩ := e
  cases source <;> cases target <;> simp [Edge.ends?]

theorem Edge.ends?_flip (e : Edge) : e.flip.ends? = e.ends?.map Prod.swap := by
  obtain ⟨source, target, _, _, _⟩ := e
  cases source <;> cases target <;> rfl

/-! ### Successors and predecessors in tables -/

theorem getD_groupArcs (arcs : List (Int × Int)) (k : Int) :
    (Graph.groupArcs arcs).getD k [] = arcs.filterMap fun a => if a.1 = k then some a.2
    else none := by
  exact Table.getD_collect arcs {} k

theorem nextIn_successorTable (g : Graph) : nextIn g.successorTable = g.successors := by
  funext v
  exact getD_groupArcs g.arcs v

theorem getD_predecessorTable (g : Graph) (v : Int) :
    g.predecessorTable.getD v [] = g.predecessors v := by
  unfold Graph.predecessorTable Graph.predecessors
  rw [getD_groupArcs, List.filterMap_map]
  rfl

theorem mem_successors : w ∈ g.successors v ↔ (v, w) ∈ g.arcs := by
  simp [Graph.successors]

theorem mem_predecessors : v ∈ g.predecessors w ↔ (v, w) ∈ g.arcs := by
  simp [Graph.predecessors]

end CrossCall.Flow

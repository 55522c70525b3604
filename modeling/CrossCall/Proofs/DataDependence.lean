import CrossCall.Flow.Dependence
import CrossCall.Proofs.Graph
import CrossCall.Proofs.Search

/-! Data dependence by paths: what a definition gives to a use is exactly what some path between
them leaves alone. -/
namespace CrossCall.Flow

variable {cfg g : Graph} {d k u : Int} {x y : String} {t : Table Int (List String)}
  {acc : Table (Int × Int) (List String)} {rs : List (Int × Int × String)}

/-- A table lists a variable under a vertex. -/
def Lists (t : Table Int (List String)) (k : Int) (x : String) : Prop :=
  ∃ xs, (k, xs) ∈ t.entries ∧ x ∈ xs

/-- The value that `d` gives to `x` may be seen at `u`: a path leads there on which nobody else
gives `x` another one. -/
def Flows (cfg : Graph) (x : String) (d u : Int) : Prop :=
  Lists cfg.defs d x ∧ Lists cfg.uses u x ∧
    ∃ ns, Walk cfg.successors d ns u ∧ ∀ n ∈ ns, n ≠ d → n ≠ u → ¬ Lists cfg.defs n x

/-! ### Vertices by variable -/

theorem vertexLists_eq (t : Table Int (List String)) :
    vertexLists t = (t.entries.flatMap fun e => e.2.map (·, e.1)).foldl
      (fun acc a => acc.alter a.1 [] (· ++ [a.2])) {} := by
  simp only [vertexLists, List.foldl_flatMap, List.foldl_map]

theorem distinct_vertexLists (t : Table Int (List String)) : (vertexLists t).Distinct := by
  rw [vertexLists_eq]
  exact Table.distinct_empty.collect _

theorem mem_vertexLists : u ∈ (vertexLists t).getD x [] ↔ Lists t u x := by
  rw [vertexLists_eq, Table.getD_collect]
  simp only [Lists, List.mem_append, List.mem_filterMap, List.mem_flatMap, List.mem_map]
  constructor
  · rintro (h | ⟨a, ⟨e, he, y, hy, rfl⟩, ha⟩)
    · cases h
    · split at ha
      · rename_i hx
        cases ha
        exact ⟨e.2, he, hx ▸ hy⟩
      · cases ha
  · rintro ⟨xs, he, hx⟩
    exact .inr ⟨(x, u), ⟨(u, xs), he, x, hx, rfl⟩, by simp⟩

/-! ### Pairs -/

/-- Enters one variable under a pair. -/
def note (acc : Table (Int × Int) (List String)) (r : Int × Int × String) :
    Table (Int × Int) (List String) :=
  acc.alter (r.1, r.2.1) [] (insertName · r.2.2)

/-- The definitions, uses and variables that belong together, in order. -/
def reachings (cfg : Graph) : List (Int × Int × String) :=
  (vertexLists cfg.defs).entries.flatMap fun (x, ds) =>
    ds.flatMap fun d =>
      (((vertexLists cfg.uses).getD x []).filter fun u =>
        d ≠ u ∧ cfg.hasPathAvoiding d u (ds.filter fun n => n ≠ d ∧ n ≠ u)).map fun u => (d, u, x)

theorem reachingPairs_eq (cfg : Graph) : reachingPairs cfg = (reachings cfg).foldl note {} := by
  unfold reachingPairs reachings
  simp only [List.foldl_flatMap, List.foldl_map, List.foldl_filter, note, decide_eq_true_eq]

/-- The pairs noted so far, each with exactly its variables, once. -/
structure Noted (rs : List (Int × Int × String)) (acc : Table (Int × Int) (List String)) :
    Prop where
  distinct : acc.Distinct
  nonempty : ∀ p xs, acc.get? p = some xs → xs ≠ []
  nodup : ∀ p, (acc.getD p []).Nodup
  mem : ∀ p x, x ∈ acc.getD p [] ↔ (p.1, p.2, x) ∈ rs

theorem noted_empty : Noted [] {} where
  distinct := Table.distinct_empty
  nonempty := by
    intro p xs h
    cases h
  nodup _ := List.nodup_nil
  mem _ _ := iff_of_false List.not_mem_nil List.not_mem_nil

theorem Noted.step (h : Noted rs acc) (r : Int × Int × String) :
    Noted (rs ++ [r]) (note acc r) where
  distinct := h.distinct.alter _ _ _
  nonempty := by
    intro p xs hp
    unfold note Table.alter at hp
    rw [Table.get?_insert] at hp
    split at hp
    · cases hp
      exact List.ne_nil_of_mem (mem_insertName.mpr (.inr rfl))
    · exact h.nonempty p xs hp
  nodup := by
    intro p
    rw [note, Table.getD_alter]
    split
    · exact nodup_insertName (h.nodup _)
    · exact h.nodup p
  mem := by
    intro p x
    obtain ⟨d, u, y⟩ := r
    rw [note, Table.getD_alter, List.mem_append, ← h.mem p x]
    split
    · rename_i hp
      subst hp
      simp [mem_insertName]
    · rename_i hp
      have hne : ¬ (p.1 = d ∧ p.2 = u) := fun he => hp (Prod.ext he.1 he.2)
      simp only [List.mem_singleton, Prod.mk.injEq]
      exact ⟨.inl, fun ho => ho.elim id fun he => (hne ⟨he.1, he.2.1⟩).elim⟩

theorem noted_reachingPairs (cfg : Graph) : Noted (reachings cfg) (reachingPairs cfg) := by
  rw [reachingPairs_eq]
  induction reachings cfg using List.reverseRecOn with
  | nil => exact noted_empty
  | append_singleton rs r ih =>
    rw [List.foldl_append]
    exact ih.step r

/-- Around the other definitions the search finds the paths on which no one else gives the variable
another value. -/
theorem hasPath_iff_flows (hne : d ≠ u) {ds : List Int} (hds : ∀ n, n ∈ ds ↔ Lists cfg.defs n x) :
    cfg.hasPathAvoiding d u (ds.filter fun n => n ≠ d ∧ n ≠ u) = true ↔
      ∃ ns, Walk cfg.successors d ns u ∧ ∀ n ∈ ns, n ≠ d → n ≠ u → ¬ Lists cfg.defs n x := by
  have hclear : ∀ n, n ∉ (ds.filter fun n => n ≠ d ∧ n ≠ u) ↔
      (n ≠ d → n ≠ u → ¬ Lists cfg.defs n x) := by
    intro n
    simp only [List.mem_filter, hds, decide_eq_true_eq]
    tauto
  have hd : d ∉ ds.filter fun n => n ≠ d ∧ n ≠ u := (hclear d).mpr fun hn => (hn rfl).elim
  have hu : u ∉ ds.filter fun n => n ≠ d ∧ n ≠ u := (hclear u).mpr fun _ hn => (hn rfl).elim
  rw [Graph.hasPathAvoiding_iff hne hd hu]
  constructor
  · intro hp
    obtain ⟨ns, hw, hns⟩ := hp.walk hd hu
    exact ⟨ns, hw, fun n hn => (hclear n).mp (hns n hn)⟩
  · rintro ⟨ns, hw, hns⟩
    exact .of_walk hw (fun n hn => (hclear n).mpr (hns n hn)) hne

theorem mem_reachings : (d, u, x) ∈ reachings cfg ↔ d ≠ u ∧ Flows cfg x d u := by
  have hentry : ∀ ds, (x, ds) ∈ (vertexLists cfg.defs).entries → ∀ n, n ∈ ds ↔
      Lists cfg.defs n x := by
    intro ds he n
    rw [Table.mem_entries_iff (distinct_vertexLists _)] at he
    rw [← mem_vertexLists, Table.getD, he, Option.getD_some]
  simp only [reachings, List.mem_flatMap, List.mem_map, List.mem_filter, mem_vertexLists,
    decide_eq_true_eq]
  constructor
  · rintro ⟨⟨x', ds⟩, he, d', hd, u', ⟨hu, hne, hp⟩, heq⟩
    cases heq
    exact ⟨hne, (hentry ds he d).mp hd, hu, (hasPath_iff_flows hne (hentry ds he)).mp hp⟩
  · rintro ⟨hne, hd, hu, hp⟩
    have hmem := mem_vertexLists.mpr hd
    rw [Table.getD] at hmem
    cases he : (vertexLists cfg.defs).get? x with
    | none => simp [he] at hmem
    | some ds =>
      rw [← Table.mem_entries_iff (distinct_vertexLists _)] at he
      have hds := hentry ds he
      exact ⟨(x, ds), he, d, (hds d).mpr hd, u, ⟨hu, hne, (hasPath_iff_flows hne hds).mpr hp⟩, rfl⟩

/-! ### Edges -/

/-- The edge for a pair of numbers and its variables. -/
def dataEdge (cfg : Graph) (p : (Int × Int) × List String) : Edge where
  source := cfg.find? p.1.1
  target := cfg.find? p.1.2
  kind := .dataDependence
  cargo := .names p.2

theorem edges_dataDependence (cfg : Graph) :
    (dataDependence cfg).edges = (reachingPairs cfg).entries.map (dataEdge cfg) := by
  simp only [dataDependence, dataEdges, Graph.find?_ofVertices]
  rfl

theorem mem_edges_dataDependence {e : Edge} : e ∈ (dataDependence cfg).edges ↔
    ∃ d u xs, (reachingPairs cfg).get? (d, u) = some xs ∧ e = dataEdge cfg ((d, u), xs) := by
  simp only [edges_dataDependence, List.mem_map, Prod.exists,
    Table.mem_entries_iff (noted_reachingPairs cfg).distinct, eq_comm]

/-- A pair in the table is one of two vertices, and its variables are those that flow. -/
theorem reachingPairs_spec {xs : List String} (h : (reachingPairs cfg).get? (d, u) = some xs) :
    d ≠ u ∧ xs ≠ [] ∧ xs.Nodup ∧ ∀ x, x ∈ xs ↔ Flows cfg x d u := by
  have hn := noted_reachingPairs cfg
  have hget : (reachingPairs cfg).getD (d, u) [] = xs := by rw [Table.getD, h, Option.getD_some]
  have hmem : ∀ x, x ∈ xs ↔ d ≠ u ∧ Flows cfg x d u := by
    intro x
    rw [← hget, hn.mem, mem_reachings]
  obtain ⟨y, hy⟩ := List.exists_mem_of_ne_nil xs (hn.nonempty _ _ h)
  have hne := ((hmem y).mp hy).1
  refine ⟨hne, hn.nonempty _ _ h, hget ▸ hn.nodup (d, u), ?_⟩
  intro x
  rw [hmem, and_iff_right hne]

theorem ends?_dataEdge {a b : Int} {p : (Int × Int) × List String}
    (h : (dataEdge cfg p).ends? = some (a, b)) :
    p.1 = (a, b) := by
  obtain ⟨s, t, hs, ht, rfl, rfl⟩ := Edge.ends?_eq_some.mp h
  exact Prod.ext (Graph.id_of_find? hs).symm (Graph.id_of_find? ht).symm

theorem nodup_arcs_dataDependence (cfg : Graph) : (dataDependence cfg).arcs.Nodup := by
  -- The variables play no part in the ends, so the arcs come from the keys alone, and those are
  -- distinct.
  have harcs : (dataDependence cfg).arcs =
      (reachingPairs cfg).keys.filterMap fun k => (dataEdge cfg (k, [])).ends? := by
    rw [Graph.arcs, edges_dataDependence, List.filterMap_map, Table.keys, List.filterMap_map]
    rfl
  rw [harcs]
  refine (noted_reachingPairs cfg).distinct.filterMap ?_
  rintro k k' ⟨a, b⟩ hk hk'
  exact (ends?_dataEdge hk).trans (ends?_dataEdge hk').symm

/-- The data dependences are the definitions that reach a use elsewhere: one edge for each pair of
vertices, and on it all variables that flow. -/
theorem dataDependence_exact (cfg : Graph) :
    (∀ d ∈ cfg.ids, ∀ u ∈ cfg.ids, d ≠ u → ∀ x,
      ((∃ e ∈ (dataDependence cfg).edges, e.ends? = some (d, u) ∧ ∃ xs, e.cargo = .names xs ∧
        x ∈ xs) ↔
        Flows cfg x d u)) ∧
    (dataDependence cfg).arcs.Nodup ∧
    ∀ e ∈ (dataDependence cfg).edges, ∃ d u xs, d ≠ u ∧ e.source = cfg.find? d ∧
    e.target = cfg.find? u ∧
      e.kind = .dataDependence ∧ e.cargo = .names xs ∧ xs ≠ [] ∧ xs.Nodup ∧ ∀ x, x ∈ xs ↔
      Flows cfg x d u := by
  refine ⟨?_, nodup_arcs_dataDependence cfg, ?_⟩
  · intro d hd u hu hne x
    constructor
    · rintro ⟨e, he, hends, xs, hcargo, hx⟩
      obtain ⟨d', u', ys, hget, rfl⟩ := mem_edges_dataDependence.mp he
      cases ends?_dataEdge hends
      cases hcargo
      exact ((reachingPairs_spec hget).2.2.2 x).mp hx
    · intro hf
      have hx := ((noted_reachingPairs cfg).mem (d, u) x).mpr (mem_reachings.mpr ⟨hne, hf⟩)
      obtain ⟨s, hs, hsid⟩ := Graph.exists_find? hd
      obtain ⟨t, ht, htid⟩ := Graph.exists_find? hu
      cases hget : (reachingPairs cfg).get? (d, u) with
      | none => simp [Table.getD, hget] at hx
      | some xs =>
        refine ⟨_, mem_edges_dataDependence.mpr ⟨d, u, xs, hget, rfl⟩, ?_, xs, rfl, ?_⟩
        · exact Edge.ends?_eq_some.mpr ⟨s, t, hs, ht, hsid, htid⟩
        · simpa [Table.getD, hget] using hx
  · intro e he
    obtain ⟨d, u, xs, hget, rfl⟩ := mem_edges_dataDependence.mp he
    obtain ⟨hne, hnil, hnodup, hmem⟩ := reachingPairs_spec hget
    exact ⟨d, u, xs, hne, rfl, rfl, rfl, rfl, hnil, hnodup, hmem⟩

/-- A loop that counts: it is entered with one value and goes on with another, and two edges leave
it. -/
def counting : Graph :=
  { vertices := [{ id := 1 }, { id := 2 }, { id := 3 }, { id := 4 }]
    edges := [(1, 2), (2, 3), (3, 2), (2, 4), (2, 4)].map fun a =>
      { source := some { id := a.1 }, target := some { id := a.2 } }
    defs := ⟨[(1, ["i", "n"]), (3, ["i"])]⟩
    uses := ⟨[(2, ["i", "n"]), (3, ["i"]), (4, ["i"])]⟩ }

theorem dataDependence_counting : (1 ∈ counting.ids ∧ 3 ∈ counting.ids ∧ 4 ∈ counting.ids) ∧
    Flows counting "i" 1 4 ∧ Flows counting "i" 3 4 ∧ ¬ Flows counting "n" 3 4 := by
  have h := (dataDependence_exact counting).1
  refine ⟨by decide, ?_, ?_, ?_⟩
  · exact (h 1 (by decide) 4 (by decide) (by decide) "i").mp
      ⟨dataEdge counting ((1, 4), ["i"]), by decide, rfl, ["i"], rfl, by decide⟩
  · exact (h 3 (by decide) 4 (by decide) (by decide) "i").mp
      ⟨dataEdge counting ((3, 4), ["i"]), by decide, rfl, ["i"], rfl, by decide⟩
  · intro hf
    obtain ⟨e, he, hends, xs, hcargo, hx⟩ := (h 3 (by decide) 4 (by decide) (by decide) "n").mpr hf
    have honly : ∀ e ∈ (dataDependence counting).edges, e.ends? = some (3, 4) →
        e.cargo = .names ["i"] := by decide
    rw [honly e he hends] at hcargo
    cases hcargo
    simp at hx

example : (dataDependence counting).edges.filterMap (fun e => e.ends?.map (·, e.names)) =
    [((1, 2), ["i", "n"]), ((1, 3), ["i"]), ((1, 4), ["i"]), ((3, 2), ["i"]), ((3, 4), ["i"])] := by
  rfl

end CrossCall.Flow

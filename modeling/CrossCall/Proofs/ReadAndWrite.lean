import CrossCall.Proofs.Occurrence
import CrossCall.Proofs.ProgramDependence

/-! Variables that a statement both reads and writes at one place, by counting or by a combined
assignment. The place counts as a definition only, so what was defined before reaches the statement
exactly if the variable is read at some other place of it. -/
namespace CrossCall.Flow

variable {src : Source} {l x : Locus} {v w : Vertex} {us : List Vertex} {g cfg : Graph} {k d : Int}
  {name : String} {t : Table Int (List String)}

/-! ### Tables of a graph -/

theorem get?_entered_of_notMem (names : Vertex → List String) (h : k ∉ us.map (·.id)) :
    (us.foldl (fun t v => t.insert v.id (names v)) t).get? k = t.get? k := by
  induction us generalizing t with
  | nil => rfl
  | cons u rest ih =>
    rw [List.map_cons, List.mem_cons, not_or] at h
    rw [List.foldl_cons, ih h.2, Table.get?_insert, if_neg h.1]

theorem get?_entered (names : Vertex → List String) (hnodup : (us.map (·.id)).Nodup) (hv : v ∈ us) :
    (us.foldl (fun t v => t.insert v.id (names v)) t).get? v.id = some (names v) := by
  induction us generalizing t with
  | nil => cases hv
  | cons u rest ih =>
    rw [List.map_cons, List.nodup_cons] at hnodup
    rw [List.foldl_cons]
    rcases List.mem_cons.mp hv with rfl | hv
    · rw [get?_entered_of_notMem names hnodup.1, Table.get?_insert, if_pos rfl]
    · exact ih hnodup.2 hv

/-- The tables of a graph list the variables of its vertices, and nothing else. -/
structure Graph.Listed (g : Graph) : Prop extends g.Tabled where
  defs_iff : ∀ v ∈ g.vertices, ∀ x, Lists g.defs v.id x ↔ x ∈ v.defs
  uses_iff : ∀ v ∈ g.vertices, ∀ x, Lists g.uses v.id x ↔ x ∈ v.uses

theorem lists_iff (h : t.Distinct) {xs : List String} (hget : t.get? k = some xs) :
    Lists t k name ↔ name ∈ xs := by
  simp [Lists, Table.mem_entries_iff h, hget]

theorem distinct_entered (names : Vertex → List String) (h : t.Distinct) :
    (us.foldl (fun t v => t.insert v.id (names v)) t).Distinct := by
  induction us generalizing t with
  | nil => exact h
  | cons u rest ih => exact ih (h.insert _ _)

theorem distinct_graphOf (rs : List Record) :
    (graphOf rs).defs.Distinct ∧ (graphOf rs).uses.Distinct := by
  suffices hs : ∀ g : Graph, g.defs.Distinct ∧ g.uses.Distinct →
      let g := rs.foldl (fun g r => { g.addVertex r.vertex with edges := g.edges ++ r.edges }) g
      g.defs.Distinct ∧ g.uses.Distinct from
    (hs {} ⟨Table.distinct_empty, Table.distinct_empty⟩).imp (distinct_entered _)
      (distinct_entered _)
  induction rs with
  | nil => exact fun _ h => h
  | cons r rest ih =>
    intro g h
    refine ih _ ?_
    dsimp only [Graph.addVertex]
    split
    · exact h
    · exact ⟨h.1.insert _ _, h.2.insert _ _⟩

theorem listed_graphOf (rs : List Record) : (graphOf rs).Listed where
  toTabled := tabled_graphOf rs
  defs_iff _ hv _ :=
    lists_iff (distinct_graphOf rs).1 (get?_entered Vertex.defs (tabled_graphOf rs).nodup hv)
  uses_iff _ hv _ :=
    lists_iff (distinct_graphOf rs).2 (get?_entered Vertex.uses (tabled_graphOf rs).nodup hv)

/-! ### Definitions that reach a vertex -/

/-- What `w` gives to a variable may be there when control comes to `v`: a path leads there past no
other vertex that gives it a value. -/
def Supplies (g : Graph) (name : String) (w v : Vertex) : Prop :=
  name ∈ w.defs ∧ ∃ ns, Walk g.successors w.id ns v.id ∧
    ∀ u ∈ g.vertices, u.id ∈ ns → u.id ≠ w.id → u.id ≠ v.id → name ∉ u.defs

theorem Graph.Listed.flows_iff (h : g.Listed) (hw : w ∈ g.vertices) (hv : v ∈ g.vertices) :
    Flows g name w.id v.id ↔ Supplies g name w v ∧ name ∈ v.uses := by
  have hfree : ∀ ns : List Int, (∀ n ∈ ns, n ≠ w.id → n ≠ v.id → ¬ Lists g.defs n name) ↔
      ∀ u ∈ g.vertices, u.id ∈ ns → u.id ≠ w.id → u.id ≠ v.id → name ∉ u.defs := by
    intro ns
    constructor
    · intro hns u hu hmem hne hne'
      rw [← h.defs_iff u hu]
      exact hns _ hmem hne hne'
    · intro hns n hn hne hne' hlists
      obtain ⟨u, hu, rfl⟩ := List.mem_map.mp (h.defs n hlists.mem_keys)
      exact hns u hu hn hne hne' ((h.defs_iff u hu name).mp hlists)
  unfold Flows Supplies
  rw [h.defs_iff w hw, h.uses_iff v hv]
  simp only [hfree]
  tauto

/-- The names on the edge between two vertices are those that the table of pairs has. -/
theorem mem_names_dataDependence (hd : d ∈ cfg.ids) (hk : k ∈ cfg.ids) :
    (∃ e ∈ (dataDependence cfg).edges, e.ends? = some (d, k) ∧ name ∈ e.names) ↔
    d ≠ k ∧ Flows cfg name d k := by
  rw [← mem_reachings, ← (noted_reachingPairs cfg).mem (d, k)]
  constructor
  · rintro ⟨e, he, hends, hname⟩
    obtain ⟨d', k', xs, hget, rfl⟩ := mem_edges_dataDependence.mp he
    cases ends?_dataEdge hends
    rwa [Table.getD, hget, Option.getD_some]
  · intro hname
    obtain ⟨s, hs, hsid⟩ := Graph.exists_find? hd
    obtain ⟨t, ht, htid⟩ := Graph.exists_find? hk
    cases hget : (reachingPairs cfg).get? (d, k) with
    | none => simp [Table.getD, hget] at hname
    | some xs =>
      rw [Table.getD, hget, Option.getD_some] at hname
      have hedge := mem_edges_dataDependence.mpr ⟨d, k, xs, hget, rfl⟩
      exact ⟨_, hedge, Edge.ends?_eq_some.mpr ⟨s, t, hs, ht, hsid, htid⟩, hname⟩

/-! ### Read and written at one place -/

/-- The variable at `x` is counted up or down, or it is assigned what an operator makes of its old
value. -/
def Modified (x : Locus) : Prop :=
  ∃ p, x.parent? = some p ∧ (p.kind = "update_expression" ∨
    p.kind = "assignment_expression" ∧ x.isFieldOfParent "left" = true ∧
      ∃ op, p.childByField? "operator" = some op ∧ op.kind ≠ "=")

/-- Another place than `x` reads the variable, or a call is handed it. -/
def ReadBeside (src : Source) (l x : Locus) (name : String) : Prop :=
  (∃ y ∈ effectVariables l, y ≠ x ∧ Occurs src name false y) ∨ Handed src l name

theorem Modified.given (h : Modified x) : isDefinition src x = .ok true := by
  obtain ⟨p, hp, hk | ⟨hk, hleft, -⟩⟩ := h
  · exact isDefinition_of_parent hp hk (by decide)
  · simp [isDefinition, hp, hk, hleft]

/-- A modified variable is defined. It is used exactly if the statement reads it at another place,
and without that no definition before it reaches the statement. -/
theorem modified_iff_readBeside (hv : Vertex.ofLocus src l = .ok v) (hx : x ∈ effectVariables l)
    (hm : Modified x) (hname : src.textOf? x.node = some name) :
    name ∈ v.defs ∧ (name ∈ v.uses ↔ ReadBeside src l x name) ∧
      ∀ f g, controlFlow src f = .ok g → v ∈ g.vertices → ∀ w ∈ g.vertices, w.id ≠ v.id →
        ((∃ e ∈ (dataDependence g).edges, e.ends? = some (w.id, v.id) ∧ name ∈ e.names) ↔
          Supplies g name w v ∧ ReadBeside src l x name) := by
  have huses : name ∈ v.uses ↔ ReadBeside src l x name := by
    rw [mem_uses_ofLocus hv]
    refine or_congr_left ⟨?_, ?_⟩
    · rintro ⟨y, hy, hoccurs⟩
      refine ⟨y, hy, ?_, hoccurs⟩
      rintro rfl
      exact absurd (hm.given.symm.trans hoccurs.given) (by simp)
    · rintro ⟨y, hy, -, hoccurs⟩
      exact ⟨y, hy, hoccurs⟩
  refine ⟨(mem_defs_ofLocus hv).mpr (.inl ⟨x, hx, hname, hm.given⟩), huses, ?_⟩
  intro f g hg hvg w hw hne
  obtain ⟨rs, -, rfl⟩ := map_eq_ok.mp hg
  rw [mem_names_dataDependence (List.mem_map_of_mem hw) (List.mem_map_of_mem hvg),
    (listed_graphOf rs).flows_iff hw hvg, huses, and_iff_right hne]

/-! ### Two functions -/

/-- A body that gives `i` a value and then has one more statement. -/
def settingBody (s : Tree) (stop : Nat) : Tree :=
  .node "compound_statement" 8 stop (some "body") [
    .node "\x7b" 8 9 none [],
    .node "expression_statement" 9 13 none [
      .node "assignment_expression" 9 12 none [
        .node "identifier" 9 10 (some "left") [], .node "=" 10 11 (some "operator") [],
        .node "number_literal" 11 12 (some "right") []],
      .node ";" 12 13 none []],
    s,
    .node "\x7d" (stop - 1) stop none []]

def settingTree (s : Tree) (stop : Nat) : Tree :=
  .bareFunction 0 4 (settingBody s stop)

def settingUnit (s : Tree) (stop : Nat) : Tree :=
  .node "translation_unit" 0 stop none [settingTree s stop]

def settingFunction (s : Tree) (stop : Nat) : Locus :=
  Locus.child ⟨settingUnit s stop, []⟩ 0 (settingTree s stop)

/-- The last statement of the function. -/
def lastStatement (s : Tree) (stop : Nat) : Locus :=
  ((settingFunction s stop).child 2 (settingBody s stop)).child 2 s

def doublingSource : Source := ⟨"void f()\x7bi=0;i+=i;\x7d"⟩

def doubling : Tree :=
  .node "expression_statement" 13 18 none [
    .node "assignment_expression" 13 17 none [
      .node "identifier" 13 14 (some "left") [], .node "+=" 14 16 (some "operator") [],
      .node "identifier" 16 17 (some "right") []],
    .node ";" 17 18 none []]

theorem modified_doubling : ∃ x ∈ effectVariables (lastStatement doubling 19), Modified x ∧
    doublingSource.textOf? x.node = some "i" :=
  ⟨_, List.mem_cons_self, ⟨_, rfl, .inr ⟨rfl, rfl, _, rfl, by decide⟩⟩, by decide +kernel⟩

/-- The variable is read on the right side as well, so what it was set to reaches the statement. -/
theorem modified_iff_readBeside_doubling : ∃ x v w g,
    Vertex.ofLocus doublingSource (lastStatement doubling 19) = .ok v ∧
    x ∈ effectVariables (lastStatement doubling 19) ∧ Modified x ∧
    doublingSource.textOf? x.node = some "i" ∧
      controlFlow doublingSource (settingFunction doubling 19) = .ok g ∧ v ∈ g.vertices ∧
      w ∈ g.vertices ∧ w.id ≠ v.id ∧
        "i" ∈ v.defs ∧ "i" ∈ v.uses ∧ Supplies g "i" w v := by
  have heval : (controlFlow doublingSource (settingFunction doubling 19)).toOption.map (fun g =>
      (Vertex.ofLocus doublingSource (lastStatement doubling 19)).toOption.map fun v =>
        decide (v ∈ g.vertices ∧ ∃ w ∈ g.vertices, w.id ≠ v.id ∧ ∃ e ∈ (dataDependence g).edges,
          e.ends? = some (w.id, v.id) ∧ "i" ∈ e.names)) = some (some true) := by decide +kernel
  obtain ⟨g, hg, heval⟩ := exists_ok_of_toOption heval
  obtain ⟨v, hv, heval⟩ := exists_ok_of_toOption heval
  obtain ⟨hvg, w, hw, hne, hedge⟩ := of_decide_eq_true heval
  obtain ⟨x, hx, hm, hname⟩ := modified_doubling
  obtain ⟨hdefs, huses, hreach⟩ := modified_iff_readBeside hv hx hm hname
  obtain ⟨hsupplies, hread⟩ := (hreach _ g hg hvg w hw hne).mp hedge
  exact ⟨x, v, w, g, hv, hx, hm, hname, hg, hvg, hw, hne, hdefs, huses.mpr hread, hsupplies⟩

def countingSource : Source := ⟨"void f()\x7bi=0;i++;\x7d"⟩

def countingUp : Tree :=
  .node "expression_statement" 13 17 none [
    .node "update_expression" 13 16 none [
      .node "identifier" 13 14 (some "argument") [], .node "++" 14 16 (some "operator") []],
    .node ";" 16 17 none []]

theorem modified_countingUp : ∃ x ∈ effectVariables (lastStatement countingUp 18), Modified x ∧
    countingSource.textOf? x.node = some "i" :=
  ⟨_, List.mem_cons_self, ⟨_, rfl, .inl rfl⟩, by decide +kernel⟩

/-- A variable that is set and then counted up is not used there, and no dependence leads from the
one statement to the other. -/
theorem counted_not_used :
    ∃ x v w g, x ∈ effectVariables (lastStatement countingUp 18) ∧ Modified x ∧
    countingSource.textOf? x.node = some "i" ∧
      Vertex.ofLocus countingSource (lastStatement countingUp 18) = .ok v ∧ "i" ∈ v.defs ∧
      "i" ∉ v.uses ∧
        controlFlow countingSource (settingFunction countingUp 18) = .ok g ∧ v ∈ g.vertices ∧
        w ∈ g.vertices ∧
          "i" ∈ w.defs ∧ v.id ∈ g.successors w.id ∧ (dataDependence g).edges = [] := by
  have heval : (controlFlow countingSource (settingFunction countingUp 18)).toOption.map (fun g =>
      (Vertex.ofLocus countingSource (lastStatement countingUp 18)).toOption.map fun v =>
        decide ("i" ∈ v.defs ∧ "i" ∉ v.uses ∧ v ∈ g.vertices ∧ (∃ w ∈ g.vertices, "i" ∈ w.defs ∧
          v.id ∈ g.successors w.id) ∧ (dataDependence g).edges = [])) = some (some true) := by
        decide +kernel
  obtain ⟨g, hg, heval⟩ := exists_ok_of_toOption heval
  obtain ⟨v, hv, heval⟩ := exists_ok_of_toOption heval
  obtain ⟨hdefs, huses, hvg, ⟨w, hw, hset, hnext⟩, hedges⟩ := of_decide_eq_true heval
  obtain ⟨x, hx, hm, hname⟩ := modified_countingUp
  exact ⟨x, v, w, g, hx, hm, hname, hv, hdefs, huses, hg, hvg, hw, hset, hnext, hedges⟩

end CrossCall.Flow

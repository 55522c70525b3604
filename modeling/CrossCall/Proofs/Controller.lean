import CrossCall.Proofs.ControlDependence
import CrossCall.Proofs.StructuredFlow

/-! Control dependences of graphs in which control may never come to an end. Whatever is computed,
only vertices that several edges leave control others; and of two neighbours it can be told by paths
whether one controls the other. -/
namespace CrossCall.Flow

variable {cfg cdg g : Graph} {r v w x y : Int} {n : Nat} {vs ps : List Int} {t : DominatorTree}
  {df df' : Table Int (List Int)} {e : Edge} {b b' : Bench}

/-! ### Any frontier -/

theorem look_eq_ok {ν : Type} {t : Table Int ν} {z : ν} (h : look t v = .ok z) :
    t.get? v = some z := by
  unfold look at h
  split at h
  · rename_i hz
    cases h
    exact hz
  · cases h

/-- One step of a climb, if it succeeds. -/
theorem climb_succ (h : climb t v (n + 1) r df = .ok df') : r = t.parent.getD v v ∧ df' = df ∨
    r ≠ t.parent.getD v v ∧ ∃ df₁,
      (r = v ∧ df₁ = df ∨ r ≠ v ∧ ∃ xs, df.get? r = some xs ∧ df₁ = df.insert r (xs ++ [v])) ∧
        (df' = df₁ ∨ ∃ w, climb t v n w df₁ = .ok df') := by
  rw [climb] at h
  split at h
  · rename_i hparent
    cases h
    exact .inl ⟨hparent, rfl⟩
  · rename_i hparent
    have hon :
        ∀ df₁, (if r = t.parent.getD r r then pure df₁ else look t.parent r >>= fun w =>
          climb t v n w df₁) =
        .ok df' → df' = df₁ ∨ ∃ w, climb t v n w df₁ = .ok df' := by
      intro df₁ h
      split at h
      · cases h
        exact .inl rfl
      · obtain ⟨w, -, h⟩ := bind_eq_ok.mp h
        exact .inr ⟨w, h⟩
    refine .inr ⟨hparent, ?_⟩
    dsimp only at h
    split at h
    · rename_i hrv
      exact ⟨df, .inl ⟨hrv, rfl⟩, hon df h⟩
    · rename_i hrv
      obtain ⟨xs, hxs, h⟩ := bind_eq_ok.mp h
      exact ⟨_, .inr ⟨hrv, xs, look_eq_ok hxs, rfl⟩, hon _ h⟩

/-- Climbing enters one vertex only, and never under itself or under its parent. -/
theorem climb_sound (hd : df.Distinct) (h : climb t v n r df = .ok df') :
    df'.Distinct ∧ ∀ y x, Entered df' y x →
    Entered df y x ∨ x = v ∧ y ≠ v ∧ y ≠ t.parent.getD v v := by
  induction n generalizing r df with
  | zero =>
    cases h
    exact ⟨hd, fun _ _ h => .inl h⟩
  | succ n ih =>
    rcases climb_succ h with ⟨-, rfl⟩ | ⟨hparent, df₁, hfirst, hrest⟩
    · exact ⟨hd, fun _ _ h => .inl h⟩
    have hfirst : df₁.Distinct ∧
        ∀ y x, Entered df₁ y x → Entered df y x ∨ x = v ∧ y ≠ v ∧ y ≠ t.parent.getD v v := by
      rcases hfirst with ⟨-, rfl⟩ | ⟨hrv, xs, hxs, rfl⟩
      · exact ⟨hd, fun _ _ h => .inl h⟩
      · have hledger : Ledger [] df := ⟨hd, by simp⟩
        obtain ⟨hdf₁, hmem⟩ := hledger.enter (v := v) hxs
        refine ⟨hdf₁.distinct, fun y x hyx => ?_⟩
        rcases (hmem y x).mp hyx with hyx | ⟨rfl, rfl⟩
        · exact .inl hyx
        · exact .inr ⟨rfl, hrv, hparent⟩
    rcases hrest with rfl | ⟨w, hrest⟩
    · exact hfirst
    · obtain ⟨hd', hmem⟩ := ih hfirst.1 hrest
      refine ⟨hd', fun y x hyx => ?_⟩
      rcases hmem y x hyx with hyx | hyx
      · exact hfirst.2 y x hyx
      · exact .inr hyx

/-- What a fold that succeeds keeps. -/
theorem foldlM_sound {α β ε : Type} {step : β → α → Except ε β} {P : β → Prop} {xs : List α}
    {z z' : β} (hstep : ∀ a ∈ xs, ∀ z z', step z a = .ok z' → P z → P z') (hz : P z)
    (h : xs.foldlM step z = .ok z') : P z' := by
  induction xs generalizing z with
  | nil =>
    cases h
    exact hz
  | cons a rest ih =>
    rw [List.foldlM_cons] at h
    obtain ⟨z₁, h₁, h⟩ := bind_eq_ok.mp h
    exact ih (fun a ha => hstep a (List.mem_cons_of_mem _ ha))
      (hstep a List.mem_cons_self z z₁ h₁ hz) h

/-- Only vertices with several predecessors are entered, and never under themselves or their
parents. -/
structure Sparing (g : Graph) (t : DominatorTree) (df : Table Int (List Int)) : Prop where
  distinct : df.Distinct
  entered : ∀ y x, Entered df y x → y ≠ x ∧ 1 < (g.predecessors x).length ∧ y ≠ t.parent.getD x x

theorem dominanceFrontier_sparing (h : dominanceFrontier g = .ok df) :
    ∃ t, dominatorTree g = .ok t ∧ Sparing g t df := by
  obtain ⟨t, ht, h⟩ := bind_eq_ok.mp h
  refine ⟨t, ht, foldlM_sound (P := Sparing g t) ?_ ⟨distinct_blank _ Table.distinct_empty, ?_⟩ h⟩
  · intro v _ df df' hstep hdf
    dsimp only at hstep
    rw [getD_predecessorTable] at hstep
    split at hstep
    · rename_i hlen
      refine foldlM_sound (P := Sparing g t) (fun p _ df df' hclimb hdf => ?_) hdf hstep
      obtain ⟨hd', hmem⟩ := climb_sound hdf.distinct hclimb
      refine ⟨hd', fun y x hyx => ?_⟩
      rcases hmem y x hyx with hyx | ⟨rfl, hne, hparent⟩
      · exact hdf.entered y x hyx
      · exact ⟨hne, hlen, hparent⟩
    · cases hstep
      exact hdf
  · rintro y x ⟨xs, hxs, hx⟩
    rw [get?_blank] at hxs
    split at hxs <;> cases hxs
    cases hx

/-! ### The reversed graph -/

theorem nodup_ids_addVertex {u : Vertex} (h : g.ids.Nodup) : (g.addVertex u).ids.Nodup := by
  by_cases hu : u.id ∈ g.ids
  · rw [Graph.addVertex, if_pos (Graph.find?_isSome.mpr hu)]
    exact h
  · rw [Graph.ids, Graph.vertices_addVertex hu, List.map_append]
    exact List.nodup_append'.mpr ⟨h, by simp, List.disjoint_singleton.mpr hu⟩

theorem nodup_ids_ofVertices (us : List Vertex) : (Graph.ofVertices us).ids.Nodup := by
  suffices hs : ∀ g : Graph, g.ids.Nodup →
      (us.foldl Graph.addVertex g).ids.Nodup from hs {} (by simp [Graph.ids])
  induction us with
  | nil => exact fun _ h => h
  | cons u rest ih => exact fun g h => ih _ (nodup_ids_addVertex h)

theorem arcs_reverse (cfg : Graph) : cfg.reverse.arcs = cfg.arcs.map Prod.swap := by
  have hedges : cfg.reverse.edges = (cfg.edges.filter (·.target.isSome)).map Edge.flip := rfl
  rw [Graph.arcs, Graph.arcs, hedges, List.filterMap_map, List.filterMap_filter, List.map_filterMap]
  congr 1
  funext e
  cases htarget : e.target with
  | none => cases hsource : e.source <;> simp [Edge.ends?, htarget, hsource]
  | some t => simp [Edge.ends?_flip]

theorem predecessors_reverse : cfg.reverse.predecessors x = cfg.successors x := by
  rw [Graph.predecessors, arcs_reverse, List.filterMap_map]
  rfl

/-- The vertices that the exit leads to in the reversed graph. -/
def openVertices (cfg : Graph) : List Vertex :=
  (cfg.reverse.addVertex exitVertex).vertices.filter fun v => v.id != exitVertex.id &&
    !(cfg.reverse.edges.filterMap fun e => e.target.map (·.id)).contains v.id

theorem predecessors_reversed_eq : (reversedWithExit cfg).predecessors x =
    cfg.successors x ++ (openVertices cfg).filterMap fun v => if v.id = x then some exitVertex.id
    else none := by
  have hedges : (cfg.reverse.addVertex exitVertex).edges = cfg.reverse.edges :=
    Graph.edges_addVertex
  rw [← predecessors_reverse]
  simp only [Graph.predecessors, Graph.arcs, reversedWithExit, hedges, List.filterMap_append,
    List.filterMap_map, openVertices]
  congr 1
  rw [List.filterMap_filterMap]
  congr 1

/-- A vertex of the reversed graph has as many predecessors as edges leave it in the graph, or the
exit alone. -/
theorem predecessors_reversed : (reversedWithExit cfg).predecessors x = cfg.successors x ∨
    cfg.successors x = [] ∧ ((reversedWithExit cfg).predecessors x).length ≤ 1 := by
  rw [predecessors_reversed_eq]
  by_cases hsucc : cfg.successors x = []
  · refine .inr ⟨hsucc, ?_⟩
    have hnodup : (cfg.reverse.addVertex exitVertex).ids.Nodup :=
      nodup_ids_addVertex (nodup_ids_ofVertices _)
    rw [hsucc, List.nil_append, List.length_filterMap_eq_countP]
    calc
      _ ≤ (cfg.reverse.addVertex exitVertex).vertices.countP fun v =>
            (if v.id = x then some exitVertex.id else none).isSome := List.filter_sublist.countP_le
      _ = (cfg.reverse.addVertex exitVertex).ids.count x := by
          rw [Graph.ids, List.count_eq_countP, List.countP_map]
          congr 1
          funext v
          by_cases hv : v.id = x <;> simp [hv]
      _ ≤ 1 := List.nodup_iff_count_le_one.mp hnodup x
  · refine .inl ?_
    have hnone : ((openVertices cfg).filterMap fun v =>
        if v.id = x then some exitVertex.id else none) = [] := by
      rw [List.filterMap_eq_nil_iff]
      intro v hv
      have hentered := entered_reverse.mpr hsucc
      by_cases hvx : v.id = x
      · have hopen := (List.mem_filter.mp hv).2
        rw [Bool.and_eq_true, Bool.not_eq_true', hvx] at hopen
        exact absurd (List.contains_iff_mem.mpr hentered) (by
          rw [hopen.2]; exact Bool.false_ne_true)
      · rw [if_neg hvx]
    rw [hnone, List.append_nil]

/-! ### Any graph of control dependences -/

theorem buildControlDependenceOf_eq_some
    (h : ((Bench.buildControlDependenceOf (some cfg)).run b).1 = some cdg) :
    ∃ df, dominanceFrontier (reversedWithExit cfg) = .ok df ∧
    cdg = controlDependence (reversedWithExit cfg) df := by
  cases hdf : dominanceFrontier (reversedWithExit cfg) with
  | error fault =>
    simp only [Bench.buildControlDependenceOf, Bench.frontier, hdf] at h
    cases h
  | ok df =>
    refine ⟨df, rfl, ?_⟩
    cases hempty : df.isEmpty with
    | false =>
      rw [buildControlDependenceOf_run b hdf hempty] at h
      cases h
      rfl
    | true =>
      simp only [Bench.buildControlDependenceOf, Bench.frontier, hdf, StateT.run, bind, StateT.bind,
        pure, StateT.pure, hempty] at h
      cases h

/-- An edge of a graph of control dependences leaves a vertex that several edges leave in the graph
of control flow. -/
theorem several_of_mem_edges (h : ((Bench.buildControlDependenceOf (some cfg)).run b).1 = some cdg)
    (he : e ∈ cdg.edges) : ∃ x y, e.ends? = some (x, y) ∧ 1 < (cfg.successors x).length := by
  obtain ⟨df, hdf, rfl⟩ := buildControlDependenceOf_eq_some h
  obtain ⟨t, -, hsparing⟩ := dominanceFrontier_sparing hdf
  obtain ⟨-, x, y, hends, -, hentered, -⟩ := entered_of_mem_frontierEdges hsparing.distinct he
  refine ⟨x, y, hends, ?_⟩
  obtain ⟨-, hlen, -⟩ := hsparing.entered y x hentered
  rcases @predecessors_reversed cfg x with heq | ⟨-, hfew⟩
  · rwa [← heq]
  · omega

/-! ### Neighbours -/

/-- What is entered stays entered. -/
def Extends (df df' : Table Int (List Int)) : Prop := ∀ y x, Entered df y x → Entered df' y x

/-- A climb over listed parents succeeds, and enters the vertex under the one where it starts. -/
theorem climb_total (ht : ∀ u ∈ vs, ∃ d ∈ vs, t.parent.get? u = some d) (hr : r ∈ vs)
    (hdf : Ledger vs df) :
    ∃ df', climb t v n r df = .ok df' ∧ Ledger vs df' ∧ Extends df df' ∧
      (0 < n → r ≠ v → r ≠ t.parent.getD v v → Entered df' r v) := by
  induction n generalizing r df with
  | zero => exact ⟨df, rfl, hdf, fun _ _ h => h, fun h => absurd h (Nat.lt_irrefl 0)⟩
  | succ n ih =>
    obtain ⟨d, hd, hpar⟩ := ht r hr
    obtain ⟨xs, hxs⟩ := hdf.listed r hr
    have hparD : t.parent.getD r r = d := by simp [Table.getD, hpar]
    by_cases hrd : r = t.parent.getD v v
    · refine ⟨df, ?_, hdf, fun _ _ h => h, fun _ _ hne => absurd hrd hne⟩
      simp [climb, ← hrd, pure, Except.pure]
    -- Whatever the first step has entered, the rest of the climb succeeds from there.
    have hrest : ∀ df₁, Ledger vs df₁ → ∃ df', (if r = t.parent.getD r r then pure df₁
        else look t.parent r >>= fun w => climb t v n w df₁) = .ok df' ∧ Ledger vs df' ∧
        Extends df₁ df' := by
      intro df₁ hdf₁
      by_cases htop : r = t.parent.getD r r
      · rw [if_pos htop]
        exact ⟨df₁, rfl, hdf₁, fun _ _ h => h⟩
      · obtain ⟨df', hrun, hdf', hext, -⟩ := ih hd hdf₁
        rw [if_neg htop]
        exact ⟨df', bind_eq_ok.mpr ⟨d, look_ok hpar, hrun⟩, hdf', hext⟩
    by_cases hrv : r = v
    · obtain ⟨df', hrun, hdf', hext⟩ := hrest df hdf
      refine ⟨df', ?_, hdf', hext, fun _ hne => absurd hrv hne⟩
      rw [climb, if_neg hrd]
      dsimp only
      rw [if_pos hrv]
      exact hrun
    · obtain ⟨hdf₁, hmem⟩ := hdf.enter (v := v) hxs
      obtain ⟨df', hrun, hdf', hext⟩ := hrest _ hdf₁
      refine ⟨df', ?_, hdf', fun y x h => hext y x ((hmem y x).mpr (.inl h)), ?_⟩
      · rw [climb, if_neg hrd]
        dsimp only
        rw [if_neg hrv, look_ok hxs]
        exact hrun
      · exact fun _ _ _ => hext r v ((hmem r v).mpr (.inr ⟨rfl, rfl⟩))

/-- A fold whose steps succeed does, and keeps what each step has reached. -/
theorem foldlM_extends {α : Type}
    {step : Table Int (List Int) → α → Except Fault (Table Int (List Int))}
    {R : α → Table Int (List Int) → Prop} (hmono : ∀ a df df', Extends df df' → R a df → R a df')
    {xs : List α}
    (hstep : ∀ a ∈ xs, ∀ df, Ledger vs df →
      ∃ df', step df a = .ok df' ∧ Ledger vs df' ∧ Extends df df' ∧ R a df')
    (hdf : Ledger vs df) :
    ∃ df', xs.foldlM step df = .ok df' ∧ Ledger vs df' ∧ Extends df df' ∧ ∀ a ∈ xs, R a df' := by
  induction xs generalizing df with
  | nil => exact ⟨df, rfl, hdf, fun _ _ h => h, by simp⟩
  | cons a rest ih =>
    obtain ⟨df₁, h₁, hdf₁, hext₁, ha⟩ := hstep a List.mem_cons_self df hdf
    obtain ⟨df₂, h₂, hdf₂, hext₂, hall⟩ := ih (fun a ha => hstep a (List.mem_cons_of_mem _ ha)) hdf₁
    refine ⟨df₂, ?_, hdf₂, fun y x h => hext₂ y x (hext₁ y x h),
      List.forall_mem_cons.mpr ⟨hmono a _ _ hext₂ ha, hall⟩⟩
    rw [List.foldlM_cons, h₁]
    exact h₂

theorem Hangs.listed {next : Int → List Int} {root : Int} (h : Hangs next root vs t)
    (hroot : root ∈ vs) :
    ∀ u ∈ vs, ∃ d ∈ vs, t.parent.get? u = some d := by
  intro u hu
  by_cases htop : u = root
  · exact ⟨root, hroot, htop ▸ h.top⟩
  by_cases hreach : Reaches next root u
  · obtain ⟨d, hd, hpar, -⟩ := h.reached u hu htop hreach
    exact ⟨d, hd, hpar⟩
  · exact ⟨root, hroot, h.unreached u hu hreach⟩

/-- A predecessor is the parent of what it leads to if it dominates it. -/
theorem Hangs.parent_eq_iff {root p : Int} (h : Hangs g.successors root g.ids t) (hx : x ∈ g.ids)
    (hroot : x ≠ root) (hp : x ∈ g.successors p) (hpx : p ≠ x) (hproot : p ≠ root) :
    p = t.parent.getD x x ↔ Reaches g.successors root x ∧ Dominates g.successors root p x := by
  by_cases hreach : Reaches g.successors root x
  · obtain ⟨d, -, hpar, hi⟩ := h.reached x hx hroot hreach
    have hs := numberFrom_spans g.successorTable root
    rw [nextIn_successorTable] at hs
    have hparD : t.parent.getD x x = d := by simp [Table.getD, hpar]
    rw [hparD, and_iff_right hreach]
    constructor
    · rintro rfl
      exact hi.2.1
    · intro hdom
      obtain ⟨xs, hw⟩ := hreach
      obtain ⟨ys, -, hys, -⟩ := hw.split (hdom xs hw)
      exact (hs.dominates_antisymm (hs.reaches_iff.mp ⟨ys, hys⟩) (hi.2.1.pred hi.1 hp)
        (hi.2.2 p hpx hdom)).symm
  · have hparD : t.parent.getD x x = root := by simp [Table.getD, h.unreached x hx hreach]
    rw [hparD]
    exact iff_of_false hproot fun h => hreach h.1

/-- Of several predecessors, all but the parent hold what they lead to. -/
def Holds (g : Graph) (t : DominatorTree) (x : Int) (df : Table Int (List Int)) : Prop :=
  1 < (g.predecessors x).length → ∀ p ∈ g.predecessors x, p ≠ x → p ≠ t.parent.getD x x →
    Entered df p x

theorem Listed.enterAt_holds (h : Listed g) (hangs : Hangs g.successors g.exitId g.ids t) (v : Int)
    (hdf : Ledger g.ids df) :
    ∃ df', enterAt g t df v = .ok df' ∧ Ledger g.ids df' ∧ Extends df df' ∧ Holds g t v df' := by
  have hclimb : ∀ p ∈ g.predecessors v, ∀ df, Ledger g.ids df →
      ∃ df', climb t v (g.ids.length + 1) p df = .ok df' ∧
      Ledger g.ids df' ∧ Extends df df' ∧ (p ≠ v → p ≠ t.parent.getD v v → Entered df' p v) := by
    intro p hp df hdf
    obtain ⟨df', hrun, hdf', hext, hentered⟩ := climb_total (v := v) (n := g.ids.length + 1)
      (hangs.listed h.exit_mem) (h.joined _ (mem_predecessors.mp hp)).1 hdf
    exact ⟨df', hrun, hdf', hext, hentered (Nat.succ_pos _)⟩
  unfold enterAt
  rw [getD_predecessorTable]
  split
  · obtain ⟨df', hrun, hdf', hext, hall⟩ := foldlM_extends
      (R := fun p df => p ≠ v → p ≠ t.parent.getD v v → Entered df p v)
      (fun p _ _ hext hR hne hpar => hext p v (hR hne hpar)) hclimb hdf
    exact ⟨df', hrun, hdf', hext, fun _ => hall⟩
  · rename_i hfew
    exact ⟨df, rfl, hdf, fun _ _ h => h, fun hlen => absurd hlen hfew⟩

/-- The frontier of a graph with listed vertices: a predecessor holds what it leads to if it is not
the only one and not the parent. -/
theorem Listed.frontier (h : Listed g) : ∃ t df, Hangs g.successors g.exitId g.ids t ∧
    dominanceFrontier g = .ok df ∧ Ledger g.ids df ∧ ∀ x ∈ g.ids, ∀ p ∈ g.predecessors x,
      (Entered df p x ↔ p ≠ x ∧ 1 < (g.predecessors x).length ∧ p ≠ t.parent.getD x x) := by
  obtain ⟨t, ht, hangs⟩ := h.dominatorTree
  have hblank : Ledger g.ids (g.ids.foldl (fun df v => df.insert v []) {}) :=
    ⟨distinct_blank _ Table.distinct_empty, fun y hy => ⟨[], by simp [get?_blank, hy]⟩⟩
  obtain ⟨df, hrun, hdf, -, hall⟩ :=
    foldlM_extends (R := Holds g t) (fun _ _ _ hext hR hlen p hp hne hpar =>
    hext p _ (hR hlen p hp hne hpar)) (fun v _ df hdf => h.enterAt_holds hangs v hdf) hblank
  have hfrontier : dominanceFrontier g = .ok df := bind_eq_ok.mpr ⟨t, ht, hrun⟩
  refine ⟨t, df, hangs, hfrontier, hdf, fun x hx p hp => ⟨fun hentered => ?_, ?_⟩⟩
  · obtain ⟨t', ht', hsparing⟩ := dominanceFrontier_sparing hfrontier
    obtain rfl : t = t' := Except.ok.inj (ht.symm.trans ht')
    exact hsparing.entered p x hentered
  · rintro ⟨hne, hlen, hpar⟩
    exact hall x hx hlen p hp hne hpar

/-- The dependences have an edge to `y` from `x`. -/
def Depends (cdg : Graph) (y x : Int) : Prop :=
  ∃ e ∈ cdg.edges, e.kind = .controlDependence ∧ e.ends? = some (x, y)

/-- Control may come to an end from here. -/
def CanEnd (cfg : Graph) (x : Int) : Prop :=
  ∃ t ∈ cfg.ids, cfg.successors t = [] ∧ Reaches cfg.successors x t

/-- A successor depends on the vertex before it if that one has another way to go, and if not all of
its ways to an end lead over the successor. -/
theorem Enclosed.dependence_of_successor (h : Enclosed cfg) (b : Bench) :
    ∃ cdg b', (Bench.buildControlDependenceOf (some cfg)).run b = (some cdg, b') ∧
      ∀ x ∈ cfg.ids, ∀ y ∈ cfg.successors x, y ≠ x →
        (Depends cdg y x ↔ 1 < (cfg.successors x).length ∧
          ¬ (CanEnd cfg x ∧ PostDominates cfg y x)) := by
  obtain ⟨t, df, hangs, hdf, hledger, hentered⟩ := h.listed.frontier
  have hne : df.isEmpty = false := by
    obtain ⟨xs, hxs⟩ := hledger.listed _ h.listed.exit_mem
    have hentry := (Table.mem_entries_iff hledger.distinct).mpr hxs
    cases hnil : df.entries <;> simp_all [Table.isEmpty]
  refine ⟨_, _, buildControlDependenceOf_run b hdf hne, fun x hx y hy hyx => ?_⟩
  have hyids : y ∈ cfg.ids := (h.joined _ (mem_successors.mp hy)).2
  have hx' : x ∈ (reversedWithExit cfg).ids := mem_ids_reversed.mpr (.inl hx)
  have hy' : y ∈ (reversedWithExit cfg).ids := mem_ids_reversed.mpr (.inl hyids)
  have hpreds : (reversedWithExit cfg).predecessors x = cfg.successors x :=
    predecessors_reversed.resolve_right fun hnil => List.ne_nil_of_mem hy hnil.1
  have hxy : x ∈ (reversedWithExit cfg).successors y := h.mem_successors_reversed.mpr (.inl hy)
  have hroot : (reversedWithExit cfg).exitId = exitVertex.id := rfl
  have hinner : ∀ z ∈ cfg.ids, z ≠ (reversedWithExit cfg).exitId := by
    rintro z hz rfl
    exact h.exit_notMem hz
  have hparent := hangs.parent_eq_iff hx' (hinner x hx) hxy hyx (hinner y hyids)
  rw [hroot, h.reaches_reversed hx, h.dominates_reversed hx hyids] at hparent
  have hiff := hentered x hx' y (by rwa [hpreds])
  rw [hpreds, and_iff_right hyx, ne_eq, hparent] at hiff
  rw [← CanEnd] at hiff
  rw [← hiff, Depends, edges_controlDependence]
  constructor
  · rintro ⟨e, he, -, hends⟩
    obtain ⟨-, x₁, y₁, hends₁, -, hent, -⟩ := entered_of_mem_frontierEdges hledger.distinct he
    rw [hends] at hends₁
    cases hends₁
    exact hent
  · intro hent
    obtain ⟨e, he, hends⟩ := exists_frontierEdge hledger.distinct hent hyx.symm hx' hy'
    exact ⟨e, he, (entered_of_mem_frontierEdges hledger.distinct he).1, hends⟩

end CrossCall.Flow

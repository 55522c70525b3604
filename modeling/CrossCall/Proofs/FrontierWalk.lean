import CrossCall.Proofs.Ancestry
import CrossCall.Proofs.Frontier

/-! The climbs of the dominance frontier come to their end. Climbing is bounded by the number of
vertices; here it is shown that the bound is never met, for any names of the vertices and any
vertices out of reach. Beside the bounded climb stands the climb without a bound, as a relation that
holds of climbs with an end. The numbering that comes before has no bound on its depth. -/
namespace CrossCall.Flow

variable {root d r v : Int} {rank : Int → Nat} {n : Nat} {vs : List Int} {g : Graph}
  {t : DominatorTree} {df df₁ df' : Table Int (List Int)}

/-! ### The tree -/

/-- The parent of a vertex; a vertex without one stays where it is. -/
def DominatorTree.up (t : DominatorTree) (v : Int) : Int := t.parent.getD v v

theorem DominatorTree.up_eq (h : t.parent.get? v = some d) : t.up v = d := by
  simp [up, Table.getD, h]

/-- Parents are listed, and all but the root have a parent of lower rank. -/
structure Rises (rank : Int → Nat) (root : Int) (vs : List Int) (t : DominatorTree) : Prop where
  top : t.parent.get? root = some root
  parent : ∀ v ∈ vs, ∃ d ∈ vs, t.parent.get? v = some d
  lower : ∀ v ∈ vs, v ≠ root → rank (t.up v) < rank v

theorem Rises.iterate (h : Rises rank root vs t) (hv : v ∈ vs) :
    ∃ k ≤ rank v, t.up^[k] v = root := by
  induction hn : rank v using Nat.strong_induction_on generalizing v with
  | _ n ih =>
    by_cases hr : v = root
    · exact ⟨0, Nat.zero_le _, hr⟩
    · obtain ⟨d, hd, hpar⟩ := h.parent v hv
      have hlt := h.lower v hv hr
      rw [t.up_eq hpar] at hlt
      obtain ⟨k, hk, hroot⟩ := ih (rank d) (hn ▸ hlt) hd rfl
      refine ⟨k + 1, by omega, ?_⟩
      rw [Function.iterate_succ_apply, t.up_eq hpar]
      exact hroot

/-- The number of a vertex from the exit, where all that are out of reach come last. -/
def exitRank (g : Graph) : Int → Nat := (numberFrom g.successorTable g.exitId).num

/-- The vertices that have a number are listed, so their count bounds the rank. -/
theorem exitRank_le (hexit : g.exitId ∈ g.ids)
    (hclosed : ∀ v ∈ g.ids, ∀ w ∈ g.successors v, w ∈ g.ids) (v : Int) :
    exitRank g v ≤ g.ids.length := by
  have hs := numberFrom_spans g.successorTable g.exitId
  rw [nextIn_successorTable] at hs
  have hsub : (numberFrom g.successorTable g.exitId).order ⊆ g.ids := fun x hx =>
    (hs.reaches_iff.mpr hx).invariant hexit hclosed
  exact Nat.le_trans List.idxOf_le_length (hs.nodup.subperm hsub).length_le

theorem dominatorTree_rises (hexit : g.exitId ∈ g.ids)
    (hclosed : ∀ v ∈ g.ids, ∀ w ∈ g.successors v, w ∈ g.ids) :
    ∃ t, dominatorTree g = .ok t ∧ Rises (exitRank g) g.exitId g.ids t := by
  rw [← nextIn_successorTable] at hclosed
  have hs := numberFrom_spans g.successorTable g.exitId
  obtain ⟨idom, hrun, htop, habove, hrest⟩ := immediateDominators_above hexit hclosed
  have hentry : ∀ v ∈ g.ids, ∃ d ∈ g.ids, idom.get? v = some d ∧
      (v ≠ g.exitId → exitRank g d < exitRank g v) := by
    intro v hv
    by_cases hr : v = g.exitId
    · exact ⟨g.exitId, hexit, hr ▸ htop, fun hne => (hne hr).elim⟩
    by_cases hvm : v ∈ (numberFrom g.successorTable g.exitId).order
    · obtain ⟨d, hd, hdv, hne⟩ := habove v hvm hr
      have hdm := hs.above_mem hdv hvm
      exact ⟨d, (hs.reaches_iff.mpr hdm).invariant hexit hclosed, hd,
        fun _ => hs.above_lt hdv hvm hne⟩
    · refine ⟨g.exitId, hexit, hrest v hv hvm, fun _ => ?_⟩
      have hlast : exitRank g v = (numberFrom g.successorTable g.exitId).order.length :=
        List.idxOf_eq_length hvm
      rw [hlast]
      exact Numbering.num_lt_length hs.root_mem
  obtain ⟨t, ht, hparent⟩ := hang_all (fun v hv => (hentry v hv).imp fun _ h => ⟨h.1, h.2.1⟩)
    (t := { root := g.exitId, parent := {}, children := g.ids.foldl (fun t v => t.insert v []) {} })
    (fun d hd => ⟨[], by simp [get?_blank, hd]⟩)
  refine ⟨t, ?_, (hparent _ hexit).trans htop, ?_, ?_⟩
  · simp only [dominatorTree, hrun, bind, Except.bind]
    exact ht
  · intro v hv
    obtain ⟨d, hd, hget, -⟩ := hentry v hv
    exact ⟨d, hd, (hparent v hv).trans hget⟩
  · intro v hv hr
    obtain ⟨d, -, hget, hlt⟩ := hentry v hv
    rw [t.up_eq ((hparent v hv).trans hget)]
    exact hlt hr

/-! ### The climb without a bound -/

/-- What is noted on the way past `r`: that domination by `r` ends at `v`, unless `r` is `v`
itself. -/
def Notes (v r : Int) (df df' : Table Int (List Int)) : Prop :=
  r = v ∧ df' = df ∨ r ≠ v ∧ ∃ xs, df.get? r = some xs ∧ df' = df.insert r (xs ++ [v])

/-- A climb from `r` that comes to its end, at the parent of `v` or at the top. -/
inductive Ascent (t : DominatorTree) (v : Int) :
    Int → Table Int (List Int) → Table Int (List Int) → Prop
  | stop {r : Int} {df : Table Int (List Int)} : r = t.up v → Ascent t v r df df
  | top {r : Int} {df df' : Table Int (List Int)} : r ≠ t.up v → Notes v r df df' → r = t.up r →
      Ascent t v r df df'
  | step {r d : Int} {df df₁ df' : Table Int (List Int)} : r ≠ t.up v → Notes v r df df₁ →
      r ≠ t.up r → t.parent.get? r = some d → Ascent t v d df₁ df' → Ascent t v r df df'

theorem Ledger.exists_notes (h : Ledger vs df) (hr : r ∈ vs) (v : Int) :
    ∃ df', Notes v r df df' ∧ Ledger vs df' := by
  by_cases hrv : r = v
  · exact ⟨df, .inl ⟨hrv, rfl⟩, h⟩
  · obtain ⟨xs, hxs⟩ := h.listed r hr
    exact ⟨_, .inr ⟨hrv, xs, hxs, rfl⟩, (h.enter hxs).1⟩

/-- One step of the bounded climb. -/
theorem climb_notes (hne : r ≠ t.up v) (hnotes : Notes v r df df₁) : climb t v (n + 1) r df =
    if r = t.up r then .ok df₁ else look t.parent r >>= fun d => climb t v n d df₁ := by
  unfold DominatorTree.up at *
  rcases hnotes with ⟨rfl, rfl⟩ | ⟨hrv, xs, hxs, rfl⟩
  · simp [climb, hne, pure, Except.pure, bind, Except.bind]
  · simp [climb, hne, hrv, look_ok hxs, pure, Except.pure, bind, Except.bind]

/-- A climb ends within as many steps as the rank it starts from. -/
theorem Rises.ascent (h : Rises rank root vs t) (v : Int) (hr : r ∈ vs) (hn : rank r < n)
    (hdf : Ledger vs df) :
    ∃ df', Ascent t v r df df' ∧ climb t v n r df = .ok df' ∧ Ledger vs df' := by
  induction n generalizing r df with
  | zero => omega
  | succ n ih =>
    by_cases hstop : r = t.up v
    · refine ⟨df, .stop hstop, ?_, hdf⟩
      unfold DominatorTree.up at hstop
      simp [climb, ← hstop, pure, Except.pure]
    obtain ⟨df₁, hnotes, hdf₁⟩ := hdf.exists_notes hr v
    rw [climb_notes hstop hnotes]
    by_cases htop : r = t.up r
    · exact ⟨df₁, .top hstop hnotes htop, if_pos htop, hdf₁⟩
    · have hroot : r ≠ root := by
        rintro rfl
        exact htop (t.up_eq h.top).symm
      obtain ⟨d, hd, hpar⟩ := h.parent r hr
      have hlt := h.lower r hr hroot
      rw [t.up_eq hpar] at hlt
      obtain ⟨df', hascent, hrun, hdf'⟩ := ih hd (by omega) hdf₁
      refine ⟨df', .step hstop hnotes htop hpar hascent, ?_, hdf'⟩
      rw [if_neg htop, look_ok hpar]
      exact hrun

/-! ### The frontier -/

/-- A loop over a list that comes to its end, step by step. -/
inductive Loop {α β : Type} (step : α → β → β → Prop) : List α → β → β → Prop
  | done {b : β} : Loop step [] b b
  | next {a : α} {rest : List α} {b b₁ b' : β} : step a b b₁ → Loop step rest b₁ b' →
      Loop step (a :: rest) b b'

theorem loop_ok {α β ε : Type} {step : α → β → β → Prop} {f : β → α → Except ε β} {P : β → Prop}
    {xs : List α} {b : β} (hstep : ∀ a ∈ xs, ∀ b, P b → ∃ b', step a b b' ∧ f b a = .ok b' ∧ P b')
    (hb : P b) :
    ∃ b', Loop step xs b b' ∧ xs.foldlM f b = .ok b' ∧ P b' := by
  induction xs generalizing b with
  | nil => exact ⟨b, .done, rfl, hb⟩
  | cons a rest ih =>
    obtain ⟨b₁, hstep₁, hrun₁, hb₁⟩ := hstep a List.mem_cons_self b hb
    obtain ⟨b', hloop, hrun, hb'⟩ := ih (fun a ha => hstep a (List.mem_cons_of_mem _ ha)) hb₁
    refine ⟨b', .next hstep₁ hloop, ?_, hb'⟩
    rw [List.foldlM_cons, hrun₁]
    exact hrun

/-- What a vertex gives rise to: if it has several predecessors, a climb from each of them. -/
def Ascends (g : Graph) (t : DominatorTree) (v : Int) (df df' : Table Int (List Int)) : Prop :=
  if (g.predecessors v).length > 1 then Loop (Ascent t v) (g.predecessors v) df df' else df' = df

theorem enterAt_ascends (hexit : g.exitId ∈ g.ids)
    (hjoined : ∀ a ∈ g.arcs, a.1 ∈ g.ids ∧ a.2 ∈ g.ids) (ht : Rises (exitRank g) g.exitId g.ids t)
    (v : Int) (hdf : Ledger g.ids df) :
    ∃ df', Ascends g t v df df' ∧ enterAt g t df v = .ok df' ∧ Ledger g.ids df' := by
  have hrank := exitRank_le hexit fun _ _ _ hw => (hjoined _ (mem_successors.mp hw)).2
  unfold Ascends enterAt
  rw [getD_predecessorTable]
  split
  · refine loop_ok (fun p hp df hdf => ?_) hdf
    exact ht.ascent v (hjoined _ (mem_predecessors.mp hp)).1 (Nat.lt_succ_of_le (hrank p)) hdf
  · exact ⟨df, rfl, rfl, hdf⟩

/-- In the tree of any graph with listed ends and a listed exit, climbing from a listed vertex leads
to the exit. So the frontier is found by climbs that end, and has a place for every vertex. -/
theorem dominanceFrontier_ends (hexit : g.exitId ∈ g.ids)
    (hjoined : ∀ a ∈ g.arcs, a.1 ∈ g.ids ∧ a.2 ∈ g.ids) :
    ∃ t, dominatorTree g = .ok t ∧ t.parent.get? g.exitId = some g.exitId ∧
      (∀ v ∈ g.ids, ∃ d ∈ g.ids, t.parent.get? v = some d) ∧
      (∀ v ∈ g.ids, ∃ k ≤ g.ids.length, t.up^[k] v = g.exitId) ∧
      ∃ df, Loop (Ascends g t) g.ids (g.ids.foldl (fun df v => df.insert v []) {}) df ∧
        dominanceFrontier g = .ok df ∧ ∀ v ∈ g.ids, ∃ xs, df.get? v = some xs := by
  have hclosed : ∀ v ∈ g.ids, ∀ w ∈ g.successors v, w ∈ g.ids := fun _ _ _ hw =>
    (hjoined _ (mem_successors.mp hw)).2
  obtain ⟨t, hrun, ht⟩ := dominatorTree_rises hexit hclosed
  have hblank : Ledger g.ids (g.ids.foldl (fun df v => df.insert v []) {}) :=
    ⟨distinct_blank _ Table.distinct_empty, fun y hy => ⟨[], by simp [get?_blank, hy]⟩⟩
  obtain ⟨df, hloop, hdf, hledger⟩ :=
    loop_ok (fun v _ _ hdf => enterAt_ascends hexit hjoined ht v hdf) hblank
  refine ⟨t, hrun, ht.top, ht.parent, fun v hv => ?_, df, hloop, ?_, hledger.listed⟩
  · obtain ⟨k, hk, hroot⟩ := ht.iterate hv
    exact ⟨k, Nat.le_trans hk (exitRank_le hexit hclosed v), hroot⟩
  · simp only [dominanceFrontier, hrun, bind, Except.bind]
    exact hdf

/-- A graph with a vertex `0` that is entered as a dominator and is none, a cycle, and a vertex out
of reach. -/
def throughZero : Graph :=
  { Graph.ofVertices [{ id := 1 }, { id := 0 }, { id := 3 }, { id := 4 }, { id := 5 }] with
    edges := [(1, 0), (1, 3), (0, 3), (0, 4), (3, 4), (4, 0), (5, 4)].map fun a =>
      { source := some { id := a.1 }, target := some { id := a.2 } }
    exit := some 1 }

theorem dominanceFrontier_throughZero :
    (throughZero.exitId ∈ throughZero.ids ∧
      ∀ a ∈ throughZero.arcs, a.1 ∈ throughZero.ids ∧ a.2 ∈ throughZero.ids) ∧
    ∃ t, dominatorTree throughZero = .ok t ∧
    t.parent.get? throughZero.exitId = some throughZero.exitId ∧
      (∀ v ∈ throughZero.ids, ∃ d ∈ throughZero.ids, t.parent.get? v = some d) ∧
      (∀ v ∈ throughZero.ids, ∃ k ≤ throughZero.ids.length, t.up^[k] v = throughZero.exitId) ∧
      ∃ df, Loop (Ascends throughZero t) throughZero.ids
          (throughZero.ids.foldl (fun df v => df.insert v []) {}) df ∧
        dominanceFrontier throughZero = .ok df ∧ ∀ v ∈ throughZero.ids, ∃ xs, df.get? v = some xs :=
  have hexit : throughZero.exitId ∈ throughZero.ids := by decide
  have hjoined : ∀ a ∈ throughZero.arcs, a.1 ∈ throughZero.ids ∧ a.2 ∈ throughZero.ids := by decide
  ⟨⟨hexit, hjoined⟩, dominanceFrontier_ends hexit hjoined⟩

example : (dominatorTree throughZero).toOption.map (·.parent.entries) =
    some [(1, 1), (0, 1), (3, 1), (4, 0), (5, 1)] := by rfl

end CrossCall.Flow

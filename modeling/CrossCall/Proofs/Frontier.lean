import CrossCall.Proofs.Dominator
import CrossCall.Proofs.Graph

/-! Dominance frontiers. Climbing the dominator tree from a predecessor of a vertex up to the
immediate dominator of that vertex meets exactly those who dominate the predecessor but not the
vertex itself. -/
namespace CrossCall.Flow

variable {next : Int → List Int} {root d p r v w x y : Int} {s : Numbering} {n : Nat}
  {vs : List Int} {g : Graph} {t : DominatorTree} {df : Table Int (List Int)}

/-! ### Immediate dominators climb -/

/-- What dominates a vertex strictly dominates its predecessors. -/
theorem Dominates.pred (h : Dominates next root d v) (hne : d ≠ v) (hv : v ∈ next p) :
    Dominates next root d p := by
  by_cases hdp : d = p
  · rw [hdp]
    exact .refl
  · exact h.of_walk (.step hv .here) (by simp [hdp, hne])

namespace Spans

theorem dominates_antisymm (h : Spans next root s) (hv : v ∈ s.order) (hd : Dominates next root d v)
    (hd' : Dominates next root v d) : d = v := by
  have hdv := h.dominates_above hd hv
  have hdm := h.above_mem hdv hv
  have hvd := h.dominates_above hd' hdm
  have := h.above_le hdv hv
  have := h.above_le hvd hdm
  exact Numbering.num_inj hdm (by omega)

/-- Going up to the immediate dominator of `r` leaves out `r` and nothing else. -/
theorem dominates_step (h : Spans next root s) (hr : r ∈ s.order)
    (hi : ImmediatelyDominates next root w r) (hd : Dominates next root d r) (hne : d ≠ r) :
    Dominates next root y r ∧ ¬ Dominates next root y d ↔
      y = r ∨ Dominates next root y w ∧ ¬ Dominates next root y d := by
  constructor
  · rintro ⟨hy, hyd⟩
    by_cases hyr : y = r
    · exact .inl hyr
    · exact .inr ⟨hi.2.2 y hyr hy, hyd⟩
  · rintro (rfl | ⟨hy, hyd⟩)
    · exact ⟨.refl, fun hyd => hne (h.dominates_antisymm hr hd hyd)⟩
    · exact ⟨hy.trans hi.2.1, hyd⟩

end Spans

/-- Parents are immediate dominators, and the root is its own parent. -/
structure Climbs (next : Int → List Int) (root : Int) (vs : List Int) (t : DominatorTree) :
    Prop where
  top : t.parent.get? root = some root
  parent : ∀ v ∈ vs, v ≠ root →
    ∃ d ∈ vs, t.parent.get? v = some d ∧ ImmediatelyDominates next root d v

/-- `x` is entered under `y`. -/
def Entered (df : Table Int (List Int)) (y x : Int) : Prop := ∃ xs, df.get? y = some xs ∧ x ∈ xs

/-- A table in which all of `vs` have a place, and one only. -/
structure Ledger (vs : List Int) (df : Table Int (List Int)) : Prop where
  distinct : df.Distinct
  listed : ∀ y ∈ vs, ∃ xs, df.get? y = some xs

theorem Ledger.enter {xs : List Int} (h : Ledger vs df) (hr : df.get? r = some xs) :
    Ledger vs (df.insert r (xs ++ [v])) ∧
      ∀ y x, Entered (df.insert r (xs ++ [v])) y x ↔ Entered df y x ∨ x = v ∧ y = r := by
  refine ⟨⟨h.distinct.insert _ _, ?_⟩, ?_⟩
  · intro y hy
    rw [Table.get?_insert]
    split
    · exact ⟨_, rfl⟩
    · exact h.listed y hy
  · intro y x
    unfold Entered
    rw [Table.get?_insert]
    by_cases hy : y = r
    · subst hy
      simp [hr]
    · simp [hy]

theorem climb_ok (hs : Spans next root s) (hvs : ∀ v, v ∈ vs ↔ v ∈ s.order)
    (ht : Climbs next root vs t) (hd : t.parent.getD v v = d) (hr : r ∈ vs)
    (hdr : Dominates next root d r) (hn : s.num r < n) (hdf : Ledger vs df) :
    ∃ df', climb t v n r df = .ok df' ∧ Ledger vs df' ∧ ∀ y x, Entered df' y x ↔
      Entered df y x ∨ x = v ∧ y ≠ v ∧ Dominates next root y r ∧ ¬ Dominates next root y d := by
  induction n generalizing r df with
  | zero => omega
  | succ n ih =>
    by_cases hrd : r = d
    · refine ⟨df, ?_, hdf, fun y x => ?_⟩
      · simp [climb, hd, hrd, pure, Except.pure]
      · simp [hrd]
    · have hrm := (hvs r).mp hr
      have hroot : r ≠ root := by
        rintro rfl
        exact hrd (hs.dominates_antisymm hs.root_mem hdr .of_root).symm
      obtain ⟨w, hw, hpar, hi⟩ := ht.parent r hr hroot
      have hlt := hs.above_lt (hs.dominates_above hi.2.1 hrm) hrm hi.1
      obtain ⟨xs, hxs⟩ := hdf.listed r hr
      have hrec := fun (df₁ : Table Int (List Int)) (hdf₁ : Ledger vs df₁) =>
        ih hw (hi.2.2 d (Ne.symm hrd) hdr) (by omega) hdf₁
      have hstep := fun y => hs.dominates_step (y := y) hrm hi hdr (Ne.symm hrd)
      have hparD : t.parent.getD r r = w := by simp [Table.getD, hpar]
      by_cases hrv : r = v
      · obtain ⟨df', hrun, hdf', hmem⟩ := hrec df hdf
        refine ⟨df', ?_, hdf', fun y x => ?_⟩
        · simp only [climb, hd, hparD, look_ok hpar, if_neg hrd, if_pos hrv, if_neg (Ne.symm hi.1),
            bind, Except.bind, pure, Except.pure]
          exact hrun
        · rw [hmem, hstep]
          subst hrv
          exact or_congr_right (and_congr_right fun _ => and_congr_right fun hne =>
            (or_iff_right hne).symm)
      · obtain ⟨hdf₁, hmem₁⟩ := hdf.enter (v := v) hxs
        obtain ⟨df', hrun, hdf', hmem⟩ := hrec _ hdf₁
        refine ⟨df', ?_, hdf', fun y x => ?_⟩
        · simp only [climb, hd, hparD, look_ok hpar, look_ok hxs, if_neg hrd, if_neg hrv,
            if_neg (Ne.symm hi.1), bind, Except.bind, pure, Except.pure]
          exact hrun
        · have hne : y = r → y ≠ v := fun he => he ▸ hrv
          rw [hmem, hmem₁, hstep, or_assoc, ← and_or_left, and_or_left (a := y ≠ v),
            and_iff_right_of_imp hne]

/-! ### The tree -/

theorem get?_blank (k : Int) (t : Table Int (List Int)) :
    (vs.foldl (fun t v => t.insert v []) t).get? k = if k ∈ vs then some [] else t.get? k := by
  induction vs generalizing t with
  | nil => simp
  | cons v rest ih =>
    rw [List.foldl_cons, ih]
    by_cases hk : k = v <;> by_cases hr : k ∈ rest <;> simp [hk, hr]

theorem distinct_blank (t : Table Int (List Int)) (h : t.Distinct) :
    (vs.foldl (fun t v => t.insert v []) t).Distinct := by
  induction vs generalizing t with
  | nil => exact h
  | cons v rest ih => exact ih _ (h.insert _ _)

theorem hang_all {idom : Table Int Int} (h : ∀ v ∈ vs, ∃ d ∈ vs, idom.get? v = some d)
    (ht : ∀ d ∈ vs, ∃ c, t.children.get? d = some c) :
    ∃ t', vs.foldlM (hang idom) t = .ok t' ∧ ∀ v ∈ vs, t'.parent.get? v = idom.get? v := by
  let I : List Int → DominatorTree → Prop := fun rest t => (∀ v ∈ rest, v ∈ vs) ∧
    (∀ d ∈ vs, ∃ c, t.children.get? d = some c) ∧
      ∀ v ∈ vs, v ∈ rest ∨ t.parent.get? v = idom.get? v
  have hstep : ∀ v rest t, I (v :: rest) t → ∃ t', hang idom t v = .ok t' ∧ I rest t' := by
    intro v rest t ⟨hmem, hchildren, hparent⟩
    obtain ⟨d, hd, hv⟩ := h v (hmem v List.mem_cons_self)
    obtain ⟨c, hc⟩ := hchildren d hd
    have hrest : ∀ x ∈ rest, x ∈ vs := fun x hx => hmem x (List.mem_cons_of_mem _ hx)
    have hgot : ∀ x ∈ vs, x ∈ rest ∨ (t.parent.insert v d).get? x = idom.get? x := by
      intro x hx
      rw [Table.get?_insert]
      split
      · rename_i hxv
        exact .inr (hxv ▸ hv.symm)
      · rename_i hxv
        exact (hparent x hx).imp_left fun hm => (List.mem_cons.mp hm).resolve_left hxv
    by_cases hdv : d = v
    · refine ⟨{ t with parent := t.parent.insert v v }, ?_, hrest, hchildren, hdv ▸ hgot⟩
      simp [hang, hv, hdv, pure, Except.pure]
    · refine ⟨{ t with children := t.children.insert d (c ++ [v]), parent := t.parent.insert v d },
        ?_, hrest, ?_, hgot⟩
      · simp [hang, hv, hdv, look_ok hc, bind, Except.bind, pure, Except.pure]
      · intro x hx
        rw [Table.get?_insert]
        split
        · exact ⟨_, rfl⟩
        · exact hchildren x hx
  obtain ⟨t', hrun, _, _, hall⟩ := foldlM_ok I hstep vs t ⟨fun _ h => h, ht, fun _ h => .inl h⟩
  exact ⟨t', hrun, fun v hv => (hall v hv).resolve_left (by simp)⟩

/-- The parents of what is reached are immediate dominators; the root is its own parent and that of
all else. -/
structure Hangs (next : Int → List Int) (root : Int) (vs : List Int) (t : DominatorTree) :
    Prop where
  top : t.parent.get? root = some root
  reached : ∀ v ∈ vs, v ≠ root → Reaches next root v →
    ∃ d ∈ vs, t.parent.get? v = some d ∧ ImmediatelyDominates next root d v
  unreached : ∀ v ∈ vs, ¬ Reaches next root v → t.parent.get? v = some root

/-- A graph whose arcs join listed vertices, the exit among them. -/
structure Listed (g : Graph) : Prop where
  exit_mem : g.exitId ∈ g.ids
  zero : 0 ∉ g.ids
  joined : ∀ a ∈ g.arcs, a.1 ∈ g.ids ∧ a.2 ∈ g.ids

namespace Listed

theorem closed (h : Listed g) : ∀ v ∈ g.ids, ∀ w ∈ g.successors v, w ∈ g.ids :=
  fun _ _ _ hw => (h.joined _ (mem_successors.mp hw)).2

theorem dominatorTree (h : Listed g) :
    ∃ t, dominatorTree g = .ok t ∧ Hangs g.successors g.exitId g.ids t := by
  have hs := numberFrom_spans g.successorTable g.exitId
  have hnumbered : ∀ v, v ∈ (numberFrom g.successorTable g.exitId).order ↔
      Reaches g.successors g.exitId v := by
    intro v
    rw [← hs.reaches_iff, nextIn_successorTable]
  obtain ⟨f, hrun, hall⟩ :=
    immediateDominators_numbered h.exit_mem (nextIn_successorTable g ▸ h.closed) h.zero
  set idom :=
    g.ids.foldl (fun t v => if ((numberFrom g.successorTable g.exitId).number? v).isSome then t
    else t.insert v g.exitId) (f.idom.insert g.exitId g.exitId) with hidom
  have htop : idom.get? g.exitId = some g.exitId := by
    rw [hidom, get?_closing, if_neg fun hn => hn.2 hs.root_mem]
    simp
  have hreached : ∀ v ∈ g.ids, v ≠ g.exitId → Reaches g.successors g.exitId v →
      ∃ d ∈ g.ids, idom.get? v = some d ∧ ImmediatelyDominates g.successors g.exitId d v := by
    intro v hv hr hreach
    have hvm := (hnumbered v).mpr hreach
    obtain ⟨d, hd, hi⟩ := hall v hvm hr
    have hdm := hs.above_mem (hs.dominates_above hi.2.1 hvm) hvm
    rw [nextIn_successorTable] at hi
    refine ⟨d, ((hnumbered d).mp hdm).invariant h.exit_mem h.closed, ?_, hi⟩
    rw [hidom, get?_closing, if_neg fun hn => hn.2 hvm]
    simpa [hr] using hd
  have hunreached : ∀ v ∈ g.ids, ¬ Reaches g.successors g.exitId v →
      idom.get? v = some g.exitId := by
    intro v hv hreach
    rw [hidom, get?_closing, if_pos ⟨hv, fun hvm => hreach ((hnumbered v).mp hvm)⟩]
  have hlisted : ∀ v ∈ g.ids, ∃ d ∈ g.ids, idom.get? v = some d := by
    intro v hv
    by_cases hr : v = g.exitId
    · exact ⟨g.exitId, h.exit_mem, hr ▸ htop⟩
    by_cases hreach : Reaches g.successors g.exitId v
    · obtain ⟨d, hd, hv, -⟩ := hreached v hv hr hreach
      exact ⟨d, hd, hv⟩
    · exact ⟨g.exitId, h.exit_mem, hunreached v hv hreach⟩
  obtain ⟨t, ht, hparent⟩ := hang_all hlisted
    (t := { root := g.exitId, parent := {}, children := g.ids.foldl (fun t v => t.insert v []) {} })
    (fun d hd => ⟨[], by simp [get?_blank, hd]⟩)
  refine ⟨t, ?_, (hparent _ h.exit_mem).trans htop, ?_, ?_⟩
  · simp only [Flow.dominatorTree, hrun, bind, Except.bind]
    exact ht
  · intro v hv hr hreach
    obtain ⟨d, hd, hv', hi⟩ := hreached v hv hr hreach
    exact ⟨d, hd, (hparent v hv).trans hv', hi⟩
  · exact fun v hv hreach => (hparent v hv).trans (hunreached v hv hreach)

end Listed

/-- A graph whose arcs join listed vertices that are all reached from its exit, which is entered by
none. -/
structure Rooted (g : Graph) : Prop where
  exit_mem : g.exitId ∈ g.ids
  zero : 0 ∉ g.ids
  joined : ∀ a ∈ g.arcs, a.1 ∈ g.ids ∧ a.2 ∈ g.ids
  reached : ∀ v ∈ g.ids, Reaches g.successors g.exitId v
  entry : g.predecessors g.exitId = []

namespace Rooted

theorem listed (h : Rooted g) : Listed g := ⟨h.exit_mem, h.zero, h.joined⟩

theorem numbered (h : Rooted g) (v : Int) :
    v ∈ g.ids ↔ v ∈ (numberFrom g.successorTable g.exitId).order := by
  have hs := numberFrom_spans g.successorTable g.exitId
  rw [← hs.reaches_iff, nextIn_successorTable]
  exact ⟨h.reached v, fun hr => hr.invariant h.exit_mem h.listed.closed⟩

theorem dominatorTree (h : Rooted g) :
    ∃ t, dominatorTree g = .ok t ∧ Climbs g.successors g.exitId g.ids t := by
  obtain ⟨t, ht, hangs⟩ := h.listed.dominatorTree
  exact ⟨t, ht, hangs.top, fun v hv hr => hangs.reached v hv hr (h.reached v hv)⟩

end Rooted

/-! ### Frontiers -/

/-- The entries that one vertex gives rise to. -/
def enterAt (g : Graph) (t : DominatorTree) (df : Table Int (List Int)) (v : Int) :
    Except Fault (Table Int (List Int)) :=
  if (g.predecessorTable.getD v []).length > 1 then
    (g.predecessorTable.getD v []).foldlM (fun df p => climb t v (g.ids.length + 1) p df) df
  else pure df

/-- Domination by `y` ends at `x`: it holds of a predecessor and not of `x`. -/
def EndsAt (g : Graph) (y x : Int) : Prop :=
  y ≠ x ∧ (∃ p ∈ g.predecessors x, Dominates g.successors g.exitId y p) ∧
    ¬ Dominates g.successors g.exitId y x

/-- A single predecessor is dominated by nobody else than its successor is. -/
theorem EndsAt.several (h : EndsAt g y x) (hx : x ≠ g.exitId) : 1 < (g.predecessors x).length := by
  obtain ⟨_, ⟨p, hp, hy⟩, hn⟩ := h
  by_contra hlen
  obtain ⟨q, hq⟩ : ∃ q, g.predecessors x = [q] := by
    have := List.length_pos_of_mem hp
    exact List.length_eq_one_iff.mp (by omega)
  apply hn
  apply hy.trans
  intro xs hw
  obtain ⟨r, hr, hxr⟩ := hw.exists_pred (Ne.symm hx)
  have hrx := mem_predecessors.mpr (mem_successors.mp hxr)
  rw [hq, List.mem_singleton] at hp hrx
  rw [hp, ← hrx]
  exact hr

namespace Rooted

theorem climb_all (h : Rooted g) (ht : Climbs g.successors g.exitId g.ids t) (hv : v ∈ g.ids)
    (hr : v ≠ g.exitId) (ps : List Int) (hps : ∀ p ∈ ps, p ∈ g.ids ∧ v ∈ g.successors p)
    (hdf : Ledger g.ids df) :
    ∃ df', ps.foldlM (fun df p => climb t v (g.ids.length + 1) p df) df = .ok df' ∧
    Ledger g.ids df' ∧
      ∀ y x, Entered df' y x ↔ Entered df y x ∨ x = v ∧ y ≠ v ∧
        (∃ p ∈ ps, Dominates g.successors g.exitId y p) ∧
        ¬ Dominates g.successors g.exitId y v := by
  have hs := numberFrom_spans g.successorTable g.exitId
  obtain ⟨d, hd, hpar, hi⟩ := ht.parent v hv hr
  have hdv : ∀ y, y ≠ v →
      (Dominates g.successors g.exitId y d ↔ Dominates g.successors g.exitId y v) :=
    fun y hy => ⟨fun h => h.trans hi.2.1, hi.2.2 y hy⟩
  have hparD : t.parent.getD v v = d := by simp [Table.getD, hpar]
  have hsize : (numberFrom g.successorTable g.exitId).order.length ≤ g.ids.length :=
    (hs.nodup.subperm fun x hx => (h.numbered x).mpr hx).length_le
  induction ps generalizing df with
  | nil => exact ⟨df, rfl, hdf, by simp⟩
  | cons p rest ih =>
    obtain ⟨hp, hvp⟩ := hps p List.mem_cons_self
    have hlen := Numbering.num_lt_length ((h.numbered p).mp hp)
    obtain ⟨df₁, hrun₁, hdf₁, hmem₁⟩ :=
      climb_ok (nextIn_successorTable g ▸ hs) h.numbered ht hparD hp
      (hi.2.1.pred hi.1 hvp) (by omega : _ < g.ids.length + 1) hdf
    obtain ⟨df₂, hrun₂, hdf₂, hmem₂⟩ := ih (fun q hq => hps q (List.mem_cons_of_mem _ hq)) hdf₁
    refine ⟨df₂, ?_, hdf₂, ?_⟩
    · rw [List.foldlM_cons, hrun₁]
      exact hrun₂
    · intro y x
      rw [hmem₂, hmem₁]
      simp only [List.exists_mem_cons_iff]
      by_cases hyv : y = v
      · simp [hyv]
      · rw [hdv y hyv, or_assoc, ← and_or_left, ← and_or_left, ← or_and_right]

theorem enterAt_ok (h : Rooted g) (ht : Climbs g.successors g.exitId g.ids t) (hv : v ∈ g.ids)
    (hdf : Ledger g.ids df) :
    ∃ df', enterAt g t df v = .ok df' ∧ Ledger g.ids df' ∧
      ∀ y x, Entered df' y x ↔ Entered df y x ∨ x = v ∧ EndsAt g y v := by
  unfold enterAt
  rw [getD_predecessorTable]
  split
  · rename_i hlen
    have hr : v ≠ g.exitId := by
      rintro rfl
      simp [h.entry] at hlen
    apply h.climb_all ht hv hr _ _ hdf
    exact fun p hp =>
      ⟨(h.joined _ (mem_predecessors.mp hp)).1, mem_successors.mpr (mem_predecessors.mp hp)⟩
  · rename_i hlen
    refine ⟨df, rfl, hdf, fun y x => ⟨.inl, ?_⟩⟩
    rintro (he | ⟨_, hends⟩)
    · exact he
    · have hr : v ≠ g.exitId := by
        rintro rfl
        simp [EndsAt, h.entry] at hends
      exact (hlen (hends.several hr)).elim

theorem enterAt_all (h : Rooted g) (ht : Climbs g.successors g.exitId g.ids t) (vs : List Int)
    (hvs : ∀ v ∈ vs, v ∈ g.ids) (hdf : Ledger g.ids df) :
    ∃ df', vs.foldlM (enterAt g t) df = .ok df' ∧ Ledger g.ids df' ∧
      ∀ y x, Entered df' y x ↔ Entered df y x ∨ x ∈ vs ∧ EndsAt g y x := by
  induction vs generalizing df with
  | nil => exact ⟨df, rfl, hdf, by simp⟩
  | cons v rest ih =>
    obtain ⟨df₁, hrun₁, hdf₁, hmem₁⟩ := h.enterAt_ok ht (hvs v List.mem_cons_self) hdf
    obtain ⟨df₂, hrun₂, hdf₂, hmem₂⟩ := ih (fun x hx => hvs x (List.mem_cons_of_mem _ hx)) hdf₁
    refine ⟨df₂, ?_, hdf₂, fun y x => ?_⟩
    · rw [List.foldlM_cons, hrun₁]
      exact hrun₂
    · have hv : x = v ∧ EndsAt g y v ↔ x = v ∧ EndsAt g y x := and_congr_right fun he => by rw [he]
      rw [hmem₂, hmem₁, hv, List.mem_cons, or_assoc, ← or_and_right]

/-- The frontier of every vertex: where its domination ends. -/
theorem frontier (h : Rooted g) :
    ∃ df, dominanceFrontier g = .ok df ∧ Ledger g.ids df ∧
      ∀ y x, Entered df y x ↔ x ∈ g.ids ∧ EndsAt g y x := by
  obtain ⟨t, hrun, ht⟩ := h.dominatorTree
  have hblank : Ledger g.ids (g.ids.foldl (fun df v => df.insert v []) {}) :=
    ⟨distinct_blank _ Table.distinct_empty, fun y hy => ⟨[], by simp [get?_blank, hy]⟩⟩
  obtain ⟨df, hdf, hledger, hmem⟩ := h.enterAt_all ht g.ids (fun _ hv => hv) hblank
  refine ⟨df, ?_, hledger, fun y x => ?_⟩
  · simp only [dominanceFrontier, hrun, bind, Except.bind]
    exact hdf
  · have hnone : ¬ Entered (g.ids.foldl (fun df v => df.insert v []) {}) y x := by
      rintro ⟨xs, hxs, hx⟩
      rw [get?_blank] at hxs
      split at hxs <;> cases hxs
      simp at hx
    rw [hmem, or_iff_right hnone]

end Rooted

end CrossCall.Flow

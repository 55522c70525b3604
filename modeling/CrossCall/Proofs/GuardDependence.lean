import CrossCall.Proofs.Course
import CrossCall.Proofs.EntryDependence
import CrossCall.Proofs.JumpTarget

/-! What a guard lets control into, and whether it depends on the guard. A branch without
alternative and a while or for loop have two ways out; but what leaves the last statement of a
function is lost, and a guard that is left with one way only controls nothing. Functions may be
nested and graphs may be deep without bound. -/
namespace CrossCall.Flow

/-- The statement into which a branch without alternative, or a while or for loop, lets control. -/
def Guards (l c : Locus) : Prop :=
  l.kind = "if_statement" ∧ l.node.fieldIndex? "alternative" = none ∧ Named l "consequence" c ∨
    isCountedLoop l.kind = true ∧ Named l "body" c

variable {src : Source} {f l a c j : Locus} {t : Tree} {i : Nat} {x y s : Int}
  {name kind label : String} {rs : List Record} {E : List Exit} {p : Piece} {V : Visit}
  {ls : List Locus} {b : Bench} {parse : Parser} {code : String} {parsed : Parsed}

/-! ### The edges of a guard -/

theorem Named.unique {d : Locus} (h : Named l name c) (h' : Named l name d) : c = d := by
  obtain ⟨i, t, hi, ht, rfl⟩ := h'
  exact h.eq hi ht

theorem Builds.loop_of (h : Builds src l E p) (hk : isCountedLoop l.kind = true) :
    ∃ v c body bs cs, v.id = spanId src l.node ∧ Named l "body" c ∧
    (partAt src c).run [⟨v, "Y"⟩] = .ok body ∧
      cs.map (·.id) = jumpIds src "continue_statement" l ∧
        p = .looped v E { body with exits := waysBack body bs cs } := by
  have hkind : l.kind = "while_statement" ∨ l.kind = "for_statement" := by
    simpa [isCountedLoop] using hk
  cases h with
  | loop _ hv hc hbody _ hcs => exact ⟨_, _, _, _, _, hv, hc, hbody, hcs, rfl⟩
  | simple hk' => rcases hkind with hkind | hkind <;> simp [hkind, structuredKinds] at hk'
  | block hk' | clause hk' | branch hk' | doLoop hk' | bare hk' | switch hk' | label hk' =>
    rcases hkind with hkind | hkind <;> simp [hkind] at hk'

/-- A statement that is no jump is not come upon as one, neither inside it nor by a scan of it. -/
theorem own_notMem_jumps (ho : orderlyInside l.node = true) (hd : (numbers src l.node).Nodup)
    (hown : x ∈ ownNumbers src l.node) (hj : isJump l.kind = false) (kind : String) :
    x ∉ jumpIds src kind l ∧ x ∉ scannedIds src kind l := by
  have hbelow : x ∉ jumpIds src kind l := by
    intro hx
    obtain ⟨i, t, hi, ht, hs⟩ := jumpIds_inner ho hx
    have hmem : t ∈ inner l.node := mem_inner.mpr ⟨i, hi, ht⟩
    exact own_notMem_inner hd hown hmem (scannedIds_numbers (orderlyInside_inner ho hmem) hs)
  refine ⟨hbelow, ?_⟩
  cases hloop : isCountedLoop l.kind with
  | true =>
    rw [scannedIds_loop hloop hj]
    exact List.not_mem_nil
  | false => rwa [scannedIds_other hloop hj]

namespace Guards

theorem no_jump (h : Guards l c) : isJump l.kind = false := by
  rcases h with ⟨hk, -⟩ | ⟨hk, -⟩
  · rw [hk]
    rfl
  · exact isJump_of_loop (isLoop_of_counted hk)

theorem inside (h : Guards l c) : c.node ∈ inner l.node := by
  rcases h with ⟨hk, -, hc⟩ | ⟨hk, hc⟩
  · exact mem_inner_if hk hc (.inl rfl)
  · rw [inner_body (.inl (isLoop_of_counted hk)) hc]
    exact List.mem_cons_self

theorem own (h : Guards l c) (src : Source) : spanId src l.node ∈ ownNumbers src l.node := by
  obtain ⟨i, -, ht⟩ := mem_inner.mp h.inside
  have hk : l.kind = "if_statement" ∨ isCountedLoop l.kind = true := h.imp (·.1) (·.1)
  rw [ownNumbers_own (isLeaf_of_child ht) (kinds_of_head (hk.imp_right .inl))]
  exact List.mem_cons_self

theorem mem_numbers (h : Guards l c) (src : Source) : spanId src l.node ∈ numbers src l.node :=
  CrossCall.Flow.mem_numbers.mpr (.inl (h.own src))

theorem entrance_ne (h : Guards l c) (hd : (numbers src l.node).Nodup)
    (hs : entrance? src c.node = some s) :
    s ≠ spanId src l.node := by
  rintro rfl
  exact own_notMem_inner hd (h.own src) h.inside (entrance?_mem c _ hs)

end Guards

/-- A guard leads along `Y` to the entrance of what it guards, and along `N` to what comes next. -/
theorem Context.leads_guard (h : Context src rs l E p) (ho : orderly l.node = true)
    (hd : (numbers src l.node).Nodup) (hguards : Guards l c)
    (hrec : spanId src l.node ∈ recordedIds p.records) (hs : entrance? src c.node = some s) :
    Leads rs (spanId src l.node) label y ↔
      label = "Y" ∧ y = s ∨ label = "N" ∧ onward src true l.above = some y := by
  obtain ⟨hw, hin⟩ := orderly_iff.mp ho
  have hown := hguards.own src
  have hnum := hguards.mem_numbers src
  have hjumps := own_notMem_jumps hin hd hown hguards.no_jump
  have hback : loopsBack src (spanId src l.node) l = true := loopsBack_eq_true.mpr (hjumps _).2
  have hstay : ∀ kind, ¬ Jumps src kind l (spanId src l.node) y := by
    rintro kind (⟨hx, -⟩ | ⟨hx, -⟩)
    · exact (hjumps kind).1 hx
    · exact (hjumps kind).2 hx
  -- What is guarded takes up the way `Y`.
  have hpass : ∀ v q, v.id = spanId src l.node → (partAt src c).run [⟨v, "Y"⟩] = .ok q →
      (Leads q.records (spanId src l.node) label y ↔ label = "Y" ∧ y = s) ∧
        ¬ Opens q.exits (spanId src l.node) label := by
    intro v q hv hq
    have hc := (orderlyInside_iff.mp hin).1 c.node hguards.inside
    have hpass := passes c hc (own_notMem_inner hd hown hguards.inside) _ q hq
    rw [hpass.leads, hpass.opens, hs]
    simp [hv, eq_comm]
  rw [h.fate _ hnum hrec, Fate, hback]
  simp only [hstay, or_false, and_false]
  rcases builds hw h.run with ⟨-, rfl⟩ | ⟨-, -, hb⟩
  · cases hrec
  rcases hguards with ⟨hk, hnone, hc⟩ | ⟨hk, hc⟩
  · obtain ⟨v, c', yes, no, hv, hc', hyes, hno, rfl⟩ := hb.branch_of hk
    obtain rfl := hc.unique hc'
    obtain ⟨hleads, hopens⟩ := hpass v yes hv hyes
    rcases hno with ⟨d, ⟨k, u, hk, -⟩, -⟩ | ⟨-, rfl⟩
    · rw [hnone] at hk
      cases hk
    · simp [Piece.forked, h.clean _ hnum, hleads, hopens, hv, eq_comm]
  · obtain ⟨v, c', body, bs, cs, hv, hc', hbody, hcs, rfl⟩ := hb.loop_of hk
    obtain rfl := hc.unique hc'
    obtain ⟨hleads, hopens⟩ := hpass v body hv hbody
    have hways : ¬ Opens (waysBack body bs cs) (spanId src l.node) label := by
      rw [opens_waysBack, hcs]
      simp [hopens, (hjumps _).1]
    rw [leads_looped]
    simp [Piece.looped, h.clean _ hnum, hleads, hways, hv, eq_comm]

/-! ### Each statement once -/

theorem row_sublist
    (hls : ∀ c ∈ ls, ((visitAt c).sites.map (Site.number src)).Sublist (numbers src c.node)) :
    ((Visit.row (ls.map visitAt)).sites.map (Site.number src)).Sublist
      ((ls.map (·.node)).flatMap (numbers src)) := by
  induction ls with
  | nil => exact List.Sublist.slnil
  | cons c rest ih =>
    have hc := hls c List.mem_cons_self
    have hrest := ih fun d hd => hls d (List.mem_cons_of_mem _ hd)
    rw [List.map_cons, List.map_cons, List.flatMap_cons, Visit.row]
    split
    · rw [List.map_append]
      exact hc.append hrest
    · exact hc.trans (List.sublist_append_left _ _)

theorem named_sublist (hV : V.sites = [])
    (hin : ∀ c, Named l name c →
      ((visitAt c).sites.map (Site.number src)).Sublist (numbers src c.node)) :
    (((named? l.node (l.children.map visitAt) name).getD V).sites.map (Site.number src)).Sublist
      ((named? l.node l.node.children name).toList.flatMap (numbers src)) := by
  rcases named_or_none l name with ⟨c, hc⟩ | hnone
  · rw [named?_children visitAt hc, named?_node hc]
    simpa using hin c hc
  · rw [named?_none hnone, Option.getD_none, hV]
    exact List.nil_sublist _

/-- The sites of elementary code have its numbers, none twice. -/
theorem sites_sublist (l : Locus) : elementary l.node = true →
    ((visitAt l).sites.map (Site.number src)).Sublist (numbers src l.node) := by
  induction l using locus_induction with
  | step l ih =>
    intro he
    obtain ⟨hw, -, hin⟩ := elementary_iff.mp he
    have hnumber : (Site.statement l).number src = spanId src l.node := rfl
    have hown : l.node.isLeaf = false →
        l.node.kind = "if_statement" ∨ isCountedLoop l.node.kind = true ∨
        l.node.kind ∉ structuredKinds → ownNumbers src l.node = [spanId src l.node] :=
      fun hleaf hk => ownNumbers_own hleaf (kinds_of_head hk)
    cases hleaf : l.node.isLeaf with
    | true =>
      rw [visitAt_leaf hleaf]
      exact List.nil_sublist _
    | false =>
      rcases elementary_kinds he with hk | hk | hk | hk
      · rw [visitAt_row hleaf hw hk, numbers_eq, inner_row hk, ← map_node_children]
        refine (row_sublist fun c hc => ?_).trans (List.sublist_append_right _ _)
        exact ih c hc (elementaryInside_iff.mp hin c.node (node_mem_row hk hc))
      · have hside : ∀ name, name = "consequence" ∨ name = "alternative" → ∀ c, Named l name c →
            ((visitAt c).sites.map (Site.number src)).Sublist (numbers src c.node) :=
          fun name hname c hc =>
          ih c hc.mem (elementaryInside_iff.mp hin c.node (mem_inner_if hk hc hname))
        rw [visitAt_if hleaf hk, numbers_eq, inner_if hk, hown hleaf (.inl hk), List.map_cons,
          hnumber, List.map_append, List.flatMap_append]
        exact ((named_sublist rfl (hside _ (.inl rfl))).append
          (named_sublist rfl (hside _ (.inr rfl)))).cons_cons _
      · have hbody := isLoop_of_counted hk
        rw [visitAt_loop hleaf hk, numbers_eq, inner_of_body (.inl hbody),
          hown hleaf (.inr (.inl hk)), List.map_cons, hnumber]
        refine (named_sublist rfl fun c hc =>
          ih c hc.mem (elementaryInside_iff.mp hin c.node ?_)).cons_cons _
        rw [inner_body (.inl hbody) hc]
        exact List.mem_cons_self
      · rw [visitAt_simple hleaf hk, numbers_eq, hown hleaf (.inr (.inr hk))]
        simp [hnumber]

/-- No statement of a function is recorded twice. -/
theorem Legible.nodup (h : Legible src f rs) (he : elementaryInside f.node = true) :
    (recordedIds rs).Nodup := by
  rw [recordedIds_sites h.recorded]
  cases hleaf : f.node.isLeaf with
  | true =>
    rw [visitAt_leaf hleaf]
    exact List.nodup_nil
  | false =>
    have hbody : ∀ c, Named f "body" c →
        ((visitAt c).sites.map (Site.number src)).Sublist (numbers src c.node) := by
      intro c hc
      refine sites_sublist c (elementaryInside_iff.mp he c.node ?_)
      rw [inner_body (.inr (.inr h.function)) hc]
      exact List.mem_cons_self
    have hsub := (named_sublist (V := {}) rfl hbody).cons_cons (spanId src f.node)
    have hnumbers := h.distinct
    rw [numbers_eq, inner_of_body (.inr (.inr h.function)),
      ownNumbers_own hleaf (by simp [show f.node.kind = _ from h.function]), List.singleton_append]
      at hnumbers
    rw [visitAt_function hleaf h.function, List.map_append]
    exact (List.perm_append_singleton _ _).nodup_iff.mpr (hnumbers.sublist hsub)

/-! ### Numbers that no jump has -/

theorem mem_preorder :
    j ∈ l.preorder ↔ j = l ∨ ∃ i t, l.node.children[i]? = some t ∧ j ∈ (l.child i t).preorder := by
  rw [preorder_eq_cons, List.mem_cons, mem_preorderOfAll]
  refine or_congr_right ⟨?_, ?_⟩
  · rintro ⟨c, hc, hj⟩
    obtain ⟨i, hi⟩ := List.mem_iff_getElem?.mp (show c ∈ l.children from hc)
    rw [getElem?_children, Option.map_eq_some_iff] at hi
    obtain ⟨t, ht, rfl⟩ := hi
    exact ⟨i, t, ht, hj⟩
  · rintro ⟨i, t, ht, hj⟩
    exact ⟨l.child i t, child_mem_children ht, hj⟩

theorem isJump_of_jumpFree (l : Locus) :
    jumpFree l.node = true → ∀ j ∈ l.preorder, isJump j.kind = false := by
  induction l using locus_induction with
  | step l ih =>
    intro hfree j hj
    rw [jumpFree_eq, Bool.and_eq_true, List.all_eq_true] at hfree
    rcases mem_preorder.mp hj with rfl | ⟨i, t, ht, hj⟩
    · exact (Bool.not_eq_true' _).mp hfree.1
    · exact ih _ (child_mem_children ht) (hfree.2 t (List.mem_of_getElem? ht)) j hj

/-- A jump of orderly code is the node itself or among the statements inside. -/
theorem jump_place (ho : orderlyInside l.node = true) (hj : j ∈ l.preorder)
    (hk : isJump j.kind = true) :
    j = l ∨ ∃ i t, i ∈ places l.node ∧ l.node.children[i]? = some t ∧
    j ∈ (l.child i t).preorder := by
  refine (mem_preorder.mp hj).imp_right ?_
  rintro ⟨i, t, ht, hj⟩
  refine ⟨i, t, ?_, ht, hj⟩
  by_contra hi
  rw [isJump_of_jumpFree (l.child i t) ((orderlyInside_iff.mp ho).2 i t ht hi) j hj] at hk
  cases hk

theorem jump_mem_numbers (l : Locus) :
    orderlyInside l.node = true → ∀ j ∈ l.preorder, isJump j.kind = true →
    spanId src j.node ∈ numbers src l.node := by
  induction l using locus_induction with
  | step l ih =>
    intro ho j hj hk
    rcases jump_place ho hj hk with rfl | ⟨i, t, hi, ht, hj⟩
    · exact mem_numbers.mpr (.inl (spanId_mem_own hk))
    · have hmem : t ∈ inner l.node := mem_inner.mpr ⟨i, hi, ht⟩
      exact numbers_subset hmem (ih _ (child_mem_children ht) (orderlyInside_inner ho hmem) j hj hk)

/-- A number of a child that no jump has there is had by no jump of the node. -/
theorem JumpsElsewhere.of_child (ho : orderlyInside a.node = true) (hd : (numbers src a.node).Nodup)
    (hi : i ∈ places a.node) (ht : a.node.children[i]? = some t) (hx : x ∈ numbers src t)
    (h : JumpsElsewhere src x (a.child i t)) : JumpsElsewhere src x a := by
  rintro j hj hk rfl
  rcases jump_place ho hj hk with rfl | ⟨k, u, hk', hu, hj⟩
  · rw [Locus.kind, isJump_of_place hi] at hk
    cases hk
  by_cases hik : i = k
  · subst hik
    rw [ht] at hu
    cases hu
    exact h j hj hk rfl
  · have hin := orderlyInside_inner ho (mem_inner.mpr ⟨k, hk', hu⟩)
    exact numbers_disjoint hd hi hk' hik ht hu hx (jump_mem_numbers (a.child k u) hin j hj hk)

theorem Inside.jumpsElsewhere (hl : Inside f l) (ho : orderlyInside f.node = true)
    (hd : (numbers src f.node).Nodup) (hx : x ∈ numbers src l.node) (h : JumpsElsewhere src x l) :
    JumpsElsewhere src x f := by
  induction hl with
  | body hi ht => exact h.of_child ho hd hi ht hx
  | @child a i t ha hi ht ih =>
    refine ih (numbers_subset (mem_inner.mpr ⟨i, hi, ht⟩) hx) ?_
    exact h.of_child (orderly_iff.mp (ha.orderly ho)).2 (ha.nodup hd) hi ht hx

theorem Guards.jumpsElsewhere (h : Guards l c) (ho : orderlyInside l.node = true)
    (hd : (numbers src l.node).Nodup) :
    JumpsElsewhere src (spanId src l.node) l := by
  intro j hj hk hx
  rcases jump_place ho hj hk with rfl | ⟨i, t, hi, ht, hj⟩
  · rw [h.no_jump] at hk
    cases hk
  · have hmem : t ∈ inner l.node := mem_inner.mpr ⟨i, hi, ht⟩
    have hnumber : spanId src j.node ∈ numbers src t :=
      jump_mem_numbers (l.child i t) (orderlyInside_inner ho hmem) j hj hk
    rw [hx] at hnumber
    exact own_notMem_inner hd (h.own src) hmem hnumber

/-! ### Dependence -/

theorem Site.labels_nodup (s : Site) : s.labels.Nodup := by
  unfold Site.labels
  split
  · decide
  · split
    · exact List.nodup_nil
    · exact List.nodup_singleton _

namespace Legible

/-- The edges of a guard in the function. -/
theorem leads_guard (h : Legible src f rs) (hl : Inside f l) (hguards : Guards l c)
    (hmem : spanId src l.node ∈ recordedIds rs) (hs : entrance? src c.node = some s) :
    Leads rs (spanId src l.node) label y ↔
      label = "Y" ∧ y = s ∨ label = "N" ∧ onward src true l.above = some y := by
  obtain ⟨E, p, hctx⟩ := h.context hl
  have hrec := (hctx.ids _ (hguards.mem_numbers src)).mp hmem
  exact hctx.leads_guard (hl.orderly h.orderly) (hl.nodup h.distinct) hguards hrec hs

/-- No label leaves a guard twice. -/
theorem nodup_labels_guard (h : Legible src f rs) (he : elementaryInside f.node = true)
    (hl : Inside f l) (hguards : Guards l c) (hmem : spanId src l.node ∈ recordedIds rs) :
    (((graphOf rs).outgoing (spanId src l.node)).map (·.label)).Nodup := by
  have helsewhere : JumpsElsewhere src (spanId src l.node) f :=
    hl.jumpsElsewhere h.orderly h.distinct (hguards.mem_numbers src)
      (hguards.jumpsElsewhere (orderly_iff.mp (hl.orderly h.orderly)).2 (hl.nodup h.distinct))
  rw [recordedIds_sites h.recorded, List.mem_map] at hmem
  obtain ⟨site, hsite, hnumber⟩ := hmem
  rw [← hnumber] at helsewhere ⊢
  have hcount := List.nodup_iff_count_le_one.mp (h.nodup he) (site.number src)
  obtain ⟨labels, hperm, hsub⟩ := outgoing_subperm h.function h.recorded hcount hsite helsewhere
  exact hperm.nodup_iff.mp (site.labels_nodup.sublist hsub)

/-- A guard that is not left has no second edge. -/
theorem length_successors_guard (h : Legible src f rs) (he : elementaryInside f.node = true)
    (hl : Inside f l) (hguards : Guards l c) (hmem : spanId src l.node ∈ recordedIds rs)
    (hs : entrance? src c.node = some s) (hlost : onward src true l.above = none) :
    ((graphOf rs).successors (spanId src l.node)).length ≤ 1 := by
  have hyes : ((graphOf rs).outgoing (spanId src l.node)).map (·.label) ⊆ ["Y"] := by
    intro label hlabel
    obtain ⟨e, he, rfl⟩ := List.mem_map.mp hlabel
    obtain ⟨he, hsource⟩ := List.mem_filter.mp he
    rw [edges_graphOf_eq] at he
    obtain ⟨u, v, hu, hv, -⟩ := (functionRecords_closed h.function h.recorded).edges e he
    have hid : u.id = spanId src l.node := by simpa [hu] using hsource
    have hleads : Leads rs (spanId src l.node) e.label v.id :=
      ⟨e, he, Edge.ends?_eq_some.mpr ⟨u, v, hu, hv, hid, rfl⟩, rfl⟩
    rcases (h.leads_guard hl hguards hmem hs).mp hleads with ⟨hlabel, -⟩ | ⟨-, hnext⟩
    · simp [hlabel]
    · rw [hlost] at hnext
      cases hnext
  have hlength := ((h.nodup_labels_guard he hl hguards hmem).subperm hyes).length_le
  rw [List.length_map] at hlength
  exact length_successors_le_outgoing.trans hlength

theorem target_mem (h : Legible src f rs) : ∀ a ∈ (graphOf rs).arcs, a.2 ∈ (graphOf rs).ids := by
  intro a ha
  obtain ⟨e, he, hends⟩ := Graph.mem_arcs.mp ha
  rw [edges_graphOf_eq] at he
  obtain ⟨u, v, -, hv, -, hmem⟩ := (functionRecords_closed h.function h.recorded).edges e he
  obtain ⟨u', v', -, hv', -, hid⟩ := Edge.ends?_eq_some.mp hends
  obtain rfl : v = v' := Option.some.inj (hv.symm.trans hv')
  rw [← hid, mem_ids_graphOf]
  exact hmem

/-- All numbers are those of spans, so none is negative. -/
theorem enclosed (h : Legible src f rs) (hzero : 0 ∉ (graphOf rs).ids)
    (hsource : ∀ a ∈ (graphOf rs).arcs, a.1 ∈ (graphOf rs).ids) : Enclosed (graphOf rs) where
  joined a ha := ⟨hsource a ha, h.target_mem a ha⟩
  positive := by
    intro x hx
    have hne : x ≠ 0 := fun h0 => hzero (h0 ▸ hx)
    rw [mem_ids_graphOf, recordedIds_sites h.recorded, List.mem_map] at hx
    obtain ⟨site, -, rfl⟩ := hx
    have hpos : 0 ≤ site.number src := Int.emod_nonneg _ (by decide)
    omega

/-- Where all loops can be left, control comes to an end from what is behind a guard, past what is
guarded. -/
theorem not_postDominates (h : Legible src f rs) (he : elementaryInside f.node = true)
    (hl : Inside f l) (hleave : Leavable src f rs) (hs : s ∈ numbers src l.node) (hxs : s ≠ x)
    (hnext : onward src true l.above = some y) (hy : y ∈ (graphOf rs).successors x) :
    ¬ PostDominates (graphOf rs) s x := by
  intro hpost
  obtain ⟨later, hsuffix, hbehind, hapart⟩ := h.behind he hl
  obtain ⟨t, ht, hend, ys, hw, hys⟩ := exists_walk_to_end h.target_mem
    (fun x xs hxs hids => h.ends_or_goes_forward he hleave hxs (mem_ids_graphOf.mp hids)) hsuffix y
    (hbehind.next y hnext) (h.target_mem _ (mem_successors.mp hy))
  rcases List.mem_cons.mp (hpost t ht hend _ (.step hy hw)) with hsx | hsy
  · exact hxs hsx
  · exact hapart s hs (hys s hsy)

/-- Where all other loops can be left, a guard has two ways to go, and one to an end past what it
guards, if and only if it can be left itself. -/
theorem open_guard_iff (h : Legible src f rs) (he : elementaryInside f.node = true)
    (hl : Inside f l) (hguards : Guards l c) (hmem : spanId src l.node ∈ recordedIds rs)
    (hs : entrance? src c.node = some s)
    (hothers : ∀ k, Inside f k → k ≠ l → isCountedLoop k.kind = true →
      spanId src k.node ∈ recordedIds rs → ∃ y, Exits src (graphOf rs) k y) :
    (1 < ((graphOf rs).successors (spanId src l.node)).length ∧
      ¬ (CanEnd (graphOf rs) (spanId src l.node) ∧
        PostDominates (graphOf rs) s (spanId src l.node))) ↔
        ∃ y, Exits src (graphOf rs) l y := by
  simp only [h.exits hl (hguards.mem_numbers src) hmem]
  constructor
  · rintro ⟨hseveral, -⟩
    refine Option.ne_none_iff_exists'.mp fun hlost => ?_
    have hone := h.length_successors_guard he hl hguards hmem hs hlost
    omega
  · rintro ⟨y, hnext⟩
    have hinside : s ∈ numbers src l.node := numbers_subset hguards.inside (entrance?_mem c s hs)
    have hfirst :=
      mem_successors_iff.mpr ⟨"Y", (h.leads_guard hl hguards hmem hs).mpr (.inl ⟨rfl, rfl⟩)⟩
    have hsecond :=
      mem_successors_iff.mpr ⟨"N", (h.leads_guard hl hguards hmem hs).mpr (.inr ⟨rfl, hnext⟩)⟩
    have hleave : Leavable src f rs := by
      intro k hk hcounted hkmem
      by_cases hkl : k = l
      · exact ⟨y, hkl ▸ (h.exits hl (hguards.mem_numbers src) hmem).mpr hnext⟩
      · exact hothers k hk hkl hcounted hkmem
    have hne := hguards.entrance_ne (hl.nodup h.distinct) hs
    refine ⟨?_, fun hboth => h.not_postDominates he hl hleave hinside hne hnext hsecond hboth.2⟩
    -- The two ways are different: what comes next is not inside the guard.
    obtain ⟨later, -, hbehind, hapart⟩ := h.behind he hl
    by_contra hfew
    obtain ⟨z, hz⟩ :=
      List.length_eq_one_iff.mp (Nat.le_antisymm (by omega) (List.length_pos_of_mem hfirst))
    rw [hz, List.mem_singleton] at hfirst hsecond
    exact hapart s hinside (hfirst.trans hsecond.symm ▸ hbehind.next y hnext)

end Legible

/-- In elementary code whose edges all come from recorded vertices, what a guard lets control into
depends on the guard if and only if the guard has a second way to go, unless all ways from there to
an end lead over it. Where all other loops can be left, that is if and only if the guard can be
left. -/
theorem guarded_depends_iff (h : Legible ⟨code⟩ f rs) (he : elementaryInside f.node = true)
    (hp : parse code = some parsed) (hf : Bench.functionAt? ⟨parsed.root, []⟩ = some f)
    (hzero : 0 ∉ (graphOf rs).ids) (hsource : ∀ a ∈ (graphOf rs).arcs, a.1 ∈ (graphOf rs).ids)
    (b : Bench) :
    ∃ cdg b', (Bench.buildControlDependence parse code).run b = (some cdg, b') ∧
      ∀ l c s, Inside f l → Guards l c → spanId ⟨code⟩ l.node ∈ (graphOf rs).ids →
        entrance? ⟨code⟩ c.node = some s →
          (Depends cdg s (spanId ⟨code⟩ l.node) ↔
            1 < ((graphOf rs).successors (spanId ⟨code⟩ l.node)).length ∧
            ¬ (CanEnd (graphOf rs) (spanId ⟨code⟩ l.node) ∧
              PostDominates (graphOf rs) s (spanId ⟨code⟩ l.node))) ∧
          ((∀ k, Inside f k → k ≠ l → isCountedLoop k.kind = true →
            spanId ⟨code⟩ k.node ∈ (graphOf rs).ids →
              ∃ y, Exits ⟨code⟩ (graphOf rs) k y) →
            (Depends cdg s (spanId ⟨code⟩ l.node) ↔ ∃ y, Exits ⟨code⟩ (graphOf rs) l y)) := by
  obtain ⟨b₁, hrun⟩ := buildControlDependence_run hp hf h.recorded b
  obtain ⟨cdg, b₂, hbuilt, hdepends⟩ := (h.enclosed hzero hsource).dependence_of_successor b₁
  refine ⟨cdg, b₂, hrun.trans hbuilt, fun l c s hl hguards hmem hs => ?_⟩
  have hrecorded := mem_ids_graphOf.mp hmem
  have hfirst :=
    mem_successors_iff.mpr ⟨"Y", (h.leads_guard hl hguards hrecorded hs).mpr (.inl ⟨rfl, rfl⟩)⟩
  have hiff := hdepends _ hmem s hfirst (hguards.entrance_ne (hl.nodup h.distinct) hs)
  refine ⟨hiff, fun hothers => hiff.trans ?_⟩
  refine h.open_guard_iff he hl hguards hrecorded hs fun k hk hkl hcounted hkmem => ?_
  exact hothers k hk hkl hcounted (mem_ids_graphOf.mpr hkmem)

/-- A branch in a loop, and another one at the end. -/
def guardedLoop : String := "void f()\x7bwhile(a)\x7bif(b)c;\x7dif(d)e;\x7d"

def guardedLoopFunction : Tree :=
  .bareFunction 0 4 (.node "compound_statement" 8 34 (some "body") [
    .node "\x7b" 8 9 none [],
    .node "while_statement" 9 26 none [
      .node "while" 9 14 none [],
      .node "parenthesized_expression" 14 17 (some "condition") [
        .node "(" 14 15 none [],
        .node "identifier" 15 16 none [],
        .node ")" 16 17 none []],
      .node "compound_statement" 17 26 (some "body") [
        .node "\x7b" 17 18 none [],
        .node "if_statement" 18 25 none [
          .node "if" 18 20 none [],
          .node "parenthesized_expression" 20 23 (some "condition") [
            .node "(" 20 21 none [],
            .node "identifier" 21 22 none [],
            .node ")" 22 23 none []],
          .node "expression_statement" 23 25 (some "consequence") [
            .node "identifier" 23 24 none [],
            .node ";" 24 25 none []]],
        .node "\x7d" 25 26 none []]],
    .node "if_statement" 26 33 none [
      .node "if" 26 28 none [],
      .node "parenthesized_expression" 28 31 (some "condition") [
        .node "(" 28 29 none [],
        .node "identifier" 29 30 none [],
        .node ")" 30 31 none []],
      .node "expression_statement" 31 33 (some "consequence") [
        .node "identifier" 31 32 none [],
        .node ";" 32 33 none []]],
    .node "\x7d" 33 34 none []])

/-- The function in its file. -/
def guardedLoopLocus : Locus :=
  ⟨guardedLoopFunction, [(.node "translation_unit" 0 34 none [guardedLoopFunction], 0)]⟩

def guardedLoopParser : Parser :=
  fun _ => some ⟨.node "translation_unit" 0 34 none [guardedLoopFunction], false⟩

theorem guardedLoop_legible : elementaryInside guardedLoopLocus.node = true ∧
    ∃ rs, Legible ⟨guardedLoop⟩ guardedLoopLocus rs ∧
    (graphOf rs).ids = [357816, 318944, 689799, 912179, 817384, 449202] ∧
      (graphOf rs).arcs = [(449202, 357816), (689799, 357816), (318944, 357816), (357816, 318944),
        (318944, 689799), (357816, 912179), (912179, 817384)] ∧
      (graphOf rs).edges.any (fun e => e.ends? == some (357816, 912179) && e.label == "N") =
        true := by
  have hbuilt : (functionRecords ⟨guardedLoop⟩ guardedLoopLocus).toOption.map (fun rs =>
      ((rs.map (·.vertex)).all isVisible, (graphOf rs).ids, (graphOf rs).arcs,
        (graphOf rs).edges.any fun e => e.ends? == some (357816, 912179) && e.label == "N")) =
      some (true, [357816, 318944, 689799, 912179, 817384, 449202],
        [(449202, 357816), (689799, 357816), (318944, 357816), (357816, 318944), (318944, 689799),
          (357816, 912179), (912179, 817384)], true) := by decide +kernel
  obtain ⟨rs, hlegible, -, heq⟩ := exists_legible rfl (by decide +kernel) (by decide +kernel) hbuilt
  simp only [Prod.mk.injEq] at heq
  exact ⟨by decide +kernel, rs, hlegible, heq⟩

/-- The branch in the loop and the one at the end, with what they guard. -/
theorem guardedLoop_branches :
    (∃ l, Inside guardedLoopLocus l ∧ ∃ c, Guards l c ∧ spanId ⟨guardedLoop⟩ l.node = 318944 ∧
      entrance? ⟨guardedLoop⟩ c.node = some 689799 ∧
      onward ⟨guardedLoop⟩ true l.above = some 357816) ∧
    ∃ l, Inside guardedLoopLocus l ∧ ∃ c, Guards l c ∧ spanId ⟨guardedLoop⟩ l.node = 912179 ∧
      entrance? ⟨guardedLoop⟩ c.node = some 817384 := by
  have hbody := Inside.body (f := guardedLoopLocus) (i := 2) (by decide +kernel) rfl
  have hloop := hbody.child (i := 1) (by decide +kernel) rfl
  have hblock := hloop.child (i := 2) (by decide +kernel) rfl
  have hinner := hblock.child (i := 1) (by decide +kernel) rfl
  have hlast := hbody.child (i := 2) (by decide +kernel) rfl
  constructor
  · refine ⟨_, hinner, _, .inl ⟨rfl, ?_, 2, _, ?_, rfl, rfl⟩, ?_, ?_, ?_⟩ <;> decide +kernel
  · refine ⟨_, hlast, _, .inl ⟨rfl, ?_, 2, _, ?_, rfl, rfl⟩, ?_, ?_⟩ <;> decide +kernel

theorem mem_preorder_trans (f : Locus) : ∀ a ∈ f.preorder, ∀ c ∈ a.preorder, c ∈ f.preorder := by
  induction f using locus_induction with
  | step f ih =>
    intro a ha c hc
    rcases mem_preorder.mp ha with rfl | ⟨i, t, ht, ha⟩
    · exact hc
    · exact mem_preorder_of_child (child_mem_children ht) (ih _ (child_mem_children ht) a ha c hc)

theorem Inside.mem_preorder (h : Inside f l) : l ∈ f.preorder := by
  induction h with
  | body _ ht => exact mem_preorder_of_child (child_mem_children ht) (mem_preorder_self _)
  | child _ _ ht ih =>
    exact mem_preorder_trans f _ ih _
      (mem_preorder_of_child (child_mem_children ht) (mem_preorder_self _))

theorem guarded_depends_guardedLoop :
    ∃ parsed rs cdg b l c s, Legible ⟨guardedLoop⟩ guardedLoopLocus rs ∧
    elementaryInside guardedLoopLocus.node = true ∧ guardedLoopParser guardedLoop = some parsed ∧
      Bench.functionAt? ⟨parsed.root, []⟩ = some guardedLoopLocus ∧ 0 ∉ (graphOf rs).ids ∧
        (∀ a ∈ (graphOf rs).arcs, a.1 ∈ (graphOf rs).ids) ∧
          (Bench.buildControlDependence guardedLoopParser guardedLoop).run {} = (some cdg, b) ∧
    Inside guardedLoopLocus l ∧ Guards l c ∧ spanId ⟨guardedLoop⟩ l.node ∈ (graphOf rs).ids ∧
      entrance? ⟨guardedLoop⟩ c.node = some s ∧
        (∀ k, Inside guardedLoopLocus k → k ≠ l → isCountedLoop k.kind = true →
          spanId ⟨guardedLoop⟩ k.node ∈ (graphOf rs).ids →
          ∃ y, Exits ⟨guardedLoop⟩ (graphOf rs) k y) ∧
          (∃ y, Exits ⟨guardedLoop⟩ (graphOf rs) l y) ∧
          Depends cdg s (spanId ⟨guardedLoop⟩ l.node) := by
  obtain ⟨hin, rs, hlegible, hids, harcs, hleft⟩ := guardedLoop_legible
  have hzero : 0 ∉ (graphOf rs).ids := by
    rw [hids]
    decide
  have hsource : ∀ a ∈ (graphOf rs).arcs, a.1 ∈ (graphOf rs).ids := by
    rw [hids, harcs]
    decide
  have hp : guardedLoopParser guardedLoop = some _ := rfl
  obtain ⟨cdg, b, hrun, hguard⟩ := guarded_depends_iff hlegible hin hp rfl hzero hsource {}
  obtain ⟨⟨l, hl, c, hguards, hnumber, hentrance, hnext⟩, -⟩ := guardedLoop_branches
  have hmem : spanId ⟨guardedLoop⟩ l.node ∈ (graphOf rs).ids := by
    rw [hnumber, hids]
    decide
  have hleave : ∀ k, Inside guardedLoopLocus k → isCountedLoop k.kind = true →
      Exits ⟨guardedLoop⟩ (graphOf rs) k 912179 := by
    intro k hk hcounted
    have hone : ∀ k ∈ guardedLoopLocus.preorder, isCountedLoop k.kind = true →
        spanId ⟨guardedLoop⟩ k.node = 357816 := by decide +kernel
    obtain ⟨e, he, hedge⟩ := List.any_eq_true.mp hleft
    rw [Bool.and_eq_true, beq_iff_eq, beq_iff_eq] at hedge
    rw [Exits, if_pos (isLoop_of_counted hcounted)]
    refine ⟨357816, ?_, e, he, hedge⟩
    rw [headId?_of_counted hcounted, hone k hk.mem_preorder hcounted]
  have hexits : Exits ⟨guardedLoop⟩ (graphOf rs) l 357816 :=
    (hlegible.exits hl (hguards.mem_numbers _) (mem_ids_graphOf.mp hmem)).mpr hnext
  have hdepends :=
    ((hguard l c _ hl hguards hmem hentrance).2 fun k hk _ hcounted _ =>
      ⟨_, hleave k hk hcounted⟩).mpr
    ⟨_, hexits⟩
  exact ⟨_, rs, cdg, b, l, c, _, hlegible, hin, hp, rfl, hzero, hsource, hrun, hl, hguards, hmem,
    hentrance, fun k hk _ hcounted _ => ⟨_, hleave k hk hcounted⟩, ⟨_, hexits⟩, hdepends⟩

/-- What the branch at the end guards has a vertex and does not depend on the branch. -/
theorem exists_guarded_beside_guard : ∃ rs cdg l c s, Legible ⟨guardedLoop⟩ guardedLoopLocus rs ∧
    elementaryInside guardedLoopLocus.node = true ∧ 0 ∉ (graphOf rs).ids ∧
      ((Bench.buildControl guardedLoopParser guardedLoop).run {}).1 = some (graphOf rs) ∧
        ((Bench.buildControlDependence guardedLoopParser guardedLoop).run {}).1 = some cdg ∧
          Inside guardedLoopLocus l ∧ Guards l c ∧ spanId ⟨guardedLoop⟩ l.node ∈ (graphOf rs).ids ∧
            entrance? ⟨guardedLoop⟩ c.node = some s ∧ s ∈ (graphOf rs).ids ∧
              ¬ Depends cdg s (spanId ⟨guardedLoop⟩ l.node) := by
  obtain ⟨hin, rs, hlegible, hids, -⟩ := guardedLoop_legible
  obtain ⟨-, l, hl, c, hguards, hnumber, hentrance⟩ := guardedLoop_branches
  have hdependences : ((Bench.buildControlDependence guardedLoopParser guardedLoop).run {}).1.map
      (·.arcs) = some [(357816, 318944), (318944, 689799)] := by decide +kernel
  obtain ⟨cdg, hcdg, harcs⟩ := Option.map_eq_some_iff.mp hdependences
  have hp : guardedLoopParser guardedLoop = some _ := rfl
  have hcfg := buildControl_run hp rfl hlegible.recorded {}
  refine ⟨rs, cdg, l, c, _, hlegible, hin, ?_, hcfg, hcdg, hl, hguards, ?_, hentrance, ?_, ?_⟩
  · rw [hids]
    decide
  · rw [hnumber, hids]
    decide
  · rw [hids]
    decide
  · rintro ⟨e, he, -, hends⟩
    have harc := Graph.mem_arcs.mpr ⟨e, he, hends⟩
    rw [harcs, hnumber] at harc
    revert harc
    decide

end CrossCall.Flow

import CrossCall.Proofs.Walk

/-! The breadth-first search decides whether there is a path around obstacles. -/
namespace CrossCall.Flow.Graph

variable {g : Graph} {next : Int → List Int} {start goal a b x : Int} {n : Nat}
  {avoid region visited queue xs : List Int}

/-! ### Paths around obstacles -/

theorem PathAvoiding.snoc (h : PathAvoiding next avoid a b) (hb : b ∉ avoid) (hx : x ∈ next b) :
    PathAvoiding next avoid a x := by
  induction h with
  | arc hm => exact .step hm hb (.arc hx)
  | step hm hn _ ih => exact .step hm hn (ih hb hx)

theorem PathAvoiding.walk (h : PathAvoiding next avoid a b) (ha : a ∉ avoid) (hb : b ∉ avoid) :
    ∃ xs, Walk next a xs b ∧ ∀ x ∈ xs, x ∉ avoid := by
  induction h with
  | @arc a b hm => exact ⟨[a, b], .step hm .here, by simp [ha, hb]⟩
  | @step a m b hm hn _ ih =>
    obtain ⟨xs, hw, hx⟩ := ih hn hb
    refine ⟨a :: xs, .step hm hw, ?_⟩
    intro x hxa
    rcases List.mem_cons.mp hxa with rfl | hxa
    · exact ha
    · exact hx x hxa

theorem PathAvoiding.of_walk (h : Walk next a xs b) (hx : ∀ x ∈ xs, x ∉ avoid) (hne : a ≠ b) :
    PathAvoiding next avoid a b := by
  induction h with
  | here => exact (hne rfl).elim
  | @step a m b xs hm hw ih =>
    by_cases he : m = b
    · exact .arc (he ▸ hm)
    · have hxs : ∀ x ∈ xs, x ∉ avoid := fun x h => hx x (List.mem_cons_of_mem _ h)
      exact .step hm (hxs m hw.start_mem) (ih hxs he)

/-! ### Looking at one vertex -/

theorem scan_found (h : goal ∈ xs) : (scan goal avoid visited queue xs).1 = true := by
  induction xs generalizing visited queue with
  | nil => simp at h
  | cons x rest ih =>
    unfold scan
    split
    · rfl
    · rename_i hx
      have hrest : goal ∈ rest := (List.mem_cons.mp h).resolve_left (Ne.symm hx)
      split
      · exact ih hrest
      · exact ih hrest

/-- Without the goal among the successors, those that are new and no obstacles join both lists. -/
theorem scan_fresh (h : goal ∉ xs) : ∃ fresh,
    scan goal avoid visited queue xs = (false, visited ++ fresh, queue ++ fresh) ∧
      (∀ x ∈ fresh, x ∈ xs ∧ x ∉ avoid) ∧ (∀ x ∈ xs, x ∉ avoid → x ∈ visited ++ fresh) ∧
        (visited.Nodup → (visited ++ fresh).Nodup) := by
  induction xs generalizing visited queue with
  | nil => exact ⟨[], by simp [scan]⟩
  | cons x rest ih =>
    obtain ⟨hx, hrest⟩ := not_or.mp (List.mem_cons.not.mp h)
    unfold scan
    rw [if_neg (Ne.symm hx)]
    split
    · rename_i hnew
      obtain ⟨fresh, heq, hsub, hall, hnodup⟩ := @ih (visited ++ [x]) (queue ++ [x]) hrest
      simp only [List.append_assoc, List.singleton_append] at heq hall hnodup
      refine ⟨x :: fresh, heq, ?_, ?_, ?_⟩
      · intro y hy
        rcases List.mem_cons.mp hy with rfl | hy
        · exact ⟨List.mem_cons_self, hnew.2⟩
        · exact ⟨List.mem_cons_of_mem _ (hsub y hy).1, (hsub y hy).2⟩
      · intro y hy hav
        rcases List.mem_cons.mp hy with rfl | hy
        · simp
        · exact hall y hy hav
      · intro hv
        apply hnodup
        rw [List.nodup_append]
        exact ⟨hv, by simp, fun a ha b hb he => hnew.1 (by simp_all)⟩
    · rename_i hold
      obtain ⟨fresh, heq, hsub, hall, hnodup⟩ := @ih visited queue hrest
      refine ⟨fresh, heq, fun y hy => ⟨List.mem_cons_of_mem _ (hsub y hy).1, (hsub y hy).2⟩, ?_,
        hnodup⟩
      intro y hy hav
      rcases List.mem_cons.mp hy with rfl | hy
      · by_cases hv : y ∈ visited
        · exact List.mem_append_left _ hv
        · exact (hold ⟨hv, hav⟩).elim
      · exact hall y hy hav

/-! ### The search -/

/-- What has been visited and is not in the queue has been looked at. All stays inside a region that
arcs do not leave. -/
structure Searching (next : Int → List Int) (start goal : Int)
    (avoid region visited queue : List Int) :
    Prop where
  started : start ∈ visited
  nodup : visited.Nodup
  within : ∀ x ∈ visited, x ∈ region
  clear : ∀ x ∈ queue, x = start ∨ x ∉ avoid ∧ PathAvoiding next avoid start x
  done : ∀ x ∈ visited, x ∉ queue → goal ∉ next x ∧ ∀ y ∈ next x, y ∉ avoid → y ∈ visited

namespace Searching

theorem step {fresh : List Int} (h : Searching next start goal avoid region visited (x :: queue))
    (hregion : ∀ v, ∀ w ∈ next v, w ∈ region) (hgoal : goal ∉ next x)
    (hsub : ∀ y ∈ fresh, y ∈ next x ∧ y ∉ avoid)
    (hall : ∀ y ∈ next x, y ∉ avoid → y ∈ visited ++ fresh)
    (hnodup : visited.Nodup → (visited ++ fresh).Nodup) :
    Searching next start goal avoid region (visited ++ fresh) (queue ++ fresh) where
  started := List.mem_append_left _ h.started
  nodup := hnodup h.nodup
  within := by
    intro y hy
    rcases List.mem_append.mp hy with hy | hy
    · exact h.within y hy
    · exact hregion x y (hsub y hy).1
  clear := by
    intro y hy
    rcases List.mem_append.mp hy with hy | hy
    · exact h.clear y (List.mem_cons_of_mem _ hy)
    · obtain ⟨hxy, hav⟩ := hsub y hy
      rcases h.clear x List.mem_cons_self with rfl | ⟨hx, hp⟩
      · exact .inr ⟨hav, .arc hxy⟩
      · exact .inr ⟨hav, hp.snoc hx hxy⟩
  done := by
    intro y hy hq
    obtain ⟨hyq, hyf⟩ := not_or.mp (List.mem_append.not.mp hq)
    have hyv := (List.mem_append.mp hy).resolve_right hyf
    by_cases hyx : y = x
    · rw [hyx]
      exact ⟨hgoal, hall⟩
    · obtain ⟨hg, hn⟩ := h.done y hyv (by simp [hyx, hyq])
      exact ⟨hg, fun z hz hav => List.mem_append_left _ (hn z hz hav)⟩

/-- A finished search has cut off the goal. -/
theorem finished (h : Searching next start goal avoid region visited []) :
    ¬ PathAvoiding next avoid start goal := by
  intro hp
  have hcut : ∀ a, PathAvoiding next avoid a goal → a ∉ visited := by
    intro a ha
    induction ha with
    | arc hm => exact fun hv => (h.done _ hv (by simp)).1 hm
    | step hm hav _ ih => exact fun hv => ih h hp ((h.done _ hv (by simp)).2 _ hm hav)
  exact hcut start hp h.started

theorem size_le (h : Searching next start goal avoid region visited queue) :
    visited.length ≤ region.length := (h.nodup.subperm h.within).length_le

theorem search_iff (h : Searching next start goal avoid region visited queue)
    (hregion : ∀ v, ∀ w ∈ next v, w ∈ region)
    (hn : region.length + queue.length ≤ n + visited.length) :
    search next goal avoid n visited queue = true ↔ PathAvoiding next avoid start goal := by
  induction n generalizing visited queue with
  | zero =>
    have hsize := h.size_le
    obtain rfl : queue = [] := List.eq_nil_of_length_eq_zero (by omega)
    simp [search, h.finished]
  | succ n ih =>
    cases queue with
    | nil => simp [search, h.finished]
    | cons x queue =>
      by_cases hgoal : goal ∈ next x
      · have hpath : PathAvoiding next avoid start goal := by
          rcases h.clear x List.mem_cons_self with rfl | ⟨hx, hp⟩
          · exact .arc hgoal
          · exact hp.snoc hx hgoal
        have hfound : (scan goal avoid visited queue (next x)).1 = true := scan_found hgoal
        rw [search]
        generalize scan goal avoid visited queue (next x) = r at hfound ⊢
        obtain ⟨found, _, _⟩ := r
        simp only at hfound
        simp [hfound, hpath]
      · obtain ⟨fresh, heq, hsub, hall, hnodup⟩ :=
          @scan_fresh goal avoid visited queue (next x) hgoal
        rw [search, heq]
        apply ih (h.step hregion hgoal hsub hall hnodup)
        simp only [List.length_cons, List.length_append] at hn ⊢
        omega

end Searching

/-- Between two different vertices that are no obstacles the search finds a path exactly if there is
one. -/
theorem hasPathAvoiding_iff (hne : start ≠ goal) (hs : start ∉ avoid) (hg : goal ∉ avoid) :
    g.hasPathAvoiding start goal avoid = true ↔ PathAvoiding g.successors avoid start goal := by
  have hbegin :
      Searching g.successors start goal avoid (start :: g.arcs.map (·.2)) [start] [start] :=
    ⟨by simp, by simp, by simp, by simp, by simp⟩
  rw [hasPathAvoiding, if_neg hne, if_neg (by simp [hs, hg])]
  apply hbegin.search_iff
  · intro v w hw
    obtain ⟨a, ha, he⟩ := List.mem_filterMap.mp hw
    split at he
    · cases he
      exact List.mem_cons_of_mem _ (List.mem_map_of_mem ha)
    · cases he
  · simp

end CrossCall.Flow.Graph

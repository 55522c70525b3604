import CrossCall.Proofs.Semidominator

/-! The forest of linked vertices. The vertices numbered from a threshold on are linked, unless
their parent is `0`; each keeps the best label on the way to its ancestor, and compression only
makes that way longer. -/
namespace CrossCall.Flow

variable {next : Int → List Int} {root a b p r u v w z : Int} {s : Numbering} {σ τ : Int → Nat}
  {n k : Nat} {f : Forest}

theorem look_ok {ν : Type} {t : Table Int ν} {x : ν} (h : t.get? v = some x) :
    look t v = .ok x := by
  simp [look, h]

namespace Numbering

/-- `v` is linked when the vertices numbered from `n` on have been treated. As a parent `0` is taken
for none. -/
def Bound (s : Numbering) (n : Nat) (v : Int) : Prop := n ≤ s.num v ∧ s.parent.get? v ≠ some 0

theorem Bound.mono (h : s.Bound n v) (hk : k ≤ n) : s.Bound k v := ⟨Nat.le_trans hk h.1, h.2⟩

theorem Bound.succ (h : s.Bound (s.num w) v) (hv : v ∈ s.order) (hne : v ≠ w) :
    s.Bound (s.num w + 1) v :=
  ⟨Nat.lt_of_le_of_ne h.1 fun he => hne (num_inj hv he.symm), h.2⟩

theorem Above.exists_child (h : s.Above a v) (hne : a ≠ v) :
    ∃ c, s.parent.get? c = some a ∧ s.Above c v := by
  induction h with
  | refl => exact (hne rfl).elim
  | @up p x hp _ ih =>
    by_cases ha : a = p
    · exact ⟨x, ha ▸ hp, .refl⟩
    · obtain ⟨c, hc, hcp⟩ := ih ha
      exact ⟨c, hc, .up hp hcp⟩

end Numbering

/-- A vertex on the way down the tree cuts it in two. -/
theorem Spans.between_split (h : Spans next root s) (hv : v ∈ s.order) (ha : s.Above a v)
    (hra : s.num r < s.num a) (hz : s.Between r z v) : s.Between r z a ∨ s.Between a z v := by
  rcases Nat.lt_or_ge (s.num a) (s.num z) with hlt | hle
  · exact .inr ⟨h.above_of_le ha hz.2.2 hv (by omega), by rintro rfl; omega, hz.2.2⟩
  · exact .inl ⟨hz.1, hz.2.1, h.above_of_le hz.2.2 ha hv hle⟩

/-- Below a parent, the way to `v` starts with the child above `v`. -/
theorem Spans.child_le (h : Spans next root s) (hv : v ∈ s.order) (hp : s.parent.get? w = some p)
    (hw : s.Above w v) (hz : s.Between p z v) : s.num w ≤ s.num z := by
  by_contra hlt
  have hwm := h.above_mem hw hv
  have hzw := h.above_of_le hz.2.2 hw hv (by omega)
  rcases hzw.eq_or_parent hp with rfl | hzp
  · omega
  · have := h.above_le hzp (h.parent_spec hwm hp).1
    have := h.between_lt hz hv
    omega

/-- `u` has the least value between `a` and `v`, where all is linked. -/
structure Best (s : Numbering) (σ : Int → Nat) (n : Nat) (a v u : Int) : Prop where
  between : s.Between a u v
  linked : ∀ z, s.Between a z v → s.Bound n z
  least : ∀ z, s.Between a z v → σ u ≤ σ z

/-- The tables agree with the values `σ` and with links of all vertices numbered from `n` on. -/
structure Linked (s : Numbering) (σ : Int → Nat) (n : Nat) (f : Forest) : Prop where
  semi : ∀ v ∈ s.order, f.semi.get? v = some (σ v)
  low : ∀ v ∈ s.order, ¬ s.Bound n v → f.ancestor.get? v = some 0 ∧ f.label.get? v = some v
  high : ∀ v ∈ s.order, s.Bound n v →
    ∃ a u, f.ancestor.get? v = some a ∧ f.label.get? v = some u ∧ Best s σ n a v u

namespace Best

theorem above (h : Best s σ n a v u) : s.Above a v := h.between.1.trans h.between.2.2

theorem lt (h : Best s σ n a v u) (hs : Spans next root s) (hv : v ∈ s.order) :
    s.num a < s.num v := by
  have := hs.between_lt h.between hv
  have := hs.above_le h.between.2.2 hv
  omega

theorem mono (h : Best s σ n a v u) (hk : k ≤ n) : Best s σ k a v u :=
  ⟨h.between, fun z hz => (h.linked z hz).mono hk, h.least⟩

/-- A stretch of linked vertices does not hang below `0`. -/
theorem top_ne_zero (h : Best s σ n a v u) (hs : Spans next root s) (hv : v ∈ s.order) : a ≠ 0 := by
  have hav : a ≠ v := by
    rintro rfl
    exact Nat.lt_irrefl _ (h.lt hs hv)
  obtain ⟨c, hc, hcv⟩ := h.above.exists_child hav
  have hca : c ≠ a := by
    rintro rfl
    exact Nat.lt_irrefl _ (hs.parent_spec (hs.above_mem hcv hv) hc).2.2
  have hbound := h.linked c ⟨.up hc .refl, hca, hcv⟩
  rintro rfl
  exact hbound.2 hc

/-- The best labels of two stretches, one below the other, give the best one of both. -/
theorem append (hb : Best s σ n r a b) (hu : Best s σ n a v u) (hs : Spans next root s)
    (hv : v ∈ s.order) :
    Best s σ n r v (if σ b < σ u then b else u) := by
  have ha := hs.above_mem hu.above hv
  have hra := hb.lt hs ha
  have hau := hs.between_lt hu.between hv
  have hsplit := fun z => hs.between_split (z := z) hv hu.above hra
  refine ⟨?_, ?_, ?_⟩
  · split
    · exact ⟨hb.between.1, hb.between.2.1, hb.between.2.2.trans hu.above⟩
    · exact ⟨hb.above.trans hu.between.1, by rintro rfl; omega, hu.between.2.2⟩
  · intro z hz
    rcases hsplit z hz with hz | hz
    · exact hb.linked z hz
    · exact hu.linked z hz
  · intro z hz
    rcases hsplit z hz with hz | hz
    · have := hb.least z hz
      split <;> omega
    · have := hu.least z hz
      split <;> omega

end Best

/-- What evaluation finds from `v`: a vertex `u` of least value on the way down from the first
vertex `r` above that is not linked. -/
structure Found (s : Numbering) (σ : Int → Nat) (n : Nat) (r v u : Int) : Prop where
  top_above : s.Above r u
  above : s.Above u v
  top : ¬ s.Bound n r
  linked : ∀ z, s.Between r z v → s.Bound n z
  least : ∀ z, s.Above r z → s.Above z v → σ u ≤ σ z

namespace Found

theorem below (h : Found s σ n r v u) (hs : Spans next root s) (hv : v ∈ s.order)
    (hz : s.Between u z v) :
    s.Bound n z := by
  have := hs.between_lt hz hv
  have := hs.above_le h.top_above (hs.above_mem h.above hv)
  exact h.linked z ⟨h.top_above.trans hz.1, by rintro rfl; omega, hz.2.2⟩

/-- From a vertex that is not linked it finds itself. -/
theorem eq_self (h : Found s σ n r v u) (hs : Spans next root s) (hv : v ∈ s.order)
    (hn : ¬ s.Bound n v) : u = v := by
  by_contra hne
  exact hn (h.below hs hv ⟨h.above, Ne.symm hne, .refl⟩)

/-- If no vertex but the root may be `0`, all treated vertices above `v` are taken into account. -/
theorem least_all (h : Found s σ n r v u) (hs : Spans next root s) (hzero : 0 ∈ s.order → root = 0)
    (hn : 0 < n) (hv : v ∈ s.order) (hzv : s.Above z v) (hnz : n ≤ s.num z) : σ u ≤ σ z := by
  have hrv := h.top_above.trans h.above
  have hrm := hs.above_mem hrv hv
  refine h.least z (hs.above_of_le hrv hzv hv ?_) hzv
  -- Above a vertex that is not linked, nothing has been treated.
  by_contra hlt
  have hpar : s.parent.get? r = some 0 := by
    by_contra hp
    exact h.top ⟨by omega, hp⟩
  obtain ⟨h0, -, -⟩ := hs.parent_spec hrm hpar
  rcases (hs.above_of_le hzv hrv hv (by omega)).eq_or_parent hpar with rfl | hz
  · omega
  · have := hs.above_le hz h0
    rw [← hzero h0, hs.num_root] at this
    omega

end Found

namespace Linked

theorem labelSemi_ok (hl : Linked s σ n f) (hu : u ∈ s.order) (h : f.label.get? v = some u) :
    f.labelSemi v = .ok (σ u) := by
  unfold Forest.labelSemi
  rw [look_ok h]
  exact look_ok (hl.semi u hu)

/-- A vertex has no ancestor exactly if it is not linked. -/
theorem ancestor_zero (hl : Linked s σ n f) (hs : Spans next root s) (hv : v ∈ s.order)
    (h : f.ancestor.get? v = some a) : a = 0 ↔ ¬ s.Bound n v := by
  constructor
  · rintro rfl hn
    obtain ⟨a, u, ha, _, hb⟩ := hl.high v hv hn
    rw [h] at ha
    cases ha
    exact hb.top_ne_zero hs hv rfl
  · intro hn
    rw [(hl.low v hv hn).1] at h
    cases h
    rfl

/-- Another ancestor and label for one linked vertex. -/
theorem update {ancestor label : Table Int Int} (hl : Linked s σ n f) (hn : s.Bound n v)
    (ha : ∀ x, ancestor.get? x = if x = v then some a else f.ancestor.get? x)
    (hu : ∀ x, label.get? x = if x = v then some u else f.label.get? x)
    (hb : Best s σ n a v u) : Linked s σ n { f with ancestor, label } where
  semi := hl.semi
  low := by
    intro x hx hxn
    have hne : x ≠ v := by
      rintro rfl
      exact hxn hn
    simpa [ha, hu, hne] using hl.low x hx hxn
  high := by
    intro x hx hxn
    by_cases hxv : x = v
    · subst hxv
      exact ⟨a, u, by simp [ha], by simp [hu], hb⟩
    · simpa [ha, hu, hxv] using hl.high x hx hxn

/-- Compression hangs `v` right under the root of its tree and leaves later vertices alone. -/
theorem compress (hl : Linked s σ n f) (hs : Spans next root s) (hv : v ∈ s.order)
    (hn : s.Bound n v) (hk : s.num v < k) :
    ∃ ancestor label r u, f.compress k v = .ok { f with ancestor, label } ∧
      Linked s σ n { f with ancestor, label } ∧
      (ancestor.get? v = some r ∧ label.get? v = some u ∧ Best s σ n r v u ∧ ¬ s.Bound n r) ∧
      ∀ x ∈ s.order, s.num v < s.num x →
        ancestor.get? x = f.ancestor.get? x ∧ label.get? x = f.label.get? x := by
  induction k generalizing v f with
  | zero => omega
  | succ k ih =>
    obtain ⟨a, u, ha, hu, hb⟩ := hl.high v hv hn
    have ham := hs.above_mem hb.above hv
    have hlt := hb.lt hs hv
    obtain ⟨top, htop⟩ : ∃ top, f.ancestor.get? a = some top := by
      by_cases han : s.Bound n a
      · obtain ⟨r, _, hr, _⟩ := hl.high a ham han
        exact ⟨r, hr⟩
      · exact ⟨0, (hl.low a ham han).1⟩
    by_cases han : s.Bound n a
    · have htop0 : top ≠ 0 := fun he => (hl.ancestor_zero hs ham htop).mp he han
      obtain ⟨anc, lab, r, b, hrun, hl', ⟨hr, hlb, hbest, hrn⟩, hframe⟩ := ih hl ham han (by omega)
      have hva : anc.get? v = some a := (hframe v hv hlt).1.trans ha
      have hvu : lab.get? v = some u := (hframe v hv hlt).2.trans hu
      have hbm := hs.above_mem hbest.between.2.2 ham
      have hum := hs.above_mem hb.between.2.2 hv
      -- The new label of `v` is the better one of its own and its ancestor's.
      let label := if σ b < σ u then lab.insert v b else lab
      have hlabel : ∀ x, label.get? x = if x = v then some (if σ b < σ u then b else u)
          else lab.get? x := by
        intro x
        by_cases hx : x = v <;> by_cases hlt : σ b < σ u <;> simp [label, hx, hlt, hvu]
      have hbv := hbest.append hb hs hv
      refine ⟨anc.insert v r, label, r, _, ?_,
        hl'.update hn (Table.get?_insert anc v · r) hlabel hbv,
        ⟨by simp, by simp [hlabel], hbv, hrn⟩, ?_⟩
      · simp only [Forest.compress, look_ok ha, look_ok htop, hrun, look_ok hva, look_ok hlb,
          hl'.labelSemi_ok hbm hlb, hl'.labelSemi_ok hum hvu, htop0, bind, Except.bind, pure,
          Except.pure, if_false]
        by_cases hlt : σ b < σ u <;> simp [label, hlt, look_ok hr]
      · intro x hx hvx
        have hxv : x ≠ v := by
          rintro rfl
          omega
        obtain ⟨hfa, hfl⟩ := hframe x hx (by omega)
        simp [hlabel, hxv, hfa, hfl]
    · refine ⟨f.ancestor, f.label, a, u, ?_, hl, ⟨ha, hu, hb, han⟩, fun _ _ _ => ⟨rfl, rfl⟩⟩
      simp [Forest.compress, look_ok ha, look_ok htop, (hl.ancestor_zero hs ham htop).mpr han,
        bind, Except.bind, pure, Except.pure]

/-- Evaluation finds a vertex of least value on the way up to the first vertex that is not
linked. -/
theorem eval (hl : Linked s σ n f) (hs : Spans next root s) (hv : v ∈ s.order) (hk : s.num v < k) :
    ∃ r u ancestor label, f.eval k v = .ok (u, { f with ancestor, label }) ∧
      Linked s σ n { f with ancestor, label } ∧ Found s σ n r v u := by
  by_cases hn : s.Bound n v
  · obtain ⟨a, _, ha, _, _⟩ := hl.high v hv hn
    have ha0 : a ≠ 0 := fun he => (hl.ancestor_zero hs hv ha).mp he hn
    obtain ⟨ancestor, label, r, u, hrun, hl', ⟨hr, hu, hb, hrn⟩, _⟩ := hl.compress hs hv hn hk
    have hrm := hs.above_mem hb.above hv
    have hum := hs.above_mem hb.between.2.2 hv
    have hrr := (hl'.low r hrm hrn).2
    have heval : f.eval k v = .ok (if σ r ≥ σ u then u else r, { f with ancestor, label }) := by
      simp only [Forest.eval, look_ok ha, ha0, hrun, look_ok hr, look_ok hu, look_ok hrr,
        hl'.labelSemi_ok hrm hrr, hl'.labelSemi_ok hum hu, bind, Except.bind, pure, Except.pure,
        if_false]
      split <;> rfl
    have hleast : ∀ z, s.Above r z → s.Above z v → σ r ≤ σ z ∨ σ u ≤ σ z := by
      intro z hrz hzv
      by_cases hzr : z = r
      · exact .inl (hzr ▸ Nat.le_refl _)
      · exact .inr (hb.least z ⟨hrz, hzr, hzv⟩)
    refine ⟨r, _, ancestor, label, heval, hl', ?_⟩
    split
    · refine ⟨hb.between.1, hb.between.2.2, hrn, hb.linked, fun z hrz hzv => ?_⟩
      have := hleast z hrz hzv
      omega
    · refine ⟨.refl, hb.above, hrn, hb.linked, fun z hrz hzv => ?_⟩
      have := hleast z hrz hzv
      omega
  · obtain ⟨ha, hu⟩ := hl.low v hv hn
    refine ⟨v, v, f.ancestor, f.label, ?_, hl, .refl, .refl, hn, ?_, ?_⟩
    · simp [Forest.eval, look_ok ha, look_ok hu, bind, Except.bind, pure, Except.pure]
    · intro z hz
      have := hs.between_lt hz hv
      have := hs.above_le hz.2.2 hv
      omega
    · intro z hvz hzv
      have := hs.above_le hvz (hs.above_mem hzv hv)
      have := hs.above_le hzv hv
      rw [Numbering.num_inj hv (by omega : s.num v = s.num z)]

/-! ### Steps -/

/-- Other values for vertices that are not linked. -/
theorem revalue {semi : Table Int Nat} (hl : Linked s σ n f) (hs : Spans next root s)
    (hsemi : ∀ v ∈ s.order, semi.get? v = some (τ v))
    (hτ : ∀ v ∈ s.order, n ≤ s.num v → τ v = σ v) : Linked s τ n { f with semi } where
  semi := hsemi
  low := hl.low
  high := by
    intro v hv hn
    obtain ⟨a, u, ha, hu, hb⟩ := hl.high v hv hn
    refine ⟨a, u, ha, hu, hb.between, hb.linked, ?_⟩
    intro z hz
    rw [hτ z (hs.above_mem hz.2.2 hv) (hb.linked z hz).1,
      hτ u (hs.above_mem hb.between.2.2 hv) (hb.linked u hb.between).1]
    exact hb.least z hz

/-- A predecessor lowers the value of `w`, which is not linked yet, to that of the vertex found from
it. -/
theorem relax (hl : Linked s σ (s.num w + 1) f) (hs : Spans next root s) (hw : w ∈ s.order)
    (hv : v ∈ s.order) :
    ∃ r u g, Found s σ (s.num w + 1) r v u ∧ f.relax s.order.length w v = .ok g ∧
      Linked s (Function.update σ w (min (σ u) (σ w))) (s.num w + 1) g ∧ g.idom = f.idom ∧
      g.bucket = f.bucket := by
  obtain ⟨r, u, ancestor, label, hrun, hl', hfound⟩ := hl.eval hs hv (Numbering.num_lt_length hv)
  have hum := hs.above_mem hfound.above hv
  by_cases hlt : σ u < σ w
  · refine ⟨r, u, { f with ancestor, label, semi := f.semi.insert w (σ u) }, hfound, ?_, ?_, rfl,
      rfl⟩
    · simp [Forest.relax, hrun, look_ok (hl'.semi u hum), look_ok (hl'.semi w hw), hlt, bind,
        Except.bind, pure, Except.pure]
    · rw [Nat.min_eq_left (Nat.le_of_lt hlt)]
      apply hl'.revalue hs
      · intro z hz
        by_cases hzw : z = w
        · simp [hzw]
        · simpa [hzw] using hl'.semi z hz
      · intro z _ hz
        have hzw : z ≠ w := by
          rintro rfl
          omega
        simp [hzw]
  · refine ⟨r, u, { f with ancestor, label }, hfound, ?_, ?_, rfl, rfl⟩
    · simp [Forest.relax, hrun, look_ok (hl'.semi u hum), look_ok (hl'.semi w hw), hlt, bind,
        Except.bind, pure, Except.pure]
    · rwa [Nat.min_eq_right (by omega), Function.update_eq_self]

/-- A vertex that waited is given the vertex found from it, if that has a smaller value, and else
the parent `p`. -/
theorem settle (hl : Linked s σ n f) (hs : Spans next root s) (hv : v ∈ s.order) (p : Int) :
    ∃ r u ancestor label, Found s σ n r v u ∧ f.settle s.order.length p v =
        .ok { f with ancestor, label, idom := f.idom.insert v (if σ u < σ v then u else p) } ∧
      Linked s σ n { f with ancestor, label } := by
  obtain ⟨r, u, ancestor, label, hrun, hl', hfound⟩ := hl.eval hs hv (Numbering.num_lt_length hv)
  have hum := hs.above_mem hfound.above hv
  refine ⟨r, u, ancestor, label, hfound, ?_, hl'⟩
  simp [Forest.settle, hrun, look_ok (hl'.semi u hum), look_ok (hl'.semi v hv), bind, Except.bind,
    pure, Except.pure]

/-- The vertex right below the threshold may be linked to its parent. -/
theorem link (hl : Linked s σ (s.num w + 1) f) (hs : Spans next root s) (hw : w ∈ s.order)
    (hp : s.parent.get? w = some p) (hp0 : p ≠ 0) :
    Linked s σ (s.num w) { f with ancestor := f.ancestor.insert w p } where
  semi := hl.semi
  low := by
    intro x hx hn
    have hne : x ≠ w := by
      rintro rfl
      exact hn ⟨Nat.le_refl _, by simpa [hp] using hp0⟩
    simpa [hne] using hl.low x hx fun h => hn (h.mono (Nat.le_succ _))
  high := by
    intro x hx hn
    by_cases hxw : x = w
    · subst hxw
      have hlt := (hs.parent_spec hw hp).2.2
      have hself : ∀ z, s.Between p z x → z = x := by
        intro z hz
        have hxz := hs.child_le hw hp .refl hz
        have hzx := hs.above_le hz.2.2 hw
        exact (Numbering.num_inj hw (by omega)).symm
      refine ⟨p, x, by simp, (hl.low x hw fun h => Nat.not_succ_le_self _ h.1).2,
        ⟨.up hp .refl, ?_, .refl⟩, ?_, ?_⟩
      · rintro rfl
        omega
      · exact fun z hz => hself z hz ▸ hn
      · exact fun z hz => hself z hz ▸ Nat.le_refl _
    · obtain ⟨a, u, ha, hu, hb⟩ := hl.high x hx (hn.succ hx hxw)
      exact ⟨a, u, by simpa [hxw] using ha, hu, hb.mono (Nat.le_succ _)⟩

/-- A vertex below `0` is not linked. -/
theorem pass (hl : Linked s σ (s.num w + 1) f) (hp : s.parent.get? w = some 0) :
    Linked s σ (s.num w) f where
  semi := hl.semi
  low := fun x hx hn => hl.low x hx fun h => hn (h.mono (Nat.le_succ _))
  high := by
    intro x hx hn
    have hxw : x ≠ w := by
      rintro rfl
      exact hn.2 hp
    obtain ⟨a, u, ha, hu, hb⟩ := hl.high x hx (hn.succ hx hxw)
    exact ⟨a, u, ha, hu, hb.mono (Nat.le_succ _)⟩

end Linked

end CrossCall.Flow

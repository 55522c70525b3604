import CrossCall.Proofs.DepthFirst

/-! Semidominators over a depth-first tree. A bypass reaches a vertex past later numbers only; the
earliest start of a bypass is the semidominator, and immediate dominators are read off the
semidominators between it and the vertex. -/
namespace CrossCall.Flow

variable {next : Int → List Int} {root a d e m u v w x y z : Int} {xs : List Int} {s : Numbering}

/-- A way from the last argument to `w` on which all vertices strictly between have numbers after
`w`. -/
inductive Bypass (next : Int → List Int) (s : Numbering) (w : Int) : Int → Prop
  | arc {a : Int} : w ∈ next a → Bypass next s w a
  | step {a m : Int} : m ∈ next a → s.num w < s.num m → Bypass next s w m → Bypass next s w a

/-- The least number at which a bypass to `w` starts. -/
noncomputable def semi (next : Int → List Int) (s : Numbering) (w : Int) : Nat :=
  sInf {n | ∃ a ∈ s.order, Bypass next s w a ∧ s.num a = n}

theorem semi_le (ha : a ∈ s.order) (hb : Bypass next s w a) : semi next s w ≤ s.num a :=
  Nat.sInf_le ⟨a, ha, hb, rfl⟩

namespace Bypass

/-- One bypass after another is a bypass, if the later target has the earlier number. -/
theorem trans (hu : Bypass next s u a) (hw : Bypass next s w u) (hlt : s.num w < s.num u) :
    Bypass next s w a := by
  induction hu with
  | arc hm => exact .step hm hlt hw
  | step hm hlt' _ ih => exact .step hm (by omega) ih

theorem walk (h : Bypass next s w a) :
    ∃ xs, Walk next a xs w ∧ ∀ x ∈ xs, x = a ∨ x = w ∨ s.num w < s.num x := by
  induction h with
  | @arc a hm => exact ⟨[a, w], .step hm .here, by simp⟩
  | @step a m hm hlt _ ih =>
    obtain ⟨xs, hw, hx⟩ := ih
    refine ⟨a :: xs, .step hm hw, ?_⟩
    intro x hxa
    rcases List.mem_cons.mp hxa with rfl | hxa
    · exact .inl rfl
    · rcases hx x hxa with rfl | hx
      · exact .inr (.inr hlt)
      · exact .inr hx

end Bypass

namespace Spans

theorem bypass_mem (h : Spans next root s) (hb : Bypass next s w a) (ha : a ∈ s.order) :
    w ∈ s.order := by
  induction hb with
  | arc hm => exact h.closed _ ha _ hm
  | step hm _ _ ih => exact ih (h.closed _ ha _ hm)

/-- A bypass that starts before its target starts above it. -/
theorem bypass_above (h : Spans next root s) (hb : Bypass next s w a) (ha : a ∈ s.order)
    (hlt : s.num a < s.num w) : s.Above a w := by
  cases hb with
  | arc hm => exact h.forward a ha w hm hlt
  | @step a m hm hwm hb =>
    have hmm := h.closed a ha m hm
    have ham := h.forward a ha m hm (by omega)
    exact h.above_interval ham (h.bypass_mem hb hmm) hmm (by omega) (by omega)

/-- A bypass may start higher in the tree, if all below the new start have later numbers. -/
theorem bypass_up (h : Spans next root s) (hb : Bypass next s w v) (huv : s.Above u v)
    (hv : v ∈ s.order) (hz : ∀ z, s.Between u z v → s.num w < s.num z) : Bypass next s w u := by
  induction huv with
  | refl => exact hb
  | @up p x hp hup ih =>
    obtain ⟨hpm, hn, hlt⟩ := h.parent_spec hv hp
    have hne : x ≠ u := by
      rintro rfl
      have := h.above_le hup hpm
      omega
    apply ih (.step hn (hz x ⟨.up hp hup, hne, .refl⟩) hb) hpm
    exact fun z hb => hz z ⟨hb.1, hb.2.1, .up hp hb.2.2⟩

/-- The first part of a bypass ends at a vertex from which the tree leads to the last arc. -/
theorem bypass_split (h : Spans next root s) (hb : Bypass next s w a) (ha : a ∈ s.order) :
    ∃ v ∈ s.order, w ∈ next v ∧
      (v = a ∨ ∃ u, s.num w < s.num u ∧ s.Above u v ∧ Bypass next s u a) := by
  induction hb with
  | @arc a hm => exact ⟨a, ha, hm, .inl rfl⟩
  | @step a m hm hlt hb ih =>
    have hmm := h.closed a ha m hm
    obtain ⟨v, hv, hw, rfl | ⟨u, hu, huv, hbu⟩⟩ := ih hmm
    · exact ⟨v, hv, hw, .inr ⟨v, hlt, .refl, .arc hm⟩⟩
    · refine ⟨v, hv, hw, .inr ?_⟩
      rcases Nat.lt_trichotomy (s.num m) (s.num u) with hmu | hmu | hmu
      · exact ⟨m, hlt, (h.bypass_above hbu hmm hmu).trans huv, .arc hm⟩
      · rw [← Numbering.num_inj hmm hmu] at huv
        exact ⟨m, hlt, huv, .arc hm⟩
      · exact ⟨u, hu, huv, .step hm hmu hbu⟩

theorem exists_semi (h : Spans next root s) (hw : w ∈ s.order) (hr : w ≠ root) :
    ∃ a ∈ s.order, Bypass next s w a ∧ s.num a = semi next s w := by
  obtain ⟨p, hp, _, hn, _⟩ := h.parent w hw hr
  exact Nat.sInf_mem (s := {n | ∃ a ∈ s.order, Bypass next s w a ∧ s.num a = n})
    ⟨_, p, hp, .arc hn, rfl⟩

theorem semi_lt (h : Spans next root s) (hw : w ∈ s.order) (hr : w ≠ root) :
    semi next s w < s.num w := by
  obtain ⟨p, hp, _, hn, hlt⟩ := h.parent w hw hr
  exact Nat.lt_of_le_of_lt (semi_le hp (.arc hn)) hlt

/-- The semidominator as a vertex: the start of a bypass, above its target. -/
theorem semi_vertex (h : Spans next root s) (hw : w ∈ s.order) (hr : w ≠ root) (hd : d ∈ s.order)
    (hn : s.num d = semi next s w) : Bypass next s w d ∧ s.Above d w ∧ d ≠ w := by
  obtain ⟨a, ha, hb, hna⟩ := h.exists_semi hw hr
  have hlt := h.semi_lt hw hr
  obtain rfl : a = d := Numbering.num_inj ha (hna.trans hn.symm)
  refine ⟨hb, h.bypass_above hb ha (by omega), ?_⟩
  rintro rfl
  omega

/-! ### Dominators -/

theorem dominates_above (h : Spans next root s) (hd : Dominates next root d v) (hv : v ∈ s.order) :
    s.Above d v := by
  obtain ⟨xs, hw, hx⟩ := h.tree_walk (h.root_above hv) hv
  exact (hx d (hd xs hw)).2

/-- What dominates a vertex strictly dominates the start of every bypass to it. -/
theorem dominates_bypass (h : Spans next root s) (he : Dominates next root e w) (hne : e ≠ w)
    (hb : Bypass next s w a) (ha : a ∈ s.order) : Dominates next root e a := by
  by_cases hea : e = a
  · rw [hea]
    exact .refl
  · have hw := h.bypass_mem hb ha
    have hle := h.above_le (h.dominates_above he hw) hw
    obtain ⟨xs, hwalk, hx⟩ := hb.walk
    apply he.of_walk hwalk
    intro hex
    rcases hx e hex with hx | hx | hx
    · exact hea hx
    · exact hne hx
    · omega

/-- What dominates a vertex dominates those above it that have later numbers than itself. -/
theorem dominates_up (h : Spans next root s) (he : Dominates next root e u) (hu : u ∈ s.order)
    (hzu : s.Above z u) (hlt : s.num e < s.num z) : Dominates next root e z := by
  obtain ⟨xs, hwalk, hx⟩ := h.tree_walk hzu hu
  apply he.of_walk hwalk
  intro hex
  have := h.above_le (hx e hex).1 (h.above_mem (hx e hex).2 hu)
  omega

/-- A walk around a vertex `d` above `w` comes down to a vertex between the two by a bypass that
starts before `d`. -/
theorem bypass_around (h : Spans next root s) (hwalk : Walk next a xs w) (ha : a ∈ s.order)
    (hw : w ∈ s.order) (hdw : s.Above d w) (hd : d ∉ xs) :
    (∃ x y, x ∈ s.order ∧ s.num x < s.num d ∧ Bypass next s y x ∧ s.Between d y w) ∨
      s.num d < s.num a ∧ ∃ y, s.Between d y w ∧
      (y = a ∨ s.num y < s.num a ∧ Bypass next s y a) := by
  induction hwalk with
  | @here a =>
    have hne : a ≠ d := fun he => hd (by simp [he])
    exact .inr ⟨h.above_lt hdw ha hne.symm, a, ⟨hdw, hne, .refl⟩, .inl rfl⟩
  | @step a m w xs hm hwalk ih =>
    simp only [List.mem_cons, not_or] at hd
    have hmm := h.closed a ha m hm
    rcases ih hmm hw hdw hd.2 with hl | ⟨hdm, y, hy, hya⟩
    · exact .inl hl
    · have hb : Bypass next s y a := by
        rcases hya with rfl | ⟨hlt, hb⟩
        · exact .arc hm
        · exact .step hm hlt hb
      have hym := h.above_mem hy.2.2 hw
      have hda : s.num a ≠ s.num d := fun he => hd.1 (Numbering.num_inj ha he).symm
      rcases Nat.lt_or_gt_of_ne hda with hlt | hlt
      · exact .inl ⟨a, y, ha, hlt, hb, hy⟩
      · refine .inr ⟨hlt, ?_⟩
        -- Either the walk is on the tree path already, or the bypass starts after its target.
        by_cases haw : s.Above a w
        · exact ⟨a, ⟨h.above_of_le hdw haw hw (by omega), fun he => hd.1 he.symm, haw⟩, .inl rfl⟩
        · refine ⟨y, hy, .inr ⟨?_, hb⟩⟩
          rcases Nat.lt_trichotomy (s.num y) (s.num a) with hya | hya | hya
          · exact hya
          · rw [Numbering.num_inj hym hya] at hy
            exact (haw hy.2.2).elim
          · exact (haw ((h.bypass_above hb ha hya).trans hy.2.2)).elim

/-- A vertex above `w` dominates it, if no bypass from before it ends between the two. -/
theorem dominates_of_semi (h : Spans next root s) (hw : w ∈ s.order) (hdw : s.Above d w)
    (hs : ∀ z, s.Between d z w → s.num d ≤ semi next s z) : Dominates next root d w := by
  by_contra hn
  obtain ⟨xs, hwalk, hd⟩ := Dominates.not_iff.mp hn
  rcases h.bypass_around hwalk h.root_mem hw hdw hd with ⟨x, y, hx, hlt, hb, hy⟩ | ⟨hlt, _⟩
  · have := hs y hy
    have := semi_le hx hb
    omega
  · rw [h.num_root] at hlt
    omega

/-- If no semidominator between is earlier than that of `w`, the latter is the immediate
dominator. -/
theorem immediate_of_semi (h : Spans next root s) (hw : w ∈ s.order) (hr : w ≠ root)
    (hd : d ∈ s.order) (hn : s.num d = semi next s w)
    (hs : ∀ z, s.Between d z w → semi next s w ≤ semi next s z) :
    ImmediatelyDominates next root d w := by
  obtain ⟨hb, hdw, hne⟩ := h.semi_vertex hw hr hd hn
  refine ⟨hne, h.dominates_of_semi hw hdw ?_, ?_⟩
  · intro z hz
    have := hs z hz
    omega
  · intro e hne he
    exact h.dominates_bypass he hne hb hd

/-- Otherwise a vertex between with the earliest semidominator has the same immediate dominator as
`w`. -/
theorem immediate_of_least (h : Spans next root s) (hw : w ∈ s.order) (hr : w ≠ root)
    (hd : d ∈ s.order) (hn : s.num d = semi next s w) (hu : s.Between d u w)
    (hs : ∀ z, s.Between d z w → semi next s u ≤ semi next s z)
    (hi : ImmediatelyDominates next root e u) : ImmediatelyDominates next root e w := by
  obtain ⟨hb, hdw, _⟩ := h.semi_vertex hw hr hd hn
  have hum := h.above_mem hu.2.2 hw
  have hur : u ≠ root := by
    rintro rfl
    have := h.between_lt hu hw
    rw [h.num_root] at this
    omega
  obtain ⟨heu, hdom, hleast⟩ := hi
  have heabove := h.dominates_above hdom hum
  have hlt := h.above_lt heabove hum heu
  have hle := h.above_le hu.2.2 hw
  -- `e` comes before the semidominator of `u`.
  obtain ⟨a, ha, hba, hna⟩ := h.exists_semi hum hur
  have hea := h.above_le (h.dominates_above (h.dominates_bypass hdom heu hba ha) ha) ha
  refine ⟨?_, h.dominates_of_semi hw (heabove.trans hu.2.2) ?_, ?_⟩
  · rintro rfl
    omega
  · intro z hz
    by_contra hlt
    have hzm := h.above_mem hz.2.2 hw
    have hez := h.between_lt hz hw
    -- An earlier semidominator cannot lie between `d` and `w`, so `z` is above `u`.
    have hzu : s.Above z u := by
      rcases Nat.lt_or_ge (s.num d) (s.num z) with hdz | hdz
      · have := hs z ⟨h.above_of_le hdw hz.2.2 hw (by omega), by rintro rfl; omega, hz.2.2⟩
        omega
      · exact (h.above_of_le hz.2.2 hdw hw hdz).trans hu.1
    have hzr : z ≠ root := by
      rintro rfl
      rw [h.num_root] at hez
      omega
    obtain ⟨x, hx, hbx, hnx⟩ := h.exists_semi hzm hzr
    have hdx := h.dominates_bypass (h.dominates_up hdom hum hzu hez) hz.2.1.symm hbx hx
    have := h.above_le (h.dominates_above hdx hx) hx
    omega
  · intro f hfw hf
    have hfd := h.above_le (h.dominates_above (h.dominates_bypass hf hfw hb hd) hd) hd
    have hdu := h.between_lt hu hw
    apply hleast
    · rintro rfl
      omega
    · exact h.dominates_up hf hw hu.2.2 (by omega)

end Spans

end CrossCall.Flow

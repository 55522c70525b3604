import CrossCall.Proofs.Passes

/-! The dominator computation. The values of the first pass are semidominators; a vertex is settled
with its semidominator or with a vertex between that has the same immediate dominator, and the
second pass turns the one into the other. No vertex but the root may be `0`; how deep the graph is
does not matter, as depth is not bounded. -/
namespace CrossCall.Flow

variable {next : Int → List Int} {root a c d p r u v w z : Int} {s : Numbering} {σ τ : Int → Nat}
  {f g : Forest} {ps : List Int}

/-! ### Semidominators -/

/-- In the first pass the value of a treated vertex is its semidominator. -/
abbrev SemiValued (next : Int → List Int) (s : Numbering) : (Int → Nat) → Nat → Prop :=
  Valued s fun v x => x = semi next s v

/-- The value `x` is no later than what a predecessor `v` of `w` offers. -/
def Offered (next : Int → List Int) (s : Numbering) (w v : Int) (x : Nat) : Prop :=
  (s.num v < s.num w → x ≤ s.num v) ∧ ∀ z, s.Above z v → s.num w < s.num z → x ≤ semi next s z

namespace Spans

/-- The least offer is the semidominator. -/
theorem semi_of_offers {x : Nat} (h : Spans next root s) (hw : w ∈ s.order) (hr : w ≠ root)
    (hx : ∀ v ∈ s.order, w ∈ next v → Offered next s w v x) : x ≤ semi next s w := by
  obtain ⟨a, ha, hb, hn⟩ := h.exists_semi hw hr
  have hlt := h.semi_lt hw hr
  obtain ⟨v, hv, hwv, rfl | ⟨u, hwu, huv, hbu⟩⟩ := h.bypass_split hb ha
  · have := (hx v hv hwv).1 (by omega)
    omega
  · have := (hx v hv hwv).2 u huv hwu
    have := semi_le ha hbu
    omega

/-- What is found from a predecessor is no earlier than the semidominator. -/
theorem semi_le_value (h : Spans next root s) (hσ : SemiValued next s σ (s.num w + 1))
    (hv : v ∈ s.order) (hwv : w ∈ next v) (hu : s.Above u v)
    (hz : ∀ z, s.Between u z v → s.num w + 1 ≤ s.num z) :
    semi next s w ≤ σ u := by
  have hum := h.above_mem hu hv
  have hb : Bypass next s w u := h.bypass_up (.arc hwv) hu hv hz
  rcases Nat.lt_or_ge (s.num u) (s.num w + 1) with hlt | hle
  · rw [hσ.low u hum hlt]
    exact semi_le hum hb
  · have hur : u ≠ root := by
      rintro rfl
      rw [h.num_root] at hle
      omega
    obtain ⟨a, ha, hba, hn⟩ := h.exists_semi hum hur
    rw [(hσ.high u hum hle).1, ← hn]
    exact semi_le ha (hba.trans hb hle)

/-- A child of `p` that is not behind `v` is above `v`, if no child of `p` above `v` has a later
number. -/
theorem child_above (h : Spans next root s) (hw : w ∈ s.order) (hv : v ∈ s.order)
    (hp : s.parent.get? w = some p) (hpv : s.Above p v) (hne : p ≠ v) (hle : s.num w ≤ s.num v)
    (hchild : ∀ c, s.parent.get? c = some p → s.Above c v → s.num c < s.num w + 1) :
    s.Above w v := by
  obtain ⟨hpm, _, hpw⟩ := h.parent_spec hw hp
  obtain ⟨c, hc, hcv⟩ := hpv.exists_child hne
  have hcm := h.above_mem hcv hv
  have hcw : s.Above c w := h.above_interval hcv hw hv (by have := hchild c hc hcv; omega) hle
  rcases hcw.eq_or_parent hp with rfl | hcp
  · exact hcv
  · have := h.above_le hcp hpm
    have := (h.parent_spec hcm hc).2.2
    omega

end Spans

section Relaxed

variable {x : Nat} (hs : Spans next root s) (hσ : SemiValued next s σ (s.num w + 1))
  (hps : ∀ v, v ∈ ps ↔ v ∈ s.order ∧ w ∈ next v)

include hs hσ hps

/-- What every predecessor offers is taken into account. -/
theorem Relaxed.offered (h : Relaxed s σ w ps f g x) (hzero : 0 ∈ s.order → root = 0)
    (hv : v ∈ s.order) (hwv : w ∈ next v) : Offered next s w v x := by
  obtain ⟨y, r, u, hfound, hx⟩ := h.bound v ((hps v).mpr ⟨hv, hwv⟩)
  constructor
  · intro hlt
    have hvw : v ≠ w := by
      rintro rfl
      omega
    obtain rfl := hfound.eq_self hs hv fun hb => by have := hb.1; omega
    rwa [Function.update_of_ne hvw, hσ.low u hv (by omega)] at hx
  · intro z hz hlt
    have hzw : z ≠ w := by
      rintro rfl
      omega
    have hle := hfound.least_all hs hzero (Nat.succ_pos _) hv hz hlt
    rw [Function.update_of_ne hzw, (hσ.high z (hs.above_mem hz hv) hlt).1] at hle
    omega

/-- After a look at all predecessors the semidominator of `w` is known. -/
theorem Relaxed.semi_eq (h : Relaxed s σ w ps f g x) (hzero : 0 ∈ s.order → root = 0)
    (hw : w ∈ s.order) (hr : w ≠ root) : x = semi next s w := by
  apply Nat.le_antisymm
  · exact hs.semi_of_offers hw hr fun v hv hwv => h.offered hs hσ hps hzero hv hwv
  · rcases h.attained with hx | ⟨v, hv, y, r, u, hfound, -, hx, -⟩
    · rw [hx, hσ.low w hw (Nat.lt_succ_self _)]
      exact Nat.le_of_lt (hs.semi_lt hw hr)
    · obtain ⟨hvm, hwv⟩ := (hps v).mp hv
      rw [hx]
      exact hs.semi_le_value hσ hvm hwv hfound.above fun z hz => (hfound.below hs hvm hz).1

end Relaxed

/-! ### Settled vertices -/

/-- What a vertex is settled with: its semidominator, if that is the immediate dominator, and
otherwise a vertex between with the same immediate dominator. -/
def StandsFor (next : Int → List Int) (s : Numbering) (v u : Int) : Prop :=
  ∃ d ∈ s.order, s.num d = semi next s v ∧
    (u = d ∧ (∀ z, s.Between d z v → semi next s v ≤ semi next s z) ∨
      s.Between d u v ∧ semi next s u < semi next s v ∧ ∀ z, s.Between d z v →
      semi next s u ≤ semi next s z)

/-- Nothing comes before the root, so a vertex whose semidominator is the root may be settled with
it. -/
theorem standsFor_zero (hs : Spans next root s) (hzero : 0 ∈ s.order → root = 0) (h0 : 0 ∈ s.order)
    (hn : s.num 0 = semi next s w) : StandsFor next s w 0 := by
  have hroot : s.num 0 = 0 := by rw [← hzero h0, hs.num_root]
  exact ⟨0, h0, hn, .inl ⟨rfl, fun z _ => by omega⟩⟩

theorem Waits.standsFor (h : Waits s σ (s.num w) (s.num w + 1) p v) (hs : Spans next root s)
    (hzero : 0 ∈ s.order → root = 0) (hσ : SemiValued next s σ (s.num w)) (hw : w ∈ s.order)
    (hp : s.parent.get? w = some p) (hfound : Found s σ (s.num w) r v u) :
    StandsFor next s v (if σ u < σ v then u else p) := by
  obtain ⟨hpm, _, hpw⟩ := hs.parent_spec hw hp
  have hwv := hs.child_above hw h.mem hp h.above h.ne h.treated h.child
  have hum := hs.above_mem hfound.above h.mem
  have hall : ∀ z, s.Between p z v → σ u ≤ semi next s z := by
    intro z hz
    have hwz := hs.child_le h.mem hp hwv hz
    rw [← (hσ.high z (hs.above_mem hz.2.2 h.mem) hwz).1]
    exact hfound.least_all hs hzero (by omega) h.mem hz.2.2 hwz
  have hsv := (hσ.high v h.mem h.treated).1
  refine ⟨p, hpm, h.value ▸ hsv, ?_⟩
  split
  · rename_i hlt
    -- A vertex before `w` has its own number, which is not before that of `p`.
    have hwu : s.num w ≤ s.num u := by
      by_contra hn
      rw [hσ.low u hum (by omega), h.value] at hlt
      have hup := hs.above_of_le hfound.above h.above h.mem (by omega)
      have := (hfound.below hs h.mem ⟨hup, by rintro rfl; omega, h.above⟩).1
      omega
    rw [(hσ.high u hum hwu).1] at hlt hall
    exact .inr
      ⟨⟨hs.above_of_le h.above hfound.above h.mem (by omega), by rintro rfl; omega, hfound.above⟩,
      hsv ▸ hlt, hall⟩
  · refine .inl ⟨rfl, fun z hz => ?_⟩
    have := hall z hz
    omega

/-- The second pass replaces what a settled vertex stands for. -/
theorem StandsFor.settles (h : StandsFor next s v u) (hs : Spans next root s)
    (hzero : 0 ∈ s.order → root = 0) (hv : v ∈ s.order) (hr : v ≠ root) (hd : d ∈ s.order)
    (hnd : s.num d = semi next s v) :
    Settles root s (ImmediatelyDominates next root) d v u := by
  obtain ⟨d', hd', hnd', hcase⟩ := h
  obtain rfl : d' = d := Numbering.num_inj hd' (hnd'.trans hnd.symm)
  rcases hcase with ⟨rfl, hz⟩ | ⟨hbetween, hlt, hz⟩
  · exact .inl ⟨.inr rfl, hs.immediate_of_semi hv hr hd hnd hz⟩
  · have hum := hs.above_mem hbetween.2.2 hv
    have hdu := hs.between_lt hbetween hv
    have hur : u ≠ root := by
      rintro rfl
      rw [hs.num_root] at hdu
      omega
    have hu0 : u ≠ 0 := fun he => hur (he.trans (hzero (he ▸ hum)).symm)
    have huv : s.num u < s.num v := hs.above_lt hbetween.2.2 hv (by rintro rfl; omega)
    exact .inr ⟨hu0, hbetween.2.1, hum, hur, huv,
      fun e => hs.immediate_of_least hv hr hd hnd hbetween hz⟩

/-! ### Immediate dominators -/

variable {succ : Table Int (List Int)} {vs : List Int}

/-- Both passes succeed and find the immediate dominators of what has a number, if no vertex but the
root is `0`. -/
theorem immediateDominators_reached (hroot : root ∈ vs)
    (hclosed : ∀ v ∈ vs, ∀ w ∈ nextIn succ v, w ∈ vs)
    (hzero : Reaches (nextIn succ) root 0 → root = 0) :
    ∃ f : Forest, immediateDominators vs succ root = .ok (vs.foldl
        (fun t v => if ((numberFrom succ root).number? v).isSome then t else t.insert v root)
        (f.idom.insert root root)) ∧
      ∀ v ∈ (numberFrom succ root).order, v ≠ root →
        ∃ d, f.idom.get? v = some d ∧ ImmediatelyDominates (nextIn succ) root d v := by
  have hs := numberFrom_spans succ root
  have hzero' := fun h => hzero (hs.reaches_iff.mpr h)
  refine immediateDominators_passes (fun v x => x = semi (nextIn succ) (numberFrom succ root) v)
    (fun _ => StandsFor (nextIn succ) (numberFrom succ root))
    (ImmediatelyDominates (nextIn succ) root)
    hroot hclosed rfl ?_ ?_ ?_
  · intro w hw hr σ ps f g x hps hσ hrelaxed
    have hx := hrelaxed.semi_eq hs hσ hps hzero' hw hr
    obtain ⟨d, hd, -, hnd⟩ := hs.exists_semi hw hr
    obtain ⟨-, hdw, hne⟩ := hs.semi_vertex hw hr hd hnd
    refine ⟨hx, d, hdw, hne, hx.trans hnd.symm, ?_⟩
    rintro rfl
    exact standsFor_zero hs hzero' hd hnd
  · exact fun w hw τ hτ p v r u hp hwaits hfound => hwaits.standsFor hs hzero' hτ hw hp hfound
  · exact fun w hw hr d hd u hnd hstands => hstands.settles hs hzero' hw hr hd hnd

theorem immediateDominators_numbered (hroot : root ∈ vs)
    (hclosed : ∀ v ∈ vs, ∀ w ∈ nextIn succ v, w ∈ vs) (hzero : 0 ∉ vs) :
    ∃ f : Forest, immediateDominators vs succ root = .ok (vs.foldl
        (fun t v => if ((numberFrom succ root).number? v).isSome then t else t.insert v root)
        (f.idom.insert root root)) ∧
      ∀ v ∈ (numberFrom succ root).order, v ≠ root →
        ∃ d, f.idom.get? v = some d ∧ ImmediatelyDominates (nextIn succ) root d v :=
  immediateDominators_reached hroot hclosed fun h => (hzero (h.invariant hroot hclosed)).elim

/-- Every listed vertex that can be reached gets its immediate dominator; the root and all others
get the root. -/
theorem immediateDominators_correct (hroot : root ∈ vs)
    (hclosed : ∀ v ∈ vs, ∀ w ∈ nextIn succ v, w ∈ vs) (hzero : 0 ∉ vs) :
    ∃ idom, immediateDominators vs succ root = .ok idom ∧ idom.get? root = some root ∧
      (∀ v ∈ vs, v ≠ root → Reaches (nextIn succ) root v →
        ∃ d, idom.get? v = some d ∧ ImmediatelyDominates (nextIn succ) root d v) ∧
      ∀ v ∈ vs, ¬ Reaches (nextIn succ) root v → idom.get? v = some root := by
  obtain ⟨f, hrun, hall⟩ := immediateDominators_numbered hroot hclosed hzero
  have hs := numberFrom_spans succ root
  refine ⟨_, hrun, ?_, ?_, ?_⟩
  · rw [get?_closing, if_neg (fun h => h.2 hs.root_mem)]
    simp
  · intro v hv hr hreach
    have hvm := hs.reaches_iff.mp hreach
    rw [get?_closing, if_neg (fun h => h.2 hvm), Table.get?_insert, if_neg hr]
    exact hall v hvm hr
  · intro v hv hreach
    rw [get?_closing, if_pos ⟨hv, fun h => hreach (hs.reaches_iff.mpr h)⟩]

/-- Two vertices that lead to each other, both entered from outside, and one vertex out of reach. -/
def twoEntries : Table Int (List Int) := ⟨[(1, [2, 3]), (2, [3, 4]), (3, [2, 4]), (5, [4])]⟩

theorem immediateDominators_twoEntries :
    (1 ∈ [5, 4, 3, 2, 1] ∧ (∀ v ∈ [5, 4, 3, 2, 1], ∀ w ∈ nextIn twoEntries v, w ∈ [5, 4, 3, 2, 1]) ∧
      0 ∉ [5, 4, 3, 2, 1]) ∧
    ∃ idom, immediateDominators [5, 4, 3, 2, 1] twoEntries 1 = .ok idom ∧ idom.get? 1 = some 1 ∧
      (∀ v ∈ [5, 4, 3, 2, 1], v ≠ 1 → Reaches (nextIn twoEntries) 1 v →
        ∃ d, idom.get? v = some d ∧ ImmediatelyDominates (nextIn twoEntries) 1 d v) ∧
      ∀ v ∈ [5, 4, 3, 2, 1], ¬ Reaches (nextIn twoEntries) 1 v → idom.get? v = some 1 :=
  ⟨by decide, immediateDominators_correct (by decide) (by decide) (by decide)⟩

example : immediateDominators [5, 4, 3, 2, 1] twoEntries 1 =
    .ok ⟨[(4, 1), (3, 1), (2, 1), (1, 1), (5, 1)]⟩ := by rfl

end CrossCall.Flow

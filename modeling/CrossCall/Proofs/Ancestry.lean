import CrossCall.Proofs.Passes

/-! Where the computed dominators stand. Whatever the vertices are called, each but the root is
entered with a vertex strictly above it in the depth-first tree. This also holds where `0` is a
vertex, links and buckets are passed over, and what is entered is no dominator. -/
namespace CrossCall.Flow

variable {next : Int → List Int} {root d p r u v w : Int} {s : Numbering} {σ : Int → Nat}
  {f g : Forest} {ps : List Int} {x : Nat}

def StrictlyAbove (s : Numbering) (u v : Int) : Prop := s.Above u v ∧ u ≠ v

/-- An entry `u` of a vertex `v` after the first pass: strictly above `v`, and not above the vertex
whose number is the value of `v`. -/
def Lifts (s : Numbering) (x : Nat) (v u : Int) : Prop :=
  ∃ d, x = s.num d ∧ s.Above d u ∧ StrictlyAbove s u v

/-- The values play no part but as numbers of vertices above. -/
abbrev AnyValued (s : Numbering) : (Int → Nat) → Nat → Prop := Valued s fun _ _ => True

/-- What is above a predecessor and has an earlier number is above the vertex, too. -/
theorem Spans.above_pred (h : Spans next root s) (hv : v ∈ s.order) (hwv : w ∈ next v)
    (hdv : s.Above d v) (hlt : s.num d < s.num w) : s.Above d w := by
  rcases Nat.lt_or_ge (s.num v) (s.num w) with hvw | hle
  · exact hdv.trans (h.forward v hv w hwv hvw)
  · exact h.above_interval hdv (h.closed v hv w hwv) hv (Nat.le_of_lt hlt) hle

theorem Valued.exists_above {n : Nat} (h : AnyValued s σ n) (hu : u ∈ s.order) :
    ∃ d, s.Above d u ∧ σ u = s.num d := by
  rcases Nat.lt_or_ge (s.num u) n with hlt | hle
  · exact ⟨u, .refl, h.low u hu hlt⟩
  · obtain ⟨-, d, hdu, -, hd⟩ := h.high u hu hle
    exact ⟨d, hdu, hd⟩

section Values

variable (hs : Spans next root s) (hσ : AnyValued s σ (s.num w + 1)) (hw : w ∈ s.order)
  (hps : ∀ v, v ∈ ps ↔ v ∈ s.order ∧ w ∈ next v)

include hs hσ hw hps

/-- The parent of a vertex is among its predecessors and not treated yet, so it offers its own
number. -/
theorem Relaxed.lt (h : Relaxed s σ w ps f g x) (hr : w ≠ root) : x < s.num w := by
  obtain ⟨p, hp, _, hwp, hlt⟩ := hs.parent w hw hr
  obtain ⟨y, r, u, hfound, hx⟩ := h.bound p ((hps p).mpr ⟨hp, hwp⟩)
  obtain rfl := hfound.eq_self hs hp fun hb => by have := hb.1; omega
  have huw : u ≠ w := by
    rintro rfl
    omega
  rw [Function.update_of_ne huw, hσ.low u hp (by omega)] at hx
  omega

theorem Relaxed.exists_above (h : Relaxed s σ w ps f g x) (hr : w ≠ root) :
    ∃ d, s.Above d w ∧ d ≠ w ∧ x = s.num d := by
  have hlt := h.lt hs hσ hw hps hr
  rcases h.attained with hx | ⟨v, hv, y, r, u, hfound, -, hx, -⟩
  · rw [hσ.low w hw (Nat.lt_succ_self _)] at hx
    omega
  · obtain ⟨hvm, hwv⟩ := (hps v).mp hv
    obtain ⟨d, hdu, hd⟩ := hσ.exists_above (hs.above_mem hfound.above hvm)
    have hdw : s.num d < s.num w := by omega
    exact ⟨d, hs.above_pred hvm hwv (hdu.trans hfound.above) hdw, by rintro rfl; omega, by omega⟩

end Values

theorem Waits.lifts (h : Waits s σ (s.num w) (s.num w + 1) p v) (hs : Spans next root s)
    (hw : w ∈ s.order) (hp : s.parent.get? w = some p) (hfound : Found s σ (s.num w) r v u) :
    Lifts s (σ v) v (if σ u < σ v then u else p) := by
  refine ⟨p, h.value, ?_⟩
  split
  · rename_i hlt
    have huv : u ≠ v := by
      rintro rfl
      omega
    refine ⟨hs.above_of_le h.above hfound.above h.mem ?_, hfound.above, huv⟩
    -- Below what is found all is linked, and the parent of `w` is not.
    by_contra hup
    have hpw := (hs.parent_spec hw hp).2.2
    have hbetween : s.Between u p v :=
      ⟨hs.above_of_le hfound.above h.above h.mem (by omega), by rintro rfl; omega, h.above⟩
    have := (hfound.below hs h.mem hbetween).1
    omega
  · exact ⟨.refl, h.above, h.ne⟩

theorem Lifts.settles (h : Lifts s (s.num d) v u) (hs : Spans next root s) (hv : v ∈ s.order)
    (hd : d ∈ s.order) :
    Settles root s (StrictlyAbove s) d v u := by
  obtain ⟨d', hd', hdu, huv, hne⟩ := h
  obtain rfl := Numbering.num_inj hd hd'
  by_cases hstay : u = 0 ∨ u = d
  · exact .inl ⟨hstay, huv, hne⟩
  · obtain ⟨hu0, hud⟩ := not_or.mp hstay
    have hum := hs.above_mem huv hv
    have hlt := hs.above_lt hdu hum (Ne.symm hud)
    have hlt' := hs.above_lt huv hv hne
    refine .inr ⟨hu0, hud, hum, ?_, hlt', fun e he => ⟨he.1.trans huv, ?_⟩⟩
    · rintro rfl
      rw [hs.num_root] at hlt
      omega
    · rintro rfl
      have := hs.above_le he.1 hum
      omega

variable {succ : Table Int (List Int)} {vs : List Int}

/-- The computation ends without a fault. Every vertex that is reached is entered with one strictly
above it, and the root and all others with the root. -/
theorem immediateDominators_above (hroot : root ∈ vs)
    (hclosed : ∀ v ∈ vs, ∀ w ∈ nextIn succ v, w ∈ vs) :
    ∃ idom, immediateDominators vs succ root = .ok idom ∧ idom.get? root = some root ∧
      (∀ v ∈ (numberFrom succ root).order, v ≠ root →
        ∃ d, idom.get? v = some d ∧ StrictlyAbove (numberFrom succ root) d v) ∧
      ∀ v ∈ vs, v ∉ (numberFrom succ root).order → idom.get? v = some root := by
  have hs := numberFrom_spans succ root
  obtain ⟨f, hrun, hall⟩ :=
    immediateDominators_passes (fun _ _ => True) (Lifts (numberFrom succ root))
    (StrictlyAbove (numberFrom succ root)) hroot hclosed rfl
    (by
      intro w hw hr σ ps f g x hps hσ hrelaxed
      obtain ⟨d, hdw, hne, hd⟩ := hrelaxed.exists_above hs hσ hw hps hr
      refine ⟨trivial, d, hdw, hne, hd, ?_⟩
      rintro rfl
      exact ⟨0, hd, .refl, hdw, hne⟩)
    (fun w hw τ _ p v r u hp hwaits hfound => hwaits.lifts hs hw hp hfound)
    (fun w hw _ d hd u _ hlifts => hlifts.settles hs hw hd)
  refine ⟨_, hrun, ?_, ?_, ?_⟩
  · rw [get?_closing, if_neg fun h => h.2 hs.root_mem]
    simp
  · intro v hv hr
    rw [get?_closing, if_neg fun h => h.2 hv, Table.get?_insert, if_neg hr]
    exact hall v hv hr
  · exact fun v hv hvm => by rw [get?_closing, if_pos ⟨hv, hvm⟩]

end CrossCall.Flow

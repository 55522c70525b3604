import CrossCall.Proofs.Walk

/-! The tree of a depth-first walk. Two facts carry all later arguments: numbers are given in
preorder, and an arc that leads to a later number leads down the tree. -/
namespace CrossCall.Flow

variable {next : Int → List Int} {root a b c p u v w : Int} {s : Numbering}

namespace Numbering

/-- The place of a vertex among the first visits. -/
def num (s : Numbering) (v : Int) : Nat := s.order.idxOf v

/-- Climbing parents from `b` leads to `a`, in no step at all if they are the same. -/
inductive Above (s : Numbering) : Int → Int → Prop
  | refl {a : Int} : Above s a a
  | up {a p w : Int} : s.parent.get? w = some p → Above s a p → Above s a w

/-- `z` stands on the way down the tree from `a` to `v`, but is not `a`. -/
def Between (s : Numbering) (a z v : Int) : Prop := s.Above a z ∧ z ≠ a ∧ s.Above z v

theorem number?_eq_some (hv : v ∈ s.order) : s.number? v = some (s.num v) := by
  unfold number? num List.idxOf
  rw [List.findIdx?_eq_some_iff_findIdx_eq]
  exact ⟨List.idxOf_lt_length_of_mem hv, rfl⟩

theorem number?_isSome : (s.number? v).isSome = true ↔ v ∈ s.order := by
  simp [number?, List.findIdx?_isSome]

theorem num_inj (ha : a ∈ s.order) (h : s.num a = s.num b) : a = b :=
  (List.idxOf_inj ha).mp h

theorem num_lt_length (hv : v ∈ s.order) : s.num v < s.order.length :=
  List.idxOf_lt_length_of_mem hv

theorem getElem?_num (hv : v ∈ s.order) : s.order[s.num v]? = some v := List.getElem?_idxOf hv

theorem num_of_getElem? {n : Nat} (hs : s.order.Nodup) (h : s.order[n]? = some v) : s.num v = n :=
  have hv := List.mem_of_getElem? h
  (List.getElem?_inj (num_lt_length hv) hs).mp ((getElem?_num hv).trans h.symm)

theorem Above.trans (h : s.Above a b) (hb : s.Above b c) : s.Above a c := by
  induction hb with
  | refl => exact h
  | up hp _ ih => exact .up hp ih

/-- Two vertices above a third stand one above the other. -/
theorem Above.comparable (ha : s.Above a c) (hb : s.Above b c) : s.Above a b ∨ s.Above b a := by
  induction ha with
  | refl => exact .inr hb
  | @up p w hp hap ih =>
    cases hb with
    | refl => exact .inl (.up hp hap)
    | up hq hb =>
      rw [hp] at hq
      cases hq
      exact ih hb

theorem Above.eq_or_parent (h : s.Above a w) (hp : s.parent.get? w = some p) :
    a = w ∨ s.Above a p := by
  cases h with
  | refl => exact .inl rfl
  | up hq h =>
    rw [hp] at hq
    cases hq
    exact .inr h

end Numbering

/-! ### Finished walks -/

/-- What holds of a depth-first walk at any time. -/
structure Grown (next : Int → List Int) (root : Int) (s : Numbering) : Prop where
  head : s.order.head? = some root
  nodup : s.order.Nodup
  listed : ∀ w p, s.parent.get? w = some p → w ∈ s.order
  top : s.parent.get? root = none
  /-- All but the root hang below an earlier vertex that leads to them. -/
  parent : ∀ w ∈ s.order, w ≠ root →
    ∃ p ∈ s.order, s.parent.get? w = some p ∧ w ∈ next p ∧ s.num p < s.num w
  /-- Whoever is visited next hangs below the latest vertex or one above it. -/
  preorder : ∀ (n : Nat) (v w p : Int), s.order[n]? = some v → s.order[n + 1]? = some w →
    s.parent.get? w = some p → s.Above p v

/-- The outcome of a depth-first walk that has come to its end. -/
structure Spans (next : Int → List Int) (root : Int) (s : Numbering) :
    Prop extends Grown next root s where
  closed : ∀ v ∈ s.order, ∀ w ∈ next v, w ∈ s.order
  forward : ∀ v ∈ s.order, ∀ w ∈ next v, s.num v < s.num w → s.Above v w

namespace Spans

theorem root_mem (h : Spans next root s) : root ∈ s.order := List.mem_of_head? h.head

theorem num_root (h : Spans next root s) : s.num root = 0 := by
  obtain ⟨xs, hx⟩ := List.head?_eq_some_iff.mp h.head
  simp [Numbering.num, hx]

theorem root_or_parent (h : Spans next root s) (hw : w ∈ s.order) :
    w = root ∨ ∃ p ∈ s.order, s.parent.get? w = some p ∧ w ∈ next p ∧ s.num p < s.num w := by
  by_cases hr : w = root
  · exact .inl hr
  · exact .inr (h.parent w hw hr)

theorem parent_spec (h : Spans next root s) (hw : w ∈ s.order) (hp : s.parent.get? w = some p) :
    p ∈ s.order ∧ w ∈ next p ∧ s.num p < s.num w := by
  rcases h.root_or_parent hw with rfl | ⟨q, hq, hpq, hn, hlt⟩
  · rw [h.top] at hp
    cases hp
  · rw [hp] at hpq
    cases hpq
    exact ⟨hq, hn, hlt⟩

theorem above_mem (h : Spans next root s) (hab : s.Above a b) (hb : b ∈ s.order) : a ∈ s.order := by
  induction hab with
  | refl => exact hb
  | up hp _ ih => exact ih (h.parent_spec hb hp).1

theorem above_le (h : Spans next root s) (hab : s.Above a b) (hb : b ∈ s.order) :
    s.num a ≤ s.num b := by
  induction hab with
  | refl => exact Nat.le_refl _
  | up hp _ ih =>
    obtain ⟨hm, _, hlt⟩ := h.parent_spec hb hp
    have := ih hm
    omega

theorem above_lt (h : Spans next root s) (hab : s.Above a b) (hb : b ∈ s.order) (hne : a ≠ b) :
    s.num a < s.num b := by
  have hle := h.above_le hab hb
  have hn : s.num a ≠ s.num b := fun he => hne (Numbering.num_inj (h.above_mem hab hb) he)
  omega

/-- Of two vertices above a third the one with the smaller number is above the other. -/
theorem above_of_le (h : Spans next root s) (ha : s.Above a c) (hb : s.Above b c) (hc : c ∈ s.order)
    (hle : s.num a ≤ s.num b) : s.Above a b := by
  rcases ha.comparable hb with hab | hba
  · exact hab
  · have hle' := h.above_le hba (h.above_mem ha hc)
    rw [Numbering.num_inj (h.above_mem ha hc) (by omega : s.num a = s.num b)]
    exact .refl

theorem root_above (h : Spans next root s) (hv : v ∈ s.order) : s.Above root v := by
  induction hn : s.num v using Nat.strong_induction_on generalizing v with
  | _ n ih =>
    rcases h.root_or_parent hv with rfl | ⟨p, hp, hpar, _, hlt⟩
    · exact .refl
    · exact .up hpar (ih _ (by omega) hp rfl)

/-- The vertices below `a` have consecutive numbers. -/
theorem above_interval (h : Spans next root s) (hac : s.Above a c) (hb : b ∈ s.order)
    (hc : c ∈ s.order) (hab : s.num a ≤ s.num b) (hbc : s.num b ≤ s.num c) : s.Above a b := by
  -- Going down from `c` one number at a time: the vertex before a proper descendant of `a` is below
  -- `a`.
  suffices hs : ∀ k x, x ∈ s.order → s.num x + k = s.num c → s.num a ≤ s.num x → s.Above a x from
    hs (s.num c - s.num b) b hb (by omega) hab
  intro k
  induction k with
  | zero =>
    intro x hx hk _
    rw [Numbering.num_inj hx (by omega : s.num x = s.num c)]
    exact hac
  | succ k ih =>
    intro x hx hk hax
    have hlen : s.num x + 1 < s.order.length := by
      have := Numbering.num_lt_length hc
      omega
    obtain ⟨y, hy⟩ : ∃ y, s.order[s.num x + 1]? = some y := ⟨_, List.getElem?_eq_getElem hlen⟩
    have hym : y ∈ s.order := List.mem_of_getElem? hy
    have hny : s.num y = s.num x + 1 := Numbering.num_of_getElem? h.nodup hy
    have hay : s.Above a y := ih y hym (by omega) (by omega)
    have hne : y ≠ root := by
      intro he
      rw [he, h.num_root] at hny
      omega
    obtain ⟨p, _, hp, _, _⟩ := h.parent y hym hne
    rcases hay.eq_or_parent hp with rfl | hap
    · omega
    · exact hap.trans (h.preorder _ x y p (Numbering.getElem?_num hx) hy hp)

theorem between_lt (h : Spans next root s) (hz : s.Between a b v) (hv : v ∈ s.order) :
    s.num a < s.num b := h.above_lt hz.1 (h.above_mem hz.2.2 hv) hz.2.1.symm

/-- The way down the tree is a walk. -/
theorem tree_walk (h : Spans next root s) (hab : s.Above a b) (hb : b ∈ s.order) :
    ∃ xs, Walk next a xs b ∧ ∀ x ∈ xs, s.Above a x ∧ s.Above x b := by
  induction hab with
  | refl => exact ⟨_, .here, by simp [Numbering.Above.refl]⟩
  | @up p w hp hap ih =>
    obtain ⟨hm, hn, _⟩ := h.parent_spec hb hp
    obtain ⟨xs, hw, hx⟩ := ih hm
    refine ⟨xs ++ [w], hw.snoc hn, ?_⟩
    intro x hxw
    rcases List.mem_append.mp hxw with hx' | hx'
    · exact ⟨(hx x hx').1, .up hp (hx x hx').2⟩
    · rw [List.mem_singleton.mp hx']
      exact ⟨.up hp hap, .refl⟩

theorem reaches_iff (h : Spans next root s) : Reaches next root v ↔ v ∈ s.order := by
  constructor
  · intro hr
    exact hr.invariant h.root_mem fun x hx y hy => h.closed x hx y hy
  · intro hv
    obtain ⟨xs, hw, _⟩ := h.tree_walk (h.root_above hv) hv
    exact ⟨xs, hw⟩

end Spans

/-! ### The walk on its way -/

namespace Numbering

variable {x : Int}

theorem num_visit_of_mem (hx : x ∈ s.order) : (s.visit v w).num x = s.num x :=
  List.idxOf_append_of_mem hx

theorem num_visit_self (hw : w ∉ s.order) : (s.visit v w).num w = s.order.length := by
  simp [num, visit, List.idxOf_append_of_notMem hw]

theorem parent_visit (hx : x ≠ w) : (s.visit v w).parent.get? x = s.parent.get? x := by
  simp [visit, hx]

theorem parent_visit_self : (s.visit v w).parent.get? w = some v := by
  simp [visit]

end Numbering

/-- A walk that still has arcs to look at. Their sources stand one above the other and above all
that was visited after them, and every other arc of a visited vertex led to where it may lead. -/
structure Exploring (next : Int → List Int) (root : Int) (todo : List (Int × Int)) (s : Numbering) :
    Prop
    extends Grown next root s where
  pending : ∀ x ∈ todo, x.1 ∈ s.order ∧ x.2 ∈ next x.1
  open_ : ∀ x ∈ todo, ∀ z ∈ s.order, s.num x.1 ≤ s.num z → s.Above x.1 z
  chain : todo.Pairwise fun x y => s.Above y.1 x.1
  covered : ∀ v ∈ s.order, ∀ w ∈ next v,
    (v, w) ∈ todo ∨ w ∈ s.order ∧ (s.num v < s.num w → s.Above v w)

namespace Grown

theorem above_visit (h : Grown next root s) (hw : w ∉ s.order) (hab : s.Above a b) :
    (s.visit v w).Above a b := by
  induction hab with
  | refl => exact .refl
  | up hp _ ih =>
    refine .up ?_ ih
    rw [Numbering.parent_visit, hp]
    rintro rfl
    exact hw (h.listed _ _ hp)

end Grown

namespace Exploring

variable {todo rest : List (Int × Int)}

theorem start : Exploring next root ((next root).map (root, ·)) { order := [root] } where
  head := rfl
  nodup := by simp
  listed := by
    intro w p hp
    cases hp
  top := rfl
  parent := by simp
  preorder := by simp
  pending := by simp
  open_ := by
    intro x hx z hz _
    obtain ⟨y, _, rfl⟩ := List.mem_map.mp hx
    rw [List.mem_singleton.mp hz]
    exact .refl
  chain := by
    rw [List.pairwise_map]
    exact List.pairwise_of_forall fun _ _ => .refl
  covered := by
    intro v hv w hw
    rw [List.mem_singleton.mp hv] at hw ⊢
    exact .inl (List.mem_map_of_mem hw)

/-- An arc to a vertex that has its number is passed over. -/
theorem skip (h : Exploring next root ((v, w) :: rest) s) (hw : w ∈ s.order) :
    Exploring next root rest s where
  toGrown := h.toGrown
  pending x hx := h.pending x (List.mem_cons_of_mem _ hx)
  open_ x hx := h.open_ x (List.mem_cons_of_mem _ hx)
  chain := (List.pairwise_cons.mp h.chain).2
  covered := by
    intro x hx y hy
    rcases h.covered x hx y hy with hm | hc
    · rcases List.mem_cons.mp hm with he | hm
      · cases he
        exact .inr ⟨hw, fun hlt => h.open_ _ List.mem_cons_self w hw (Nat.le_of_lt hlt)⟩
      · exact .inl hm
    · exact .inr hc

/-- The tree grows by a vertex without a number, below the source of the first arc. -/
theorem grow (h : Exploring next root ((v, w) :: rest) s) (hw : w ∉ s.order) :
    Grown next root (s.visit v w) := by
  have hv := h.pending _ List.mem_cons_self
  have hroot : root ∈ s.order := List.mem_of_head? h.head
  refine ⟨?_, ?_, ?_, ?_, ?_, ?_⟩
  · simp [Numbering.visit, List.head?_append, h.head]
  · simp only [Numbering.visit, List.nodup_append, List.nodup_singleton]
    exact ⟨h.nodup, trivial, fun x hx y hy he => hw (by simp_all)⟩
  · intro x p hp
    by_cases hx : x = w
    · simp [Numbering.visit, hx]
    · rw [Numbering.parent_visit hx] at hp
      exact List.mem_append_left _ (h.listed x p hp)
  · rw [Numbering.parent_visit, h.top]
    rintro rfl
    exact hw hroot
  · intro x hx hr
    rcases List.mem_append.mp hx with hxs | hx
    · obtain ⟨p, hp, hpar, hn, hlt⟩ := h.parent x hxs hr
      refine ⟨p, List.mem_append_left _ hp, ?_, hn, ?_⟩
      · rw [Numbering.parent_visit, hpar]
        rintro rfl
        exact hw hxs
      · rwa [Numbering.num_visit_of_mem hp, Numbering.num_visit_of_mem hxs]
    · rw [List.mem_singleton.mp hx]
      refine ⟨v, List.mem_append_left _ hv.1, Numbering.parent_visit_self, hv.2, ?_⟩
      rw [Numbering.num_visit_of_mem hv.1, Numbering.num_visit_self hw]
      exact Numbering.num_lt_length hv.1
  · intro n x y p hx hy hp
    have hlen : n + 1 < s.order.length + 1 := by
      simpa [Numbering.visit] using (List.getElem?_eq_some_iff.mp hy).1
    have hxs : s.order[n]? = some x := by
      simpa [Numbering.visit, List.getElem?_append_left (by omega : n < s.order.length)] using hx
    by_cases hlt : n + 1 < s.order.length
    · have hys : s.order[n + 1]? = some y := by
        simpa [Numbering.visit, List.getElem?_append_left hlt] using hy
      have hyw : y ≠ w := fun he => hw (he ▸ List.mem_of_getElem? hys)
      rw [Numbering.parent_visit hyw] at hp
      exact h.above_visit hw (h.preorder n x y p hxs hys hp)
    · -- The new vertex stands right after the last one, which `v` is above.
      have hyw : y = w := by
        simpa [Numbering.visit, show n + 1 = s.order.length by omega, eq_comm] using hy
      subst hyw
      rw [Numbering.parent_visit_self] at hp
      cases hp
      apply h.above_visit hw
      apply h.open_ _ List.mem_cons_self x (List.mem_of_getElem? hxs)
      rw [Numbering.num_of_getElem? h.nodup hxs]
      have := Numbering.num_lt_length hv.1
      omega

theorem visit (h : Exploring next root ((v, w) :: rest) s) (hw : w ∉ s.order) :
    Exploring next root ((next w).map (w, ·) ++ rest) (s.visit v w) := by
  obtain ⟨hchain, hrest⟩ := List.pairwise_cons.mp h.chain
  have hpending := fun x hx => h.pending x (List.mem_cons_of_mem _ hx)
  -- Whoever is above `v` is above the new vertex.
  have hbelow : ∀ a, s.Above a v → (s.visit v w).Above a w := fun a ha =>
    .up Numbering.parent_visit_self (h.above_visit hw ha)
  refine ⟨h.grow hw, ?_, ?_, ?_, ?_⟩
  · intro x hx
    rcases List.mem_append.mp hx with hx | hx
    · obtain ⟨y, hy, rfl⟩ := List.mem_map.mp hx
      exact ⟨by simp [Numbering.visit], hy⟩
    · exact ⟨List.mem_append_left _ (hpending x hx).1, (hpending x hx).2⟩
  · intro x hx z hz hle
    rcases List.mem_append.mp hz with hz | hz
    · rw [Numbering.num_visit_of_mem hz] at hle
      rcases List.mem_append.mp hx with hx | hx
      · obtain ⟨y, _, rfl⟩ := List.mem_map.mp hx
        rw [Numbering.num_visit_self hw] at hle
        have := Numbering.num_lt_length hz
        omega
      · rw [Numbering.num_visit_of_mem (hpending x hx).1] at hle
        exact h.above_visit hw (h.open_ x (List.mem_cons_of_mem _ hx) z hz hle)
    · rw [List.mem_singleton.mp hz]
      rcases List.mem_append.mp hx with hx | hx
      · obtain ⟨y, _, rfl⟩ := List.mem_map.mp hx
        exact .refl
      · exact hbelow _ (hchain x hx)
  · rw [List.pairwise_append]
    refine ⟨?_, hrest.imp (h.above_visit hw), ?_⟩
    · rw [List.pairwise_map]
      exact List.pairwise_of_forall fun _ _ => .refl
    · intro x hx y hy
      obtain ⟨z, _, rfl⟩ := List.mem_map.mp hx
      exact hbelow _ (hchain y hy)
  · intro x hx y hy
    rcases List.mem_append.mp hx with hx | hx
    · rcases h.covered x hx y hy with hm | ⟨hym, hab⟩
      · rcases List.mem_cons.mp hm with he | hm
        · cases he
          exact .inr ⟨by simp [Numbering.visit], fun _ => hbelow v .refl⟩
        · exact .inl (List.mem_append_right _ hm)
      · refine .inr ⟨List.mem_append_left _ hym, ?_⟩
        rw [Numbering.num_visit_of_mem hx, Numbering.num_visit_of_mem hym]
        exact fun hlt => h.above_visit hw (hab hlt)
    · rw [List.mem_singleton.mp hx] at hy ⊢
      exact .inl (List.mem_append_left _ (List.mem_map_of_mem hy))

theorem finish (h : Exploring next root [] s) : Spans next root s where
  toGrown := h.toGrown
  closed v hv w hw := ((h.covered v hv w hw).resolve_left (by simp)).1
  forward v hv w hw := ((h.covered v hv w hw).resolve_left (by simp)).2

end Exploring

/-- The arcs that leave vertices without a number, counted in the listing of a table. -/
def unseen (entries : List (Int × List Int)) (s : Numbering) : Nat :=
  (entries.map fun e => if e.1 ∈ s.order then 0 else e.2.length).sum

theorem unseen_cons (e : Int × List Int) (rest : List (Int × List Int)) (s : Numbering) :
    unseen (e :: rest) s = (if e.1 ∈ s.order then 0 else e.2.length) + unseen rest s := by
  simp [unseen]

theorem mem_visit {x : Int} : x ∈ (s.visit v w).order ↔ x ∈ s.order ∨ x = w := by
  simp [Numbering.visit]

theorem unseen_visit (entries : List (Int × List Int)) (hw : w ∉ s.order) :
    unseen entries (s.visit v w) ≤ unseen entries s ∧
      unseen entries (s.visit v w) + ((Table.find w entries).getD []).length ≤
      unseen entries s := by
  induction entries with
  | nil => simp [unseen, Table.find]
  | cons e rest ih =>
    rw [unseen_cons, unseen_cons, Table.find]
    simp only [mem_visit]
    by_cases he : e.1 = w
    · simp only [he, hw, or_true, if_true, if_false, Option.getD_some]
      omega
    · simp only [he, or_false, if_false]
      omega

theorem depthFirst_explores {succ : Table Int (List Int)} {n : Nat} {todo : List (Int × Int)}
    (h : Exploring (nextIn succ) root todo s) (hn : todo.length + unseen succ.entries s < n) :
    Spans (nextIn succ) root (depthFirst (nextIn succ) n todo s) := by
  induction n generalizing todo s with
  | zero => omega
  | succ n ih =>
    cases todo with
    | nil => exact h.finish
    | cons x rest =>
      obtain ⟨v, w⟩ := x
      simp only [List.length_cons] at hn
      unfold depthFirst
      split
      · rename_i hw
        exact ih (h.skip (Numbering.number?_isSome.mp hw)) (by omega)
      · rename_i hw
        rw [Numbering.number?_isSome] at hw
        apply ih (h.visit hw)
        have hu := (unseen_visit (v := v) succ.entries hw).2
        simp only [List.length_append, List.length_map]
        unfold nextIn Table.getD Table.get?
        omega

/-- The numbering from a root has seen all it can see. -/
theorem numberFrom_spans (succ : Table Int (List Int)) (root : Int) :
    Spans (nextIn succ) root (numberFrom succ root) := by
  apply depthFirst_explores .start
  have hu := (unseen_visit (s := { order := [] }) (v := root) (w := root) succ.entries (by simp)).2
  have hall : unseen succ.entries { order := [] } = succ.values.flatten.length := by
    simp [unseen, Table.values, Function.comp_def, List.length_flatten]
  have hroot : unseen succ.entries { order := [root] } =
      unseen succ.entries (({ order := [] } : Numbering).visit root root) := rfl
  rw [hroot, List.length_map]
  unfold nextIn Table.getD Table.get?
  omega

end CrossCall.Flow

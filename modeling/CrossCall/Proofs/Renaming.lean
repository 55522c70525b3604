import CrossCall.Proofs.Frontier

/-! Other names for the vertices of a graph. Walks and domination are carried over by any renaming,
and so are the computed dominators as long as no vertex but the root is called `0`: the computation
takes `0` for no vertex. -/
namespace CrossCall.Flow

variable {next : Int → List Int} {root a b d d' v : Int} {xs ys : List Int} {f : Int → Int}
  {vs vs' : List Int} {succ succ' : Table Int (List Int)}

/-! ### What is entered -/

/-- What is to be entered for `v`: its immediate dominator, and the root where there is none. -/
def EntryOf (next : Int → List Int) (root d v : Int) : Prop :=
  (v = root ∨ ¬ Reaches next root v) ∧ d = root ∨
    v ≠ root ∧ Reaches next root v ∧ ImmediatelyDominates next root d v

theorem Spans.immediate_unique {s : Numbering} (h : Spans next root s) (hv : v ∈ s.order)
    (hd : ImmediatelyDominates next root d v) (hd' : ImmediatelyDominates next root d' v) :
    d = d' :=
  h.dominates_antisymm (h.above_mem (h.dominates_above hd'.2.1 hv) hv) (hd'.2.2 d hd.1 hd.2.1)
    (hd.2.2 d' hd'.1 hd'.2.1)

theorem EntryOf.unique (hd : EntryOf (nextIn succ) root d v)
    (hd' : EntryOf (nextIn succ) root d' v) : d = d' := by
  have hs := numberFrom_spans succ root
  rcases hd with ⟨hv, rfl⟩ | ⟨hne, hreach, hd⟩ <;> rcases hd' with ⟨hv', rfl⟩ | ⟨hne', hreach', hd'⟩
  · rfl
  · exact (hv.elim hne' fun h => h hreach').elim
  · exact (hv'.elim hne fun h => h hreach).elim
  · exact hs.immediate_unique (hs.reaches_iff.mp hreach) hd hd'

theorem immediateDominators_entries (hroot : root ∈ vs)
    (hclosed : ∀ v ∈ vs, ∀ w ∈ nextIn succ v, w ∈ vs)
    (hzero : Reaches (nextIn succ) root 0 → root = 0) :
    ∃ idom, immediateDominators vs succ root = .ok idom ∧
      ∀ v ∈ vs, ∃ d, idom.get? v = some d ∧ EntryOf (nextIn succ) root d v := by
  obtain ⟨f, hrun, hall⟩ := immediateDominators_reached hroot hclosed hzero
  have hs := numberFrom_spans succ root
  refine ⟨_, hrun, fun v hv => ?_⟩
  rw [get?_closing]
  by_cases hvm : v ∈ (numberFrom succ root).order
  · rw [if_neg fun h => h.2 hvm, Table.get?_insert]
    split
    · rename_i hr
      exact ⟨root, rfl, .inl ⟨.inl hr, rfl⟩⟩
    · rename_i hr
      obtain ⟨d, hd, himm⟩ := hall v hvm hr
      exact ⟨d, hd, .inr ⟨hr, hs.reaches_iff.mpr hvm, himm⟩⟩
  · rw [if_pos ⟨hv, hvm⟩]
    exact ⟨root, rfl, .inl ⟨.inr fun h => hvm (hs.reaches_iff.mp h), rfl⟩⟩

/-! ### Renamed graphs -/

/-- The second graph is the first one with other names, listed in any order. -/
structure Renaming (f : Int → Int) (vs : List Int) (succ : Table Int (List Int)) (vs' : List Int)
    (succ' : Table Int (List Int)) : Prop where
  injective : Set.InjOn f {v | v ∈ vs}
  vertices : ∀ x, x ∈ vs' ↔ ∃ v ∈ vs, f v = x
  arcs : ∀ v ∈ vs, ∀ x, x ∈ nextIn succ' (f v) ↔ ∃ w ∈ nextIn succ v, f w = x

/-- The table in which every vertex has its new name. -/
def renamed (f : Int → Int) (succ : Table Int (List Int)) : Table Int (List Int) :=
  ⟨succ.entries.map fun e => (f e.1, e.2.map f)⟩

theorem nextIn_renamed (hf : Function.Injective f) (v : Int) :
    nextIn (renamed f succ) (f v) = (nextIn succ v).map f := by
  obtain ⟨entries⟩ := succ
  unfold nextIn Table.getD Table.get? renamed
  induction entries with
  | nil => rfl
  | cons e rest ih =>
    simp only [List.map_cons, Table.find, hf.eq_iff]
    split
    · rfl
    · exact ih

theorem renaming_renamed (hf : Function.Injective f) :
    Renaming f vs succ (vs.map f) (renamed f succ) where
  injective := hf.injOn
  vertices x := List.mem_map
  arcs v _ x := by rw [nextIn_renamed hf, List.mem_map]

namespace Renaming

section Closed

variable (h : Renaming f vs succ vs' succ') (hclosed : ∀ v ∈ vs, ∀ w ∈ nextIn succ v, w ∈ vs)

include h hclosed

theorem walk_map (hw : Walk (nextIn succ) a xs b) (ha : a ∈ vs) :
    Walk (nextIn succ') (f a) (xs.map f) (f b) ∧ ∀ x ∈ xs, x ∈ vs := by
  induction hw with
  | here => exact ⟨.here, by simpa using ha⟩
  | @step a m b xs hm _ ih =>
    obtain ⟨hw', hxs⟩ := ih (hclosed a ha m hm)
    exact ⟨.step ((h.arcs a ha _).mpr ⟨m, hm, rfl⟩) hw', List.forall_mem_cons.mpr ⟨ha, hxs⟩⟩

/-- Every walk of the renamed graph from the new name of `a` comes from a walk. -/
theorem walk_lift {a' b' : Int} (hw : Walk (nextIn succ') a' ys b') (ha : a ∈ vs) (he : f a = a') :
    ∃ xs b, Walk (nextIn succ) a xs b ∧ ys = xs.map f ∧ b' = f b := by
  induction hw generalizing a with
  | here => exact ⟨[a], a, .here, by simp [he], he.symm⟩
  | @step a' m' b' ys hm _ ih =>
    obtain ⟨m, hm, hmm⟩ := (h.arcs a ha m').mp (he ▸ hm)
    obtain ⟨xs, b, hw, rfl, rfl⟩ := ih (hclosed a ha m hm) hmm
    exact ⟨a :: xs, b, .step hm hw, by simp [he], rfl⟩

/-- A walk of the renamed graph between two new names comes from a walk between the two vertices. -/
theorem walk_back (hw : Walk (nextIn succ') (f a) ys (f b)) (ha : a ∈ vs) (hb : b ∈ vs) :
    ∃ xs, Walk (nextIn succ) a xs b ∧ ys = xs.map f := by
  obtain ⟨xs, c, hw, hys, hbc⟩ := h.walk_lift hclosed hw ha rfl
  have hc : c ∈ vs := (h.walk_map hclosed hw ha).2 c hw.stop_mem
  exact ⟨xs, h.injective hb hc hbc ▸ hw, hys⟩

theorem reaches_iff (ha : a ∈ vs) (hb : b ∈ vs) :
    Reaches (nextIn succ') (f a) (f b) ↔ Reaches (nextIn succ) a b := by
  constructor
  · rintro ⟨ys, hw⟩
    obtain ⟨xs, hw, -⟩ := h.walk_back hclosed hw ha hb
    exact ⟨xs, hw⟩
  · rintro ⟨xs, hw⟩
    exact ⟨xs.map f, (h.walk_map hclosed hw ha).1⟩

theorem dominates_iff (hroot : root ∈ vs) (hd : d ∈ vs) (hv : v ∈ vs) :
    Dominates (nextIn succ') (f root) (f d) (f v) ↔ Dominates (nextIn succ) root d v := by
  constructor
  · intro hdom xs hw
    obtain ⟨hw', hxs⟩ := h.walk_map hclosed hw hroot
    obtain ⟨x, hx, hxd⟩ := List.mem_map.mp (hdom _ hw')
    exact h.injective (hxs x hx) hd hxd ▸ hx
  · intro hdom ys hw'
    obtain ⟨xs, hw, rfl⟩ := h.walk_back hclosed hw' hroot hv
    exact List.mem_map_of_mem (hdom xs hw)

/-- Whatever dominates the new name of a vertex that is reached is a new name. -/
theorem dominator_named (hroot : root ∈ vs) (hv : Reaches (nextIn succ) root v)
    (hd : Dominates (nextIn succ') (f root) d' (f v)) : ∃ d ∈ vs, f d = d' := by
  obtain ⟨xs, hw⟩ := hv
  obtain ⟨hw', hxs⟩ := h.walk_map hclosed hw hroot
  obtain ⟨x, hx, he⟩ := List.mem_map.mp (hd _ hw')
  exact ⟨x, hxs x hx, he⟩

theorem immediate_map (hroot : root ∈ vs) (hd : d ∈ vs) (hv : v ∈ vs)
    (hreach : Reaches (nextIn succ) root v) (himm : ImmediatelyDominates (nextIn succ) root d v) :
    ImmediatelyDominates (nextIn succ') (f root) (f d) (f v) := by
  refine ⟨fun he => himm.1 (h.injective hd hv he),
    (h.dominates_iff hclosed hroot hd hv).mpr himm.2.1, ?_⟩
  intro e' hne hdom
  obtain ⟨e, he, rfl⟩ := h.dominator_named hclosed hroot hreach hdom
  have hev : e ≠ v := fun heq => hne (congrArg f heq)
  exact (h.dominates_iff hclosed hroot he hd).mpr
    (himm.2.2 e hev ((h.dominates_iff hclosed hroot he hv).mp hdom))

/-- What is to be entered for a vertex is listed, and its new name is to be entered for the new
name. -/
theorem entryOf_map (hroot : root ∈ vs) (hv : v ∈ vs) (hd : EntryOf (nextIn succ) root d v) :
    d ∈ vs ∧ EntryOf (nextIn succ') (f root) (f d) (f v) := by
  rcases hd with ⟨hv', rfl⟩ | ⟨hne, hreach, himm⟩
  · refine ⟨hroot, .inl ⟨hv'.imp (congrArg f) fun hn => ?_, rfl⟩⟩
    rwa [h.reaches_iff hclosed hroot hv]
  · obtain ⟨xs, hw⟩ := hreach
    have hdm : d ∈ vs := (h.walk_map hclosed hw hroot).2 d (himm.2.1 xs hw)
    refine ⟨hdm, .inr ⟨fun he => hne (h.injective hv hroot he), ?_, ?_⟩⟩
    · exact (h.reaches_iff hclosed hroot hv).mpr ⟨xs, hw⟩
    · exact h.immediate_map hclosed hroot hdm hv ⟨xs, hw⟩ himm

theorem closed : ∀ x ∈ vs', ∀ y ∈ nextIn succ' x, y ∈ vs' := by
  intro x hx y hy
  obtain ⟨v, hv, rfl⟩ := (h.vertices x).mp hx
  obtain ⟨w, hw, rfl⟩ := (h.arcs v hv y).mp hy
  exact (h.vertices _).mpr ⟨w, hclosed v hv w hw, rfl⟩

end Closed

end Renaming

/-- Dominators do not depend on the names of the vertices or on the order in which they are listed,
as long as no vertex but the root is reached under the name `0`. -/
theorem immediateDominators_renamed (h : Renaming f vs succ vs' succ') (hroot : root ∈ vs)
    (hclosed : ∀ v ∈ vs, ∀ w ∈ nextIn succ v, w ∈ vs)
    (hzero : Reaches (nextIn succ) root 0 → root = 0)
    (hzero' : Reaches (nextIn succ') (f root) 0 → f root = 0) :
    ∃ idom idom', immediateDominators vs succ root = .ok idom ∧
      immediateDominators vs' succ' (f root) = .ok idom' ∧
      ∀ v ∈ vs, ∃ d ∈ vs, idom.get? v = some d ∧ idom'.get? (f v) = some (f d) := by
  have hroot' : f root ∈ vs' := (h.vertices _).mpr ⟨root, hroot, rfl⟩
  obtain ⟨idom, hrun, hentry⟩ := immediateDominators_entries hroot hclosed hzero
  obtain ⟨idom', hrun', hentry'⟩ := immediateDominators_entries hroot' (h.closed hclosed) hzero'
  refine ⟨idom, idom', hrun, hrun', fun v hv => ?_⟩
  obtain ⟨d, hd, hdv⟩ := hentry v hv
  obtain ⟨d', hd', hdv'⟩ := hentry' (f v) ((h.vertices _).mpr ⟨v, hv, rfl⟩)
  obtain ⟨hdm, hmap⟩ := h.entryOf_map hclosed hroot hv hdv
  exact ⟨d, hdm, hd, hmap.unique hdv' ▸ hd'⟩

/-- The root may be called `0`. -/
theorem immediateDominators_renamed_fromZero :
    (Renaming (· - 1) [5, 4, 3, 2, 1] twoEntries [4, 3, 2, 1, 0] (renamed (· - 1) twoEntries) ∧
      1 ∈ [5, 4, 3, 2, 1] ∧
      (∀ v ∈ [5, 4, 3, 2, 1], ∀ w ∈ nextIn twoEntries v, w ∈ [5, 4, 3, 2, 1]) ∧
      (Reaches (nextIn twoEntries) 1 0 → (1 : Int) = 0) ∧
      (Reaches (nextIn (renamed (· - 1) twoEntries)) (1 - 1) 0 → (1 - 1 : Int) = 0)) ∧
    ∃ idom idom', immediateDominators [5, 4, 3, 2, 1] twoEntries 1 = .ok idom ∧
      immediateDominators [4, 3, 2, 1, 0] (renamed (· - 1) twoEntries) (1 - 1) = .ok idom' ∧
      ∀ v ∈ [5, 4, 3, 2, 1], ∃ d ∈ [5, 4, 3, 2, 1],
      idom.get? v = some d ∧ idom'.get? (v - 1) = some (d - 1) :=
  have hrenaming :
      Renaming (· - 1) [5, 4, 3, 2, 1] twoEntries [4, 3, 2, 1, 0] (renamed (· - 1) twoEntries) :=
    renaming_renamed fun _ _ h => sub_left_injective h
  have hclosed : ∀ v ∈ [5, 4, 3, 2, 1], ∀ w ∈ nextIn twoEntries v, w ∈ [5, 4, 3, 2, 1] := by decide
  have hzero : Reaches (nextIn twoEntries) 1 0 → (1 : Int) = 0 := fun h =>
    absurd (h.invariant (P := (· ∈ [5, 4, 3, 2, 1])) (by decide) hclosed) (by decide)
  ⟨⟨hrenaming, by decide, hclosed, hzero, fun _ => rfl⟩,
    immediateDominators_renamed hrenaming (by decide) hclosed hzero fun _ => rfl⟩

/-- Two ways lead to the last vertex, and a third one cuts across. -/
def shortcut : Table Int (List Int) := ⟨[(1, [2, 3]), (2, [3, 4]), (3, [4])]⟩

/-- A vertex below the root that is called `0` is taken for no vertex: it is not linked to those
below it, and those who wait at it are never settled. -/
theorem exists_renaming_moves_dominator :
    ∃ f : Int → Int, Function.Injective f ∧
      Renaming f [1, 2, 3, 4] shortcut ([1, 2, 3, 4].map f) (renamed f shortcut) ∧
      (∀ v ∈ [1, 2, 3, 4], ∀ w ∈ nextIn shortcut v, w ∈ [1, 2, 3, 4]) ∧
      ∃ idom idom', immediateDominators [1, 2, 3, 4] shortcut 1 = .ok idom ∧
        immediateDominators ([1, 2, 3, 4].map f) (renamed f shortcut) (f 1) = .ok idom' ∧
        idom.get? 4 = some 1 ∧ idom'.get? (f 4) = some (f 2) ∧ f 2 ≠ f 1 :=
  have hswap : Function.Injective (Equiv.swap (2 : Int) 0) := (Equiv.swap 2 0).injective
  ⟨Equiv.swap 2 0, hswap, renaming_renamed hswap, by decide, ⟨[(1, 1), (2, 1), (3, 1), (4, 1)]⟩,
    ⟨[(1, 1), (0, 1), (3, 1), (4, 0)]⟩, by rfl, by rfl, by decide, by decide, by decide⟩

end CrossCall.Flow

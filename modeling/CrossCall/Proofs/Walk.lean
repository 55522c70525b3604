import Mathlib
import CrossCall.Flow.Dominance

/-! Walks, what they reach, and domination as the absence of a walk around a vertex. -/
namespace CrossCall.Flow

variable {next : Int → List Int} {root a b c d e v w : Int} {xs ys : List Int}

def Reaches (next : Int → List Int) (a b : Int) : Prop := ∃ xs, Walk next a xs b

/-- The dominator next to `v`: it lies on every walk to `v`, and so does whatever else dominates `v`
on every walk to it. -/
def ImmediatelyDominates (next : Int → List Int) (root d v : Int) : Prop :=
  d ≠ v ∧ Dominates next root d v ∧ ∀ e, e ≠ v → Dominates next root e v → Dominates next root e d

namespace Walk

theorem start_mem (h : Walk next a xs b) : a ∈ xs := by
  cases h <;> simp

theorem stop_mem (h : Walk next a xs b) : b ∈ xs := by
  induction h with
  | here => simp
  | step _ _ ih => exact List.mem_cons_of_mem _ ih

theorem snoc (h : Walk next a xs b) (hc : c ∈ next b) : Walk next a (xs ++ [c]) c := by
  induction h with
  | here => exact .step hc .here
  | step hm _ ih => exact .step hm (ih hc)

theorem append (h : Walk next a xs b) (hs : Walk next b ys c) :
    ∃ zs, Walk next a zs c ∧ ∀ z, z ∈ zs ↔ z ∈ xs ∨ z ∈ ys := by
  induction h with
  | here =>
    refine ⟨ys, hs, fun z => ⟨Or.inr, ?_⟩⟩
    rintro (hz | hz)
    · rw [List.mem_singleton.mp hz]
      exact hs.start_mem
    · exact hz
  | @step a m b xs hm _ ih =>
    obtain ⟨zs, hw, hz⟩ := ih hs
    refine ⟨a :: zs, .step hm hw, fun z => ?_⟩
    simp only [List.mem_cons, hz, or_assoc]

/-- Every vertex of a walk splits it in two. -/
theorem split (h : Walk next a xs b) (hc : c ∈ xs) :
    ∃ ys zs, Walk next a ys c ∧ Walk next c zs b ∧ (∀ y ∈ ys, y ∈ xs) ∧ ∀ z ∈ zs, z ∈ xs := by
  induction h with
  | @here a =>
    rw [List.mem_singleton.mp hc]
    exact ⟨[a], [a], .here, .here, fun _ h => h, fun _ h => h⟩
  | @step a m b xs hm hw ih =>
    rcases List.mem_cons.mp hc with rfl | hc
    · exact ⟨[c], c :: xs, .here, .step hm hw, by simp, fun _ h => h⟩
    · obtain ⟨ys, zs, hy, hz, hys, hzs⟩ := ih hc
      refine ⟨a :: ys, zs, .step hm hy, hz, ?_, fun z h => List.mem_cons_of_mem _ (hzs z h)⟩
      intro y h
      rcases List.mem_cons.mp h with rfl | h
      · simp
      · exact List.mem_cons_of_mem _ (hys y h)

theorem exists_pred (h : Walk next a xs b) (hne : a ≠ b) : ∃ p ∈ xs, b ∈ next p := by
  induction h with
  | here => exact (hne rfl).elim
  | @step a m b xs hm _ ih =>
    by_cases he : m = b
    · exact ⟨a, List.mem_cons_self, he ▸ hm⟩
    · obtain ⟨p, hp, hb⟩ := ih he
      exact ⟨p, List.mem_cons_of_mem _ hp, hb⟩

/-- A walk over vertices whose arcs can be turned is a walk the other way round. -/
theorem reverse {next' : Int → List Int} {P : Int → Prop} (h : Walk next a xs b) (ha : P a)
    (hs : ∀ x, P x → ∀ y ∈ next x, P y ∧ x ∈ next' y) : Walk next' b xs.reverse a := by
  induction h with
  | here => exact .here
  | @step a m b xs hm _ ih =>
    obtain ⟨hP, ham⟩ := hs a ha m hm
    rw [List.reverse_cons]
    exact (ih hP).snoc ham

end Walk

namespace Reaches

theorem refl : Reaches next a a := ⟨[a], .here⟩

/-- What holds at the start and along arcs holds of all that is reached. -/
theorem invariant {P : Int → Prop} (h : Reaches next a b) (ha : P a)
    (hs : ∀ x, P x → ∀ y ∈ next x, P y) : P b := by
  obtain ⟨xs, hw⟩ := h
  induction hw with
  | here => exact ha
  | step hm _ ih => exact ih (hs _ ha _ hm)

end Reaches

namespace Dominates

theorem of_root : Dominates next root root v := fun _ h => h.start_mem

theorem refl : Dominates next root v v := fun _ h => h.stop_mem

/-- A vertex that does not dominate another is avoided by some walk. -/
theorem not_iff : ¬ Dominates next root d v ↔ ∃ xs, Walk next root xs v ∧ d ∉ xs := by
  simp [Dominates]

theorem trans (h : Dominates next root d e) (he : Dominates next root e v) :
    Dominates next root d v := by
  intro xs hw
  obtain ⟨ys, _, hy, _, hys, _⟩ := hw.split (he xs hw)
  exact hys d (h ys hy)

/-- A walk on from `e` that keeps clear of `d` carries domination back to `e`. -/
theorem of_walk (h : Dominates next root d v) (hw : Walk next e xs v) (hd : d ∉ xs) :
    Dominates next root d e := by
  intro ys hy
  obtain ⟨zs, hz, hm⟩ := hy.append hw
  exact ((hm d).mp (h zs hz)).resolve_right hd

end Dominates

end CrossCall.Flow

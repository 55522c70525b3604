import Mathlib
import CrossCall.Text.Lines

/-! Texts that are joined from parts and cut again. Cutting a joined text gives the pieces of all
its parts. -/
namespace CrossCall.Text

variable {sep c : Char} {cs xs : List Char} {s : String} {ps : List String}

theorem splitFrom_eq (piece : List Char) :
    splitFrom sep piece cs = (cs.splitOnPPrepend (· == sep) piece).map String.ofList := by
  induction cs generalizing piece with
  | nil => rfl
  | cons c rest ih =>
    rw [splitFrom, List.splitOnPPrepend_cons_eq_if]
    by_cases hc : c = sep
    · simp [hc, ih]
    · simp [hc, ih]

theorem splitAt_eq : splitAt sep s = (s.toList.splitOn sep).map String.ofList := splitFrom_eq []

theorem splitAt_of_not_mem (h : sep ∉ s.toList) : splitAt sep s = [s] := by
  rw [splitAt_eq, List.splitOn_eq_singleton h, List.map_singleton, String.ofList_toList]

/-- A part of a joined text is cut as if it stood alone. -/
theorem splitAt_intercalate (h : ps ≠ []) :
    splitAt '\n' (String.intercalate "\n" ps) = ps.flatMap (splitAt '\n') := by
  induction ps with
  | nil => exact absurd rfl h
  | cons p rest ih =>
    cases rest with
    | nil => simp [splitAt_eq]
    | cons q rest =>
      have hrest := ih (List.cons_ne_nil q rest)
      rw [splitAt_eq, String.toList_intercalate] at hrest ⊢
      rw [List.flatMap_cons, ← hrest]
      simp [List.splitOn_append_cons_self, splitAt_eq]

theorem mem_intercalate {ls : List (List Char)} (h : c ∈ xs.intercalate ls) :
    c ∈ xs ∨ ∃ l ∈ ls, c ∈ l := by
  induction ls with
  | nil => simp at h
  | cons l rest ih =>
    cases rest with
    | nil => exact .inr ⟨l, by simp, by simpa using h⟩
    | cons m rest =>
      rw [List.intercalate_cons_cons, List.mem_append, List.mem_append] at h
      rcases h with (hl | hx) | hrest
      · exact .inr ⟨l, by simp, hl⟩
      · exact .inl hx
      · refine (ih hrest).imp_right ?_
        rintro ⟨k, hk, hc⟩
        exact ⟨k, List.mem_cons_of_mem l hk, hc⟩

/-- What is no separator stands in one of the pieces. -/
theorem exists_mem_splitAt (h : c ∈ s.toList) (hc : c ≠ sep) :
    ∃ line ∈ splitAt sep s, c ∈ line.toList := by
  have hjoined : [sep].intercalate (s.toList.splitOn sep) = s.toList := List.intercalate_splitOn sep
  rw [← hjoined] at h
  obtain ⟨l, hl, hmem⟩ := (mem_intercalate h).resolve_left (by simpa using hc)
  exact ⟨String.ofList l, splitAt_eq ▸ List.mem_map_of_mem hl, by simpa using hmem⟩

theorem unifyNewlines_eq_self (h : '\r' ∉ cs) : unifyNewlines cs = cs := by
  induction cs using unifyNewlines.induct with
  | case1 => rfl
  | case2 => simp at h
  | case3 => simp at h
  | case4 c rest _ _ ih =>
    rw [unifyNewlines, ih fun hr => h (List.mem_cons_of_mem c hr)]
    all_goals assumption

theorem occursIn_iff : occursIn xs cs = true ↔ xs <:+: cs := by
  induction cs with
  | nil => simp [occursIn]
  | cons c rest ih => simp [occursIn, ih, List.infix_cons_iff]

/-- A text contains what it starts with. -/
theorem hasText_append (s t : String) : hasText (s ++ t) s = true :=
  occursIn_iff.mpr (List.IsPrefix.isInfix (by simp))

theorem hasText_eq_false {t : String} (hc : c ∈ t.toList) (h : c ∉ s.toList) :
    hasText s t = false := by
  rw [Bool.eq_false_iff]
  intro ht
  exact h ((occursIn_iff.mp ht).subset hc)

end CrossCall.Text

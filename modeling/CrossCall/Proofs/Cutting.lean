import Mathlib
import CrossCall.Assistant.Section

/-! The cutting of a report, line by line. A mark ends the piece before it, so that a report whose
parts begin with marked headlines is cut part by part. -/
namespace CrossCall.Assistant

/-- The piece that some lines make; no lines make none. -/
def pieceOf (lines : List String) : List String :=
  if lines = [] then [] else [String.intercalate "\n" lines]

namespace Cutting

variable {isMark : String → Bool} {c : Cutting} {line title : String} {ls lead body : List String}

/-- The state right after a mark. -/
def opened : Cutting := { started := true }

/-- The pieces that are there when the lines are through. -/
def pieces (isMark : String → Bool) (c : Cutting) (ls : List String) : List String :=
  (ls.foldl (next isMark) c).close.done

theorem close_done : c.close.done = c.done ++ pieceOf c.current := by
  unfold close pieceOf
  cases hc : c.current <;> simp

/-! ### Single lines -/

theorem next_mark (h : isMark line = true) : next isMark c line = ⟨c.close.done, [], true⟩ := by
  unfold next close
  cases hc : c.current <;> simp [h, hc]

/-- A line that is neither a mark nor code is passed over. -/
theorem next_idle (h : isMark line = false) (hcode : isCode line = false) :
    next isMark c line = c := by
  simp [next, h, hcode]

/-- What was cut before stays before what is cut later. -/
theorem next_behind (done : List String) :
    next isMark { c with done := done ++ c.done } line =
      { next isMark c line with done := done ++ (next isMark c line).done } := by
  unfold next close
  grind

/-! ### Many lines -/

theorem foldl_next_idle (h : ∀ l ∈ ls, isMark l = false ∧ isCode l = false) :
    ls.foldl (next isMark) c = c := by
  induction ls with
  | nil => rfl
  | cons l rest ih =>
    obtain ⟨hmark, hcode⟩ := h l List.mem_cons_self
    rw [List.foldl_cons, next_idle hmark hcode, ih fun k hk => h k (List.mem_cons_of_mem l hk)]

theorem foldl_next_unmarked (hs : c.started = true) (h : ∀ l ∈ ls, isMark l = false) :
    ls.foldl (next isMark) c = { c with current := c.current ++ ls.filter isCode } := by
  induction ls generalizing c with
  | nil => simp
  | cons l rest ih =>
    have hmark := h l List.mem_cons_self
    have hrest : ∀ k ∈ rest, isMark k = false := fun k hk => h k (List.mem_cons_of_mem l hk)
    rw [List.foldl_cons]
    cases hcode : isCode l with
    | false => rw [next_idle hmark hcode, ih hs hrest, List.filter_cons_of_neg (by simp [hcode])]
    | true =>
      have hnext : next isMark c l = { c with current := c.current ++ [l] } := by
        simp [next, hmark, hs, hcode]
      rw [hnext, ih (c := ⟨c.done, c.current ++ [l], c.started⟩) hs hrest,
        List.filter_cons_of_pos hcode, List.append_assoc, List.singleton_append]

theorem pieces_behind (done : List String) :
    pieces isMark { c with done := done ++ c.done } ls = done ++ pieces isMark c ls := by
  unfold pieces
  induction ls generalizing c with
  | nil => simp [close_done]
  | cons l rest ih => rw [List.foldl_cons, List.foldl_cons, next_behind, ih]

/-- Lines without a mark make one piece of the code among them. -/
theorem pieces_unmarked (h : ∀ l ∈ ls, isMark l = false) :
    pieces isMark opened ls = pieceOf (ls.filter isCode) := by
  rw [pieces, foldl_next_unmarked rfl h, close_done]
  rfl

/-- A headline ends what came before and opens what follows. -/
theorem pieces_headed (hlead : ∀ l ∈ lead, isMark l = false ∧ isCode l = false)
    (htitle : isMark title = true) :
    pieces isMark c (lead ++ title :: body) = c.close.done ++ pieces isMark opened body := by
  have hbehind : pieces isMark ⟨c.close.done ++ [], [], true⟩ body =
      c.close.done ++ pieces isMark opened body :=
    pieces_behind (c := opened) c.close.done
  rw [pieces, List.foldl_append, foldl_next_idle hlead, List.foldl_cons, next_mark htitle,
    ← hbehind, List.append_nil]
  rfl

/-- A report is cut part by part, each under its headline. -/
theorem pieces_report {β : Type} {parts : List β} {title : β → String} {body : β → List String}
    (hlead : ∀ l ∈ lead, isMark l = false ∧ isCode l = false)
    (htitle : ∀ p ∈ parts, isMark (title p) = true) :
    pieces isMark c (parts.flatMap fun p => lead ++ title p :: body p) =
      c.close.done ++ parts.flatMap fun p => pieces isMark opened (body p) := by
  induction parts generalizing c with
  | nil => simp [pieces]
  | cons p rest ih =>
    have hp : pieces isMark c (lead ++ title p :: body p) =
        c.close.done ++ pieces isMark opened (body p) :=
      pieces_headed hlead (htitle p List.mem_cons_self)
    have hrest := ih (c := (lead ++ title p :: body p).foldl (next isMark) c) fun q hq =>
      htitle q (List.mem_cons_of_mem p hq)
    calc pieces isMark c ((p :: rest).flatMap fun p => lead ++ title p :: body p)
      _ = pieces isMark ((lead ++ title p :: body p).foldl (next isMark) c)
            (rest.flatMap fun p => lead ++ title p :: body p) := by
          rw [List.flatMap_cons, pieces, List.foldl_append]; rfl
      _ = pieces isMark c (lead ++ title p :: body p) ++ rest.flatMap fun p =>
        pieces isMark opened (body p) := hrest
      _ = c.close.done ++ (p :: rest).flatMap fun p => pieces isMark opened (body p) := by
        rw [hp, List.flatMap_cons, List.append_assoc]

end Cutting

end CrossCall.Assistant

import Mathlib
import CrossCall.Calls.Outside
import CrossCall.Proofs.Lines

/-! The addresses of functions outside and the names that are read from them. An address is cut at
double slashes; of a dotted name the last piece stays, behind the name of the module. -/
namespace CrossCall.Calls

variable {a b a' b' m n u : String} {piece cs rest : List Char}

/-! ### Last pieces -/

theorem toList_joinNames (a b : String) :
    (joinNames a b).toList = a.toList ++ '.' :: b.toList := by simp [joinNames]

theorem ownName_of_notMem (h : '.' ∉ n.toList) : ownName n = n := by
  rw [ownName, namePieces, Text.splitAt_of_not_mem h]
  rfl

/-- The last piece of what follows a name is the last piece of both together. -/
theorem ownName_joinNames (a b : String) : ownName (joinNames a b) = ownName b := by
  rw [ownName, ownName, namePieces, namePieces, Text.splitAt_eq, Text.splitAt_eq, toList_joinNames,
    List.splitOn_append_cons_self, List.map_append, List.getLastD_eq_getLast?,
    List.getLastD_eq_getLast?, List.getLast?_append_of_ne_nil _ (by simp [List.splitOn_ne_nil])]

/-- A name is its own last piece, or ends with it behind a dot. -/
theorem ownName_spec (n : String) :
    '.' ∉ (ownName n).toList ∧ (ownName n = n ∨ ∃ a, n = joinNames a (ownName n)) := by
  by_cases hdot : '.' ∈ n.toList
  · obtain ⟨xs, ys, hsplit, hlast⟩ := List.eq_append_cons_of_mem (List.mem_reverse.mpr hdot)
    have hlast : '.' ∉ (String.ofList xs.reverse).toList := by simpa using hlast
    have hn : n = joinNames (String.ofList ys.reverse) (String.ofList xs.reverse) := by
      apply String.toList_inj.mp
      rw [toList_joinNames, String.toList_ofList, String.toList_ofList,
        ← List.reverse_reverse n.toList, hsplit]
      simp
    have hown : ownName n = String.ofList xs.reverse := by
      rw [hn, ownName_joinNames, ownName_of_notMem hlast]
    rw [hown]
    exact ⟨hlast, .inr ⟨_, hn⟩⟩
  · rw [ownName_of_notMem hdot]
    exact ⟨hdot, .inl rfl⟩

theorem ownName_ne_empty (hn : n ≠ "") (hend : Text.hasEnd n "." = false) : ownName n ≠ "" := by
  intro hempty
  rcases (ownName_spec n).2 with hown | ⟨a, ha⟩
  · exact hn (hown.symm.trans hempty)
  · rw [hempty] at ha
    rw [ha] at hend
    simp [Text.hasEnd, toList_joinNames] at hend

/-- Where the last parts have no dots, both parts of a joined name can be told. -/
theorem joinNames_inj (hb : '.' ∉ b.toList) (hb' : '.' ∉ b'.toList)
    (h : joinNames a b = joinNames a' b') :
    a = a' ∧ b = b' := by
  have hown : b = b' := by
    have := congrArg ownName h
    rwa [ownName_joinNames, ownName_joinNames, ownName_of_notMem hb, ownName_of_notMem hb'] at this
  subst hown
  have hlists := congrArg String.toList h
  rw [toList_joinNames, toList_joinNames] at hlists
  exact ⟨String.toList_inj.mp (List.append_cancel_right hlists), rfl⟩

/-- A joined name starts with a text without dots only if its first part does. -/
theorem hasStart_joinNames {start : String} (hdot : '.' ∉ start.toList) :
    Text.hasStart (joinNames a b) start = Text.hasStart a start := by
  rw [Text.hasStart, Text.hasStart, toList_joinNames, Bool.eq_iff_iff, List.isPrefixOf_iff_prefix,
    List.isPrefixOf_iff_prefix]
  constructor
  · intro h
    rcases List.prefix_or_prefix_of_prefix h (List.prefix_append _ _) with hstart | ⟨more, hmore⟩
    · exact hstart
    · cases more with
      | nil => exact ⟨[], by simpa using hmore.symm⟩
      | cons c more =>
        rw [← hmore, List.prefix_append_right_inj, List.cons_prefix_cons] at h
        obtain ⟨rfl, -⟩ := h
        exact absurd (hmore ▸ by simp) hdot
  · exact fun h => h.trans (List.prefix_append _ _)

namespace OutsideCalls

/-! ### Pieces of an address -/

/-- Two slashes side by side. -/
def doubleSlash : List Char := ['/', '/']

theorem go_of_plain (h : ¬ doubleSlash <:+: cs) :
    slashPieces.go piece cs = [String.ofList (piece.reverse ++ cs)] := by
  induction cs generalizing piece with
  | nil => simp [slashPieces.go]
  | cons c rest ih =>
    rw [List.infix_cons_iff, not_or] at h
    rw [slashPieces.go, ih h.2]
    · simp
    · rintro more rfl rfl
      exact h.1 (by simp [doubleSlash])

/-- The first double slash ends the first piece. -/
theorem go_append (h : ¬ doubleSlash <:+: cs ++ ['/']) :
    slashPieces.go piece (cs ++ '/' :: '/' :: rest) =
    String.ofList (piece.reverse ++ cs) :: slashPieces.go [] rest := by
  induction cs generalizing piece with
  | nil => simp [slashPieces.go]
  | cons c cs ih =>
    rw [List.cons_append, List.infix_cons_iff, not_or] at h
    rw [List.cons_append, slashPieces.go, ih h.2]
    · simp
    · rintro more rfl hmore
      cases cs with
      | nil => exact h.1 (by simp [doubleSlash])
      | cons d cs =>
        obtain ⟨rfl, -⟩ := List.cons.inj hmore
        exact h.1 (by simp [doubleSlash])

theorem not_infix_of_hasText (h : Text.hasText m "//" = false) : ¬ doubleSlash <:+: m.toList := by
  intro hin
  rw [Text.hasText, Text.occursIn_iff.mpr (by simpa [doubleSlash] using hin)] at h
  cases h

theorem slashPieces_slashes (m n : String) :
    slashPieces ("//" ++ m ++ "//" ++ n) =
    "" :: slashPieces.go [] (m.toList ++ '/' :: '/' :: n.toList) := by
  simp [slashPieces, slashPieces.go]

/-- Only a slash at the end makes a double slash together with one that follows. -/
theorem exists_slash_at_end (h : ¬ doubleSlash <:+: cs) (hmore : doubleSlash <:+: cs ++ ['/']) :
    ∃ ds, cs = ds ++ ['/'] := by
  rcases List.infix_concat_iff.mp hmore with hend | hin
  · obtain ⟨ds, hds⟩ := hend
    have : ds ++ ['/'] ++ ['/'] = cs ++ ['/'] := by simpa [doubleSlash] using hds
    exact ⟨ds, (List.append_cancel_right this).symm⟩
  · exact absurd hin h

/-- An address has three pieces, -/
theorem slashPieces_whole (hm : Text.hasText m "//" = false) (hn : Text.hasText n "//" = false)
    (hend : ∀ m', m ≠ m' ++ "/") : slashPieces ("//" ++ m ++ "//" ++ n) = ["", m, n] := by
  have hcut : ¬ doubleSlash <:+: m.toList ++ ['/'] := by
    intro hmore
    obtain ⟨ds, hds⟩ := exists_slash_at_end (not_infix_of_hasText hm) hmore
    exact hend (String.ofList ds) (String.toList_inj.mp (by simp [hds]))
  rw [slashPieces_slashes, go_append hcut, go_of_plain (not_infix_of_hasText hn)]
  simp

/-- unless a slash at the end of the module is read as part of the double slash. -/
theorem slashPieces_slash_at_end (hm : Text.hasText (m ++ "/") "//" = false) (n : String) :
    slashPieces ("//" ++ (m ++ "/") ++ "//" ++ n) =
    "" :: m :: slashPieces.go [] ('/' :: n.toList) := by
  have hcut : ¬ doubleSlash <:+: m.toList ++ ['/'] := by simpa using not_infix_of_hasText hm
  have hlist : (m ++ "/").toList ++ '/' :: '/' :: n.toList =
      m.toList ++ '/' :: '/' :: '/' :: n.toList := by simp
  rw [slashPieces_slashes, hlist, go_append hcut]
  simp

/-! ### Names -/

/-- What a module is shown as. -/
def shownModule (m : String) : String := if m = ".builtin" then builtinModule else m

theorem nameOf?_eq {first : String} {rest : List String} (h : slashPieces u = first :: m :: rest) :
    nameOf? u = some (m, if ownName (rest.headD "") = "" then shownModule m
      else joinNames (shownModule m) (ownName (rest.headD ""))) := by
  simp [nameOf?, h, shownModule]

/-- An address, of something in a module. The functions that need no import are in `.builtin`. The
names of other modules start differently from what `.builtin` is shown as. -/
structure IsAddress (u m n : String) : Prop where
  eq : u = "//" ++ m ++ "//" ++ n
  module_plain : Text.hasText m "//" = false
  name_plain : Text.hasText n "//" = false
  name_ne : n ≠ ""
  name_end : Text.hasEnd n "." = false
  module_told : m = ".builtin" ∨ Text.hasStart m builtinModule = false

/-- A listed function, with its module, starts like those that need no import exactly if it is one
of them. -/
structure WellNamed (e : String × String) : Prop where
  builtin : e.1 = ".builtin" → isBuiltin e.2 = true
  module : e.1 ≠ ".builtin" → Text.hasStart e.1 builtinModule = false
  other : e.1 ≠ ".builtin" → Text.hasStart e.2 builtinModule = false

/-- The name of a module with a name of its own, alone or before that of a function. -/
theorem wellNamed_of_module {f : String} (hne : m ≠ ".builtin")
    (hm : Text.hasStart m builtinModule = false) :
    WellNamed (m, if f = "" then shownModule m else joinNames (shownModule m) f) := by
  have hshown : shownModule m = m := if_neg hne
  refine ⟨fun h => absurd h hne, fun _ => hm, fun _ => ?_⟩
  rw [hshown]
  dsimp only
  split
  · exact hm
  · rw [hasStart_joinNames (by decide), hm]

theorem hasStart_append {start : String} (h : Text.hasStart (a ++ b) start = false) :
    Text.hasStart a start = false := by
  rw [Bool.eq_false_iff] at h ⊢
  intro ha
  apply h
  rw [Text.hasStart, List.isPrefixOf_iff_prefix] at ha ⊢
  exact ha.trans (by simp)

theorem isBuiltin_joinNames (f : String) : isBuiltin (joinNames builtinModule f) = true := by
  simp [isBuiltin, joinNames, Text.hasStart]

theorem wellNamed_builtin {f : String} (hf : f ≠ "") :
    WellNamed (".builtin", if f = "" then shownModule ".builtin"
      else joinNames (shownModule ".builtin") f) := by
  refine ⟨fun _ => ?_, fun h => absurd rfl h, fun h => absurd rfl h⟩
  rw [if_neg hf]
  exact isBuiltin_joinNames f

/-- A slash before a name goes with it, unless the name brings another. -/
theorem go_slash (hn : Text.hasText n "//" = false) (hstart : Text.hasStart n "/" = false) :
    slashPieces.go [] ('/' :: n.toList) = ["/" ++ n] := by
  have hplain : ¬ doubleSlash <:+: '/' :: n.toList := by
    rw [List.infix_cons_iff, not_or]
    refine ⟨?_, not_infix_of_hasText hn⟩
    rw [doubleSlash, List.cons_prefix_cons]
    rintro ⟨-, h⟩
    rw [Bool.eq_false_iff, Text.hasStart, ne_eq, List.isPrefixOf_iff_prefix] at hstart
    exact hstart (by simpa using h)
  rw [go_of_plain hplain]
  simp

theorem hasEnd_slash (hne : n ≠ "") (hend : Text.hasEnd n "." = false) :
    Text.hasEnd ("/" ++ n) "." = false := by
  have hlist : n.toList.reverse ≠ [] := by simpa using hne
  obtain ⟨c, cs, hn⟩ := List.exists_cons_of_ne_nil hlist
  simp only [Text.hasEnd, String.toList_append, List.reverse_append, hn] at hend ⊢
  simpa [List.isPrefixOf] using hend

/-- Every address names a function, in its module, unless it has four slashes in a row behind
`.builtin`: these would be read as `.builtin` and an empty name. -/
theorem IsAddress.wellNamed (h : IsAddress u m n)
    (hslashes : m = ".builtin/" → Text.hasStart n "/" = false) :
    ∃ e, nameOf? u = some e ∧ WellNamed e := by
  obtain ⟨rfl, hm, hn, hne, hend, htold⟩ := h
  by_cases hslash : ∃ m', m = m' ++ "/"
  · obtain ⟨m, rfl⟩ := hslash
    refine ⟨_, nameOf?_eq (slashPieces_slash_at_end hm n), ?_⟩
    by_cases hbuiltin : m = ".builtin"
    · subst hbuiltin
      rw [go_slash hn (hslashes rfl), List.headD_cons]
      exact wellNamed_builtin
        (ownName_ne_empty (by simp [← String.toList_inj]) (hasEnd_slash hne hend))
    · have hother : m ++ "/" ≠ ".builtin" := by
        intro heq
        have := congrArg (·.toList.getLast?) heq
        simp at this
      exact wellNamed_of_module hbuiltin (hasStart_append (htold.resolve_left hother))
  · refine ⟨_, nameOf?_eq (slashPieces_whole hm hn fun m' hm' => hslash ⟨m', hm'⟩), ?_⟩
    by_cases hbuiltin : m = ".builtin"
    · subst hbuiltin
      exact wellNamed_builtin (ownName_ne_empty hne hend)
    · exact wellNamed_of_module hbuiltin (htold.resolve_left hbuiltin)

theorem WellNamed.isBuiltin_iff {e : String × String} (h : WellNamed e) :
    isBuiltin e.2 = true ↔ e.1 = ".builtin" := by
  constructor
  · intro hstart
    by_contra hne
    rw [isBuiltin, Text.hasStart, List.isPrefixOf_iff_prefix] at hstart
    have := h.other hne
    rw [Bool.eq_false_iff, Text.hasStart, ne_eq, List.isPrefixOf_iff_prefix] at this
    exact this (List.IsPrefix.trans (by simp) hstart)
  · exact h.builtin

end OutsideCalls

end CrossCall.Calls

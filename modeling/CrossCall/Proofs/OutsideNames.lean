import CrossCall.Proofs.OutsideViews

/-! The names under which functions outside are shown. Of the name behind the module only the last
piece is kept, so two functions of a module whose names end alike are shown as one. -/
namespace CrossCall.Calls.OutsideCalls

variable {p : Package} {a b m n u k : String}

/-! ### What is left of an address -/

/-- The module of an address, and the last piece of the name behind it. -/
def endsOf (u : String) : String × String :=
  ((slashPieces u)[1]?.getD "", ownName ((slashPieces u)[2]?.getD ""))

/-- How a function is shown. -/
def shownName (ends : String × String) : String := joinNames (shownModule ends.1) ends.2

/-- An address that is cut into the module and the name. -/
structure IsWhole (u m n : String) : Prop extends IsAddress u m n where
  module_end : ∀ m', m ≠ m' ++ "/"

theorem IsWhole.slashPieces_eq (h : IsWhole u m n) : slashPieces u = ["", m, n] := by
  rw [h.eq]
  exact slashPieces_whole h.module_plain h.name_plain h.module_end

theorem IsWhole.endsOf_eq (h : IsWhole u m n) : endsOf u = (m, ownName n) := by
  simp [endsOf, h.slashPieces_eq]

theorem IsWhole.nameOf?_eq (h : IsWhole u m n) : nameOf? u = some (m, shownName (endsOf u)) := by
  rw [OutsideCalls.nameOf?_eq h.slashPieces_eq, List.headD_cons,
    if_neg (ownName_ne_empty h.name_ne h.name_end), h.endsOf_eq]
  rfl

theorem IsAddress.shownModule_inj {u' m' n' : String} (h : IsAddress u m n)
    (h' : IsAddress u' m' n') (heq : shownModule m = shownModule m') : m = m' := by
  unfold shownModule at heq
  split at heq <;> split at heq
  · simp_all
  · have := h'.module_told.resolve_left ‹_›
    rw [← heq] at this
    exact absurd this (by decide)
  · have := h.module_told.resolve_left ‹_›
    rw [heq] at this
    exact absurd this (by decide)
  · exact heq

/-- The shown name tells the module and the last piece. -/
theorem shownName_inj {u' m' n' : String} (h : IsWhole u m n) (h' : IsWhole u' m' n')
    (heq : shownName (endsOf u) = shownName (endsOf u')) : endsOf u = endsOf u' := by
  rw [h.endsOf_eq, h'.endsOf_eq] at heq ⊢
  obtain ⟨hmodule, hname⟩ := joinNames_inj (ownName_spec n).1 (ownName_spec n').1 heq
  rw [h.shownModule_inj h'.toIsAddress hmodule, hname]

/-! ### Members of a package -/

/-- Where every number stands for one member, a call shows that member. -/
theorem calleeName_eq (hids : ((outsideMembers p).map (·.1)).Nodup)
    (hmem : (k, u) ∈ outsideMembers p) (h : IsWhole u m n) :
    calleeName p k = shownName (endsOf u) := by
  have haddress : address (addressTable p) k = u := by
    refine address_of_mem hmem fun e he hkey => ?_
    exact congrArg Prod.snd (List.inj_on_of_nodup_map hids he hmem hkey)
  simp [calleeName, haddress, h.nameOf?_eq]

theorem listed_whole (hmembers : ∀ e ∈ outsideMembers p, ∃ m n, IsWhole e.2 m n) :
    (listed p).map (·.2) = ((outsideMembers p).map fun e => endsOf e.2).map shownName := by
  rw [listed_eq, List.map_filterMap, List.map_map, ← List.filterMap_eq_map]
  refine List.filterMap_congr fun e he => ?_
  obtain ⟨m, n, h⟩ := hmembers e he
  simp [h.nameOf?_eq]

theorem length_eraseDups {α : Type} [DecidableEq α] (xs : List α) :
    xs.eraseDups.length = xs.toFinset.card := by
  rw [← List.toFinset_card_of_nodup (nodup_eraseDups xs)]
  congr 1
  ext x
  simp

/-- As many functions are counted as there are pairs of a module and a last piece. -/
theorem functionCount_eq (hmembers : ∀ e ∈ outsideMembers p, ∃ m n, IsWhole e.2 m n) :
    (ofPackage p true).statistics.functionCount =
    ((outsideMembers p).map fun e => endsOf e.2).toFinset.card := by
  have hcount : (ofPackage p true).statistics.functionCount =
      ((listed p).map (·.2)).eraseDups.length := by
    simp [ofPackage]
  have hinj : Set.InjOn shownName ((outsideMembers p).map fun e => endsOf e.2).toFinset := by
    intro x hx y hy heq
    obtain ⟨e, he, rfl⟩ := List.mem_map.mp (List.mem_toFinset.mp hx)
    obtain ⟨e', he', rfl⟩ := List.mem_map.mp (List.mem_toFinset.mp hy)
    obtain ⟨m, n, h⟩ := hmembers e he
    obtain ⟨m', n', h'⟩ := hmembers e' he'
    exact shownName_inj h h' heq
  rw [hcount, listed_whole hmembers, length_eraseDups, ← Finset.card_image_of_injOn hinj]
  congr 1
  ext name
  rw [List.mem_toFinset, List.mem_map, Finset.mem_image]
  simp only [List.mem_toFinset]

/-- A function behind the name of its module is shown with the last piece of its name only, in all
views. Two functions are shown under one name exactly if their modules and last pieces are the same,
and counted once if they are. -/
theorem calleeName_eq_iff (hids : ((outsideMembers p).map (·.1)).Nodup)
    (hmembers : ∀ e ∈ outsideMembers p, ∃ m n, IsWhole e.2 m n) :
    (∀ k u m a, (k, u) ∈ outsideMembers p → IsWhole u m (joinNames m a) →
      endsOf u = (m, ownName a) ∧ calleeName p k = joinNames (shownModule m) (ownName a) ∧
        calleeName p k ∈ (ofPackage p true).functions ∧
        ∃ names, (m, names) ∈ (ofPackage p true).byModule.entries ∧ calleeName p k ∈ names) ∧
    (∀ e ∈ outsideMembers p, ∀ e' ∈ outsideMembers p,
      calleeName p e.1 = calleeName p e'.1 ↔ endsOf e.2 = endsOf e'.2) ∧
    (ofPackage p true).statistics.functionCount =
    ((outsideMembers p).map fun e => endsOf e.2).toFinset.card := by
  refine ⟨?_, ?_, functionCount_eq hmembers⟩
  · intro k u m a hmem h
    have hends : endsOf u = (m, ownName a) := by rw [h.endsOf_eq, ownName_joinNames]
    have hshown := calleeName_eq hids hmem h
    have hlisted : (m, calleeName p k) ∈ listed p := mem_listed.mpr ⟨_, hmem, hshown ▸ h.nameOf?_eq⟩
    refine ⟨hends, by rw [hshown, hends]; rfl, mem_functions.mpr ⟨⟨m, hlisted⟩, .inl rfl⟩,
      pairedWith m (listed p), ?_, mem_pairedWith.mpr hlisted⟩
    exact mem_byModule.mpr ⟨⟨List.mem_map_of_mem hlisted, rfl⟩, .inl rfl⟩
  · intro e he e' he'
    obtain ⟨m, n, h⟩ := hmembers e he
    obtain ⟨m', n', h'⟩ := hmembers e' he'
    rw [calleeName_eq hids he h, calleeName_eq hids he' h']
    exact ⟨shownName_inj h h', congrArg shownName⟩

/-! ### Two functions with like names -/

/-- A program that calls two functions of a module, one of them in a module below. -/
def likeNamed : World := mainProgram "import os\nos.path.join()\nos.join()\n" [
  .imports [⟨"os", none⟩],
  .other [.call (.attribute (.attribute (.name "os") "path") "join") [] []],
  .other [.call (.attribute (.name "os") "join") [] []]]

theorem likeNamed_document : ∃ s p, analyze likeNamed mainRequest = .ok s ∧
    s.document likeNamed.files mainRequest.package {} = .ok p ∧
    outsideMembers p = [("1", "//os//os.path.join"), ("2", "//os//os.join")] ∧
    (ofPackage p true).edges = [("node_0", "os.join"), ("node_0", "os.join")] ∧
    (ofPackage p true).statistics.functionCount = 1 := by
  have hrun : (seen likeNamed mainRequest fun _ p =>
        (outsideMembers p, (ofPackage p true).edges,
          (ofPackage p true).statistics.functionCount)).toOption =
      some ([("1", "//os//os.path.join"), ("2", "//os//os.join")],
        [("node_0", "os.join"), ("node_0", "os.join")], 1) := by
    decide +kernel
  obtain ⟨s, p, hs, hdocument, hshown⟩ := exists_document hrun
  simp only [Prod.mk.injEq] at hshown
  exact ⟨s, p, hs, hdocument, hshown⟩

theorem isWhole_os (hu : u = "//" ++ "os" ++ "//" ++ n) (hplain : Text.hasText n "//" = false)
    (hne : n ≠ "") (hend : Text.hasEnd n "." = false) : IsWhole u "os" n := by
  refine ⟨⟨hu, by decide +kernel, hplain, hne, hend, .inr (by decide +kernel)⟩,
    fun m' hm' => ?_⟩
  have := congrArg (·.toList.getLast?) hm'
  simp at this

/-- Both functions are in the module, and their last pieces are the same. -/
theorem calleeName_eq_iff_likeNamed : ∃ p, (((outsideMembers p).map (·.1)).Nodup ∧
      ∀ e ∈ outsideMembers p, ∃ m n, IsWhole e.2 m n) ∧
    ("1", "//os//os.path.join") ∈ outsideMembers p ∧ ("2", "//os//os.join") ∈ outsideMembers p ∧
    calleeName p "1" = calleeName p "2" ∧ calleeName p "1" = "os.join" ∧
    (ofPackage p true).statistics.functionCount = 1 := by
  obtain ⟨s, p, -, -, hall, -, -⟩ := likeNamed_document
  have hpath : IsWhole "//os//os.path.join" "os" (joinNames "os" "path.join") :=
    isWhole_os (by decide +kernel) (by decide +kernel) (by decide +kernel) (by decide +kernel)
  have hplain : IsWhole "//os//os.join" "os" (joinNames "os" "join") :=
    isWhole_os (by decide +kernel) (by decide +kernel) (by decide +kernel) (by decide +kernel)
  have hids : ((outsideMembers p).map (·.1)).Nodup := by
    rw [hall]
    decide
  have hmembers : ∀ e ∈ outsideMembers p, ∃ m n, IsWhole e.2 m n := by
    rw [hall]
    simp only [List.forall_mem_cons, List.not_mem_nil, false_imp_iff, implies_true, and_true]
    exact ⟨⟨_, _, hpath⟩, ⟨_, _, hplain⟩⟩
  obtain ⟨hshown, hsame, hcount⟩ := calleeName_eq_iff hids hmembers
  have hfirst : ("1", "//os//os.path.join") ∈ outsideMembers p := by simp [hall]
  have hsecond : ("2", "//os//os.join") ∈ outsideMembers p := by simp [hall]
  have hends : endsOf "//os//os.path.join" = endsOf "//os//os.join" := by decide +kernel
  refine ⟨p, ⟨hids, hmembers⟩, hfirst, hsecond, (hsame _ hfirst _ hsecond).mpr hends, ?_, ?_⟩
  · rw [(hshown _ _ _ _ hfirst hpath).2.1]
    decide +kernel
  · rw [hcount, hall]
    decide +kernel

/-- Two functions outside are taken for one: a program calls both, and is said to call one function
twice. -/
theorem exists_functions_conflated :
    ∃ w r s p, analyze w r = .ok s ∧ s.document w.files r.package {} = .ok p ∧
    outsideMembers p = [("1", "//os//os.path.join"), ("2", "//os//os.join")] ∧
    (ofPackage p true).edges = [("node_0", "os.join"), ("node_0", "os.join")] ∧
    (ofPackage p true).statistics.functionCount = 1 := by
  obtain ⟨s, p, hs, hdocument, hall, hedges, hcount⟩ := likeNamed_document
  exact ⟨likeNamed, mainRequest, s, p, hs, hdocument, hall, hedges, hcount⟩

end CrossCall.Calls.OutsideCalls

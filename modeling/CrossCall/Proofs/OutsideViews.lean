import CrossCall.Proofs.OutsideAddress
import CrossCall.Proofs.OutsideCallers

/-! The views of the calls that leave a package: functions, functions by module, calls, callers by
function, and their numbers. Functions are read from the members outside, calls from the pairs of
numbers, each with a test of its own for functions that need no import; still all views speak of the
same functions. -/
namespace CrossCall.Calls.OutsideCalls

variable {p : Package} {withBuiltin : Bool} {k u name key : String} {e : String × String}
  {xs : List (String × String)}

/-! ### Names under keys -/

/-- The second parts of pairs, listed under the first. -/
def grouped (xs : List (String × String)) : Table String (List String) :=
  xs.foldl (fun t e => addUnder t e.1 e.2) {}

/-- What is paired with a key, each once. -/
def pairedWith (k : String) (xs : List (String × String)) : List String :=
  ((xs.filter fun e => e.1 = k).map (·.2)).eraseDups

theorem mem_pairedWith : name ∈ pairedWith k xs ↔ (k, name) ∈ xs := by
  simp [pairedWith]

theorem keys_addUnder_all (xs : List (String × String)) (t : Table String (List String)) :
    (xs.foldl (fun t e => addUnder t e.1 e.2) t).keys = unionNames t.keys (xs.map (·.1)) := by
  induction xs generalizing t with
  | nil => rfl
  | cons e rest ih =>
    rw [List.foldl_cons, ih, addUnder, Table.alter, Table.keys_insert]
    rfl

theorem getD_addUnder_all (xs : List (String × String)) (t : Table String (List String))
    (k : String) :
    (xs.foldl (fun t e => addUnder t e.1 e.2) t).getD k [] =
      unionNames (t.getD k []) ((xs.filter fun e => e.1 = k).map (·.2)) := by
  induction xs generalizing t with
  | nil => rfl
  | cons e rest ih =>
    rw [List.foldl_cons, ih, addUnder, Table.getD_alter]
    by_cases he : e.1 = k
    · simp [he, unionNames]
    · simp [he, Ne.symm he]

theorem keys_grouped (xs : List (String × String)) :
    (grouped xs).keys = (xs.map (·.1)).eraseDups := by
  rw [grouped, keys_addUnder_all, ← unionNames_nil]
  rfl

theorem distinct_grouped (xs : List (String × String)) : (grouped xs).Distinct := by
  rw [Table.Distinct, keys_grouped]
  exact nodup_eraseDups _

/-- Keys stand in the order in which they first came, and so do the names under them. -/
theorem entries_grouped (xs : List (String × String)) :
    (grouped xs).entries = (xs.map (·.1)).eraseDups.map fun k => (k, pairedWith k xs) := by
  have hnames : ∀ k, (grouped xs).getD k [] = pairedWith k xs := by
    intro k
    rw [grouped, getD_addUnder_all, pairedWith, ← unionNames_nil]
    rfl
  rw [(distinct_grouped xs).entries_eq [], keys_grouped]
  simp only [hnames]

theorem mem_entries_grouped {names : List String} :
    (k, names) ∈ (grouped xs).entries ↔ k ∈ xs.map (·.1) ∧ names = pairedWith k xs := by
  rw [entries_grouped]
  simp only [List.mem_map, List.mem_eraseDups, Prod.mk.injEq]
  constructor
  · rintro ⟨_, hk, rfl, rfl⟩
    exact ⟨hk, rfl⟩
  · rintro ⟨hk, rfl⟩
    exact ⟨k, hk, rfl, rfl⟩

/-! ### The views one by one -/

theorem mem_functions : name ∈ (ofPackage p withBuiltin).functions ↔
    (∃ module, (module, name) ∈ listed p) ∧ (withBuiltin = true ∨ isBuiltin name = false) := by
  simp [ofPackage, sortNames]

/-- The functions of a package, each once. -/
theorem functions_perm : (ofPackage p withBuiltin).functions.Perm
    (((listed p).map (·.2)).filter fun name => withBuiltin || !isBuiltin name).eraseDups :=
  List.mergeSort_perm _ _

theorem functions_sorted : (ofPackage p withBuiltin).functions.Pairwise (· < ·) := by
  have hle : (ofPackage p withBuiltin).functions.Pairwise fun a b => decide (a ≤ b) = true := by
    refine List.pairwise_mergeSort ?_ ?_ _
    · intro a b c hab hbc
      exact decide_eq_true ((of_decide_eq_true hab).trans (of_decide_eq_true hbc))
    · intro a b
      simpa using String.le_total a b
  have hne : (ofPackage p withBuiltin).functions.Nodup :=
    functions_perm.nodup_iff.mpr (nodup_eraseDups _)
  exact hle.imp₂ (fun a b hab hne => lt_of_le_of_ne (of_decide_eq_true hab) hne) hne

theorem byModule_entries : (ofPackage p withBuiltin).byModule.entries =
    (grouped (listed p)).entries.filter fun e => withBuiltin || e.1 != ".builtin" := by
  cases withBuiltin with
  | false => rfl
  | true => exact (List.filter_eq_self.mpr fun _ _ => rfl).symm

theorem mem_byModule {names : List String} :
    (k, names) ∈ (ofPackage p withBuiltin).byModule.entries ↔
    (k ∈ (listed p).map (·.1) ∧ names = pairedWith k (listed p)) ∧
    (withBuiltin = true ∨ k ≠ ".builtin") := by
  rw [byModule_entries, List.mem_filter, mem_entries_grouped]
  simp

theorem byModule_distinct : (ofPackage p withBuiltin).byModule.Distinct := by
  rw [Table.Distinct, Table.keys, byModule_entries]
  exact (distinct_grouped (listed p)).sublist (List.filter_sublist.map _)

theorem callers_entries : (ofPackage p withBuiltin).callers.entries =
    ((ofPackage p withBuiltin).edges.map (·.2)).eraseDups.map fun callee => (callee,
      (((ofPackage p withBuiltin).edges.filter fun e => e.2 = callee).map (·.1)).eraseDups) := by
  have hgrouped : (ofPackage p withBuiltin).callers =
      grouped ((ofPackage p withBuiltin).edges.map Prod.swap) := by
    rw [grouped, List.foldl_map]
    rfl
  rw [hgrouped, entries_grouped]
  simp [pairedWith, List.filter_map, Function.comp_def]

/-! ### What is listed -/

theorem listed_eq (p : Package) : listed p = (outsideMembers p).filterMap fun e => nameOf? e.2 := by
  rw [listed, outsideMembers, List.filterMap_flatMap, List.filterMap_flatMap]
  simp [Table.values, List.filterMap_map]

theorem mem_listed : e ∈ listed p ↔ ∃ member ∈ outsideMembers p, nameOf? member.2 = some e := by
  rw [listed_eq, List.mem_filterMap]

/-- Of several members with one number the last one is meant. -/
theorem address_mem (h : ∃ u, (key, u) ∈ outsideMembers p) :
    (key, address (addressTable p) key) ∈ outsideMembers p := by
  obtain ⟨u, hu⟩ := h
  have hne : (outsideMembers p).filter (fun e => e.1 = key) ≠ [] :=
    List.ne_nil_of_mem (List.mem_filter.mpr ⟨hu, by simp⟩)
  obtain ⟨last, hlast⟩ := Option.isSome_iff_exists.mp (List.getLast?_isSome.mpr hne)
  obtain ⟨hmem, hkey⟩ := List.mem_filter.mp (List.mem_of_getLast? hlast)
  have haddress : address (addressTable p) key = last.2 := by
    rw [address, Table.getD, get?_addressTable, hlast]
    rfl
  rw [haddress, ← of_decide_eq_true hkey]
  exact hmem

section Addresses

variable (hmembers : ∀ e ∈ outsideMembers p, ∃ named, nameOf? e.2 = some named ∧ WellNamed named)

include hmembers

theorem wellNamed_of_mem_listed (h : e ∈ listed p) : WellNamed e := by
  obtain ⟨member, hmem, hname⟩ := mem_listed.mp h
  obtain ⟨e', hname', hwell⟩ := hmembers member hmem
  rw [hname] at hname'
  cases hname'
  exact hwell

/-- The callee of a call to a listed member is shown under the name that is listed for it. -/
theorem calleeName_listed (h : ∃ u, (key, u) ∈ outsideMembers p) :
    ∃ module, (module, calleeName p key) ∈ listed p := by
  have hmem := address_mem h
  obtain ⟨⟨module, name⟩, hname, -⟩ := hmembers _ hmem
  refine ⟨module, mem_listed.mpr ⟨_, hmem, ?_⟩⟩
  simp [calleeName, hname]

/-- A function is listed under `.builtin` exactly if its name says so, so both tests leave the same
functions. -/
theorem isBuiltin_listed {module : String} (h : (module, name) ∈ listed p) :
    isBuiltin name = true ↔ module = ".builtin" :=
  (wellNamed_of_mem_listed hmembers h).isBuiltin_iff

theorem mem_functions_iff_byModule :
    name ∈ (ofPackage p withBuiltin).functions ↔
    ∃ e ∈ (ofPackage p withBuiltin).byModule.entries, name ∈ e.2 := by
  rw [mem_functions]
  constructor
  · rintro ⟨⟨module, hlisted⟩, hkept⟩
    refine ⟨(module, pairedWith module (listed p)),
      mem_byModule.mpr ⟨⟨List.mem_map_of_mem hlisted, rfl⟩, ?_⟩, mem_pairedWith.mpr hlisted⟩
    refine hkept.imp_right fun hother hmodule => ?_
    rw [(isBuiltin_listed hmembers hlisted).mpr hmodule] at hother
    cases hother
  · rintro ⟨⟨module, names⟩, hentry, hname⟩
    obtain ⟨⟨-, rfl⟩, hkept⟩ := mem_byModule.mp hentry
    have hlisted := mem_pairedWith.mp hname
    refine ⟨⟨module, hlisted⟩, hkept.imp_right fun hother => ?_⟩
    rw [Bool.eq_false_iff, ne_eq, isBuiltin_listed hmembers hlisted]
    exact hother

theorem hasStart_of_mem_functions (h : name ∈ (ofPackage p false).functions) :
    Text.hasStart name builtinModule = false := by
  obtain ⟨⟨module, hlisted⟩, hkept⟩ := mem_functions.mp h
  have hother : isBuiltin name = false := hkept.resolve_left Bool.false_ne_true
  refine (wellNamed_of_mem_listed hmembers hlisted).other fun hmodule => ?_
  rw [(isBuiltin_listed hmembers hlisted).mpr hmodule] at hother
  cases hother

theorem callee_mem_functions
    (hcalls : ∀ call ∈ p.calls.outside, ∃ u, (call.2, u) ∈ outsideMembers p)
    (h : e ∈ (ofPackage p withBuiltin).edges) : e.2 ∈ (ofPackage p withBuiltin).functions := by
  rw [edges_ofPackage, List.mem_filter] at h
  obtain ⟨hmem, hkept⟩ := h
  obtain ⟨call, hcall, rfl⟩ := List.mem_map.mp hmem
  exact mem_functions.mpr ⟨calleeName_listed hmembers (hcalls call hcall), by simpa using hkept⟩

end Addresses

/-! ### Agreement -/

/-- The views speak of the same functions, calls and callers. -/
structure Coherent (o : OutsideCalls) : Prop where
  functions_sorted : o.functions.Pairwise (· < ·)
  byModule_distinct : o.byModule.Distinct
  functions_byModule : ∀ name, name ∈ o.functions ↔ ∃ e ∈ o.byModule.entries, name ∈ e.2
  callees : ∀ e ∈ o.edges, e.2 ∈ o.functions
  /-- A function that is called stands before its callers, each of them once. -/
  callers : o.callers.entries = (o.edges.map (·.2)).eraseDups.map fun callee =>
    (callee, ((o.edges.filter fun e => e.2 = callee).map (·.1)).eraseDups)
  functionCount : o.statistics.functionCount = o.functions.length
  moduleCount : o.statistics.moduleCount = o.byModule.entries.length
  edgeCount : o.statistics.edgeCount = o.edges.length

/-- No view shows a function that needs no import. -/
structure WithoutBuiltin (o : OutsideCalls) : Prop where
  functions : ∀ name ∈ o.functions, Text.hasStart name builtinModule = false
  byModule : ∀ e ∈ o.byModule.entries, Text.hasStart e.1 builtinModule = false ∧
    ∀ name ∈ e.2, Text.hasStart name builtinModule = false
  edges : ∀ e ∈ o.edges, Text.hasStart e.2 builtinModule = false
  callers : ∀ callee ∈ o.callers.keys, Text.hasStart callee builtinModule = false

section Views

variable (hmembers : ∀ e ∈ outsideMembers p, ∃ named, nameOf? e.2 = some named ∧ WellNamed named)
  (hcalls : ∀ call ∈ p.calls.outside, ∃ u, (call.2, u) ∈ outsideMembers p)

include hmembers hcalls

theorem coherent_ofPackage (withBuiltin : Bool) : Coherent (ofPackage p withBuiltin) :=
  ⟨functions_sorted, byModule_distinct, fun _ => mem_functions_iff_byModule hmembers,
    fun _ => callee_mem_functions hmembers hcalls, callers_entries, functions_perm.length_eq.symm,
    rfl, rfl⟩

theorem withoutBuiltin_ofPackage : WithoutBuiltin (ofPackage p false) := by
  have hedges : ∀ e ∈ (ofPackage p false).edges, Text.hasStart e.2 builtinModule = false :=
    fun e he => hasStart_of_mem_functions hmembers (callee_mem_functions hmembers hcalls he)
  refine ⟨fun name => hasStart_of_mem_functions hmembers, ?_, hedges, ?_⟩
  · rintro ⟨module, names⟩ hentry
    refine ⟨?_, fun name hname =>
      hasStart_of_mem_functions hmembers
        ((mem_functions_iff_byModule hmembers).mpr ⟨_, hentry, hname⟩)⟩
    obtain ⟨⟨hmodule, -⟩, hkept⟩ := mem_byModule.mp hentry
    obtain ⟨e, he, rfl⟩ := List.mem_map.mp hmodule
    exact (wellNamed_of_mem_listed hmembers he).module (hkept.resolve_left Bool.false_ne_true)
  · intro callee hcallee
    obtain ⟨entry, hentry, rfl⟩ := List.mem_map.mp hcallee
    rw [callers_entries] at hentry
    obtain ⟨callee, hcalled, rfl⟩ := List.mem_map.mp hentry
    obtain ⟨e, he, rfl⟩ := List.mem_map.mp (List.mem_eraseDups.mp hcalled)
    exact hedges e he

end Views

/-! ### Documents -/

variable {s : Session} {fs : Files} {package : Option String} {label : Label} {x : String × String}

/-- What an analysis notes outside is in a module without dots. -/
theorem dot_notMem_of_mem_outsideNames (h : x ∈ Package.outsideNames (s.facts fs package)) :
    '.' ∉ x.1.toList := by
  obtain ⟨e, he, hx⟩ := List.mem_flatMap.mp h
  obtain ⟨_, -, rfl⟩ := List.mem_map.mp hx
  obtain ⟨noted, hnoted, rfl⟩ := List.mem_map.mp he
  exact s.catalogue.plain _ (List.mem_map_of_mem hnoted)

theorem outsideParts_ne (h : x ∈ Package.outsideNames (s.facts fs package)) :
    (Package.outsideParts x.1 x.2).1 ≠ ".builtin/" := by
  unfold Package.outsideParts
  split
  · exact (by decide : ".builtin" ≠ ".builtin/")
  · intro heq
    have hdot : '.' ∈ (Package.plain x.1).toList := by
      rw [show Package.plain x.1 = ".builtin/" from heq]
      decide
    have hmem : '.' ∈ x.1.toList := by
      obtain ⟨c, hc, hreplaced⟩ :=
        List.mem_map.mp (by simpa [Package.plain, Text.replaceChar] using hdot)
      split at hreplaced
      · exact absurd hreplaced (by decide)
      · exact hreplaced ▸ hc
    exact dot_notMem_of_mem_outsideNames h hmem

/-- The members outside have proper addresses. -/
inductive ProperlyAddressed (p : Package) : Prop
  /-- A program has made the document, and the parts of these addresses are those that it has put
  together. -/
  | made {s : Session} {fs : Files} {package : Option String} {label : Label}
      (hdocument : s.document fs package label = .ok p)
      (hmembers : ∀ x ∈ Package.outsideNames (s.facts fs package),
        (∃ key, (key, Package.outsideUri x.1 x.2) ∈ outsideMembers p) →
          IsAddress (Package.outsideUri x.1 x.2) (Package.outsideParts x.1 x.2).1
            (Package.outsideParts x.1 x.2).2)
  /-- Of a document from elsewhere it must be known that no address has four slashes in a row behind
  `.builtin`. -/
  | given (hmembers : ∀ e ∈ outsideMembers p, ∃ m n, IsAddress e.2 m n ∧
      (m = ".builtin/" → Text.hasStart n "/" = false))

theorem ProperlyAddressed.wellNamed (h : ProperlyAddressed p) :
    ∀ e ∈ outsideMembers p, ∃ named, nameOf? e.2 = some named ∧ WellNamed named := by
  intro e he
  cases h with
  | made hdocument hmembers =>
    obtain ⟨_, hyields⟩ := yields_document hdocument
    obtain ⟨m, hm, hentry⟩ := List.mem_flatMap.mp he
    obtain ⟨x, hx, haddress⟩ := Package.document_addresses hyields m hm e hentry
    rw [haddress]
    exact (hmembers x hx ⟨e.1, haddress ▸ he⟩).wellNamed fun h => absurd h (outsideParts_ne hx)
  | given hmembers =>
    obtain ⟨m, n, haddress, hslashes⟩ := hmembers e he
    exact haddress.wellNamed hslashes

/-- A program that calls two functions of a module and one that needs no import. -/
def mixedCalls : World := mainProgram "import os\nos.path.join()\nos.getcwd()\nprint()\n" [
  .imports [⟨"os", none⟩],
  .other [.call (.attribute (.attribute (.name "os") "path") "join") [] []],
  .other [.call (.attribute (.name "os") "getcwd") [] []],
  .other [.call (.name "print") [] []]]

/-- The parts of these addresses. -/
def mixedParts : List (String × String) :=
  [("os", "os.path.join"), ("os", "os.getcwd"), (".builtin", "print")]

theorem mixedCalls_document : ∃ (s : Session) (p : Package),
    s.document mixedCalls.files mainRequest.package {} = .ok p ∧
    (Package.outsideNames (s.facts mixedCalls.files mainRequest.package)).map
      (fun x => Package.outsideParts x.1 x.2) = mixedParts ∧
    (∀ call ∈ p.calls.outside, ∃ u, (call.2, u) ∈ outsideMembers p) ∧
    (ofPackage p true).byModule.entries =
      [("os", ["os.join", "os.getcwd"]), (".builtin", ["<builtin>.print"])] ∧
    (ofPackage p false).callers.entries = [("os.join", ["node_0"]), ("os.getcwd", ["node_0"])] := by
  have hrun : (seen mixedCalls mainRequest fun s p => decide (
        (Package.outsideNames (s.facts mixedCalls.files mainRequest.package)).map
          (fun x => Package.outsideParts x.1 x.2) = mixedParts ∧
        (∀ call ∈ p.calls.outside, call.2 ∈ (outsideMembers p).map (·.1)) ∧
        (ofPackage p true).byModule.entries =
          [("os", ["os.join", "os.getcwd"]), (".builtin", ["<builtin>.print"])] ∧
        (ofPackage p false).callers.entries =
          [("os.join", ["node_0"]), ("os.getcwd", ["node_0"])])).toOption = some true := by
    decide +kernel
  obtain ⟨s, p, -, hdocument, hseen⟩ := exists_document hrun
  obtain ⟨hparts, hcalls, hmodules, hcallers⟩ := of_decide_eq_true hseen
  refine ⟨s, p, hdocument, hparts, fun call hcall => ?_, hmodules, hcallers⟩
  obtain ⟨e, he, hkey⟩ := List.mem_map.mp (hcalls call hcall)
  exact ⟨e.2, hkey ▸ he⟩

theorem mixedParts_address : ∀ parts ∈ mixedParts,
    IsAddress ("//" ++ parts.1 ++ "//" ++ parts.2) parts.1 parts.2 := by
  have hconditions : ∀ parts ∈ mixedParts, Text.hasText parts.1 "//" = false ∧
      Text.hasText parts.2 "//" = false ∧ parts.2 ≠ "" ∧ Text.hasEnd parts.2 "." = false ∧
      (parts.1 = ".builtin" ∨ Text.hasStart parts.1 builtinModule = false) := by
    decide +kernel
  intro parts hparts
  obtain ⟨hmodule, hname, hne, hend, htold⟩ := hconditions parts hparts
  exact ⟨rfl, hmodule, hname, hne, hend, htold⟩

end CrossCall.Calls.OutsideCalls

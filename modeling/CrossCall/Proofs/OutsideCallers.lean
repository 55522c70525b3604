import CrossCall.Calls.Outside
import CrossCall.Proofs.MemberNumber

/-! The callers of functions outside. Members of the package are listed by numbers but looked up by
texts, so a caller from the package is never found, and is shown by its number alone; members
outside are listed by texts and found. -/
namespace CrossCall.Calls.OutsideCalls

variable {p : Package} {withBuiltin : Bool} {caller callee key u : String} {n next : Nat}
  {g : Nat → String}

/-! ### Edges and callers -/

/-- How the callee of a call is shown. -/
def calleeName (p : Package) (callee : String) : String :=
  let target := address (addressTable p) callee
  (nameOf? target).elim target (·.2)

/-- How a call is shown. -/
def edgeOf (p : Package) (call : String × String) : String × String :=
  (address (addressTable p) call.1, calleeName p call.2)

theorem edges_ofPackage (p : Package) (withBuiltin : Bool) : (ofPackage p withBuiltin).edges =
    (p.calls.outside.map (edgeOf p)).filter fun e => withBuiltin || !isBuiltin e.2 := rfl

theorem mem_addUnder_all (edges : List (String × String)) (t : Table String (List String)) :
    caller ∈ (edges.foldl (fun t e => addUnder t e.2 e.1) t).getD callee [] ↔
      caller ∈ t.getD callee [] ∨ (caller, callee) ∈ edges := by
  induction edges generalizing t with
  | nil => simp
  | cons e rest ih =>
    rw [List.foldl_cons, ih, addUnder, Table.getD_alter]
    by_cases he : callee = e.2
    · subst he
      rw [if_pos rfl, mem_insertName, List.mem_cons, or_assoc, Prod.ext_iff]
      simp
    · have hne : (caller, callee) ≠ e := fun h => he (congrArg Prod.snd h)
      rw [if_neg he, List.mem_cons, or_iff_right hne]

theorem mem_callers : caller ∈ (ofPackage p withBuiltin).callers.getD callee [] ↔
    (caller, callee) ∈ (ofPackage p withBuiltin).edges := by
  have hempty : caller ∉ ({} : Table String (List String)).getD callee [] := by
    simp [Table.getD, Table.get?, Table.find]
  exact (mem_addUnder_all (ofPackage p withBuiltin).edges {}).trans (or_iff_right hempty)

/-! ### Addresses -/

/-- The members outside with their addresses, in the order of the document. -/
def outsideMembers (p : Package) : List (String × String) :=
  p.outside.values.flatMap fun m => m.namespaces.entries

theorem get?_addressTable (p : Package) (key : String) : (addressTable p).get? (.text key) =
    ((outsideMembers p).filter fun e => e.1 = key).getLast?.map (·.2) := by
  have hinside : (p.inside.values.flatMap fun m => m.namespaces.entries.map fun e =>
      (MemberKey.number e.1, e.2.uri)).filter (fun e => e.1 = .text key) = [] := by
    rw [List.filter_eq_nil_iff]
    intro e he
    obtain ⟨m, _, he⟩ := List.mem_flatMap.mp he
    obtain ⟨_, _, rfl⟩ := List.mem_map.mp he
    simp
  have houtside :
      (p.outside.values.flatMap fun m => m.namespaces.entries.map fun e =>
        (MemberKey.text e.1, e.2)) =
      (outsideMembers p).map fun e => (MemberKey.text e.1, e.2) := List.map_flatMap.symm
  unfold addressTable
  rw [Table.get?_ofList, List.filter_append, hinside, houtside, List.nil_append, List.filter_map,
    List.getLast?_map, Option.map_map]
  simp [Function.comp_def]

/-- A text under which nothing is listed shows itself. -/
theorem address_of_notMem (h : ∀ e ∈ outsideMembers p, e.1 ≠ key) :
    address (addressTable p) key = "node_" ++ key := by
  have hnone : (outsideMembers p).filter (fun e => e.1 = key) = [] := by
    simpa [List.filter_eq_nil_iff] using h
  simp [address, Table.getD, get?_addressTable, hnone]

theorem address_of_mem (hmem : (key, u) ∈ outsideMembers p)
    (hunique : ∀ e ∈ outsideMembers p, e.1 = key → e.2 = u) : address (addressTable p) key = u := by
  have hne : (outsideMembers p).filter (fun e => e.1 = key) ≠ [] :=
    List.ne_nil_of_mem (List.mem_filter.mpr ⟨hmem, by simp⟩)
  have hlast := List.mem_filter.mp (List.getLast_mem hne)
  have hvalue := hunique _ hlast.1 (by simpa using hlast.2)
  rw [address, Table.getD, get?_addressTable, List.getLast?_eq_some_getLast hne]
  exact hvalue

section Parted

variable (h : Package.Parted p n next g)

include h

theorem outsideMembers_numbered {e : String × String} (he : e ∈ outsideMembers p) :
    ∃ i, n ≤ i ∧ e = (toString i, g i) ∧ ∃ rest, g i = "//" ++ rest := by
  obtain ⟨m, hm, he⟩ := List.mem_flatMap.mp he
  obtain ⟨i, hi, -, rfl, hrest⟩ := h.2 m hm e he
  exact ⟨i, hi, rfl, hrest⟩

/-- Members of the package have earlier numbers than those outside, so they are not found. -/
theorem address_inside {m : InsideModule} {e : Nat × Namespace} (hm : m ∈ p.inside.values)
    (he : e ∈ m.namespaces.entries) :
    address (addressTable p) (toString e.1) = "node_" ++ toString e.1 := by
  apply address_of_notMem
  intro e' he' heq
  obtain ⟨i, hi, rfl, -⟩ := outsideMembers_numbered h he'
  have hlt := (h.1 m hm e he).1
  have := Nat.repr_inj.mp heq
  omega

theorem address_outside (hmem : (key, u) ∈ outsideMembers p) :
    address (addressTable p) key = u := by
  refine address_of_mem hmem ?_
  intro e he heq
  obtain ⟨i, -, hi, -⟩ := outsideMembers_numbered h hmem
  obtain ⟨j, -, rfl, -⟩ := outsideMembers_numbered h he
  cases hi
  rw [Nat.repr_inj.mp heq]

/-- A caller is shown as a member outside or by what stands for it in the call. -/
theorem address_start (key : String) :
    (∃ rest, address (addressTable p) key = "//" ++ rest) ∨
    address (addressTable p) key = "node_" ++ key := by
  by_cases hmem : ∃ u, (key, u) ∈ outsideMembers p
  · obtain ⟨u, hmem⟩ := hmem
    obtain ⟨i, -, hi, rest, hrest⟩ := outsideMembers_numbered h hmem
    cases hi
    exact .inl ⟨rest, (address_outside h hmem).trans hrest⟩
  · refine .inr (address_of_notMem fun e he heq => hmem ⟨e.2, ?_⟩)
    rw [← heq]
    exact he

end Parted

/-! ### Callers from the package -/

theorem yields_document {s : Session} {fs : Files} {package : Option String} {label : Label}
    (h : s.document fs package label = .ok p) :
    ∃ s', Package.Yields (Package.document fs package label (s.facts fs package)) {} p s' :=
  ⟨_, Prod.ext h rfl⟩

theorem node_ne_slash (a b : String) : "node_" ++ a ≠ "/" ++ b := by
  intro h
  have := congrArg (·.toList.head?) h
  simp at this

/-- A call from a member of the package to one outside is shown with the number of the caller in
place of its address. The number also stands among the callers of the callee, where the address
never does. -/
theorem outsideCaller_by_number {s : Session} {fs : Files} {package : Option String} {label : Label}
    {m : InsideModule} {e : Nat × Namespace} (h : s.document fs package label = .ok p)
    (hm : m ∈ p.inside.values) (he : e ∈ m.namespaces.entries)
    (hcall : (toString e.1, callee) ∈ p.calls.outside) (withBuiltin : Bool) :
    (ofPackage p withBuiltin).edges =
        (p.calls.outside.map (edgeOf p)).filter (fun e => withBuiltin || !isBuiltin e.2) ∧
      edgeOf p (toString e.1, callee) = ("node_" ++ toString e.1, calleeName p callee) ∧
      "node_" ++ toString e.1 ≠ e.2.uri ∧
      (∀ m ∈ p.outside.values, ∀ u, (callee, u) ∈ m.namespaces.entries →
        calleeName p callee = (nameOf? u).elim u (·.2)) ∧
      (withBuiltin = true ∨ isBuiltin (calleeName p callee) = false →
        ("node_" ++ toString e.1, calleeName p callee) ∈ (ofPackage p withBuiltin).edges ∧
        "node_" ++ toString e.1 ∈ (ofPackage p withBuiltin).callers.getD (calleeName p callee) []) ∧
      ((¬ ∃ rest, e.2.uri = "//" ++ rest) →
        ∀ name, e.2.uri ∉ (ofPackage p withBuiltin).callers.getD name []) := by
  obtain ⟨_, hyields⟩ := yields_document h
  obtain ⟨n, next, g, hparted⟩ := Package.document_parted hyields
  obtain ⟨-, rest, hrest⟩ := hparted.1 m hm e he
  have hedge : edgeOf p (toString e.1, callee) = ("node_" ++ toString e.1, calleeName p callee) :=
    Prod.ext (address_inside hparted hm he) rfl
  refine ⟨rfl, hedge, hrest ▸ node_ne_slash _ _, ?_, ?_, ?_⟩
  · intro m hm u hu
    simp only [calleeName, address_outside hparted (List.mem_flatMap.mpr ⟨m, hm, hu⟩)]
  · intro hkept
    have hmem : ("node_" ++ toString e.1, calleeName p callee) ∈
        (ofPackage p withBuiltin).edges := by
      rw [edges_ofPackage, List.mem_filter, ← hedge]
      refine ⟨List.mem_map_of_mem hcall, ?_⟩
      rcases hkept with hkept | hkept
      · simp [hkept]
      · simp [edgeOf, hkept]
    exact ⟨hmem, mem_callers.mpr hmem⟩
  · intro hslash name hname
    have hedge := (List.mem_filter.mp (edges_ofPackage p withBuiltin ▸ mem_callers.mp hname)).1
    obtain ⟨call, -, hcall⟩ := List.mem_map.mp hedge
    have haddress : address (addressTable p) call.1 = e.2.uri := congrArg Prod.fst hcall
    rcases address_start hparted call.1 with ⟨rest', hstart⟩ | hnode
    · exact hslash ⟨rest', haddress ▸ hstart⟩
    · exact node_ne_slash _ _ (hnode.symm.trans (haddress.trans hrest))

/-! ### One call -/

/-- A program of one module, without functions of its own. -/
def mainProgram (text : String) (code : List Code) : World where
  files := { contents := ⟨[("/main.py", text.toUTF8)]⟩ }
  program path :=
    if path = "/main.py" then some { code := .ok code, blocks := .ok (.node .module "top" 0 []) }
    else none

def mainRequest : Request := { entries := ["main.py"], package := some "/" }

/-- A program of one call of a function that needs no import. -/
def oneCall : World := mainProgram "print()\n" [.other [.call (.name "print") [] []]]

def oneCallCaller : Namespace := { uri := "/main/", first := some 1, last := some 1 }

/-- What is seen of a program and in its document, if the analysis comes to one. -/
def seen {β : Type} (w : World) (r : Request) (f : Session → Package → β) : Except Fault β := do
  let s ← analyze w r
  let p ← s.document w.files r.package {}
  pure (f s p)

theorem exists_document {β : Type} {w : World} {r : Request} {f : Session → Package → β} {b : β}
    (h : (seen w r f).toOption = some b) :
    ∃ s p, analyze w r = .ok s ∧ s.document w.files r.package {} = .ok p ∧ f s p = b := by
  unfold seen at h
  cases hs : analyze w r with
  | error fault =>
    rw [hs] at h
    cases h
  | ok s =>
    rw [hs] at h
    change ((s.document w.files r.package {}).bind _).toOption = _ at h
    cases hdocument : s.document w.files r.package {} with
    | error fault =>
      rw [hdocument] at h
      cases h
    | ok p =>
      rw [hdocument] at h
      exact ⟨s, p, rfl, hdocument, Option.some.inj h⟩

theorem oneCall_document : ∃ s p m, analyze oneCall mainRequest = .ok s ∧
    s.document oneCall.files mainRequest.package {} = .ok p ∧ m ∈ p.inside.values ∧
    (0, oneCallCaller) ∈ m.namespaces.entries ∧ (toString 0, "1") ∈ p.calls.outside ∧
    (ofPackage p true).edges = [("node_0", "<builtin>.print")] := by
  have hrun : (seen oneCall mainRequest fun _ p =>
        (p.inside.values.map (·.namespaces.entries), p.calls.outside,
          (ofPackage p true).edges)).toOption =
      some ([[(0, oneCallCaller)]], [("0", "1")], [("node_0", "<builtin>.print")]) := by
    decide +kernel
  obtain ⟨s, p, hs, hdocument, hshown⟩ := exists_document hrun
  simp only [Prod.mk.injEq] at hshown
  obtain ⟨hinside, houtside, hedges⟩ := hshown
  obtain ⟨m, hm, hentries⟩ : ∃ m ∈ p.inside.values, m.namespaces.entries = [(0, oneCallCaller)] :=
    List.mem_map.mp (hinside ▸ List.mem_singleton_self _)
  exact ⟨s, p, m, hs, hdocument, hm, hentries ▸ List.mem_singleton_self _,
    houtside ▸ List.mem_singleton_self _, hedges⟩

theorem outsideCaller_by_number_oneCall : ∃ (s : Session) (p : Package) (m : InsideModule),
    (s.document oneCall.files mainRequest.package {} = .ok p ∧ m ∈ p.inside.values ∧
      (0, oneCallCaller) ∈ m.namespaces.entries ∧ (toString 0, "1") ∈ p.calls.outside) ∧
    edgeOf p (toString 0, "1") = ("node_" ++ toString 0, calleeName p "1") ∧
    "node_" ++ toString 0 ≠ oneCallCaller.uri ∧
    ("node_" ++ toString 0, calleeName p "1") ∈ (ofPackage p true).edges ∧
    "node_" ++ toString 0 ∈ (ofPackage p true).callers.getD (calleeName p "1") [] ∧
    ∀ name, oneCallCaller.uri ∉ (ofPackage p true).callers.getD name [] := by
  obtain ⟨s, p, m, -, hdocument, hm, he, hcall, -⟩ := oneCall_document
  obtain ⟨-, hedge, hne, -, hkept, hnever⟩ := outsideCaller_by_number hdocument hm he hcall true
  have hslash : ¬ ∃ rest, oneCallCaller.uri = "//" ++ rest := by
    rintro ⟨rest, hrest⟩
    have := congrArg (·.toList[1]?) hrest
    simp [oneCallCaller] at this
  exact ⟨s, p, m, ⟨hdocument, hm, he, hcall⟩, hedge, hne, (hkept (.inl rfl)).1,
    (hkept (.inl rfl)).2, hnever hslash⟩

/-- No call of the program is shown with the address of its caller, although nothing is left out. -/
theorem exists_caller_unnamed : ∃ w r s p m n e callee, analyze w r = .ok s ∧
    s.document w.files r.package {} = .ok p ∧ m ∈ p.inside.values ∧ (n, e) ∈ m.namespaces.entries ∧
    (toString n, callee) ∈ p.calls.outside ∧ (∀ edge ∈ (ofPackage p true).edges, edge.1 ≠ e.uri) ∧
    ∀ name, e.uri ∉ (ofPackage p true).callers.getD name [] := by
  obtain ⟨s, p, m, hs, hdocument, hm, he, hcall, hedges⟩ := oneCall_document
  have hunnamed : ∀ edge ∈ (ofPackage p true).edges, edge.1 ≠ oneCallCaller.uri := by
    rw [hedges]
    decide
  exact ⟨oneCall, mainRequest, s, p, m, 0, oneCallCaller, "1", hs, hdocument, hm, he, hcall,
    hunnamed, fun name hname => hunnamed _ (mem_callers.mp hname) rfl⟩

end CrossCall.Calls.OutsideCalls

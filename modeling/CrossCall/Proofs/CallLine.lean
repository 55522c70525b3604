import CrossCall.Proofs.ContextIsolation
import CrossCall.Proofs.HelperResolution
import CrossCall.Proofs.Offset

/-! Where a reported call stands. A function is cut out of its file and parsed by itself, and the
line of a call is counted from the start of the function: it is a line of the file only for a
function that begins on the first line. -/
namespace CrossCall.Table

variable {κ ν : Type} [DecidableEq κ]

/-- A table holds nothing but what was put in. -/
theorem mem_of_mem_ofList {xs : List (κ × ν)} {e : κ × ν} (h : e ∈ (ofList xs).entries) :
    e ∈ xs := by
  induction xs using List.reverseRecOn with
  | nil => cases h
  | append_singleton xs a ih =>
    rw [ofList, List.foldl_concat] at h
    rcases mem_entries_insert h with rfl | h
    · exact List.mem_append_right _ List.mem_cons_self
    · exact List.mem_append_left _ (ih h)

end CrossCall.Table

namespace CrossCall.Embedding

open CrossCall.Flow (Bench Graph bind_eq_ok map_eq_ok exists_ok_of_toOption)

variable {fs : Files} {parse : Parser} {paths : List String} {files : List (String × String)}
  {file : String × String} {reg : Registry} {d : Definition} {c : Call} {b : Bench} {r : Result}
  {src : Source}

/-! ### The origin of a call -/

/-- A definition is the text of a function of its file. -/
structure Defined (parse : Parser) (text : String) (fn : Tree) (d : Definition) : Prop where
  function : ∃ p, parse text = some p ∧ fn ∈ p.root.preorder
  kind : fn.kind = "function_definition"
  line : d.line = (Source.point ⟨text⟩ fn.start).row + 1
  code : Source.textOf? ⟨text⟩ fn = some d.code

/-- A reported call is described from a call expression of a definition, with the data dependences
of that definition. -/
structure Described (parse : Parser) (d : Definition) (root call : Tree) (g : Graph) (c : Call) :
    Prop where
  file : c.file = d.file
  container : c.container = d.name
  parsed : ∃ p, parse d.code = some p ∧ p.root = root
  inside : call ∈ root.preorder
  kind : call.kind = "call_expression"
  callee : calleeName ⟨d.code⟩ call = .ok c.function
  entry : c.function ∈ entryPoints
  line : c.line = (Source.point ⟨d.code⟩ call.start).row + 1
  code : Source.textOf? ⟨d.code⟩ call = some c.code
  graph : Bench.returned parse d.code .dataDependence = some g
  context : c.context = byLine (relatedStatements g (variablesOnLine g c.line))

theorem defined_of_mem {ds : List Definition} (h : definitionsIn parse file = .ok ds)
    (hd : d ∈ ds) :
    d.file = file.1 ∧ ∃ fn, Defined parse file.2 fn d := by
  rw [definitionsIn_eq h, definitionsOf] at hd
  cases hp : parse file.2 with
  | none =>
    rw [hp] at hd
    cases hd
  | some p =>
    rw [hp] at hd
    obtain ⟨fn, hfn, hone⟩ := List.mem_filterMap.mp hd
    obtain ⟨hfn, hkind⟩ := List.mem_filter.mp hfn
    obtain ⟨name, -, hone⟩ := Option.bind_eq_some_iff.mp hone
    obtain ⟨code, hcode, hone⟩ := Option.bind_eq_some_iff.mp hone
    cases hone
    exact ⟨rfl, fn, ⟨p, hp, hfn⟩, by simpa using hkind, rfl, hcode⟩

theorem mem_readAll (h : readAll fs paths = .ok files) (hfile : file ∈ files) :
    file.1 ∈ paths ∧ fs.read .drop file.1 = .ok file.2 := by
  obtain ⟨texts, htexts, h⟩ := bind_eq_ok.mp h
  cases h
  obtain ⟨p, hp, hone⟩ := exists_of_mem_mapM htexts (Table.mem_of_mem_ofList hfile)
  cases hread : fs.read .drop p with
  | error e =>
    rw [hread] at hone
    cases hone
  | ok text =>
    rw [hread] at hone
    cases hone
    exact ⟨hp, hread⟩

theorem callee_of_mem {root : Tree} {calls : List (Tree × String)}
    (h : callExpressions src root = .ok calls) {call : Tree × String} (hcall : call ∈ calls) :
    call.1 ∈ root.preorder ∧ call.1.kind = "call_expression" ∧
    calleeName src call.1 = .ok call.2 := by
  obtain ⟨t, ht, hone⟩ := exists_of_mem_mapM h hcall
  obtain ⟨name, hname, hone⟩ := bind_eq_ok.mp hone
  cases hone
  obtain ⟨ht, hkind⟩ := List.mem_filter.mp ht
  exact ⟨ht, by simpa using hkind, hname⟩

theorem described_of_mem {cs : List Call} (h : callsFor parse reg d = .ok cs) (hc : c ∈ cs) :
    ∃ root call g, Described parse d root call g c := by
  obtain ⟨root, hroot, h⟩ := bind_eq_ok.mp h
  obtain ⟨calls, hcalls, h⟩ := bind_eq_ok.mp h
  dsimp only at h
  split at h
  · cases h
    cases hc
  · cases hg : Bench.returned parse d.code .dataDependence with
    | none =>
      rw [hg] at h
      cases h
      cases hc
    | some g =>
      rw [hg] at h
      obtain ⟨call, hcall, hone⟩ := exists_of_mem_mapM h hc
      obtain ⟨hcall, hentry⟩ := List.mem_filter.mp hcall
      obtain ⟨hinside, hkind, hcallee⟩ := callee_of_mem hcalls hcall
      obtain ⟨code, helpers, hcode, -, rfl⟩ := describe_eq_ok.mp hone
      exact ⟨root, call.1, g, rfl, rfl, parseText_eq_ok.mp hroot, hinside, hkind, hcallee,
        by simpa using hentry, rfl, decoded_eq_ok.mp hcode, hg, rfl⟩

/-- Every call that a search reports goes back to a call expression of a function of one of the
files. -/
theorem exists_origin (hr : outcome (ofFiles fs parse paths) b = .ok r) (hc : c ∈ r.calls) :
    ∃ text fn d root call g, c.file ∈ paths ∧ fs.read .drop c.file = .ok text ∧
    Defined parse text fn d ∧
      Described parse d root call g c := by
  rw [answers_ofFiles fs parse paths b] at hr
  obtain ⟨files, hfiles, hr⟩ := bind_eq_ok.mp hr
  obtain ⟨reg, hreg, hsearched, rfl⟩ := resultOf_eq_ok.mp hr
  obtain ⟨d, hd, hc⟩ := List.mem_flatMap.mp hc
  obtain ⟨cs, hcs⟩ : ∃ cs, callsFor parse reg d = .ok cs := isOk_callsFor (hsearched d hd)
  rw [valueOf_eq hcs] at hc
  obtain ⟨root, call, g, hdescribed⟩ := described_of_mem hcs hc
  obtain ⟨hlisted, rfl⟩ := registryOf_eq_ok.mp hreg
  obtain ⟨file, hfile, hd⟩ := List.mem_flatMap.mp ((values_entered_perm _).mem_iff.mp hd)
  obtain ⟨ds, hds⟩ := hlisted file hfile
  rw [valueOf_eq hds] at hd
  obtain ⟨hfrom, fn, hdefined⟩ := defined_of_mem hds hd
  obtain ⟨hpath, hread⟩ := mem_readAll hfiles hfile
  rw [← hfrom, ← hdescribed.file] at hpath hread
  exact ⟨file.2, fn, d, root, call, g, hpath, hread, hdefined, hdescribed⟩

/-! ### Lines of the file -/

/-- The nodes that a parser gives lie in the text. -/
def StaysInside (parse : Parser) : Prop :=
  ∀ text p, parse text = some p →
    ∀ t ∈ p.root.preorder, t.start ≤ t.stop ∧ t.stop ≤ text.utf8ByteSize

/-- A reported call stands in its file as many bytes behind the start of its function as it stands
behind the start of the text that was cut out. There it is spelled as reported, and its line is the
reported one counted from the first line of the function, so that the reported line is right exactly
if the function begins on the first line of the file. -/
theorem call_line_iff (hparse : StaysInside parse) (hr : outcome (ofFiles fs parse paths) b = .ok r)
    (hc : c ∈ r.calls) :
    ∃ text fn d root call g, c.file ∈ paths ∧ fs.read .drop c.file = .ok text ∧
    Defined parse text fn d ∧
      Described parse d root call g c ∧
      Source.between? ⟨text⟩ (fn.start + call.start) (fn.start + call.stop) = some c.code ∧
      (Source.point ⟨text⟩ (fn.start + call.start)).row + 1 =
      (Source.point ⟨text⟩ fn.start).row + c.line ∧
      (c.line = (Source.point ⟨text⟩ (fn.start + call.start)).row + 1 ↔ d.line = 1) := by
  obtain ⟨text, fn, d, root, call, g, hpath, hread, hdefined, hdescribed⟩ := exists_origin hr hc
  obtain ⟨p, hp, rfl⟩ := hdescribed.parsed
  obtain ⟨hstart, hstop⟩ := hparse _ p hp call hdescribed.inside
  have hcut : Source.between? ⟨text⟩ fn.start fn.stop = some d.code := hdefined.code
  have hrow : (Source.point ⟨text⟩ (fn.start + call.start)).row + 1 =
      (Source.point ⟨text⟩ fn.start).row + c.line := by
    rw [Source.row_point_add hcut (hstart.trans hstop), hdescribed.line]
    rfl
  refine ⟨text, fn, d, p.root, call, g, hpath, hread, hdefined, hdescribed, ?_, hrow, ?_⟩
  · rw [Source.between?_add hcut hstop]
    exact hdescribed.code
  · rw [hrow, hdefined.line]
    omega

/-! ### A function on the second line -/

def displacedText : String := "\nint f()\x7bPyObject_Call(a);\x7d"

def displacedTree : Tree := unitOf 27 [callingFunction 1 [letter 23] 27]

def displacedTrees : Table String Tree := ⟨[
  (displacedText, displacedTree),
  ("int f()\x7bPyObject_Call(a);\x7d", unitOf 26 [callingFunction 0 [letter 22] 26]),
  ("PyObject_Call(a);", unitOf 17 [entryStatement 0 [letter 14] 17])]⟩

def displacedParser : Parser := parserOf displacedTrees

def displacedFiles : Files where
  contents := ⟨[("/a.c", displacedText.toUTF8)]⟩

theorem staysInside_parserOf {trees : Table String Tree}
    (h : ∀ e ∈ trees.entries, ∀ t ∈ e.2.preorder, t.start ≤ t.stop ∧ t.stop ≤ e.1.utf8ByteSize) :
    StaysInside (parserOf trees) := by
  rintro text - ⟨⟩
  rw [Table.getD]
  cases hget : trees.get? text with
  | none =>
    intro t ht
    obtain rfl := List.mem_singleton.mp ht
    exact ⟨le_rfl, Nat.zero_le _⟩
  | some root => exact h _ (Table.mem_entries_of_get? hget)

theorem staysInside_displaced : StaysInside displacedParser := by
  have hall : ∀ e ∈ displacedTrees.entries, ∀ t ∈ e.2.preorder, t.start ≤ t.stop ∧
      t.stop ≤ e.1.utf8ByteSize := by
    decide +kernel
  exact staysInside_parserOf hall

theorem displaced_calls : (outcome (ofFiles displacedFiles displacedParser ["a.c"]) {}).toOption.map
    (fun r => r.calls.map fun c => (c.file, c.line, c.code)) =
    some [("a.c", 1, "PyObject_Call(a)")] := by decide +kernel

/-- The call is reported on line 1, and its function begins on line 2. -/
theorem call_line_iff_displaced : StaysInside displacedParser ∧ ∃ r c,
    outcome (ofFiles displacedFiles displacedParser ["a.c"]) {} = .ok r ∧ c ∈ r.calls ∧ c.line = 1 ∧
      ∃ text fn d root call g, c.file ∈ ["a.c"] ∧ displacedFiles.read .drop c.file = .ok text ∧
        Defined displacedParser text fn d ∧ Described displacedParser d root call g c ∧
        Source.between? ⟨text⟩ (fn.start + call.start) (fn.start + call.stop) = some c.code ∧
        (Source.point ⟨text⟩ (fn.start + call.start)).row = (Source.point ⟨text⟩ fn.start).row ∧
        (c.line = (Source.point ⟨text⟩ (fn.start + call.start)).row + 1 ↔ d.line = 1) := by
  obtain ⟨r, hr, hcalls⟩ := exists_ok_of_toOption displaced_calls
  obtain ⟨c, rest, hsplit, hc, -⟩ := List.map_eq_cons_iff.mp hcalls
  have hmem : c ∈ r.calls := hsplit ▸ List.mem_cons_self
  simp only [Prod.mk.injEq] at hc
  obtain ⟨text, fn, d, root, call, g, hpath, hread, hdefined, hdescribed, hspelled, hrow, hline⟩ :=
    call_line_iff staysInside_displaced hr hmem
  exact ⟨staysInside_displaced, r, c, hr, hmem, hc.2.1, text, fn, d, root, call, g, hpath, hread,
    hdefined, hdescribed, hspelled, by omega, hline⟩

/-- The only call of the file stands on line 2 and is reported on line 1. -/
theorem exists_call_displaced :
    (displacedTree.preorder.filter fun t => t.kind == "call_expression").map (fun t =>
        ((Source.point ⟨displacedText⟩ t.start).row + 1, Source.textOf? ⟨displacedText⟩ t)) =
      [(2, some "PyObject_Call(a)")] ∧
    ∃ r, outcome (ofFiles displacedFiles displacedParser ["a.c"]) {} = .ok r ∧
      r.calls.map (fun c => (c.file, c.line, c.code)) = [("a.c", 1, "PyObject_Call(a)")] := by
  obtain ⟨r, hr, hcalls⟩ := exists_ok_of_toOption displaced_calls
  exact ⟨by decide +kernel, r, hr, hcalls⟩

end CrossCall.Embedding

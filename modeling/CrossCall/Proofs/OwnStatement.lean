import CrossCall.Proofs.CallLine

/-! Whether a call is part of its own context. The search starts from the first statement on the
line on which the call begins, and of the statements on that line this one alone gets an entry. So a
call is in its context if its statement is the first on the line of the call; a statement that
begins on an earlier line is met, if at all, through its variables. -/
namespace CrossCall.Embedding

open CrossCall.Flow (Bench Graph Vertex spanId exists_ok_of_toOption)

variable {fs : Files} {parse : Parser} {paths : List String} {c : Call} {b : Bench} {r : Result}
  {g : Graph} {start : List String} {s : Trace} {f v w : Vertex} {us : List Vertex} {x : String}
  {line : Int} {n : Nat}

/-! ### The first statement on a line -/

/-- The first statement that stands on a line. -/
def firstOn? (g : Graph) (line : Int) : Option Vertex := g.vertices.find? fun v => v.line == line

theorem variablesOnLine_eq (h : firstOn? g line = some f) :
    variablesOnLine g line = variablesAt g f := by
  rw [firstOn?] at h
  rw [variablesOnLine, h]

theorem line_of_firstOn? (h : firstOn? g line = some f) : f.line = line := by
  simpa using List.find?_some h

/-- The variables of a statement are followed, and nothing else has been taken on its line. -/
structure Keeps (g : Graph) (f : Vertex) (s : Trace) : Prop where
  followed : ∀ x ∈ variablesAt g f, x ∈ s.vars
  alone : ∀ e ∈ s.found, e.line = f.line → e = entryAt g f

theorem follow_lines {k : Int} (hk : k ∈ s.lines) : k ∈ (follow g s v).lines := by
  rcases follow_cases g s v with ⟨hsame, -⟩ | ⟨-, -, htaken⟩
  · rwa [hsame]
  · rw [htaken]
    exact List.mem_append_left _ hk

namespace Keeps

/-- A statement on another line, or on a line that is taken, or the first one itself changes nothing
on its line. -/
theorem follow (h : Keeps g f s) (hv : v.line = f.line → v = f ∨ f.line ∈ s.lines) :
    Keeps g f (follow g s v) := by
  refine ⟨fun x hx => follow_keeps (h.followed x hx), ?_⟩
  rcases follow_cases g s v with ⟨hsame, -⟩ | ⟨hline, -, htaken⟩
  · rw [hsame]
    exact h.alone
  · rw [htaken]
    intro e he hon
    rcases List.mem_append.mp he with he | he
    · exact h.alone e he hon
    · obtain rfl := List.mem_singleton.mp he
      have hsame : v.line = f.line := hon
      rcases hv hsame with rfl | hfirst
      · rfl
      · exact absurd (hsame ▸ hfirst) hline

theorem followAll (h : Keeps g f s) (hus : ∀ v ∈ us, v.line ≠ f.line) :
    Keeps g f (us.foldl (Embedding.follow g) s) := by
  induction us generalizing s with
  | nil => exact h
  | cons v rest ih =>
    have hv := hus v List.mem_cons_self
    exact ih (h.follow fun heq => absurd heq hv) fun w hw => hus w (List.mem_cons_of_mem _ hw)

theorem followAll_taken (h : Keeps g f s) (hline : f.line ∈ s.lines) :
    Keeps g f (us.foldl (Embedding.follow g) s) := by
  induction us generalizing s with
  | nil => exact h
  | cons v rest ih => exact ih (h.follow fun _ => .inr hline) (follow_lines hline)

theorem line_taken (h : Keeps g f s) (hx : x ∈ variablesAt g f) :
    f.line ∈ (Embedding.follow g s f).lines := by
  rcases follow_cases g s f with ⟨hsame, hwhy⟩ | ⟨-, -, htaken⟩
  · rw [hsame]
    exact hwhy.resolve_right fun hnone => hnone x hx (h.followed x hx)
  · rw [htaken]
    exact List.mem_append_right _ List.mem_cons_self

/-- A pass comes to the first statement before the others on its line. -/
theorem pass (h : Keeps g f s) (hf : firstOn? g line = some f) (hx : x ∈ variablesAt g f) :
    Keeps g f (pass g s) := by
  have hline := line_of_firstOn? hf
  obtain ⟨-, us, ws, hsplit, hus⟩ := List.find?_eq_some_iff_append.mp hf
  rw [Embedding.pass, hsplit, List.foldl_append, List.foldl_cons]
  have hbefore : Keeps g f (us.foldl (Embedding.follow g) { s with grown := false }) := by
    refine followAll ⟨h.followed, h.alone⟩ fun u hu => ?_
    simpa [hline] using hus u hu
  exact (hbefore.follow fun _ => .inl rfl).followAll_taken (hbefore.line_taken hx)

theorem saturate (h : Keeps g f s) (hf : firstOn? g line = some f) (hx : x ∈ variablesAt g f)
    (n : Nat) :
    Keeps g f (saturate g n s) := by
  induction n generalizing s with
  | zero => exact h
  | succ n ih =>
    unfold Embedding.saturate
    dsimp only
    split
    · exact ih (h.pass hf hx)
    · exact h.pass hf hx

end Keeps

theorem keeps_last (hf : firstOn? g line = some f) (hx : x ∈ variablesAt g f) :
    Keeps g f (lastTrace g (variablesAt g f)) := by
  refine Keeps.saturate ⟨fun y hy => mem_unionNames.mpr (.inr hy),
    fun e he => absurd he List.not_mem_nil⟩ hf hx _

/-- Statements that have the same entry have the same variables. -/
theorem variablesAt_congr (h : entryAt g v = entryAt g w) : variablesAt g v = variablesAt g w := by
  have hdefs := congrArg Statement.defs h
  have huses := congrArg Statement.uses h
  simp only [entryAt] at hdefs huses
  rw [variablesAt, variablesAt, hdefs, huses]

theorem not_connected_nil : ¬ Connected g [] x := by
  intro h
  induction h with
  | start hx => cases hx
  | step _ _ _ _ ih => exact ih

theorem relatedStatements_nil (g : Graph) : relatedStatements g [] = [] := by
  refine List.eq_nil_iff_forall_not_mem.mpr fun e he => ?_
  obtain ⟨v, -, ⟨x, -, hx⟩, -⟩ := entry_of_mem he
  exact not_connected_nil hx

/-- Of the statements with variables on the line from which a search starts, the first has an entry,
and the others have none unless theirs is the same. -/
theorem mem_onLine_iff (hv : v ∈ g.vertices) (hx : variablesAt g v ≠ []) :
    entryAt g v ∈ relatedStatements g (variablesOnLine g v.line) ↔
      (firstOn? g v.line).map (entryAt g) = some (entryAt g v) := by
  obtain ⟨f, hf⟩ : ∃ f, firstOn? g v.line = some f := by
    rw [← Option.isSome_iff_exists, firstOn?, List.find?_isSome]
    exact ⟨v, hv, beq_self_eq_true _⟩
  have hline := line_of_firstOn? hf
  rw [hf, Option.map_some, Option.some_inj, variablesOnLine_eq hf]
  constructor
  · intro he
    obtain ⟨w, -, ⟨y, -, hy⟩, -⟩ := entry_of_mem he
    have hfirst : ∃ y, y ∈ variablesAt g f := by
      by_contra hnone
      push Not at hnone
      rw [List.eq_nil_iff_forall_not_mem.mpr hnone] at hy
      exact not_connected_nil hy
    obtain ⟨y, hy⟩ := hfirst
    exact ((keeps_last hf hy).alone _ (mem_relatedStatements.mp he) hline.symm).symm
  · intro hsame
    obtain ⟨y, hy⟩ := List.exists_mem_of_ne_nil _ hx
    rw [← variablesAt_congr hsame] at hy
    have hfollowed := (traced_last g (variablesAt g f)).starts y hy
    obtain ⟨e, he, hon⟩ := exists_on_line (List.mem_of_find?_eq_some hf) hy hfollowed
    have hentry := (keeps_last hf hy).alone e (mem_relatedStatements.mp he) hon
    rwa [← hsame, ← hentry]

theorem related_of_entry_mem (he : entryAt g v ∈ relatedStatements g start) :
    Related g start v := by
  obtain ⟨w, -, ⟨x, hx, hconnected⟩, hentry⟩ := entry_of_mem he
  exact ⟨x, variablesAt_congr hentry ▸ hx, hconnected⟩

/-! ### The statement around a call -/

/-- A vertex that is listed for a statement: it has the number of the statement's span and its first
line. -/
structure Stands (src : Source) (g : Graph) (t : Tree) (v : Vertex) : Prop where
  listed : v ∈ g.vertices
  number : v.id = spanId src t
  line : v.line = (src.point t.start).row + 1

/-- If a statement around a reported call has a vertex with variables and begins on the line on
which the call begins, it is in the context of the call exactly if its entry is that of the first
statement on the line. A statement that begins on another line is in the context only if it is
connected with the variables of the first statement on the call's line, and always so where no line
has two such statements. Where the call's line has no first statement, or one without variables, the
context is empty. -/
theorem own_statement_iff (hr : outcome (ofFiles fs parse paths) b = .ok r) (hc : c ∈ r.calls) :
    ∃ text fn d root call g, c.file ∈ paths ∧ fs.read .drop c.file = .ok text ∧
    Defined parse text fn d ∧
      Described parse d root call g c ∧ (variablesOnLine g c.line = [] → c.context = []) ∧
      ∀ t ∈ root.preorder, call ∈ t.preorder → ∀ v, Stands ⟨d.code⟩ g t v → variablesAt g v ≠ [] →
        ((Source.point ⟨d.code⟩ t.start).row = (Source.point ⟨d.code⟩ call.start).row →
          (entryAt g v ∈ c.context ↔ (firstOn? g c.line).map (entryAt g) = some (entryAt g v))) ∧
        (entryAt g v ∈ c.context → Related g (variablesOnLine g c.line) v) ∧
        (LinesApart g (variablesOnLine g c.line) → Related g (variablesOnLine g c.line) v →
          entryAt g v ∈ c.context) := by
  obtain ⟨text, fn, d, root, call, g, hpath, hread, hdefined, hdescribed⟩ := exists_origin hr hc
  have hcontext : ∀ e, e ∈ c.context ↔ e ∈ relatedStatements g (variablesOnLine g c.line) := by
    intro e
    rw [hdescribed.context, (byLine_perm _).mem_iff]
  refine ⟨text, fn, d, root, call, g, hpath, hread, hdefined, hdescribed, fun hnone => ?_, ?_⟩
  · rw [hdescribed.context, hnone, relatedStatements_nil]
    exact (byLine_perm []).eq_nil
  · intro t _ _ v hv hx
    refine ⟨fun hrow => ?_, ?_, fun hapart hrelated => ?_⟩
    · have hline : v.line = c.line := by
        rw [hv.line, hdescribed.line, hrow, Nat.cast_add, Nat.cast_one]
      rw [hcontext, ← hline]
      exact mem_onLine_iff hv.listed hx
    · rw [hcontext]
      exact related_of_entry_mem
    · rw [hcontext]
      exact hapart.mem_iff.mpr ⟨v, hv.listed, hrelated, rfl⟩

/-! ### A call on the second line of its statement -/

def brokenText : String := "int f()\x7bx(a,\nPyObject_Call(b));PyObject_Call(c);\x7d"

/-- The call that begins on the second line. -/
def brokenCall : Tree := callTree 13 13 [letter 27] 29

/-- The statement around it, which begins on the first line. -/
def brokenStatement : Tree :=
  .node "expression_statement" 8 31 none [
    callTree 8 1 [letter 10, .node "," 11 12 none [], brokenCall] 30, .node ";" 30 31 none []]

/-- The call behind it on the second line, with its statement. -/
def laterCall : Tree := callTree 31 13 [letter 45] 47

def laterStatement : Tree := entryStatement 31 [letter 45] 48

def brokenFunction : Tree :=
  .bareFunction 0 3 (.node "compound_statement" 7 49 (some "body") [
    .node "\x7b" 7 8 none [], brokenStatement, laterStatement, .node "\x7d" 48 49 none []])

def brokenTree : Tree := unitOf 49 [brokenFunction]

def brokenParser : Parser := parserOf ⟨[
  (brokenText, brokenTree), ("PyObject_Call(c);", unitOf 17 [entryStatement 0 [letter 14] 17])]⟩

def brokenFiles : Files where
  contents := ⟨[("/a.c", brokenText.toUTF8)]⟩

theorem broken_calls : (outcome (ofFiles brokenFiles brokenParser ["a.c"]) {}).toOption.map
    (fun r => r.calls.map fun c => (c.file, c.line, c.code, c.context.map (·.text))) =
      some [("a.c", 2, "PyObject_Call(b)", ["PyObject_Call(c);"]),
        ("a.c", 2, "PyObject_Call(c)", ["PyObject_Call(c);"])] := by decide +kernel

/-- Both statements have vertices with variables, and the later one is the first on the second
line. -/
theorem broken_graph : ∃ g v w, Bench.returned brokenParser brokenText .dataDependence = some g ∧
    Stands ⟨brokenText⟩ g brokenStatement v ∧ v.text = "x(a,\nPyObject_Call(b));" ∧
    variablesAt g v ≠ [] ∧
      Stands ⟨brokenText⟩ g laterStatement w ∧ variablesAt g w ≠ [] ∧
        (firstOn? g 2).map (entryAt g) = some (entryAt g w) := by
  have heval : (Bench.returned brokenParser brokenText .dataDependence).map
      (fun g => decide (∃ v ∈ g.vertices,
      ∃ w ∈ g.vertices,
      (v.id = spanId ⟨brokenText⟩ brokenStatement ∧ v.line = 1 ∧
        v.text = "x(a,\nPyObject_Call(b));" ∧
        variablesAt g v ≠ []) ∧
        (w.id = spanId ⟨brokenText⟩ laterStatement ∧ w.line = 2 ∧ variablesAt g w ≠ []) ∧
          (firstOn? g 2).map (entryAt g) = some (entryAt g w))) = some true := by decide +kernel
  have hrows : (Source.point ⟨brokenText⟩ 8).row = 0 ∧ (Source.point ⟨brokenText⟩ 31).row = 1 := by
    decide +kernel
  obtain ⟨g, hg, heval⟩ := Option.map_eq_some_iff.mp heval
  obtain ⟨v, hv, w, hw, ⟨hid, hline, htext, hx⟩, ⟨hid', hline', hx'⟩, hfirst⟩ :=
    of_decide_eq_true heval
  refine ⟨g, v, w, hg, ⟨hv, hid, ?_⟩, htext, hx, ⟨hw, hid', ?_⟩, hx', hfirst⟩
  · rw [hline, show brokenStatement.start = 8 from rfl, hrows.1]
    rfl
  · rw [hline', show laterStatement.start = 31 from rfl, hrows.2]
    rfl

theorem broken_parsed {p : Parsed} (hp : brokenParser brokenText = some p) :
    p.root = brokenTree := by
  have hbroken : brokenParser brokenText = some ⟨brokenTree, false⟩ := rfl
  rw [hbroken] at hp
  cases hp
  rfl

/-- What the later call goes back to. -/
theorem later_origin {text : String} {fn root call : Tree} {d : Definition}
    (hread : brokenFiles.read .drop "a.c" = .ok text) (hdefined : Defined brokenParser text fn d)
    (hdescribed : Described brokenParser d root call g c) (hcode : c.code = "PyObject_Call(c)") :
    d.code = brokenText ∧ root = brokenTree ∧ call = laterCall := by
  have htext : text = brokenText := by
    have heval : (brokenFiles.read .drop "a.c").toOption = some brokenText := by decide +kernel
    rw [hread] at heval
    exact Option.some.inj heval
  subst htext
  have hfunction : fn = brokenFunction := by
    have hall : brokenTree.preorder.filter (fun t => t.kind == "function_definition") =
        [brokenFunction] := rfl
    obtain ⟨p, hp, hfn⟩ := hdefined.function
    rw [broken_parsed hp] at hfn
    exact List.mem_singleton.mp (hall ▸ List.mem_filter.mpr ⟨hfn, by simp [hdefined.kind]⟩)
  have hwhole : d.code = brokenText := by
    have heval : Source.textOf? ⟨brokenText⟩ brokenFunction = some brokenText := by decide +kernel
    have hcut := hdefined.code
    rw [hfunction, heval] at hcut
    exact (Option.some.inj hcut).symm
  obtain ⟨p, hp, rfl⟩ := hdescribed.parsed
  rw [hwhole] at hp
  refine ⟨hwhole, broken_parsed hp, ?_⟩
  have hall : brokenTree.preorder.filter (fun t => t.kind == "call_expression") =
      [callTree 8 1 [letter 10, .node "," 11 12 none [], brokenCall] 30, brokenCall, laterCall] :=
    rfl
  have hspelled : Source.textOf? ⟨brokenText⟩ call = some "PyObject_Call(c)" := by
    rw [← hwhole, ← hcode]
    exact hdescribed.code
  have hmem :=
    hall ▸ List.mem_filter.mpr ⟨broken_parsed hp ▸ hdescribed.inside, by simp [hdescribed.kind]⟩
  simp only [List.mem_cons, List.not_mem_nil, or_false] at hmem
  rcases hmem with rfl | rfl | rfl
  · exact absurd hspelled (by decide +kernel)
  · exact absurd hspelled (by decide +kernel)
  · rfl

theorem laterStatement_mem : laterStatement ∈ brokenTree.preorder := by
  simp [brokenTree, unitOf, brokenFunction, Tree.bareFunction, Tree.preorder, Tree.preorderAll,
    laterStatement, entryStatement]

theorem laterCall_mem : laterCall ∈ laterStatement.preorder :=
  Tree.child_mem_preorder List.mem_cons_self

/-- The later call is in its own context. -/
theorem own_statement_iff_later :
    ∃ r c, outcome (ofFiles brokenFiles brokenParser ["a.c"]) {} = .ok r ∧ c ∈ r.calls ∧
    c.code = "PyObject_Call(c)" ∧ ∃ d g v, d.code = brokenText ∧
    Described brokenParser d brokenTree laterCall g c ∧
      laterStatement ∈ brokenTree.preorder ∧ laterCall ∈ laterStatement.preorder ∧
        Stands ⟨brokenText⟩ g laterStatement v ∧ variablesAt g v ≠ [] ∧
        entryAt g v ∈ c.context := by
  obtain ⟨r, hr, hcalls⟩ := exists_ok_of_toOption broken_calls
  obtain ⟨first, rest, hsplit, -, hcalls⟩ := List.map_eq_cons_iff.mp hcalls
  obtain ⟨c, last, rfl, hc, -⟩ := List.map_eq_cons_iff.mp hcalls
  have hmem : c ∈ r.calls := hsplit ▸ List.mem_cons_of_mem _ List.mem_cons_self
  simp only [Prod.mk.injEq] at hc
  obtain ⟨hfile, hline, hcode, -⟩ := hc
  obtain ⟨text, fn, d, root, call, g, -, hread, hdefined, hdescribed, -, hown⟩ :=
    own_statement_iff hr hmem
  obtain ⟨hwhole, rfl, rfl⟩ := later_origin (hfile ▸ hread) hdefined hdescribed hcode
  obtain ⟨g', v, w, hg', -, -, -, hw, hx, hfirst⟩ := broken_graph
  obtain rfl : g = g' := by
    have hg := hdescribed.graph
    rw [hwhole, hg'] at hg
    exact (Option.some.inj hg).symm
  rw [hwhole] at hown
  have hin := (hown laterStatement laterStatement_mem laterCall_mem w hw hx).1 rfl
  rw [hline] at hin
  exact ⟨r, c, hr, hmem, hcode, d, g, w, hwhole, hdescribed, laterStatement_mem, laterCall_mem, hw,
    hx, hin.mpr hfirst⟩

/-- The call on the second line of its statement is not: its context is the statement of the later
call. -/
theorem exists_call_outside_context :
    ∃ r c g v, outcome (ofFiles brokenFiles brokenParser ["a.c"]) {} = .ok r ∧
    c ∈ r.calls ∧ c.code = "PyObject_Call(b)" ∧
    Source.textOf? ⟨brokenText⟩ brokenCall = some c.code ∧
      Bench.returned brokenParser brokenText .dataDependence = some g ∧
      brokenCall ∈ brokenStatement.preorder ∧
        Stands ⟨brokenText⟩ g brokenStatement v ∧ variablesAt g v ≠ [] ∧
        entryAt g v ∉ c.context := by
  obtain ⟨r, hr, hcalls⟩ := exists_ok_of_toOption broken_calls
  obtain ⟨c, rest, hsplit, hc, -⟩ := List.map_eq_cons_iff.mp hcalls
  have hmem : c ∈ r.calls := hsplit ▸ List.mem_cons_self
  simp only [Prod.mk.injEq] at hc
  obtain ⟨-, -, hcode, hcontext⟩ := hc
  obtain ⟨g, v, w, hg, hv, htext, hx, -⟩ := broken_graph
  have hinside : brokenCall ∈ brokenStatement.preorder := by
    simp [brokenStatement, callTree, Tree.preorder, Tree.preorderAll, brokenCall]
  have hspelled : Source.textOf? ⟨brokenText⟩ brokenCall = some "PyObject_Call(b)" := by
    decide +kernel
  refine ⟨r, c, g, v, hr, hmem, hcode, hcode ▸ hspelled, hg, hinside, hv, hx, fun hin => ?_⟩
  have hlisted : v.text ∈ c.context.map (·.text) := List.mem_map_of_mem hin
  rw [hcontext, htext] at hlisted
  exact absurd hlisted (by decide)

end CrossCall.Embedding

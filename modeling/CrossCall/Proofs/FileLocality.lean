import CrossCall.Proofs.CallSearch

/-! Calls file by file. Which calls a search reports, and what it says of them apart from their
helpers, does not depend on the files that are searched beside, on functions that have the same name
there, or on earlier searches. -/
namespace CrossCall.Embedding

open CrossCall.Flow (Bench exists_ok_of_toOption)

variable {fs : Files} {parse : Parser} {paths : List String}

/-- The calls of a definition, helpers apart. -/
def bareCalls (parse : Parser) (d : Definition) : List Call :=
  (valueOf (callsFor parse {} d)).map Call.bare

/-- The calls of several files are those of their definitions, in the order of the registry. -/
theorem bare_calls_perm (fs : Files) (parse : Parser) (paths : List String) :
    ((resultAt fs parse paths).calls.map Call.bare).Perm
      (paths.flatMap fun p => (definitionsAt fs parse p).flatMap (bareCalls parse)) := by
  have hbare : ∀ d, (valueOf (callsFor parse (registryAt fs parse paths) d)).map Call.bare =
      bareCalls parse d :=
    fun d => bare_valueOf parse _ {} d
  simp only [resultAt, List.map_flatMap, hbare, ← List.flatMap_assoc]
  exact (values_entered_perm _).flatMap_right _

/-- A search of distinct files answers exactly if each file can be searched by itself, and then it
reports the calls that are reported for the single files, whatever the benches are on which the
searches run. With a parser that reads every text it answers as soon as the files are there. -/
theorem calls_local (fs : Files) (parse : Parser) (hpaths : paths.Nodup) (b : Bench)
    (bench : String → Bench) :
    ((∃ r, outcome (ofFiles fs parse paths) b = .ok r) ↔
      ∀ p ∈ paths, ∃ r, outcome (ofFiles fs parse [p]) (bench p) = .ok r) ∧
    (∀ r (alone : String → Result), outcome (ofFiles fs parse paths) b = .ok r →
      (∀ p ∈ paths, outcome (ofFiles fs parse [p]) (bench p) = .ok (alone p)) →
        (r.calls.map Call.bare).Perm (paths.flatMap fun p => (alone p).calls.map Call.bare)) ∧
    (Covers parse → (∀ p ∈ paths, ∃ text, fs.read .drop p = .ok text) →
      ∃ r, outcome (ofFiles fs parse paths) b = .ok r) := by
  have hone : ∀ p r, outcome (ofFiles fs parse [p]) (bench p) = .ok r ↔
      Searchable fs parse p ∧ resultAt fs parse [p] = r := by
    intro p r
    rw [outcome_ofFiles (List.nodup_singleton p), List.forall_mem_singleton]
  simp only [outcome_ofFiles hpaths, hone, exists_and_left, exists_eq', and_true]
  refine ⟨trivial, ?_, fun hparse hread p hp => hparse.searchable (hread p hp)⟩
  rintro - alone ⟨-, rfl⟩ halone
  refine (bare_calls_perm fs parse paths).trans (List.Perm.flatMap_left paths fun p hp => ?_)
  rw [← (halone p hp).2]
  simpa using (bare_calls_perm fs parse [p]).symm

/-- Knows the listed texts, and sees nothing in others. -/
def parserOf (trees : Table String Tree) : Parser := fun text =>
  some ⟨trees.getD text (.node "translation_unit" 0 0 none []), false⟩

/-- A call at an offset, of a function with a name of the given length. -/
def callTree (o length : Nat) (arguments : List Tree) (stop : Nat) : Tree :=
  .node "call_expression" o stop none [
    .node "identifier" o (o + length) (some "function") [],
    .node "argument_list" (o + length) stop (some "arguments")
      (.node "(" (o + length) (o + length + 1) none [] :: arguments ++
        [.node ")" (stop - 1) stop none []])]

/-- A statement that calls an entry point, at an offset. -/
def entryStatement (o : Nat) (arguments : List Tree) (stop : Nat) : Tree :=
  .node "expression_statement" o stop none [callTree o 13 arguments (stop - 1),
    .node ";" (stop - 1) stop none []]

/-- `int f()` with one such statement, at an offset. -/
def callingFunction (o : Nat) (arguments : List Tree) (stop : Nat) : Tree :=
  .bareFunction o 3 (.node "compound_statement" (o + 7) stop (some "body") [
    .node "\x7b" (o + 7) (o + 8) none [],
    entryStatement (o + 8) arguments (stop - 1),
    .node "\x7d" (stop - 1) stop none []])

/-- `int*g()` with an empty body. -/
def helperFunction : Tree :=
  .node "function_definition" 0 9 none [
    .node "primitive_type" 0 3 (some "type") [],
    .node "pointer_declarator" 3 7 (some "declarator") [
      .node "*" 3 4 none [],
      .node "function_declarator" 4 7 (some "declarator") [
        .node "identifier" 4 5 (some "declarator") [],
        .node "parameter_list" 5 7 (some "parameters") [.node "(" 5 6 none [],
          .node ")" 6 7 none []]]],
    .node "compound_statement" 7 9 (some "body") [.node "\x7b" 7 8 none [],
      .node "\x7d" 8 9 none []]]

/-- A variable with a name of one letter. -/
def letter (o : Nat) : Tree := .node "identifier" o (o + 1) none []

/-- The arguments `g(g(x)),o.f()`. -/
def nestedArguments (o : Nat) : List Tree := [
  callTree o 1 [callTree (o + 2) 1 [letter (o + 4)] (o + 6)] (o + 7),
  .node "," (o + 7) (o + 8) none [],
  .node "call_expression" (o + 8) (o + 13) none [
    .node "field_expression" (o + 8) (o + 11) (some "function") [
      .node "identifier" (o + 8) (o + 9) (some "argument") [],
      .node "." (o + 9) (o + 10) (some "operator") [],
      .node "field_identifier" (o + 10) (o + 11) (some "field") []],
    .node "argument_list" (o + 11) (o + 13) (some "arguments") [
      .node "(" (o + 11) (o + 12) none [], .node ")" (o + 12) (o + 13) none []]]]

def unitOf (stop : Nat) (members : List Tree) : Tree := .node "translation_unit" 0 stop none members

/-- Two files that define `f`, and `g` in the second of them, with the texts that are read again
during the search. -/
def sharedTrees : Table String Tree := ⟨[
  ("int f()\x7bPyObject_Call(g(g(x)),o.f());\x7d",
    unitOf 38 [callingFunction 0 (nestedArguments 22) 38]),
  ("int*g()\x7b\x7dint f()\x7bPyObject_Call(y);\x7d",
    unitOf 35 [helperFunction, callingFunction 9 [letter 31] 35]),
  ("int f()\x7bPyObject_Call(y);\x7d", unitOf 26 [callingFunction 0 [letter 22] 26]),
  ("int*g()\x7b\x7d", unitOf 9 [helperFunction]),
  ("PyObject_Call(g(g(x)),o.f());", unitOf 29 [entryStatement 0 (nestedArguments 14) 29]),
  ("PyObject_Call(y);", unitOf 17 [entryStatement 0 [letter 14] 17])]⟩

def sharedParser : Parser := parserOf sharedTrees

def sharedFiles : Files where
  contents := ⟨[("/a.c", "int f()\x7bPyObject_Call(g(g(x)),o.f());\x7d".toUTF8),
    ("/b.c", "int*g()\x7b\x7dint f()\x7bPyObject_Call(y);\x7d".toUTF8)]⟩

theorem sharedFiles_calls :
    (outcome (ofFiles sharedFiles sharedParser ["a.c", "b.c"]) {}).toOption.map
    (fun r => r.calls.map fun c => (c.file, c.container, c.helpers.map fun d => (d.name, d.file))) =
      some [("a.c", "f", [("g", "b.c")]), ("b.c", "f", [])] := by decide +kernel

/-- Both files define `f`, and only beside the second file the call of the first one has a
helper. -/
theorem calls_local_sharedName : ["a.c", "b.c"].Nodup ∧ ∃ r one two,
    outcome (ofFiles sharedFiles sharedParser ["a.c", "b.c"]) {} = .ok r ∧
      outcome (ofFiles sharedFiles sharedParser ["a.c"]) {} = .ok one ∧
        outcome (ofFiles sharedFiles sharedParser ["b.c"]) {} = .ok two ∧
          r.calls.map (fun c => (c.file, c.container, c.helpers.map fun d => (d.name, d.file))) =
            [("a.c", "f", [("g", "b.c")]), ("b.c", "f", [])] ∧
            (r.calls.map Call.bare).Perm (one.calls.map Call.bare ++ two.calls.map Call.bare) := by
  have hpaths : ["a.c", "b.c"].Nodup := by decide
  obtain ⟨hboth, hperm, -⟩ := calls_local sharedFiles sharedParser hpaths {} fun _ => {}
  obtain ⟨r, hr, hcalls⟩ := exists_ok_of_toOption sharedFiles_calls
  have halone := hboth.mp ⟨r, hr⟩
  obtain ⟨one, hone⟩ := halone "a.c" (by simp)
  obtain ⟨two, htwo⟩ := halone "b.c" (by simp)
  refine ⟨hpaths, r, one, two, hr, hone, htwo, hcalls, ?_⟩
  simpa using hperm r (fun p => if p = "a.c" then one else two) hr (by simp [hone, htwo])

end CrossCall.Embedding

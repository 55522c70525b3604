import CrossCall.Embedding.Call
import CrossCall.Proofs.StoredGraph

/-! The search for calls apart from its bench. What it answers is a function of the texts: first the
definitions of all files are listed, then each definition is searched by itself, with the registry
for nothing but the helpers. -/
namespace CrossCall.Tree

variable {r t c : Tree} {cs : List Tree}

theorem mem_preorderAll : t ∈ preorderAll cs ↔ ∃ c ∈ cs, t ∈ c.preorder := by
  induction cs with
  | nil => simp [preorderAll]
  | cons c rest ih => simp [preorderAll, ih]

theorem mem_preorder_self (t : Tree) : t ∈ t.preorder := by
  cases t
  exact List.mem_cons_self

mutual

/-- What lies in a subtree lies in the tree. -/
theorem mem_preorder_trans (hc : c ∈ t.preorder) : (r : Tree) → t ∈ r.preorder → c ∈ r.preorder
  | .node k a b f cs, ht => by
    rcases List.mem_cons.mp ht with rfl | ht
    · exact hc
    · exact List.mem_cons_of_mem _ (mem_preorderAll_trans hc cs ht)

theorem mem_preorderAll_trans (hc : c ∈ t.preorder) :
    (cs : List Tree) → t ∈ preorderAll cs → c ∈ preorderAll cs
  | r :: rest, ht => by
    rcases List.mem_append.mp ht with ht | ht
    · exact List.mem_append_left _ (mem_preorder_trans hc r ht)
    · exact List.mem_append_right _ (mem_preorderAll_trans hc rest ht)

end

theorem child_mem_preorder (hc : c ∈ t.children) : c ∈ t.preorder := by
  cases t
  exact List.mem_cons_of_mem _ (mem_preorderAll.mpr ⟨c, hc, mem_preorder_self c⟩)

end CrossCall.Tree

namespace CrossCall.Embedding

open CrossCall.Flow (Bench BenchM Graph bind_eq_ok map_eq_ok)

variable {α β ε : Type} {parse : Parser} {reg reg' : Registry} {d : Definition}
  {ds : List Definition} {g : Graph} {fs : Files} {paths : List String} {path name : String}
  {files : List (String × String)} {src : Source} {t : Tree}

/-! ### Answers -/

/-- What a search answers on a bench. -/
def outcome (act : Search α) (b : Bench) : Except Fault α := (act.run.run b).1

/-- A search answers the same on every bench. -/
def Answers (act : Search α) (r : Except Fault α) : Prop := ∀ b, outcome act b = r

theorem answers_lift (r : Except Fault α) : Answers (liftM r : Search α) r := fun _ => rfl

theorem answers_pure (x : α) : Answers (pure x : Search α) (.ok x) := fun _ => rfl

theorem Answers.bind {act : Search α} {f : α → Search β} {r : Except Fault α}
    {s : α → Except Fault β} (hact : Answers act r) (hf : ∀ x, r = .ok x → Answers (f x) (s x)) :
    Answers (act >>= f) (r >>= s) := by
  intro b
  have hr := hact b
  have hrun : (act >>= f).run.run b =
      (act.run.run b >>= fun p => (ExceptT.bindCont f p.1).run p.2) := rfl
  rw [outcome] at hr ⊢
  rw [hrun]
  generalize act.run.run b = p at hr
  obtain ⟨_ | x, b'⟩ := p
  · cases hr
    rfl
  · cases hr
    exact hf x rfl b'

theorem answers_mapM {xs : List α} {f : α → Search β} {s : α → Except Fault β}
    (hf : ∀ x, Answers (f x) (s x)) :
    Answers (xs.mapM f) (xs.mapM s) := by
  induction xs with
  | nil => exact answers_pure []
  | cons x rest ih =>
    rw [List.mapM_cons, List.mapM_cons]
    exact (hf x).bind fun y _ => ih.bind fun ys _ => answers_pure _

/-- The dependences of a text are the same on every bench. -/
theorem answers_dependences (parse : Parser) (code : String) :
    Answers (liftM (Bench.buildDataDependence parse code))
    (.ok (Bench.returned parse code .dataDependence)) := by
  intro b
  obtain ⟨log, hrun⟩ := Bench.run_buildDataDependence parse code b
  have hlift : outcome (liftM (Bench.buildDataDependence parse code)) b =
      .ok ((Bench.buildDataDependence parse code).run b).1 := rfl
  rw [hlift, hrun]

/-- The calls of one function, as `callsIn` answers them. -/
def callsFor (parse : Parser) (reg : Registry) (d : Definition) : Except Fault (List Call) := do
  let root ← parseText parse d.code
  let calls ← callExpressions ⟨d.code⟩ root
  let calls := calls.filter fun c => entryPoints.contains c.2
  if calls.isEmpty then pure []
  else
    match Bench.returned parse d.code .dataDependence with
    | none => pure []
    | some g => calls.mapM (describe parse reg d g)

theorem answers_callsIn (parse : Parser) (reg : Registry) (d : Definition) :
    Answers (callsIn parse reg d) (callsFor parse reg d) := by
  unfold callsIn callsFor
  refine (answers_lift _).bind fun root _ => (answers_lift _).bind fun calls _ => ?_
  dsimp only
  split
  · exact answers_pure []
  · refine (answers_dependences parse d.code).bind (s := fun _ => _) fun o ho => ?_
    cases ho
    cases Bench.returned parse d.code .dataDependence with
    | none => exact answers_pure []
    | some g => exact answers_mapM fun c => answers_lift _

/-- The calls of several texts, as `callsOf` answers them. -/
def resultOf (parse : Parser) (files : List (String × String)) : Except Fault Result := do
  let reg ← registryOf parse files
  let calls ← reg.values.flatten.mapM (callsFor parse reg)
  pure { calls := calls.flatten, registry := reg }

theorem answers_ofFiles (fs : Files) (parse : Parser) (paths : List String) :
    Answers (ofFiles fs parse paths) (readAll fs paths >>= resultOf parse) := by
  unfold ofFiles callsOf resultOf
  refine (answers_lift _).bind fun files _ => (answers_lift _).bind fun reg _ => ?_
  exact (answers_mapM (answers_callsIn parse reg)).bind fun calls _ => answers_pure _

/-! ### Results of many computations -/

/-- What a computation returns, if it does not fail. -/
def valueOf [Inhabited β] (r : Except ε β) : β := r.toOption.getD default

theorem valueOf_eq [Inhabited β] {r : Except ε β} {y : β} (h : r = .ok y) : valueOf r = y := by
  rw [h]
  rfl

theorem mapM_eq_ok_iff {f : α → Except ε β} {g : α → β} (hg : ∀ x y, f x = .ok y → g x = y)
    {xs : List α} {ys : List β} :
    xs.mapM f = .ok ys ↔ (∀ x ∈ xs, ∃ y, f x = .ok y) ∧ xs.map g = ys := by
  induction xs generalizing ys with
  | nil =>
    rw [List.mapM_nil]
    constructor
    · intro h
      cases h
      simp
    · rintro ⟨-, rfl⟩
      rfl
  | cons x rest ih =>
    simp only [List.mapM_cons, bind_eq_ok, ih, List.forall_mem_cons, List.map_cons]
    constructor
    · rintro ⟨y, hy, zs, ⟨hrest, rfl⟩, h⟩
      cases h
      exact ⟨⟨⟨y, hy⟩, hrest⟩, by rw [hg x y hy]⟩
    · rintro ⟨⟨⟨y, hy⟩, hrest⟩, rfl⟩
      exact ⟨y, hy, _, ⟨hrest, rfl⟩, by rw [hg x y hy]; rfl⟩

/-! ### The definitions of a file -/

/-- The definition that a node gives, if it names one. -/
def definitionAt (src : Source) (file : String) (t : Tree) : Except Fault (List Definition) := do
  let name ← definedName src t
  if name.isEmpty then pure []
  else
    let code ← decoded src t
    pure [{ name := name, file := file, line := (src.point t.start).row + 1, code := code }]

/-- The definitions of a file in the order of their places. -/
def definitionsIn (parse : Parser) (file : String × String) : Except Fault (List Definition) := do
  let root ← parseText parse file.2
  let found ← (root.preorder.filter isFunction).mapM (definitionAt ⟨file.2⟩ file.1)
  pure found.flatten

/-- Puts a definition behind the others of its name. -/
def enter (reg : Registry) (d : Definition) : Registry := reg.alter d.name [] (· ++ [d])

theorem register_eq (src : Source) (file : String) (reg : Registry) (t : Tree) :
    register src file reg t = (definitionAt src file t).map (List.foldl enter reg) := by
  unfold register definitionAt
  cases definedName src t with
  | error e => rfl
  | ok name =>
    simp only [bind, Except.bind]
    split
    · rfl
    · cases decoded src t <;> rfl

/-- Entering what is listed, one list after the other, is entering all of it. -/
theorem foldlM_enter {xs : List α} {f : Registry → α → Except Fault Registry}
    {s : α → Except Fault (List Definition)}
    (hf : ∀ reg x, f reg x = (s x).map (List.foldl enter reg)) (reg : Registry) :
    xs.foldlM f reg = (xs.mapM s).map fun found => found.flatten.foldl enter reg := by
  induction xs generalizing reg with
  | nil => rfl
  | cons x rest ih =>
    rw [List.foldlM_cons, List.mapM_cons, hf]
    cases s x with
    | error e => rfl
    | ok ds =>
      change rest.foldlM f (ds.foldl enter reg) = _
      rw [ih]
      cases hrest : rest.mapM s with
      | error e => simp [bind, Except.bind, Except.map]
      | ok found => simp [bind, Except.bind, Except.map, pure, Except.pure]

theorem registryOf_eq (parse : Parser) (files : List (String × String)) :
    registryOf parse files = (files.mapM (definitionsIn parse)).map fun found =>
    found.flatten.foldl enter {} := by
  refine foldlM_enter (fun reg file => ?_) {}
  unfold registerFile definitionsIn
  cases parseText parse file.2 with
  | error e => rfl
  | ok root =>
    change List.foldlM _ reg _ = _
    rw [foldlM_enter (register_eq ⟨file.2⟩ file.1)]
    cases hfound : (root.preorder.filter isFunction).mapM (definitionAt ⟨file.2⟩ file.1) with
    | error e => simp [bind, Except.bind, Except.map, hfound]
    | ok found => simp [bind, Except.bind, Except.map, pure, Except.pure, hfound]

/-! ### Helpers apart -/

/-- A call without the helper functions. -/
def Call.bare (c : Call) : Call := { c with helpers := [] }

theorem helpersOf_eq (parse : Parser) (reg : Registry) (context : List Statement) :
    helpersOf parse reg context =
    (context.mapM fun s => calledNames parse s.text).map fun names =>
      (unionNames [] (names.flatten.filter reg.contains)).flatMap fun n => reg.getD n [] := by
  unfold helpersOf helperNames
  cases context.mapM fun s => calledNames parse s.text <;> rfl

/-- The statements around a call. -/
def contextAt (g : Graph) (d : Definition) (t : Tree) : List Statement :=
  byLine (relatedStatements g (variablesOnLine g ((Source.point ⟨d.code⟩ t.start).row + 1 : Nat)))

theorem describe_eq_ok {call : Tree × String} {c : Call} :
    describe parse reg d g call = .ok c ↔ ∃ code helpers,
    decoded ⟨d.code⟩ call.1 = .ok code ∧ helpersOf parse reg (contextAt g d call.1) = .ok helpers ∧
      ⟨call.2, (Source.point ⟨d.code⟩ call.1.start).row + 1, code, d.file, d.name,
        contextAt g d call.1, helpers⟩ =
        c := by
  unfold describe
  simp only [bind_eq_ok, contextAt]
  constructor
  · rintro ⟨code, hcode, helpers, hhelpers, h⟩
    exact ⟨code, helpers, hcode, hhelpers, Except.ok.inj h⟩
  · rintro ⟨code, helpers, hcode, hhelpers, rfl⟩
    exact ⟨code, hcode, helpers, hhelpers, rfl⟩

theorem bare_describe (parse : Parser) (reg reg' : Registry) (d : Definition) (g : Graph)
    (call : Tree × String) :
    (describe parse reg d g call).map Call.bare = (describe parse reg' d g call).map Call.bare := by
  unfold describe
  dsimp only
  cases decoded ⟨d.code⟩ call.1 with
  | error e => rfl
  | ok code =>
    simp only [helpersOf_eq, bind, Except.bind, pure, Except.pure]
    cases List.mapM (fun s : Statement => calledNames parse s.text) _ <;> rfl

theorem map_mapM {γ : Type} (h : β → γ) (f : α → Except ε β) (xs : List α) :
    (xs.mapM f).map (List.map h) = xs.mapM fun x => (f x).map h := by
  induction xs with
  | nil => rfl
  | cons x rest ih =>
    rw [List.mapM_cons, List.mapM_cons, ← ih]
    cases f x with
    | error e => rfl
    | ok y => cases hrest : rest.mapM f <;> simp [bind, Except.bind, Except.map, pure, Except.pure]

/-- What is said of a function's calls, helpers apart, does not depend on the other functions. -/
theorem bare_callsFor (parse : Parser) (reg reg' : Registry) (d : Definition) :
    (callsFor parse reg d).map (List.map Call.bare) =
    (callsFor parse reg' d).map (List.map Call.bare) := by
  unfold callsFor
  cases parseText parse d.code with
  | error e => rfl
  | ok root =>
    simp only [bind, Except.bind]
    cases callExpressions ⟨d.code⟩ root with
    | error e => rfl
    | ok calls =>
      dsimp only
      split
      · rfl
      · cases Bench.returned parse d.code .dataDependence with
        | none => rfl
        | some g =>
          dsimp only
          rw [map_mapM, map_mapM]
          exact congrArg (fun f => List.mapM f _)
            (funext fun c => bare_describe parse reg reg' d g c)

theorem isOk_callsFor (h : ∃ cs, callsFor parse reg d = .ok cs) :
    ∃ cs, callsFor parse reg' d = .ok cs := by
  obtain ⟨cs, hcs⟩ := h
  have hbare := bare_callsFor parse reg reg' d
  rw [hcs] at hbare
  cases hcs' : callsFor parse reg' d with
  | error e =>
    rw [hcs'] at hbare
    cases hbare
  | ok cs' => exact ⟨cs', rfl⟩

theorem bare_valueOf (parse : Parser) (reg reg' : Registry) (d : Definition) :
    (valueOf (callsFor parse reg d)).map Call.bare =
    (valueOf (callsFor parse reg' d)).map Call.bare := by
  have hbare := bare_callsFor parse reg reg' d
  cases hcs : callsFor parse reg d <;> cases hcs' : callsFor parse reg' d <;>
    rw [hcs, hcs'] at hbare
  · rfl
  · cases hbare
  · cases hbare
  · exact Except.ok.inj hbare

/-! ### The whole search -/

/-- The text of a file. -/
def textAt (fs : Files) (path : String) : String := valueOf (fs.read .drop path)

/-- The definitions of a file that can be read. -/
def definitionsAt (fs : Files) (parse : Parser) (path : String) : List Definition :=
  valueOf (definitionsIn parse (path, textAt fs path))

/-- A file that can be read, with functions that can be listed and searched. -/
structure Searchable (fs : Files) (parse : Parser) (path : String) : Prop where
  read : ∃ text, fs.read .drop path = .ok text
  listed : ∃ ds, definitionsIn parse (path, textAt fs path) = .ok ds
  searched : ∀ d ∈ definitionsAt fs parse path, ∃ cs, callsFor parse {} d = .ok cs

/-- The registry of several files. -/
def registryAt (fs : Files) (parse : Parser) (paths : List String) : Registry :=
  (paths.flatMap (definitionsAt fs parse)).foldl enter {}

/-- What a search of several files reports if it does not fail. -/
def resultAt (fs : Files) (parse : Parser) (paths : List String) : Result where
  registry := registryAt fs parse paths
  calls := (registryAt fs parse paths).values.flatten.flatMap fun d =>
    valueOf (callsFor parse (registryAt fs parse paths) d)

theorem readAll_eq_ok (hpaths : paths.Nodup) : readAll fs paths = .ok files ↔
    (∀ p ∈ paths, ∃ text, fs.read .drop p = .ok text) ∧
    paths.map (fun p => (p, textAt fs p)) = files := by
  have hone : ∀ p file,
      (do pure (p, ← (fs.read .drop p).mapError Fault.file) : Except Fault (String × String)) =
        .ok file ↔ ∃ text, fs.read .drop p = .ok text ∧ (p, text) = file := by
    intro p file
    cases fs.read .drop p <;> simp [bind, Except.bind, pure, Except.pure, Except.mapError]
  have hvalue : ∀ p file,
      (do pure (p, ← (fs.read .drop p).mapError Fault.file) : Except Fault (String × String)) =
        .ok file → (p, textAt fs p) = file := by
    intro p file h
    obtain ⟨text, htext, rfl⟩ := (hone p file).mp h
    rw [textAt, valueOf_eq htext]
  have hkeys : ((paths.map fun p => (p, textAt fs p)).map (·.1)).Nodup := by
    rw [List.map_map]
    exact (List.map_id paths).symm ▸ hpaths
  unfold readAll
  simp only [bind_eq_ok, mapM_eq_ok_iff hvalue, hone]
  constructor
  · rintro ⟨texts, ⟨hread, rfl⟩, h⟩
    cases h
    exact ⟨by simpa using hread, (Table.entries_ofList hkeys).symm⟩
  · rintro ⟨hread, rfl⟩
    exact ⟨_, ⟨by simpa using hread, rfl⟩, by rw [Table.entries_ofList hkeys]; rfl⟩

theorem registryOf_eq_ok :
    registryOf parse files = .ok reg ↔ (∀ f ∈ files, ∃ ds, definitionsIn parse f = .ok ds) ∧
    (files.flatMap fun f => valueOf (definitionsIn parse f)).foldl enter {} = reg := by
  rw [registryOf_eq, map_eq_ok]
  simp only [mapM_eq_ok_iff fun f ds => valueOf_eq, List.flatMap]
  constructor
  · rintro ⟨found, ⟨hlisted, rfl⟩, rfl⟩
    exact ⟨hlisted, rfl⟩
  · rintro ⟨hlisted, rfl⟩
    exact ⟨_, ⟨hlisted, rfl⟩, rfl⟩

theorem foldl_enter (ds : List Definition) : ds.foldl enter {} =
    (ds.map fun d => (d.name, d)).foldl (fun t a => t.alter a.1 [] (· ++ [a.2])) {} := by
  rw [List.foldl_map]
  rfl

/-- The registry holds the definitions that were entered, in another order. -/
theorem values_entered_perm (ds : List Definition) :
    (ds.foldl enter {}).values.flatten.Perm ds := by
  have hperm := Table.values_collect_perm (ds.map fun d => (d.name, d))
  rw [List.map_map, show ((·.2) ∘ fun d : Definition => (d.name, d)) = id from rfl,
    List.map_id] at hperm
  rwa [foldl_enter]

theorem resultOf_eq_ok {r : Result} :
    resultOf parse files = .ok r ↔ ∃ reg, registryOf parse files = .ok reg ∧
    (∀ d ∈ reg.values.flatten, ∃ cs, callsFor parse {} d = .ok cs) ∧
      { registry := reg
        calls := reg.values.flatten.flatMap fun d => valueOf (callsFor parse reg d) } = r := by
  unfold resultOf
  simp only [bind_eq_ok, mapM_eq_ok_iff fun d cs => valueOf_eq, List.flatMap]
  constructor
  · rintro ⟨reg, hreg, calls, ⟨hcalls, rfl⟩, h⟩
    exact ⟨reg, hreg, fun d hd => isOk_callsFor (hcalls d hd), Except.ok.inj h⟩
  · rintro ⟨reg, hreg, hcalls, rfl⟩
    exact ⟨reg, hreg, _, ⟨fun d hd => isOk_callsFor (hcalls d hd), rfl⟩, rfl⟩

/-- A search of distinct files answers exactly if each of them can be searched. -/
theorem outcome_ofFiles (hpaths : paths.Nodup) {b : Bench} {r : Result} :
    outcome (ofFiles fs parse paths) b = .ok r ↔
    (∀ p ∈ paths, Searchable fs parse p) ∧ resultAt fs parse paths = r := by
  rw [answers_ofFiles fs parse paths b]
  simp only [bind_eq_ok, readAll_eq_ok hpaths, resultOf_eq_ok, registryOf_eq_ok]
  have hmem : ∀ d, d ∈ (registryAt fs parse paths).values.flatten ↔
      ∃ p ∈ paths, d ∈ definitionsAt fs parse p := by
    intro d
    rw [registryAt, (values_entered_perm _).mem_iff, List.mem_flatMap]
  constructor
  · rintro ⟨-, ⟨hread, rfl⟩, reg, ⟨hlisted, rfl⟩, hcalls, hr⟩
    rw [List.flatMap_map] at hcalls hr
    refine ⟨fun p hp => ⟨hread p hp, hlisted _ (List.mem_map_of_mem hp), fun d hd => ?_⟩, hr⟩
    exact hcalls d ((hmem d).mpr ⟨p, hp, hd⟩)
  · rintro ⟨hsearch, hr⟩
    refine ⟨_, ⟨fun p hp => (hsearch p hp).read, rfl⟩, registryAt fs parse paths, ⟨?_, ?_⟩, ?_, hr⟩
    · intro f hf
      obtain ⟨p, hp, rfl⟩ := List.mem_map.mp hf
      exact (hsearch p hp).listed
    · rw [List.flatMap_map]
      rfl
    · intro d hd
      obtain ⟨p, hp, hd⟩ := (hmem d).mp hd
      exact (hsearch p hp).searched d hd

/-! ### Where nothing fails -/

theorem exists_of_mem_mapM {f : α → Except ε β} {xs : List α} {ys : List β} {y : β}
    (h : xs.mapM f = .ok ys) (hy : y ∈ ys) : ∃ x ∈ xs, f x = .ok y := by
  induction xs generalizing ys with
  | nil =>
    cases h
    cases hy
  | cons x rest ih =>
    rw [List.mapM_cons] at h
    obtain ⟨z, hz, h⟩ := bind_eq_ok.mp h
    obtain ⟨zs, hzs, h⟩ := bind_eq_ok.mp h
    cases h
    rcases List.mem_cons.mp hy with rfl | hy
    · exact ⟨x, List.mem_cons_self, hz⟩
    · obtain ⟨w, hw, hwy⟩ := ih hzs hy
      exact ⟨w, List.mem_cons_of_mem x hw, hwy⟩

theorem exists_mapM {f : α → Except ε β} {xs : List α} (h : ∀ x ∈ xs, ∃ y, f x = .ok y) :
    ∃ ys, xs.mapM f = .ok ys := by
  induction xs with
  | nil => exact ⟨[], rfl⟩
  | cons x rest ih =>
    obtain ⟨y, hy⟩ := h x List.mem_cons_self
    obtain ⟨ys, hys⟩ := ih fun z hz => h z (List.mem_cons_of_mem x hz)
    exact ⟨y :: ys, by rw [List.mapM_cons, hy, hys]; rfl⟩

/-- Every node of a tree covers whole characters. -/
def Readable (src : Source) (root : Tree) : Prop := ∀ t ∈ root.preorder, ∃ s, src.textOf? t = some s

variable {root : Tree}

/-- A parser that has a tree for every text, and a readable one. -/
def Covers (parse : Parser) : Prop := ∀ text, ∃ p, parse text = some p ∧ Readable ⟨text⟩ p.root

/-- What is below a readable node is readable. -/
theorem Readable.below (h : Readable src root) (ht : t ∈ root.preorder) : Readable src t :=
  fun x hx => h x (Tree.mem_preorder_trans hx root ht)

theorem Readable.child (h : Readable src root) (ht : t ∈ root.children) : Readable src t :=
  h.below (Tree.child_mem_preorder ht)

theorem Readable.decoded (h : Readable src root) (ht : t ∈ root.preorder) :
    ∃ s, decoded src t = .ok s := by
  obtain ⟨s, hs⟩ := h t ht
  exact ⟨s, by rw [Embedding.decoded, hs]⟩

theorem Readable.callees (h : Readable src root) :
    ∃ calls, callExpressions src root = .ok calls := by
  refine exists_mapM fun t ht => ?_
  have hnamed : ∃ s, calleeName src t = .ok s := by
    unfold calleeName
    split
    · rename_i c hc
      have hchild := (h.below (List.mem_filter.mp ht).1).child (List.mem_of_find?_eq_some hc)
      exact hchild.decoded (Tree.mem_preorder_self c)
    · exact ⟨"", rfl⟩
  obtain ⟨s, hs⟩ := hnamed
  exact ⟨(t, s), by rw [hs]; rfl⟩

theorem mem_callExpressions {calls : List (Tree × String)}
    (h : callExpressions src root = .ok calls) {c : Tree × String} (hc : c ∈ calls) :
    c.1 ∈ root.preorder := by
  obtain ⟨t, ht, h⟩ := exists_of_mem_mapM h hc
  obtain ⟨s, -, h⟩ := bind_eq_ok.mp h
  cases h
  exact (List.mem_filter.mp ht).1

mutual

theorem exists_nameIn : (t : Tree) → Readable src t → ∃ s, nameIn src t = .ok s
  | .node k a b f cs, h => by
    rw [nameIn]
    split
    · unfold declaratorName
      split
      · rename_i c hc
        exact (h.child (List.mem_of_find?_eq_some hc)).decoded (Tree.mem_preorder_self c)
      · exact ⟨"", rfl⟩
    · split
      · exact exists_nameAmong cs fun c hc => h.child hc
      · exact ⟨"", rfl⟩

theorem exists_nameAmong :
    (cs : List Tree) → (∀ c ∈ cs, Readable src c) → ∃ s, nameAmong src cs = .ok s
  | [], _ => ⟨"", rfl⟩
  | c :: rest, h => by
    obtain ⟨s, hs⟩ := exists_nameIn c (h c List.mem_cons_self)
    obtain ⟨s', hs'⟩ := exists_nameAmong rest fun d hd => h d (List.mem_cons_of_mem c hd)
    rw [nameAmong, hs]
    simp only [bind, Except.bind]
    split
    · exact ⟨s', hs'⟩
    · exact ⟨s, rfl⟩

end

theorem Covers.parseText (h : Covers parse) (text : String) :
    ∃ root, parseText parse text = .ok root ∧ Readable ⟨text⟩ root := by
  obtain ⟨p, hp, hroot⟩ := h text
  exact ⟨p.root, by rw [Embedding.parseText, hp], hroot⟩

theorem Covers.helpers (h : Covers parse) (reg : Registry) (context : List Statement) :
    ∃ ds, helpersOf parse reg context = .ok ds := by
  have hnames : ∃ names, (context.mapM fun s => calledNames parse s.text) = .ok names := by
    refine exists_mapM fun s _ => ?_
    obtain ⟨root, hroot, hreadable⟩ := h.parseText s.text
    obtain ⟨calls, hcalls⟩ := hreadable.callees
    exact ⟨_, by rw [calledNames, hroot]; simp only [bind, Except.bind, hcalls]; rfl⟩
  obtain ⟨names, hnames⟩ := hnames
  exact ⟨_, by rw [helpersOf_eq, hnames]; rfl⟩

theorem Covers.calls (h : Covers parse) (reg : Registry) (d : Definition) :
    ∃ cs, callsFor parse reg d = .ok cs := by
  obtain ⟨root, hroot, hreadable⟩ := h.parseText d.code
  obtain ⟨calls, hcalls⟩ := hreadable.callees
  unfold callsFor
  simp only [hroot, hcalls, bind, Except.bind]
  split
  · exact ⟨[], rfl⟩
  · split
    · exact ⟨[], rfl⟩
    · refine exists_mapM fun c hc => ?_
      obtain ⟨code, hcode⟩ :=
        hreadable.decoded (mem_callExpressions hcalls (List.mem_filter.mp hc).1)
      obtain ⟨helpers, hhelpers⟩ := h.helpers reg (contextAt _ d c.1)
      exact ⟨_, describe_eq_ok.mpr ⟨code, helpers, hcode, hhelpers, rfl⟩⟩

theorem Covers.definitions (h : Covers parse) (file : String × String) :
    ∃ ds, definitionsIn parse file = .ok ds := by
  obtain ⟨root, hroot, hreadable⟩ := h.parseText file.2
  have hfound : ∃ found,
      (root.preorder.filter isFunction).mapM (definitionAt ⟨file.2⟩ file.1) = .ok found := by
    refine exists_mapM fun t ht => ?_
    have htree := (List.mem_filter.mp ht).1
    obtain ⟨name, hname⟩ := exists_nameAmong t.children fun c hc => (hreadable.below htree).child hc
    obtain ⟨code, hcode⟩ := hreadable.decoded htree
    unfold definitionAt definedName
    simp only [hname, hcode, bind, Except.bind]
    split
    · exact ⟨[], rfl⟩
    · exact ⟨_, rfl⟩
  obtain ⟨found, hfound⟩ := hfound
  exact ⟨_, by rw [definitionsIn, hroot]; simp only [bind, Except.bind, hfound]; rfl⟩

/-- With such a parser a file can be searched as soon as it can be read. -/
theorem Covers.searchable (h : Covers parse) (hread : ∃ text, fs.read .drop path = .ok text) :
    Searchable fs parse path :=
  ⟨hread, h.definitions _, fun d _ => h.calls {} d⟩

end CrossCall.Embedding

import CrossCall.Proofs.Position

/-! What a position builds from its children, construct by construct, and at which vertex control
enters it. -/
namespace CrossCall.Flow

/-- The child that a node knows under a field name. -/
def Named (l : Locus) (name : String) (c : Locus) : Prop :=
  ∃ i t, l.node.fieldIndex? name = some i ∧ l.node.children[i]? = some t ∧ c = l.child i t

/-- The kinds of nodes whose children are run. -/
def structuredKinds : List String :=
  ["function_definition", "compound_statement", "else_clause", "if_statement", "while_statement",
    "for_statement", "do_statement", "switch_statement", "case_statement", "translation_unit"]

/-- The piece of a node that is no leaf and that control comes to. -/
inductive Builds (src : Source) (l : Locus) (E : List Exit) : Piece → Prop
  | block {p : Piece} (hk : l.kind = "compound_statement")
      (h : runBlock src [] [] (l.children.map (partAt src)) E = .ok p) : Builds src l E p
  | clause {p : Piece} (hk : l.kind = "else_clause")
      (h : runAll (l.children.map (partAt src)) E = .ok p) :
      Builds src l E p
  | branch {v : Vertex} {c : Locus} {yes no : Piece} (hk : l.kind = "if_statement")
      (hv : v.id = spanId src l.node)
      (hc : Named l "consequence" c) (hyes : (partAt src c).run [⟨v, "Y"⟩] = .ok yes)
      (hno : (∃ d, Named l "alternative" d ∧ (partAt src d).run [⟨v, "N"⟩] = .ok no) ∨
        l.node.fieldIndex? "alternative" = none ∧ no = { exits := [⟨v, "N"⟩] }) :
      Builds src l E (.forked v E yes no)
  | loop {v : Vertex} {c : Locus} {body : Piece} {bs cs : List Vertex}
      (hk : isCountedLoop l.kind = true)
      (hv : v.id = spanId src l.node) (hc : Named l "body" c)
        (hbody : (partAt src c).run [⟨v, "Y"⟩] = .ok body)
      (hbs : bs.map (·.id) = jumpIds src "break_statement" l)
      (hcs : cs.map (·.id) = jumpIds src "continue_statement" l) :
      Builds src l E (.looped v E { body with exits := waysBack body bs cs })
  | doLoop {w : Vertex} {c : Locus} {body : Piece} {bs cs : List Vertex}
      (hk : l.kind = "do_statement")
      (hw : conditionId? src l.node = some w.id) (hc : Named l "body" c)
        (hbody : (partAt src c).run E = .ok body)
      (hbs : ∀ x, x ∈ bs.map (·.id) ↔
        x ∈ jumpIds src "break_statement" c ∧ x ∈ recordedIds body.records)
      (hcs : ∀ x, x ∈ cs.map (·.id) ↔
        x ∈ jumpIds src "continue_statement" c ∧ x ∈ recordedIds body.records) :
      Builds src l E { Piece.repeated w { body with exits := body.exits ++ plainExits cs } with
        exits := ⟨w, "N"⟩ :: plainExits bs }
  | bare {v : Vertex} (hk : l.kind = "switch_statement") (hv : v.id = spanId src l.node)
      (hnone : l.node.fieldIndex? "body" = none) :
      Builds src l E ⟨[⟨v, edgesTo v E⟩], [{ vertex := v }]⟩
  | switch {v : Vertex} {c : Locus} {body : Piece} {bs : List Vertex}
      (hk : l.kind = "switch_statement")
      (hv : v.id = spanId src l.node) (hc : Named l "body" c)
        (hbody : (partAt src c).run [{ vertex := v }] = .ok body)
      (hbs : bs.map (·.id) = jumpIds src "break_statement" l) :
      Builds src l E (.headed v E { body with exits := body.exits ++ plainExits bs })
  | label {v : Vertex} {e : Exit} {X : List Exit} {body : Piece} (hk : l.kind = "case_statement")
      (hv : v.id = spanId src l.node) (he : e.vertex = v) (hX : ∀ x ∈ X, x.vertex = v)
      (hbody : runAll
        ((l.children.drop (labelLength (l.node.children.map Tree.kind))).map (partAt src)) [e] =
          .ok body) :
      Builds src l E (.headed v E { body with exits := body.exits ++ X })
  | simple {v : Vertex} (hk : l.kind ∉ structuredKinds) (hv : v.id = spanId src l.node) :
      Builds src l E ⟨[⟨v, edgesTo v E⟩],
        if hasKind ["return_statement", "break_statement", "continue_statement"] l.kind then []
        else [{ vertex := v }]⟩

variable {src : Source} {l c d : Locus} {t : Tree} {ts : List Tree} {v : Vertex} {x y : Int}
  {E X : List Exit} {rs : List Record} {pending : List Vertex} {p : Piece} {q : Part}
  {qs : List Part} {ls : List Locus} {name : String}

/-! ### Children -/

theorem map_node_children (l : Locus) : l.children.map (·.node) = l.node.children := by
  apply List.ext_getElem?
  intro i
  rw [List.getElem?_map, getElem?_children]
  cases l.node.children[i]? <;> rfl

theorem Named.mem (h : Named l name c) : c ∈ l.children := by
  obtain ⟨i, t, -, ht, rfl⟩ := h
  apply List.mem_of_getElem?
  rw [getElem?_children, ht, Option.map_some]

/-- A part is found under a name where the child is. -/
theorem find?_children :
    ((l.children.map (partAt src)).find? fun q => q.locus.node.field == some name) =
    (l.node.fieldIndex? name).bind fun i => (l.node.children[i]?).map fun t =>
    partAt src (l.child i t) := by
  have hindex : ((l.children.map (partAt src)).findIdx? fun q => q.locus.node.field == some name) =
      l.node.fieldIndex? name := by
    rw [List.findIdx?_map, Tree.fieldIndex?, ← map_node_children, List.findIdx?_map]
    rfl
  rw [List.find?_eq_bind_findIdx?_getElem?, hindex]
  congr 1
  funext i
  rw [List.getElem?_map, getElem?_children, Option.map_map]
  rfl

theorem find?_children_some
    (h : ((l.children.map (partAt src)).find? fun q => q.locus.node.field == some name) = some q) :
    ∃ c, Named l name c ∧ q = partAt src c := by
  rw [find?_children] at h
  obtain ⟨i, hi, h⟩ := Option.bind_eq_some_iff.mp h
  obtain ⟨t, ht, rfl⟩ := Option.map_eq_some_iff.mp h
  exact ⟨_, ⟨i, t, hi, ht, rfl⟩, rfl⟩

theorem find?_children_none
    (h : ((l.children.map (partAt src)).find? fun q => q.locus.node.field == some name) = none) :
    l.node.fieldIndex? name = none := by
  rw [find?_children] at h
  cases hi : l.node.fieldIndex? name with
  | none => rfl
  | some i =>
    obtain ⟨hlt, -⟩ := List.findIdx?_eq_some_iff_getElem.mp hi
    rw [hi, Option.bind_some, List.getElem?_eq_getElem hlt] at h
    cases h

theorem partNamed_children (h : partNamed (l.children.map (partAt src)) name = .ok q) :
    ∃ c, Named l name c ∧ q = partAt src c := find?_children_some (partNamed_eq_ok.mp h)

theorem childByField?_of_named (h : Named l name c) : l.node.childByField? name = some c.node := by
  obtain ⟨i, t, hi, ht, rfl⟩ := h
  rw [Tree.childByField?, List.find?_eq_bind_findIdx?_getElem?]
  exact Option.bind_eq_some_iff.mpr ⟨i, hi, ht⟩

theorem kinds_children :
    (l.children.map (partAt src)).map Part.kind = l.node.children.map Tree.kind := by
  rw [← map_node_children, List.map_map, List.map_map]
  rfl

/-! ### Inversion -/

theorem wellShaped_iff :
    wellShaped t = true ↔ t.kind ≠ "function_definition" ∧ t.kind ≠ "translation_unit" ∧
    (t.kind = "else_clause" → (∀ c ∈ t.children, c.kind ≠ "else" ∨ c.isLeaf = true) ∧
      (1 < t.children.length ∨ ∀ c ∈ t.children, c.isLeaf = true)) ∧
        (t.kind = "do_statement" → (t.childByField? "condition").isSome = true) := by
  simp only [wellShaped, Bool.and_eq_true, Bool.or_eq_true, bne_iff_ne, List.all_eq_true,
    decide_eq_true_eq, and_assoc, ne_eq]
  tauto

theorem runElse_builds (hk : l.kind = "else_clause") (hw : wellShaped l.node = true) :
    (if (l.children.map (partAt src)).length > 1 then
        runAll ((l.children.map (partAt src)).filter fun q => q.kind != "else") E
          else .ok { exits := E }) =
      runAll (l.children.map (partAt src)) E := by
  obtain ⟨-, -, helse, -⟩ := wellShaped_iff.mp hw
  obtain ⟨hword, hmany⟩ := helse hk
  refine runElse_eq (by rw [List.map_map]; exact List.map_id _) ?_ hword hmany
  intro q hq hleaf
  obtain ⟨c, -, rfl⟩ := List.mem_map.mp hq
  exact transfer_leaf hleaf

theorem runCase_builds (hk : l.kind = "case_statement")
    (h : runCase src l (l.children.map (partAt src)) E = .ok p) :
    Builds src l E p := by
  obtain ⟨v, body, hv, hbody, rfl⟩ := runCase_ok h
  rw [kinds_children, ← List.map_drop] at hbody
  refine .label hk (id_ofLocus hv) ?_ ?_ hbody
  · unfold caseExits
    split <;> rfl
  · unfold caseExits
    split <;> simp

theorem runIf_builds (hk : l.kind = "if_statement")
    (h : runIf src l (l.children.map (partAt src)) E = .ok p) :
    Builds src l E p := by
  obtain ⟨v, q, yes, no, hv, hq, hyes, hno, rfl⟩ := runIf_ok h
  obtain ⟨c, hc, rfl⟩ := partNamed_children hq
  refine .branch hk (id_ofLocus hv) hc hyes ?_
  unfold BuildsElse at hno
  split at hno
  · rename_i q' hq'
    obtain ⟨d, hd, rfl⟩ := find?_children_some hq'
    exact .inl ⟨d, hd, hno⟩
  · rename_i hnone
    exact .inr ⟨find?_children_none hnone, hno⟩

theorem runCountedLoop_builds (hk : isCountedLoop l.kind = true)
    (h : runCountedLoop src l (l.children.map (partAt src)) E = .ok p) : Builds src l E p := by
  obtain ⟨v, q, body, bs, cs, hv, hq, hbody, hbs, hcs, rfl⟩ := runCountedLoop_ok h
  obtain ⟨c, hc, rfl⟩ := partNamed_children hq
  exact .loop hk (id_ofLocus hv) hc hbody (ids_verticesOf hbs) (ids_verticesOf hcs)

theorem runSwitch_builds (hk : l.kind = "switch_statement")
    (h : runSwitch src l (l.children.map (partAt src)) E = .ok p) : Builds src l E p := by
  obtain ⟨v, hv, ⟨hnone, rfl⟩ | ⟨q, body, bs, hq, hbody, hbs, rfl⟩⟩ := runSwitch_ok h
  · exact .bare hk (id_ofLocus hv) (find?_children_none hnone)
  · obtain ⟨c, hc, rfl⟩ := partNamed_children hq
    exact .switch hk (id_ofLocus hv) hc hbody (ids_verticesOf hbs)

theorem runDo_builds (hk : l.kind = "do_statement")
    (h : runDo src (l.children.map (partAt src)) E = .ok p) :
    Builds src l E p := by
  obtain ⟨q, body, q', plain, bs, cs, hq, hbody, hq', hplain, hbs, hcs, rfl⟩ := runDo_ok h
  obtain ⟨c, hc, rfl⟩ := partNamed_children hq
  obtain ⟨d, hd, rfl⟩ := partNamed_children hq'
  refine .doLoop hk ?_ hc hbody (fun x => mem_ids_recordedJumps hbs) fun x =>
    mem_ids_recordedJumps hcs
  rw [conditionId?, childByField?_of_named hd, Option.map_some]
  exact congrArg some (id_ofLocus hplain).symm

/-- A node that is a leaf or that control does not come to leaves no trace. -/
theorem builds (hw : wellShaped l.node = true) (h : (partAt src l).run E = .ok p) :
    (l.node.isLeaf = true ∨ E = []) ∧ p = { exits := E } ∨
      l.node.isLeaf = false ∧ E ≠ [] ∧ Builds src l E p := by
  have hrun : runNode src l (l.children.map (partAt src)) E = .ok p := by
    rw [← transfer_eq_runNode]
    exact h
  obtain ⟨hfunction, hunit, -, -⟩ := wellShaped_iff.mp hw
  unfold runNode at hrun
  split at hrun
  · rename_i hdead
    cases hrun
    simp only [Bool.or_eq_true, List.isEmpty_iff] at hdead
    exact .inl ⟨hdead, rfl⟩
  rename_i hlive
  simp only [Bool.or_eq_true, List.isEmpty_iff, not_or, Bool.not_eq_true] at hlive
  refine .inr ⟨hlive.1, hlive.2, ?_⟩
  -- One case for each kind, in the order in which a node is told apart.
  split at hrun
  · rename_i hk
    exact absurd hk hfunction
  · rename_i hk
    exact .block hk hrun
  · rename_i hk
    rw [runElse_builds hk hw] at hrun
    exact .clause hk hrun
  · rename_i hk
    exact runIf_builds hk hrun
  · rename_i hk
    exact runCountedLoop_builds (by rw [hk]; rfl) hrun
  · rename_i hk
    exact runCountedLoop_builds (by rw [hk]; rfl) hrun
  · rename_i hk
    exact runDo_builds hk hrun
  · rename_i hk
    exact runSwitch_builds hk hrun
  · rename_i hk
    exact runCase_builds hk hrun
  · rename_i hk
    exact absurd hk hunit
  · rename_i h₁ h₂ h₃ h₄ h₅ h₆ h₇ h₈ h₉ h₁₀
    obtain ⟨v, hv, rfl⟩ := runSimple_ok hrun
    refine .simple ?_ (id_ofLocus hv)
    simp only [structuredKinds, List.mem_cons, List.not_mem_nil, not_or, or_false]
    exact ⟨h₁, h₂, h₃, h₄, h₅, h₆, h₇, h₈, h₉, h₁₀⟩

theorem run_nil (l : Locus) : (partAt src l).run [] = .ok {} := by
  rw [partAt, transfer_eq_runNode]
  simp [runNode]

/-! ### Statements inside -/

theorem inner_row (hk : t.kind = "compound_statement" ∨ t.kind = "else_clause") :
    inner t = t.children := by
  have hp : places t = (List.range t.children.length).drop 0 := by
    unfold places
    rcases hk with hk | hk <;> simp [hk]
  rw [inner, atPlaces, hp, filterMap_range_drop, List.drop_zero]

theorem inner_case (hk : t.kind = "case_statement") :
    inner t = t.children.drop (labelLength (t.children.map Tree.kind)) := by
  have hp :
      places t = (List.range t.children.length).drop (labelLength (t.children.map Tree.kind)) := by
    simp [places, hk]
  rw [inner, atPlaces, hp, filterMap_range_drop]

theorem places_body
    (hk : isLoop t.kind = true ∨ t.kind = "switch_statement" ∨ t.kind = "function_definition") :
    places t = (t.fieldIndex? "body").toList := by
  have hk : t.kind = "while_statement" ∨ t.kind = "for_statement" ∨ t.kind = "do_statement" ∨
      t.kind = "switch_statement" ∨ t.kind = "function_definition" := by
    simpa [isLoop, isCountedLoop, or_assoc] using hk
  unfold places
  rcases hk with hk | hk | hk | hk | hk <;> simp [hk]

theorem inner_body
    (hk : isLoop l.kind = true ∨ l.kind = "switch_statement" ∨ l.kind = "function_definition")
    (hc : Named l "body" c) : inner l.node = [c.node] := by
  obtain ⟨i, t, hi, ht, rfl⟩ := hc
  rw [inner, atPlaces, places_body hk, hi]
  simp [ht, Locus.child]

theorem places_if (hk : t.kind = "if_statement") :
    places t = (t.fieldIndex? "consequence").toList ++ (t.fieldIndex? "alternative").toList := by
  simp [places, hk]

theorem mem_inner_if (hk : l.kind = "if_statement") (hc : Named l name c)
    (hname : name = "consequence" ∨ name = "alternative") : c.node ∈ inner l.node := by
  obtain ⟨i, t, hi, ht, rfl⟩ := hc
  refine mem_inner.mpr ⟨i, ?_, ht⟩
  rw [places_if hk]
  rcases hname with rfl | rfl <;> simp [hi]

theorem places_simple (hk : t.kind ∉ structuredKinds) : places t = [] := by
  simp only [structuredKinds, List.mem_cons, List.not_mem_nil, not_or] at hk
  unfold places
  split <;> simp_all

/-! ### Entries -/

theorem entrance?_leaf (h : t.isLeaf = true) : entrance? src t = none := by
  rw [entrance?_eq, if_pos h]

theorem entrance?_row (hleaf : t.isLeaf = false)
    (hk : t.kind = "compound_statement" ∨ t.kind = "else_clause") :
    entrance? src t = firstEntrance? src t.children := by
  rw [entrance?_eq, hleaf, ← inner_row hk]
  rcases hk with hk | hk <;> simp [hk]

theorem entrance?_do (hleaf : t.isLeaf = false) (hk : t.kind = "do_statement") :
    entrance? src t = (firstEntrance? src (inner t)).or (conditionId? src t) := by
  rw [entrance?_eq, hleaf]
  simp [hk]

theorem entrance?_own (hleaf : t.isLeaf = false)
    (hk : t.kind ≠ "compound_statement" ∧ t.kind ≠ "else_clause" ∧ t.kind ≠ "do_statement") :
    entrance? src t = some (spanId src t) := by
  rw [entrance?_eq, hleaf]
  split <;> simp_all

/-- Control enters at the entrance, leaves no trace where there is none, and goes on after all that
lets waiting vertices pass by. -/
structure Enters (src : Source) (c : Locus) : Prop where
  silent : ∀ E p, entrance? src c.node = none → (partAt src c).run E = .ok p → p = { exits := E }
  starts : ∀ E p y, E ≠ [] → entrance? src c.node = some y → (partAt src c).run E = .ok p →
    (recordedIds p.records).head? = some y
  passes : ∀ E p, passesBy c.kind = true → E ≠ [] → (partAt src c).run E = .ok p → p.exits ≠ []

theorem firstEntrance?_cons :
    firstEntrance? src (t :: ts) = (entrance? src t).or (firstEntrance? src ts) := by
  rw [firstEntrance?, List.findSome?_cons]
  cases entrance? src t <;> rfl

theorem runAll_silent (hls : ∀ c ∈ ls, Enters src c)
    (hnone : firstEntrance? src (ls.map (·.node)) = none)
    (h : runAll (ls.map (partAt src)) E = .ok p) : p = { exits := E } := by
  induction ls generalizing E p with
  | nil =>
    cases h
    rfl
  | cons c rest ih =>
    rw [List.map_cons, firstEntrance?_cons, Option.or_eq_none_iff] at hnone
    obtain ⟨p₁, p₂, h₁, h₂, rfl⟩ := runAll_cons h
    obtain rfl := (hls c List.mem_cons_self).silent E p₁ hnone.1 h₁
    obtain rfl := ih (fun c hc => hls c (List.mem_cons_of_mem _ hc)) hnone.2 h₂
    rfl

theorem runAll_starts (hls : ∀ c ∈ ls, Enters src c) (hE : E ≠ [])
    (hsome : firstEntrance? src (ls.map (·.node)) = some y)
    (h : runAll (ls.map (partAt src)) E = .ok p) :
    (recordedIds p.records).head? = some y := by
  induction ls generalizing E p with
  | nil => cases hsome
  | cons c rest ih =>
    obtain ⟨p₁, p₂, h₁, h₂, rfl⟩ := runAll_cons h
    rw [List.map_cons, firstEntrance?_cons] at hsome
    rw [Piece.followedBy, recordedIds_append, List.head?_append]
    cases hentry : entrance? src c.node with
    | none =>
      rw [hentry, Option.none_or] at hsome
      obtain rfl := (hls c List.mem_cons_self).silent E p₁ hentry h₁
      exact ih (fun c hc => hls c (List.mem_cons_of_mem _ hc)) hE hsome h₂
    | some z =>
      rw [hentry, Option.some_or] at hsome
      rw [(hls c List.mem_cons_self).starts E p₁ z hE hentry h₁, ← hsome, Option.some_or]

/-- But for the edges of waiting vertices a block is the row of its members. -/
theorem runBlock_row (h : runBlock src rs pending qs E = .ok p) :
    ∃ p', runAll qs E = .ok p' ∧ p.exits = p'.exits ∧
    p.vertices = rs.map (·.vertex) ++ p'.vertices := by
  induction qs generalizing rs pending E with
  | nil =>
    cases h
    exact ⟨_, rfl, rfl, by simp [Piece.vertices]⟩
  | cons q qs ih =>
    obtain ⟨piece, found, hpiece, -, hrest⟩ := runBlock_cons h
    have hrow : ∃ p', runAll qs piece.exits = .ok p' ∧ p.exits = p'.exits ∧
        p.vertices = rs.map (·.vertex) ++ piece.vertices ++ p'.vertices := by
      rcases hrest with ⟨-, hrest⟩ | ⟨r, -, -, hrest⟩
      · simpa [Piece.vertices] using ih hrest
      · simpa [Piece.vertices] using ih hrest
    obtain ⟨p', hp', hexits, hvertices⟩ := hrow
    refine ⟨piece.followedBy p', ?_, hexits, ?_⟩
    · exact bind_eq_ok.mpr ⟨piece, hpiece, bind_eq_ok.mpr ⟨p', hp', rfl⟩⟩
    · rw [hvertices, List.append_assoc]
      simp [Piece.vertices, Piece.followedBy]

theorem runBlock_ids (h : runBlock src [] [] qs E = .ok p) :
    ∃ p', runAll qs E = .ok p' ∧ p.exits = p'.exits ∧
    recordedIds p.records = recordedIds p'.records := by
  obtain ⟨p', hp', hexits, hvertices⟩ := runBlock_row h
  refine ⟨p', hp', hexits, ?_⟩
  rw [recordedIds_piece, recordedIds_piece, hvertices, List.map_nil, List.nil_append]

/-- Nothing is recorded and the exits are those that enter. -/
theorem piece_eq (hexits : p.exits = E) (hids : recordedIds p.records = []) :
    p = { exits := E } := by
  obtain ⟨records, exits⟩ := p
  obtain rfl : records = [] := List.map_eq_nil_iff.mp hids
  cases hexits
  rfl

/-- The piece begins at the entrance, or it is nothing. -/
def BeginsAt (entrance : Option Int) (E : List Exit) (p : Piece) : Prop :=
  (entrance = none → p = { exits := E }) ∧ ∀ y, entrance = some y →
    (recordedIds p.records).head? = some y

theorem beginsAt_head (h : (recordedIds p.records).head? = some y) : BeginsAt (some y) E p := by
  refine ⟨nofun, ?_⟩
  rintro z ⟨⟩
  exact h

theorem beginsAt_row (hls : ∀ c ∈ ls, Enters src c) (hE : E ≠ [])
    (h : runAll (ls.map (partAt src)) E = .ok p) :
    BeginsAt (firstEntrance? src (ls.map (·.node))) E p :=
  ⟨fun hnone => runAll_silent hls hnone h, fun _ hsome => runAll_starts hls hE hsome h⟩

theorem BeginsAt.congr {p' : Piece} {entrance : Option Int} (h : BeginsAt entrance E p')
    (hexits : p.exits = p'.exits) (hids : recordedIds p.records = recordedIds p'.records) :
    BeginsAt entrance E p := by
  refine ⟨?_, ?_⟩
  · intro hnone
    obtain rfl := h.1 hnone
    exact piece_eq hexits hids
  · intro y hy
    rw [hids]
    exact h.2 y hy

theorem kinds_of_counted {kind : String} (h : isCountedLoop kind = true) :
    kind ≠ "compound_statement" ∧ kind ≠ "else_clause" ∧ kind ≠ "do_statement" := by
  have h : kind = "while_statement" ∨ kind = "for_statement" := by simpa [isCountedLoop] using h
  rcases h with rfl | rfl <;> decide

theorem isLoop_of_counted {kind : String} (h : isCountedLoop kind = true) : isLoop kind = true := by
  rw [isLoop, h, Bool.true_or]

theorem node_mem_row (hk : l.kind = "compound_statement" ∨ l.kind = "else_clause")
    (hc : c ∈ l.children) :
    c.node ∈ inner l.node := by
  rw [inner_row hk]
  exact node_mem_children hc

/-- Where a construct begins, from where the statements inside begin. -/
theorem Builds.beginsAt (h : Builds src l E p) (hleaf : l.node.isLeaf = false) (hE : E ≠ [])
    (hinner : ∀ c ∈ l.children, c.node ∈ inner l.node → Enters src c) :
    BeginsAt (entrance? src l.node) E p := by
  have hrow : l.kind = "compound_statement" ∨ l.kind = "else_clause" →
      ∀ c ∈ l.children, Enters src c :=
    fun hk c hc => hinner c hc (node_mem_row hk hc)
  have hown : l.kind ≠ "compound_statement" ∧ l.kind ≠ "else_clause" ∧ l.kind ≠ "do_statement" →
      ∀ v : Vertex, v.id = spanId src l.node → (recordedIds p.records).head? = some v.id →
        BeginsAt (entrance? src l.node) E p := by
    intro hk v hv hhead
    rw [entrance?_own hleaf hk, ← hv]
    exact beginsAt_head hhead
  cases h with
  | block hk h =>
    obtain ⟨p', hp', hexits, hids⟩ := runBlock_ids h
    rw [entrance?_row hleaf (.inl hk), ← map_node_children]
    exact (beginsAt_row (hrow (.inl hk)) hE hp').congr hexits hids
  | clause hk h =>
    rw [entrance?_row hleaf (.inr hk), ← map_node_children]
    exact beginsAt_row (hrow (.inr hk)) hE h
  | @branch v _ _ _ hk hv => exact hown (by simp [hk]) v hv rfl
  | @loop v _ _ _ _ hk hv => exact hown (kinds_of_counted hk) v hv rfl
  | @doLoop w c body bs cs hk hw hc hbody =>
    have hinner' : inner l.node = [c.node] := inner_body (.inl (by rw [hk]; rfl)) hc
    have hent : Enters src c := hinner c hc.mem (by rw [hinner']; exact List.mem_cons_self)
    have hids :
        recordedIds (Piece.repeated w { body with exits := body.exits ++ plainExits cs }).records =
        recordedIds body.records ++ [w.id] := recordedIds_repeated
    rw [entrance?_do hleaf hk, hinner', hw, firstEntrance?_cons]
    cases hentry : entrance? src c.node with
    | none =>
      obtain rfl := hent.silent E body hentry hbody
      exact beginsAt_head (by rw [hids]; rfl)
    | some y =>
      refine beginsAt_head ?_
      rw [hids, List.head?_append, hent.starts E body y hE hentry hbody, Option.some_or]
  | @bare v hk hv => exact hown (by simp [hk]) v hv rfl
  | @switch v _ _ _ hk hv => exact hown (by simp [hk]) v hv rfl
  | @label v _ _ _ hk hv => exact hown (by simp [hk]) v hv rfl
  | @simple v hk hv =>
    simp only [structuredKinds, List.mem_cons, not_or] at hk
    exact hown (by simp [hk]) v hv rfl

theorem Builds.exits_ne_nil (h : Builds src l E p) (hk : passesBy l.kind = true) :
    p.exits ≠ [] := by
  have hkind : l.kind = "while_statement" ∨ l.kind = "for_statement" ∨ l.kind = "do_statement" ∨
      l.kind = "\x7b" ∨ l.kind = "\x7d" := by
    simpa [passesBy, isLoop, isCountedLoop, hasKind, or_assoc] using hk
  cases h with
  | block hk' => simp [hk'] at hkind
  | clause hk' => simp [hk'] at hkind
  | branch hk' => simp [hk'] at hkind
  | loop => exact List.cons_ne_nil _ _
  | doLoop => exact List.cons_ne_nil _ _
  | bare hk' => simp [hk'] at hkind
  | switch hk' => simp [hk'] at hkind
  | label hk' => simp [hk'] at hkind
  | simple =>
    have hgo :
        hasKind ["return_statement", "break_statement", "continue_statement"] l.kind = false := by
      rcases hkind with hk | hk | hk | hk | hk <;> simp [hk, hasKind]
    simp [hgo]

theorem enters (l : Locus) : orderly l.node = true → Enters src l := by
  induction l using locus_induction with
  | step l ih =>
    intro ho
    obtain ⟨hw, hin⟩ := orderly_iff.mp ho
    have hinner : ∀ c ∈ l.children, c.node ∈ inner l.node → Enters src c :=
      fun c hc hmem => ih c hc ((orderlyInside_iff.mp hin).1 c.node hmem)
    refine ⟨?_, ?_, ?_⟩
    · intro E p hnone h
      rcases builds hw h with ⟨-, hp⟩ | ⟨hleaf, hE, hb⟩
      · exact hp
      · exact (hb.beginsAt hleaf hE hinner).1 hnone
    · intro E p y hE hsome h
      rcases builds hw h with ⟨hleaf | hnil, -⟩ | ⟨hleaf, -, hb⟩
      · rw [entrance?_leaf hleaf] at hsome
        cases hsome
      · exact absurd hnil hE
      · exact (hb.beginsAt hleaf hE hinner).2 y hsome
    · intro E p hk hE h
      rcases builds hw h with ⟨-, rfl⟩ | ⟨-, -, hb⟩
      · exact hE
      · exact hb.exits_ne_nil hk

end CrossCall.Flow

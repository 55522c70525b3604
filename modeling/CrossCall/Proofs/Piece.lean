import CrossCall.Proofs.StructuredFlow

/-! What each construct of control flow is built of: the pieces of its parts, the vertices that it
records beside them, and the edges that it files. -/
namespace CrossCall.Flow

variable {src : Source} {l : Locus} {v t : Vertex} {id x : Int} {e : Edge} {es : List Edge}
  {E X : List Exit} {rs rs₁ rs₂ : List Record} {r : Record} {vs pending : List Vertex}
  {p p₁ p₂ : Piece} {q : Part} {parts qs : List Part} {ls : List Locus}

/-! ### Records and their edges -/

/-- The numbers of the recorded vertices. -/
def recordedIds (rs : List Record) : List Int := rs.map (·.vertex.id)

/-- The edges of all records. -/
def filedEdges (rs : List Record) : List Edge := rs.flatMap (·.edges)

@[simp] theorem recordedIds_nil : recordedIds [] = [] := rfl

@[simp] theorem recordedIds_cons : recordedIds (r :: rs) = r.vertex.id :: recordedIds rs := rfl

@[simp] theorem recordedIds_append :
    recordedIds (rs₁ ++ rs₂) = recordedIds rs₁ ++ recordedIds rs₂ := List.map_append

@[simp] theorem filedEdges_nil : filedEdges [] = [] := rfl

@[simp] theorem filedEdges_cons : filedEdges (r :: rs) = r.edges ++ filedEdges rs :=
  List.flatMap_cons

@[simp] theorem filedEdges_append : filedEdges (rs₁ ++ rs₂) = filedEdges rs₁ ++ filedEdges rs₂ :=
  List.flatMap_append

theorem mem_edgesTo : e ∈ edgesTo t X ↔ ∃ x ∈ X, edgeTo t x = e := List.mem_map

@[simp] theorem edgesTo_append {Y : List Exit} : edgesTo t (X ++ Y) = edgesTo t X ++ edgesTo t Y :=
  List.map_append

@[simp] theorem vertices_fileEdges : (fileEdges id es rs).map (·.vertex) = rs.map (·.vertex) := by
  induction rs with
  | nil => rfl
  | cons r rest ih =>
    unfold fileEdges
    split
    · rfl
    · rw [List.map_cons, ih, List.map_cons]

theorem recordedIds_eq : recordedIds rs = (rs.map (·.vertex)).map (·.id) := by
  rw [List.map_map]
  rfl

theorem recordedIds_piece (p : Piece) : recordedIds p.records = p.vertices.map (·.id) :=
  recordedIds_eq

@[simp] theorem recordedIds_fileEdges : recordedIds (fileEdges id es rs) = recordedIds rs := by
  rw [recordedIds_eq, vertices_fileEdges, recordedIds_eq]

/-- Edges are filed only where the number is recorded. -/
theorem mem_filedEdges_fileEdges :
    e ∈ filedEdges (fileEdges id es rs) ↔ e ∈ filedEdges rs ∨ e ∈ es ∧ id ∈ recordedIds rs := by
  induction rs with
  | nil => simp [fileEdges]
  | cons r rest ih =>
    unfold fileEdges
    split
    · rename_i heq
      simp only [filedEdges_cons, recordedIds_cons, List.mem_append, heq, List.mem_cons, true_or,
        and_true]
      tauto
    · rename_i hne
      simp only [filedEdges_cons, recordedIds_cons, List.mem_append, ih, List.mem_cons, Ne.symm hne,
        false_or]
      tauto

/-! ### The graph of records -/

theorem edges_graphOf_eq (rs : List Record) : (graphOf rs).edges = filedEdges rs := edges_graphOf rs

theorem mem_ids_graphOf : x ∈ (graphOf rs).ids ↔ x ∈ recordedIds rs := by
  suffices hs : ∀ g : Graph,
      x ∈ (rs.foldl (fun g r => { g.addVertex r.vertex with edges := g.edges ++ r.edges }) g).ids ↔
        x ∈ g.ids ∨ x ∈ recordedIds rs from
    (hs {}).trans (or_iff_right (by simp [Graph.ids]))
  induction rs with
  | nil => simp
  | cons r rest ih =>
    intro g
    have hadd : x ∈ ({ g.addVertex r.vertex with edges := g.edges ++ r.edges } : Graph).ids ↔
        x ∈ g.ids ∨ x = r.vertex.id := Graph.mem_ids_addVertex
    rw [List.foldl_cons, ih, hadd, recordedIds_cons, List.mem_cons, or_assoc]

/-! ### Waiting vertices -/

/-- Files an edge to a vertex under each of the vertices that wait for it. -/
def deliver (t : Vertex) (pending : List Vertex) (rs : List Record) : List Record :=
  pending.foldl (fun rs v => fileEdges v.id [edgeTo t { vertex := v }] rs) rs

@[simp] theorem vertices_deliver : (deliver t pending rs).map (·.vertex) = rs.map (·.vertex) := by
  induction pending generalizing rs with
  | nil => rfl
  | cons v rest ih => rw [deliver, List.foldl_cons, ← deliver, ih, vertices_fileEdges]

@[simp] theorem recordedIds_deliver : recordedIds (deliver t pending rs) = recordedIds rs := by
  rw [recordedIds_eq, vertices_deliver, recordedIds_eq]

theorem mem_filedEdges_deliver : e ∈ filedEdges (deliver t pending rs) ↔
    e ∈ filedEdges rs ∨ ∃ v ∈ pending, v.id ∈ recordedIds rs ∧ e = edgeTo t { vertex := v } := by
  induction pending generalizing rs with
  | nil => simp [deliver]
  | cons v rest ih =>
    rw [deliver, List.foldl_cons, ← deliver, ih, mem_filedEdges_fileEdges]
    simp only [recordedIds_fileEdges, List.mem_cons, exists_eq_or_imp]
    tauto

/-! ### Jumps -/

theorem id_ofLocus (h : Vertex.ofLocus src l = .ok v) : v.id = spanId src l.node := by
  obtain ⟨text, -, h⟩ := bind_eq_ok.mp h
  obtain ⟨e, -, h⟩ := bind_eq_ok.mp h
  cases h
  rfl

theorem mem_verticesOf (h : verticesOf src ls = .ok vs) :
    v ∈ vs ↔ ∃ j ∈ ls, Vertex.ofLocus src j = .ok v := by
  induction ls generalizing vs with
  | nil =>
    cases h
    simp
  | cons j rest ih =>
    rw [verticesOf, List.mapM_cons] at h
    obtain ⟨w, hw, h⟩ := bind_eq_ok.mp h
    obtain ⟨ws, hws, h⟩ := bind_eq_ok.mp h
    cases h
    rw [List.mem_cons, ih hws, eq_comm]
    simp only [List.mem_cons, exists_eq_or_imp, hw, Except.ok.injEq]

theorem ids_verticesOf (h : verticesOf src ls = .ok vs) :
    vs.map (·.id) = ls.map fun j => spanId src j.node := by
  induction ls generalizing vs with
  | nil =>
    cases h
    rfl
  | cons j rest ih =>
    rw [verticesOf, List.mapM_cons] at h
    obtain ⟨w, hw, h⟩ := bind_eq_ok.mp h
    obtain ⟨ws, hws, h⟩ := bind_eq_ok.mp h
    cases h
    rw [List.map_cons, List.map_cons, ih hws, id_ofLocus hw]

theorem lastRecorded?_id (h : lastRecorded? rs x = some v) : v.id = x ∧ x ∈ recordedIds rs := by
  obtain ⟨r, hr, rfl⟩ := Option.map_eq_some_iff.mp h
  have heq : r.vertex.id = x := by simpa using List.find?_some hr
  have hmem : r ∈ rs := List.mem_reverse.mp (List.mem_of_find?_eq_some hr)
  exact ⟨heq, List.mem_map.mpr ⟨r, hmem, heq⟩⟩

theorem exists_lastRecorded? (h : x ∈ recordedIds rs) : ∃ v, lastRecorded? rs x = some v := by
  obtain ⟨r, hr, rfl⟩ := List.mem_map.mp h
  unfold lastRecorded?
  cases hf : rs.reverse.find? fun r' => r'.vertex.id == r.vertex.id with
  | none => exact absurd (List.find?_eq_none.mp hf r (List.mem_reverse.mpr hr)) (by simp)
  | some r' => exact ⟨r'.vertex, rfl⟩

/-- The jumps that are found again are those whose numbers are recorded. -/
theorem mem_ids_recordedJumps (h : recordedJumps src rs ls = .ok vs) :
    x ∈ vs.map (·.id) ↔ x ∈ (ls.map fun j => spanId src j.node) ∧ x ∈ recordedIds rs := by
  obtain ⟨ws, hws, h⟩ := bind_eq_ok.mp h
  cases h
  rw [← ids_verticesOf hws]
  simp only [List.mem_map, List.mem_filterMap]
  constructor
  · rintro ⟨v, ⟨w, hw, hv⟩, rfl⟩
    obtain ⟨heq, hmem⟩ := lastRecorded?_id hv
    exact ⟨⟨w, hw, heq.symm⟩, heq ▸ hmem⟩
  · rintro ⟨⟨w, hw, rfl⟩, hmem⟩
    obtain ⟨v, hv⟩ := exists_lastRecorded? hmem
    exact ⟨v, ⟨w, hw, hv⟩, (lastRecorded?_id hv).1⟩

/-! ### What the constructs build -/

/-- The exits of plain vertices. -/
def plainExits (vs : List Vertex) : List Exit := vs.map fun v => { vertex := v }

theorem runAll_cons (h : runAll (q :: qs) E = .ok p) :
    ∃ p₁ p₂, q.run E = .ok p₁ ∧ runAll qs p₁.exits = .ok p₂ ∧ p = p₁.followedBy p₂ := by
  obtain ⟨p₁, h₁, h⟩ := bind_eq_ok.mp h
  obtain ⟨p₂, h₂, h⟩ := bind_eq_ok.mp h
  cases h
  exact ⟨p₁, p₂, h₁, h₂, rfl⟩

/-- Members of a block at which no vertex stops waiting, whatever they record. -/
def passesBy (kind : String) : Bool := isLoop kind || hasKind ["\x7b", "\x7d"] kind

/-- The vertices of the breaks that a member of a block leaves waiting. -/
def leavesWaiting (src : Source) (q : Part) : Except Fault (List Vertex) :=
  if isLoop q.kind then verticesOf src (breaksBelow q.locus) else pure []

theorem ite_bind_eq_ok {ε α β : Type} {c : Prop} [Decidable c] {a a' : Except ε α}
    {k : α → Except ε β} {b : β} (h : (if c then a >>= k else a' >>= k) = .ok b) :
    ∃ r, (if c then a else a') = .ok r ∧ k r = .ok b := by
  refine bind_eq_ok.mp ?_
  split at h
  · rename_i hc
    rwa [if_pos hc]
  · rename_i hc
    rwa [if_neg hc]

/-- After a member of a block its vertices wait on, or they are led to the first visible vertex of
the member. -/
theorem runBlock_cons (h : runBlock src rs pending (q :: qs) E = .ok p) :
    ∃ piece found, q.run E = .ok piece ∧ leavesWaiting src q = .ok found ∧
      ((pending ++ found = [] ∨ passesBy q.kind = true ∨
        (piece.records.find? fun r => isVisible r.vertex) = none) ∧
          runBlock src (rs ++ piece.records) (pending ++ found) qs piece.exits = .ok p ∨
        ∃ r, passesBy q.kind = false ∧ (piece.records.find? fun r => isVisible r.vertex) = some r ∧
          runBlock src (deliver r.vertex (pending ++ found) (rs ++ piece.records)) [] qs
          piece.exits = .ok p) := by
  rw [runBlock] at h
  obtain ⟨piece, hpiece, h⟩ := bind_eq_ok.mp h
  dsimp only at h
  obtain ⟨found, hfound, h⟩ := ite_bind_eq_ok h
  refine ⟨piece, found, hpiece, hfound, ?_⟩
  split at h
  · rename_i hwait
    refine .inl ⟨?_, h⟩
    simp only [Bool.or_eq_true, List.isEmpty_iff, or_assoc] at hwait
    rcases hwait with hnil | hkind
    · exact .inl hnil
    · exact .inr (.inl (by rwa [passesBy, Bool.or_eq_true]))
  · rename_i hgo
    have hpass : passesBy q.kind = false := by
      simp only [Bool.or_eq_true, not_or, Bool.not_eq_true] at hgo
      rw [passesBy, Bool.or_eq_false_iff]
      exact ⟨hgo.1.2, hgo.2⟩
    split at h
    · rename_i hnone
      exact .inl ⟨.inr (.inr hnone), h⟩
    · rename_i r hr
      exact .inr ⟨r, hpass, hr, h⟩

theorem runSimple_ok (h : runSimple src l E = .ok p) : ∃ v, Vertex.ofLocus src l = .ok v ∧
    p = ⟨[⟨v, edgesTo v E⟩],
      if hasKind ["return_statement", "break_statement", "continue_statement"] l.kind then []
      else [{ vertex := v }]⟩ := by
  obtain ⟨v, hv, h⟩ := bind_eq_ok.mp h
  cases h
  exact ⟨v, hv, rfl⟩

/-- The part for the alternative, if there is one, has built its piece; otherwise the exit goes
past. -/
def BuildsElse (parts : List Part) (e : Exit) (no : Piece) : Prop :=
  match parts.find? fun q => q.locus.node.field == some "alternative" with
  | some q => q.run [e] = .ok no
  | none => no = { exits := [e] }

theorem runIf_ok (h : runIf src l parts E = .ok p) : ∃ v q yes no, Vertex.ofLocus src l = .ok v ∧
    partNamed parts "consequence" = .ok q ∧ q.run [⟨v, "Y"⟩] = .ok yes ∧
    BuildsElse parts ⟨v, "N"⟩ no ∧
      p = .forked v E yes no := by
  obtain ⟨v, hv, h⟩ := bind_eq_ok.mp h
  obtain ⟨q, hq, h⟩ := bind_eq_ok.mp h
  obtain ⟨yes, hyes, h⟩ := bind_eq_ok.mp h
  split at h
  · rename_i q' hq'
    obtain ⟨no, hno, h⟩ := bind_eq_ok.mp h
    cases h
    exact ⟨v, q, yes, no, hv, hq, hyes, by rwa [BuildsElse, hq'], rfl⟩
  · rename_i hnone
    cases h
    exact ⟨v, q, yes, _, hv, hq, hyes, by rw [BuildsElse, hnone], rfl⟩

/-- The ways back to the head of a counted loop: the body's exits but the breaks, and the
continues. -/
def waysBack (body : Piece) (breaks continues : List Vertex) : List Exit :=
  (body.exits.filter fun e => !(breaks.map (·.id)).contains e.vertex.id) ++ plainExits continues

theorem runCountedLoop_ok (h : runCountedLoop src l parts E = .ok p) : ∃ v q body bs cs,
    Vertex.ofLocus src l = .ok v ∧ partNamed parts "body" = .ok q ∧ q.run [⟨v, "Y"⟩] = .ok body ∧
      verticesOf src (breaksBelow l) = .ok bs ∧ verticesOf src (continuesBelow l) = .ok cs ∧
        p = .looped v E { body with exits := waysBack body bs cs } := by
  obtain ⟨v, hv, h⟩ := bind_eq_ok.mp h
  obtain ⟨q, hq, h⟩ := bind_eq_ok.mp h
  obtain ⟨body, hbody, h⟩ := bind_eq_ok.mp h
  obtain ⟨bs, hbs, h⟩ := bind_eq_ok.mp h
  obtain ⟨cs, hcs, h⟩ := bind_eq_ok.mp h
  cases h
  exact ⟨v, q, body, bs, cs, hv, hq, hbody, hbs, hcs, by
    simp [Piece.looped, fileEdges, waysBack, plainExits]⟩

/-- The vertex of the condition of a do loop, from that of the expression. -/
def conditionOf (plain : Vertex) : Vertex :=
  { plain with text := "while (" ++ plain.text ++ ")", branch := true }

theorem runDo_ok (h : runDo src parts E = .ok p) : ∃ q body c plain bs cs,
    partNamed parts "body" = .ok q ∧ q.run E = .ok body ∧ partNamed parts "condition" = .ok c ∧
      Vertex.ofLocus src c.locus = .ok plain ∧
      recordedJumps src body.records (breaksBelow q.locus) = .ok bs ∧
        recordedJumps src body.records (continuesBelow q.locus) = .ok cs ∧
        p = { Piece.repeated (conditionOf plain)
            { body with exits := body.exits ++ plainExits cs } with
          exits := ⟨conditionOf plain, "N"⟩ :: plainExits bs } := by
  obtain ⟨q, hq, h⟩ := bind_eq_ok.mp h
  obtain ⟨body, hbody, h⟩ := bind_eq_ok.mp h
  obtain ⟨c, hc, h⟩ := bind_eq_ok.mp h
  obtain ⟨plain, hplain, h⟩ := bind_eq_ok.mp h
  obtain ⟨bs, hbs, h⟩ := bind_eq_ok.mp h
  obtain ⟨cs, hcs, h⟩ := bind_eq_ok.mp h
  cases h
  refine ⟨q, body, c, plain, bs, cs, hq, hbody, hc, hplain, hbs, hcs, ?_⟩
  unfold Piece.repeated
  cases hr : body.records <;> simp [withBack, fileEdges, edgesTo, plainExits, conditionOf]

theorem recordedIds_repeated {c : Vertex} :
    recordedIds (Piece.repeated c p).records = recordedIds p.records ++ [c.id] := by
  rw [recordedIds_piece, vertices_repeated, List.map_append, recordedIds_piece]
  rfl

/-- Beside its edges a repeated piece has those to the condition and one from there to its first
vertex. -/
theorem mem_filedEdges_repeated {c : Vertex} : e ∈ filedEdges (Piece.repeated c p).records ↔
    e ∈ filedEdges p.records ∨ e ∈ edgesTo c p.exits ∨
      ∃ w, (p.vertices ++ [c]).head? = some w ∧ e = edgeTo w ⟨c, "Y"⟩ := by
  unfold Piece.repeated Piece.vertices
  cases p.records with
  | nil => simp [withBack, edgesTo]
  | cons r rest =>
    simp only [withBack, edgesTo, List.cons_append, filedEdges_cons, filedEdges_append,
      filedEdges_nil, List.map_cons, List.map_nil, List.append_nil, List.mem_append,
      List.mem_singleton, List.head?_cons, Option.some.injEq, exists_eq_left']
    tauto

/-- A head that leads into a body without a label. -/
def Piece.headed (v : Vertex) (entries : List Exit) (body : Piece) : Piece :=
  { body with records := ⟨v, edgesTo v entries⟩ :: body.records }

theorem runSwitch_ok (h : runSwitch src l parts E = .ok p) : ∃ v, Vertex.ofLocus src l = .ok v ∧
    ((parts.find? fun q => q.locus.node.field == some "body") = none ∧
      p = ⟨[⟨v, edgesTo v E⟩], [{ vertex := v }]⟩ ∨
      ∃ q body bs, partNamed parts "body" = .ok q ∧ q.run [{ vertex := v }] = .ok body ∧
        verticesOf src (breaksBelow l) = .ok bs ∧
          p = .headed v E { body with exits := body.exits ++ plainExits bs }) := by
  obtain ⟨v, hv, h⟩ := bind_eq_ok.mp h
  refine ⟨v, hv, ?_⟩
  split at h
  · rename_i hnone
    cases h
    exact .inl ⟨hnone, rfl⟩
  · rename_i q hq
    obtain ⟨body, hbody, h⟩ := bind_eq_ok.mp h
    obtain ⟨bs, hbs, h⟩ := bind_eq_ok.mp h
    cases h
    exact .inr ⟨q, body, bs, partNamed_eq_ok.mpr hq, hbody, hbs, rfl⟩

/-- How many children of a case stand before its statements: its word, a value and a colon, or a
word and a colon. -/
def labelLength (kinds : List String) : Nat := if kinds.head? = some "case" then 3 else 2

/-- How the statements of a case are entered, and how the case is passed over. -/
def caseExits (kinds : List String) (v : Vertex) : Exit × List Exit :=
  if kinds.head? = some "case" then (⟨v, "Y"⟩, [⟨v, "N"⟩]) else ({ vertex := v }, [])

theorem runCase_ok (h : runCase src l parts E = .ok p) :
    ∃ v body, Vertex.ofLocus src l = .ok v ∧
      runAll (parts.drop (labelLength (parts.map Part.kind)))
        [(caseExits (parts.map Part.kind) v).1] = .ok body ∧
      p = .headed v E { body with
        exits := body.exits ++ (caseExits (parts.map Part.kind) v).2 } := by
  obtain ⟨v, hv, h⟩ := bind_eq_ok.mp h
  have hhead : (parts.map Part.kind).head? = parts.head?.map Part.kind := by cases parts <;> rfl
  unfold labelLength caseExits
  rw [hhead]
  split at h
  · rename_i hk
    have hk : parts.head?.map Part.kind = some "case" := by simpa using hk
    obtain ⟨body, hbody, h⟩ := bind_eq_ok.mp h
    cases h
    exact ⟨v, body, hv, by simpa [hk] using hbody, by simp [hk, Piece.headed]⟩
  · rename_i hk
    have hk : parts.head?.map Part.kind ≠ some "case" := by simpa using hk
    obtain ⟨body, hbody, h⟩ := bind_eq_ok.mp h
    cases h
    exact ⟨v, body, hv, by simpa [hk] using hbody, by simp [hk, Piece.headed]⟩

/-! ### Nodes and their children -/

/-- A position with its meaning. -/
def partAt (src : Source) (c : Locus) : Part := ⟨c, transfer src c.above c.node⟩

theorem transferAll_eq {parent : Tree} {above : List (Tree × Nat)} (cs : List Tree) (i : Nat) :
    transferAll src parent above i cs =
    (cs.mapIdx fun j c => ⟨c, (parent, j + i) :: above⟩).map (partAt src) := by
  induction cs generalizing i with
  | nil => rfl
  | cons c rest ih =>
    rw [transferAll, ih, List.mapIdx_cons, List.map_cons]
    simp [partAt, Nat.add_assoc, Nat.add_comm 1 i]

theorem parts_eq (l : Locus) :
    transferAll src l.node l.above 0 l.node.children = l.children.map (partAt src) :=
  transferAll_eq _ 0

theorem transfer_eq_runNode (l : Locus) :
    transfer src l.above l.node = runNode src l (l.children.map (partAt src)) := by
  rw [transfer_eq, parts_eq]

/-- What holds of a position if it holds of the children holds of all positions. -/
theorem locus_induction {P : Locus → Prop} (step : ∀ l : Locus, (∀ c ∈ l.children, P c) → P l) :
    ∀ l, P l := by
  suffices hs : ∀ (n : Nat) (l : Locus), sizeOf l.node < n →
      P l from fun l => hs _ l (Nat.lt_succ_self _)
  intro n
  induction n with
  | zero => exact fun l hl => absurd hl (Nat.not_lt_zero _)
  | succ n ih =>
    intro l hl
    refine step l fun c hc => ih c ?_
    have hsize : sizeOf c.node < sizeOf l.node := by
      have hmem := List.sizeOf_lt_of_mem (node_mem_children hc)
      obtain ⟨⟨k, a, b, f, cs⟩, above⟩ := l
      simp only [Tree.children] at hmem
      simp only [Tree.node.sizeOf_spec]
      omega
    omega

end CrossCall.Flow

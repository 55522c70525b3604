import CrossCall.Flow.Bench
import CrossCall.Proofs.Piece

/-! Where the edges of a control-flow graph begin and end. All of them end at vertices of the graph.
They begin there too, unless a while or for loop claims a continue, or a switch a break, that
control never comes to. -/
namespace CrossCall.Flow

variable {src : Source} {l a : Locus} {v s : Vertex} {label : String} {e : Edge} {E X : List Exit}
  {ids : List Int} {rs : List Record} {pending vs : List Vertex} {p p₁ p₂ body : Piece} {q : Part}
  {parts : List Part} {stray stray' : Vertex → Prop} {P P' Q Q' : Vertex → Prop} {g : Graph}

/-! ### Pieces -/

/-- The edge has both ends, one of each sort. -/
def Edge.Joining (P Q : Vertex → Prop) (e : Edge) : Prop :=
  ∃ s t, e.source = some s ∧ e.target = some t ∧ P s ∧ Q t

/-- A vertex that is numbered, enters a piece or is a stray. -/
def Known (stray : Vertex → Prop) (entries : List Exit) (ids : List Int) (v : Vertex) : Prop :=
  v.id ∈ ids ∨ Open entries v ∨ stray v

/-- The edges of a piece lead from known vertices to recorded ones, and its exits are known. -/
structure Closed (stray : Vertex → Prop) (entries : List Exit) (p : Piece) : Prop where
  edges : ∀ e ∈ filedEdges p.records,
    e.Joining (Known stray entries (recordedIds p.records)) fun t => t.id ∈ recordedIds p.records
  exits : ∀ a, Open p.exits a → Known stray entries (recordedIds p.records) a

theorem Edge.Joining.mono (h : e.Joining P Q) (hP : ∀ v, P v → P' v) (hQ : ∀ v, Q v → Q' v) :
    e.Joining P' Q' := by
  obtain ⟨s, t, hs, ht, hps, hqt⟩ := h
  exact ⟨s, t, hs, ht, hP s hps, hQ t hqt⟩

theorem joining_edgesTo (h : e ∈ edgesTo v X) (hX : ∀ a, Open X a → P a) (hv : Q v) :
    e.Joining P Q := by
  obtain ⟨x, hx, rfl⟩ := mem_edgesTo.mp h
  exact ⟨x.vertex, v, rfl, rfl, hX _ ⟨x, hx, rfl⟩, hv⟩

theorem open_plainExits {b : Vertex} : Open (plainExits vs) b ↔ b ∈ vs := by
  simp [Open, plainExits]

namespace Closed

theorem mono (h : Closed stray E p) (hs : ∀ s, stray s → stray' s) : Closed stray' E p := by
  have hknown : ∀ v, Known stray E (recordedIds p.records) v →
      Known stray' E (recordedIds p.records) v := by
    rintro v (hv | hv | hv)
    · exact .inl hv
    · exact .inr (.inl hv)
    · exact .inr (.inr (hs v hv))
  exact ⟨fun e he => (h.edges e he).mono hknown fun _ ht => ht, fun a ha => hknown a (h.exits a ha)⟩

theorem pass : Closed stray E { exits := E } := ⟨by simp, fun _ ha => .inr (.inl ha)⟩

/-- Inside a larger piece that knows its entries, all of a piece stays known. -/
theorem inside (h : Closed stray X p) (hids : ∀ x ∈ recordedIds p.records, x ∈ ids)
    (hX : ∀ a, Open X a → Known stray E ids a) :
    (∀ e ∈ filedEdges p.records, e.Joining (Known stray E ids) fun t => t.id ∈ ids) ∧
      ∀ a, Open p.exits a → Known stray E ids a := by
  have hknown : ∀ v, Known stray X (recordedIds p.records) v → Known stray E ids v := by
    rintro v (hv | hv | hv)
    · exact .inl (hids _ hv)
    · exact hX v hv
    · exact .inr (.inr hv)
  exact ⟨fun e he => (h.edges e he).mono hknown fun t ht => hids _ ht,
    fun a ha => hknown a (h.exits a ha)⟩

/-- Entered from a head that is numbered. -/
theorem below (h : Closed stray [⟨v, label⟩] p) (hv : v.id ∈ ids)
    (hids : ∀ x ∈ recordedIds p.records, x ∈ ids) :
    (∀ e ∈ filedEdges p.records, e.Joining (Known stray E ids) fun t => t.id ∈ ids) ∧
      ∀ a, Open p.exits a → Known stray E ids a := by
  apply h.inside hids
  intro a ha
  rw [open_singleton.mp ha]
  exact .inl hv

theorem seq (h₁ : Closed stray E p₁) (h₂ : Closed stray p₁.exits p₂) :
    Closed stray E (p₁.followedBy p₂) := by
  have hleft : ∀ x ∈ recordedIds p₁.records, x ∈ recordedIds (p₁.followedBy p₂).records := by
    intro x hx
    rw [Piece.followedBy, recordedIds_append]
    exact List.mem_append_left _ hx
  have hright : ∀ x ∈ recordedIds p₂.records, x ∈ recordedIds (p₁.followedBy p₂).records := by
    intro x hx
    rw [Piece.followedBy, recordedIds_append]
    exact List.mem_append_right _ hx
  obtain ⟨hedges₁, hexits₁⟩ := h₁.inside hleft fun a ha => .inr (.inl ha)
  obtain ⟨hedges₂, hexits₂⟩ := h₂.inside hright hexits₁
  refine ⟨?_, hexits₂⟩
  intro e he
  rw [Piece.followedBy, filedEdges_append, List.mem_append] at he
  rcases he with he | he
  · exact hedges₁ e he
  · exact hedges₂ e he

/-- An edge is filed under a waiting vertex only if that one is recorded. -/
theorem deliver (h : Closed stray E ⟨rs, X⟩) (hv : v.id ∈ recordedIds rs) :
    Closed stray E ⟨deliver v pending rs, X⟩ := by
  refine ⟨?_, by simpa using h.exits⟩
  intro e he
  rw [recordedIds_deliver]
  rcases mem_filedEdges_deliver.mp he with he | ⟨w, -, hw, rfl⟩
  · exact h.edges e he
  · exact ⟨w, v, rfl, rfl, .inl hw, hv⟩

theorem single (hX : ∀ a, Open X a → a = v) : Closed stray E ⟨[⟨v, edgesTo v E⟩], X⟩ := by
  have hv : v.id ∈ recordedIds [(⟨v, edgesTo v E⟩ : Record)] := by simp
  refine ⟨?_, fun a ha => .inl (hX a ha ▸ hv)⟩
  intro e he
  rw [filedEdges_cons, filedEdges_nil, List.append_nil] at he
  exact joining_edgesTo he (fun a ha => .inr (.inl ha)) hv

theorem forked (h₁ : Closed stray [⟨v, "Y"⟩] p₁) (h₂ : Closed stray [⟨v, "N"⟩] p₂) :
    Closed stray E (.forked v E p₁ p₂) := by
  have hids : recordedIds (Piece.forked v E p₁ p₂).records =
      v.id :: (recordedIds p₁.records ++ recordedIds p₂.records) := by simp [Piece.forked]
  have hv : v.id ∈ recordedIds (Piece.forked v E p₁ p₂).records := by simp [hids]
  obtain ⟨hedges₁, hexits₁⟩ := @below _ _ E _ p₁ stray h₁ hv (by simp [hids]; tauto)
  obtain ⟨hedges₂, hexits₂⟩ := @below _ _ E _ p₂ stray h₂ hv (by simp [hids]; tauto)
  refine ⟨?_, ?_⟩
  · intro e he
    simp only [Piece.forked, filedEdges_cons, filedEdges_append, List.mem_append] at he
    rcases he with he | he | he
    · exact joining_edgesTo he (fun a ha => .inr (.inl ha)) hv
    · exact hedges₁ e he
    · exact hedges₂ e he
  · intro a ha
    rcases open_append.mp ha with ha | ha
    · exact hexits₁ a ha
    · exact hexits₂ a ha

/-- A head before a body, with whatever further edges to the head and exits are known. -/
theorem headed (h : Closed stray [⟨v, label⟩] body)
    (hX : ∀ a, Open X a → Open body.exits a ∨ a = v ∨ stray a)
    (hedges : ∀ e ∈ filedEdges rs, e ∈ filedEdges body.records ∨ e ∈ edgesTo v E ∨
      ∃ Y, e ∈ edgesTo v Y ∧ ∀ a, Open Y a → Open body.exits a ∨ stray a)
    (hids : recordedIds rs = v.id :: recordedIds body.records) : Closed stray E ⟨rs, X⟩ := by
  have hv : v.id ∈ recordedIds rs := by simp [hids]
  obtain ⟨hin, hout⟩ := @below _ _ E _ body stray h hv (by simp [hids]; tauto)
  refine ⟨?_, ?_⟩
  · intro e he
    rcases hedges e he with he | he | ⟨Y, he, hY⟩
    · exact hin e he
    · exact joining_edgesTo he (fun a ha => .inr (.inl ha)) hv
    · refine joining_edgesTo he ?_ hv
      intro a ha
      rcases hY a ha with ha | ha
      · exact hout a ha
      · exact .inr (.inr ha)
  · intro a ha
    rcases hX a ha with ha | rfl | ha
    · exact hout a ha
    · exact .inl hv
    · exact .inr (.inr ha)

/-- A condition after a body, with jumps of the body that are recorded. -/
theorem repeated {c : Vertex} {breaks continues : List Vertex} (h : Closed stray E body)
    (hb : ∀ b ∈ breaks, b.id ∈ recordedIds body.records)
    (hc : ∀ b ∈ continues, b.id ∈ recordedIds body.records) :
    Closed stray E { Piece.repeated c { body with exits := body.exits ++ plainExits continues } with
      exits := ⟨c, "N"⟩ :: plainExits breaks } := by
  have hids : recordedIds
      (Piece.repeated c { body with exits := body.exits ++ plainExits continues }).records =
      recordedIds body.records ++ [c.id] := recordedIds_repeated
  have hsub : ∀ x ∈ recordedIds body.records, x ∈ recordedIds body.records ++ [c.id] :=
    fun x hx => List.mem_append_left _ hx
  have hv : c.id ∈ recordedIds body.records ++ [c.id] := by simp
  obtain ⟨hin, hout⟩ := h.inside hsub fun a ha => .inr (.inl ha)
  refine ⟨?_, ?_⟩
  · intro e he
    rw [hids]
    rcases mem_filedEdges_repeated.mp he with he | he | ⟨w, hw, rfl⟩
    · exact hin e he
    · refine joining_edgesTo he ?_ hv
      intro a ha
      rcases open_append.mp ha with ha | ha
      · exact hout a ha
      · exact .inl (hsub _ (hc a (open_plainExits.mp ha)))
    · refine ⟨c, w, rfl, rfl, .inl hv, ?_⟩
      have hmem := List.mem_map_of_mem (f := (·.id)) (List.mem_of_head? hw)
      rw [List.map_append, Piece.vertices, ← recordedIds_eq] at hmem
      exact hmem
  · intro a ha
    rw [hids]
    rw [← List.singleton_append, open_append, open_singleton, open_plainExits] at ha
    rcases ha with rfl | ha
    · exact .inl hv
    · exact .inl (hsub _ (hb a ha))

end Closed

/-! ### Constructs -/

section Constructs

variable (hparts : ∀ q ∈ parts, ∀ E p, q.run E = .ok p → Closed stray E p)

include hparts

theorem runAll_closed (h : runAll parts E = .ok p) : Closed stray E p := by
  induction parts generalizing E p with
  | nil =>
    cases h
    exact .pass
  | cons q qs ih =>
    obtain ⟨p₁, p₂, h₁, h₂, rfl⟩ := runAll_cons h
    have hqs : ∀ q ∈ qs, ∀ E p, q.run E = .ok p → Closed stray E p :=
      fun q hq => hparts q (List.mem_cons_of_mem _ hq)
    exact .seq (hparts q List.mem_cons_self E p₁ h₁) (ih hqs h₂)

/-- What a block has built so far is closed, and each member keeps it so. -/
theorem runBlock_closed (h : runBlock src rs pending parts X = .ok p)
    (hrs : Closed stray E ⟨rs, X⟩) :
    Closed stray E p := by
  induction parts generalizing rs pending X with
  | nil =>
    cases h
    exact hrs
  | cons q qs ih =>
    have hqs : ∀ q ∈ qs, ∀ E p, q.run E = .ok p → Closed stray E p :=
      fun q hq => hparts q (List.mem_cons_of_mem _ hq)
    obtain ⟨piece, found, hpiece, -, hrest⟩ := runBlock_cons h
    have hnext : Closed stray E ⟨rs ++ piece.records, piece.exits⟩ :=
      hrs.seq (hparts q List.mem_cons_self X piece hpiece)
    rcases hrest with ⟨-, hrest⟩ | ⟨r, -, hr, hrest⟩
    · exact ih hqs hrest hnext
    · refine ih hqs hrest (hnext.deliver ?_)
      rw [recordedIds_append]
      exact List.mem_append_right _ (List.mem_map_of_mem (List.mem_of_find?_eq_some hr))

theorem partNamed_closed {name : String} (hq : partNamed parts name = .ok q) (h : q.run E = .ok p) :
    Closed stray E p :=
  hparts q (List.mem_of_find?_eq_some (partNamed_eq_ok.mp hq)) E p h

theorem runFunction_closed (h : runFunction src l parts X = .ok p) : Closed stray E p := by
  obtain ⟨v, -, h⟩ := bind_eq_ok.mp h
  obtain ⟨q, hq, h⟩ := bind_eq_ok.mp h
  obtain ⟨body, hbody, h⟩ := bind_eq_ok.mp h
  cases h
  have hv : v.id ∈ recordedIds (body.records ++ [⟨v, []⟩]) := by simp
  obtain ⟨hin, -⟩ := (partNamed_closed hparts hq hbody).below hv (by simp; tauto)
  exact ⟨by simpa using hin, by simp⟩

theorem runIf_closed (h : runIf src l parts E = .ok p) : Closed stray E p := by
  obtain ⟨v, q, yes, no, -, hq, hyes, hno, rfl⟩ := runIf_ok h
  refine .forked (partNamed_closed hparts hq hyes) ?_
  unfold BuildsElse at hno
  split at hno
  · rename_i q' hq'
    exact hparts q' (List.mem_of_find?_eq_some hq') _ _ hno
  · rw [hno]
    exact .pass

theorem runCountedLoop_closed (h : runCountedLoop src l parts E = .ok p)
    (hclaim : ∀ j ∈ continuesBelow l, ∀ s, Vertex.ofLocus src j = .ok s → stray s) :
    Closed stray E p := by
  obtain ⟨v, q, body, bs, cs, -, hq, hbody, -, hcs, rfl⟩ := runCountedLoop_ok h
  refine (partNamed_closed hparts hq hbody).headed ?_ ?_ rfl
  · exact fun a ha => .inr (.inl (open_singleton.mp ha))
  · intro e he
    rw [filedEdges_cons, List.mem_append, List.mem_append] at he
    rcases he with (he | he) | he
    · exact .inr (.inl he)
    · refine .inr (.inr ⟨_, he, ?_⟩)
      intro a ha
      rcases open_append.mp ha with ⟨x, hx, rfl⟩ | ha
      · exact .inl ⟨x, (List.mem_filter.mp hx).1, rfl⟩
      · obtain ⟨j, hj, hv⟩ := (mem_verticesOf hcs).mp (open_plainExits.mp ha)
        exact .inr (hclaim j hj a hv)
    · exact .inl he

theorem runDo_closed (h : runDo src parts E = .ok p) : Closed stray E p := by
  obtain ⟨q, body, c, plain, bs, cs, hq, hbody, -, -, hbs, hcs, rfl⟩ := runDo_ok h
  refine .repeated (partNamed_closed hparts hq hbody) ?_ ?_
  · exact fun b hb => ((mem_ids_recordedJumps hbs).mp (List.mem_map_of_mem hb)).2
  · exact fun b hb => ((mem_ids_recordedJumps hcs).mp (List.mem_map_of_mem hb)).2

theorem runSwitch_closed (h : runSwitch src l parts E = .ok p)
    (hclaim : ∀ j ∈ breaksBelow l, ∀ s, Vertex.ofLocus src j = .ok s → stray s) :
    Closed stray E p := by
  obtain ⟨v, -, ⟨-, rfl⟩ | ⟨q, body, bs, hq, hbody, hbs, rfl⟩⟩ := runSwitch_ok h
  · exact .single fun a ha => open_singleton.mp ha
  · refine (partNamed_closed hparts hq hbody).headed ?_ ?_ rfl
    · intro a ha
      rcases open_append.mp ha with ha | ha
      · exact .inl ha
      · obtain ⟨j, hj, hv⟩ := (mem_verticesOf hbs).mp (open_plainExits.mp ha)
        exact .inr (.inr (hclaim j hj a hv))
    · intro e he
      rw [filedEdges_cons, List.mem_append] at he
      rcases he with he | he
      · exact .inr (.inl he)
      · exact .inl he

theorem runCase_closed (h : runCase src l parts E = .ok p) : Closed stray E p := by
  obtain ⟨v, body, -, hbody, rfl⟩ := runCase_ok h
  have hdrop : ∀ q ∈ parts.drop (labelLength (parts.map Part.kind)), ∀ E p, q.run E = .ok p →
      Closed stray E p :=
    fun q hq => hparts q (List.mem_of_mem_drop hq)
  obtain ⟨label, hlabel⟩ : ∃ label, (caseExits (parts.map Part.kind) v).1 = ⟨v, label⟩ := by
    unfold caseExits
    split <;> exact ⟨_, rfl⟩
  rw [hlabel] at hbody
  refine (runAll_closed hdrop hbody).headed ?_ ?_ rfl
  · intro a ha
    rcases open_append.mp ha with ha | ⟨x, hx, rfl⟩
    · exact .inl ha
    · unfold caseExits at hx
      split at hx <;> simp_all
  · intro e he
    rw [filedEdges_cons, List.mem_append] at he
    rcases he with he | he
    · exact .inr (.inl he)
    · exact .inl he

theorem runNode_closed (h : runNode src l parts E = .ok p)
    (hloop : isCountedLoop l.kind = true →
      ∀ j ∈ continuesBelow l, ∀ s, Vertex.ofLocus src j = .ok s → stray s)
    (hswitch : l.kind = "switch_statement" →
      ∀ j ∈ breaksBelow l, ∀ s, Vertex.ofLocus src j = .ok s → stray s) :
    Closed stray E p := by
  unfold runNode at h
  split at h
  · cases h
    exact .pass
  split at h
  · exact runFunction_closed hparts h
  · exact runBlock_closed hparts h .pass
  · split at h
    · exact runAll_closed (fun q hq => hparts q (List.mem_of_mem_filter hq)) h
    · cases h
      exact .pass
  · exact runIf_closed hparts h
  · rename_i hk
    exact runCountedLoop_closed hparts h (hloop (by rw [hk]; rfl))
  · rename_i hk
    exact runCountedLoop_closed hparts h (hloop (by rw [hk]; rfl))
  · exact runDo_closed hparts h
  · rename_i hk
    exact runSwitch_closed hparts h (hswitch hk)
  · exact runCase_closed hparts h
  · exact runAll_closed hparts h
  · obtain ⟨v, -, rfl⟩ := runSimple_ok h
    refine .single fun a ha => ?_
    split at ha
    · exact (open_nil ha).elim
    · exact open_singleton.mp ha

end Constructs

/-! ### Trees -/

/-- The vertex of a continue that a while or for loop at or below a position claims, or of a break
that a switch there claims. -/
def Claimed (src : Source) (l : Locus) (s : Vertex) : Prop :=
  ∃ a ∈ l.preorder, ∃ j, Vertex.ofLocus src j = .ok s ∧
    (isCountedLoop a.kind = true ∧ j ∈ continuesBelow a ∨ a.kind = "switch_statement" ∧
      j ∈ breaksBelow a)

theorem mem_preorderOfAll {parent : Tree} {above : List (Tree × Nat)} {cs : List Tree} {i : Nat} :
    a ∈ Locus.preorderOfAll parent above i cs ↔
      ∃ c ∈ cs.mapIdx fun j c => (⟨c, (parent, j + i) :: above⟩ : Locus), a ∈ c.preorder := by
  induction cs generalizing i with
  | nil => simp [Locus.preorderOfAll]
  | cons c rest ih =>
    rw [Locus.preorderOfAll, List.mem_append, ih, List.mapIdx_cons]
    simp [Locus.preorder, Nat.add_assoc, Nat.add_comm 1 i]

theorem preorder_eq_cons (l : Locus) :
    l.preorder = l :: Locus.preorderOfAll l.node l.above 0 l.node.children := by
  obtain ⟨⟨k, a, b, f, cs⟩, above⟩ := l
  rfl

theorem mem_preorder_of_child {c : Locus} (hc : c ∈ l.children) (ha : a ∈ c.preorder) :
    a ∈ l.preorder := by
  rw [preorder_eq_cons]
  exact List.mem_cons_of_mem _ (mem_preorderOfAll.mpr ⟨c, hc, ha⟩)

theorem Claimed.of_child {c : Locus} (hc : c ∈ l.children) (h : Claimed src c s) :
    Claimed src l s := by
  obtain ⟨a, ha, j, hj, hkind⟩ := h
  exact ⟨a, mem_preorder_of_child hc ha, j, hj, hkind⟩

theorem claimed_here (l : Locus) {j : Locus} (hj : Vertex.ofLocus src j = .ok s)
    (hkind : isCountedLoop l.kind = true ∧ j ∈ continuesBelow l ∨ l.kind = "switch_statement" ∧
      j ∈ breaksBelow l) :
    Claimed src l s := by
  refine ⟨l, ?_, j, hj, hkind⟩
  rw [preorder_eq_cons]
  exact List.mem_cons_self

/-- The parts of a node are closed but for what the node claims. -/
theorem parts_closed
    (h : ∀ c ∈ l.children, ∀ E p, transfer src c.above c.node E = .ok p →
      Closed (Claimed src c) E p) :
    ∀ q ∈ l.children.map (partAt src), ∀ E p, q.run E = .ok p → Closed (Claimed src l) E p := by
  intro q hq E p hp
  obtain ⟨c, hc, rfl⟩ := List.mem_map.mp hq
  exact (h c hc E p hp).mono fun s hs => hs.of_child hc

theorem transfer_closed (l : Locus) :
    ∀ E p, transfer src l.above l.node E = .ok p → Closed (Claimed src l) E p := by
  induction l using locus_induction with
  | step l ih =>
    intro E p h
    rw [transfer_eq_runNode] at h
    refine runNode_closed (parts_closed ih) h ?_ ?_
    · exact fun hk j hj s hs => claimed_here l hs (.inl ⟨hk, hj⟩)
    · exact fun hk j hj s hs => claimed_here l hs (.inr ⟨hk, hj⟩)

/-! ### Graphs -/

theorem functionRecords_closed (hk : l.kind = "function_definition")
    (hr : functionRecords src l = .ok rs) :
    Closed (Claimed src l) [] ⟨rs, []⟩ := by
  cases hleaf : l.node.isLeaf with
  | true =>
    rw [functionRecords, transfer_leaf hleaf] at hr
    cases hr
    exact .pass
  | false =>
    obtain ⟨v, q, body, -, hq, hbody, rfl⟩ := functionRecords_eq_ok hk hleaf hr
    rw [parts_eq] at hq
    have hparts := parts_closed fun c (_ : c ∈ l.children) => @transfer_closed src c
    have hv : v.id ∈ recordedIds (body.records ++ [⟨v, []⟩]) := by simp
    obtain ⟨hin, -⟩ := (partNamed_closed hparts hq hbody).below hv (by simp; tauto)
    exact ⟨by simpa using hin, by simp⟩

/-- The graph that is built at a position is that of the function there. -/
theorem buildControlAt_eq_some (b : Bench) : ((Bench.buildControlAt src l).run b).1 = some g ↔
    ∃ f, Bench.functionAt? l = some f ∧ controlFlow src f = .ok g := by
  unfold Bench.buildControlAt
  cases Bench.functionAt? l with
  | none =>
    constructor
    · rintro ⟨⟩
    · rintro ⟨f, ⟨⟩, -⟩
  | some f =>
    simp only [Option.some.injEq, exists_eq_left']
    cases controlFlow src f with
    | error e =>
      constructor
      · rintro ⟨⟩
      · rintro ⟨⟩
    | ok g' =>
      constructor
      · rintro ⟨⟩
        rfl
      · rintro ⟨⟩
        rfl

theorem kind_functionAt {f : Locus} (h : Bench.functionAt? l = some f) :
    f.kind = "function_definition" := by
  unfold Bench.functionAt? at h
  split at h
  · rename_i hk
    cases h
    exact hk
  · simpa using (List.mem_filter.mp (List.mem_of_head? h)).2

/-- The edges of a control-flow graph have both ends. They lead to vertices of the graph, and they
come from such vertices or from a jump that a while or for loop or a switch of the function
claims. -/
theorem buildControlAt_edges (b : Bench) (h : ((Bench.buildControlAt src l).run b).1 = some g) :
    ∃ f, Bench.functionAt? l = some f ∧
      ∀ e ∈ g.edges, e.Joining (fun s => s.id ∈ g.ids ∨ Claimed src f s) fun t => t.id ∈ g.ids := by
  obtain ⟨f, hf, hg⟩ := (buildControlAt_eq_some b).mp h
  refine ⟨f, hf, ?_⟩
  rw [controlFlow] at hg
  cases hr : functionRecords src f with
  | error e =>
    rw [hr] at hg
    cases hg
  | ok rs =>
    rw [hr] at hg
    cases hg
    have hclosed := functionRecords_closed (kind_functionAt hf) hr
    intro e he
    rw [edges_graphOf_eq] at he
    refine (hclosed.edges e he).mono ?_ fun t ht => mem_ids_graphOf.mpr ht
    rintro v (hv | hv | hv)
    · exact .inl (mem_ids_graphOf.mpr hv)
    · exact (open_nil hv).elim
    · exact .inr hv

/-- A loop whose continue stands after a return. -/
def deadContinue : Source := ⟨"void f() \x7b while (a) \x7b return; continue; \x7d \x7d"⟩

def deadContinueFunction : Locus :=
  ⟨.bareFunction 0 4 (.node "compound_statement" 9 44 (some "body") [
    .node "\x7b" 9 10 none [],
    .node "while_statement" 11 42 none [
      .node "while" 11 16 none [],
      .node "parenthesized_expression" 17 20 (some "condition") [
        .node "(" 17 18 none [],
        .node "identifier" 18 19 none [],
        .node ")" 19 20 none []],
      .node "compound_statement" 21 42 (some "body") [
        .node "\x7b" 21 22 none [],
        .node "return_statement" 23 30 none [.node "return" 23 29 none [], .node ";" 29 30 none []],
        .node "continue_statement" 31 40 none [.node "continue" 31 39 none [],
          .node ";" 39 40 none []],
        .node "\x7d" 41 42 none []]],
    .node "\x7d" 43 44 none []]), []⟩

theorem deadContinue_built :
    ∃ g, ((Bench.buildControlAt deadContinue deadContinueFunction).run {}).1 = some g ∧
    g.ids = [824061, 342465, 373701] ∧
    g.arcs = [(373701, 824061), (141867, 824061), (824061, 342465)] := by
  have hbuilt : ((Bench.buildControlAt deadContinue deadContinueFunction).run {}).1.map
      (fun g => (g.ids, g.arcs)) =
      some ([824061, 342465, 373701], [(373701, 824061), (141867, 824061), (824061, 342465)]) := by
    decide +kernel
  obtain ⟨g, hg, heq⟩ := Option.map_eq_some_iff.mp hbuilt
  exact ⟨g, hg, congrArg Prod.fst heq, congrArg Prod.snd heq⟩

theorem buildControlAt_edges_deadContinue :
    ∃ g, ((Bench.buildControlAt deadContinue deadContinueFunction).run {}).1 = some g ∧
      ∃ f, Bench.functionAt? deadContinueFunction = some f ∧
        ∀ e ∈ g.edges, e.Joining (fun s => s.id ∈ g.ids ∨ Claimed deadContinue f s) fun t =>
        t.id ∈ g.ids := by
  obtain ⟨g, hg, -⟩ := deadContinue_built
  exact ⟨g, hg, buildControlAt_edges {} hg⟩

/-- The loop leads back to its head from a continue that is no vertex of the graph. -/
theorem exists_arc_from_deadContinue :
    ∃ g, ((Bench.buildControlAt deadContinue deadContinueFunction).run {}).1 = some g ∧
      ∃ a ∈ g.arcs, a.1 ∉ g.ids := by
  obtain ⟨g, hg, hids, harcs⟩ := deadContinue_built
  refine ⟨g, hg, (141867, 824061), ?_, ?_⟩
  · simp [harcs]
  · simp [hids]

end CrossCall.Flow

import CrossCall.Proofs.Construct

/-! Where control goes from one vertex, followed through the pieces of the code around it. What is
open at a vertex that a statement does not number leads to the entrance of the statement, or stays
open behind it. -/
namespace CrossCall.Flow

variable {src : Source} {l c : Locus} {v w t : Vertex} {x y : Int} {label : String} {e : Exit}
  {E X : List Exit} {rs rs₁ rs₂ : List Record} {r : Record} {pending vs bs cs : List Vertex}
  {p p₁ p₂ body yes no : Piece} {ls : List Locus} {entrance entrance₁ entrance₂ : Option Int}

/-! ### Signals -/

/-- An edge with this label is filed from one number to another. -/
def Leads (rs : List Record) (x : Int) (label : String) (y : Int) : Prop :=
  ∃ e ∈ filedEdges rs, e.ends? = some (x, y) ∧ e.label = label

/-- Control leaves the number along this label. -/
def Opens (E : List Exit) (x : Int) (label : String) : Prop :=
  ∃ e ∈ E, e.vertex.id = x ∧ e.label = label

@[simp] theorem not_leads_nil : ¬ Leads [] x label y := by
  rintro ⟨e, he, -⟩
  cases he

@[simp] theorem leads_append :
    Leads (rs₁ ++ rs₂) x label y ↔ Leads rs₁ x label y ∨ Leads rs₂ x label y := by
  simp only [Leads, filedEdges_append, List.mem_append, or_and_right, exists_or]

@[simp] theorem not_opens_nil : ¬ Opens [] x label := by
  rintro ⟨e, he, -⟩
  cases he

@[simp] theorem opens_append : Opens (E ++ X) x label ↔ Opens E x label ∨ Opens X x label := by
  simp only [Opens, List.mem_append, or_and_right, exists_or]

@[simp] theorem opens_cons :
    Opens (e :: E) x label ↔ e.vertex.id = x ∧ e.label = label ∨ Opens E x label := by
  simp only [Opens, List.mem_cons, or_and_right, exists_or, exists_eq_left]

@[simp] theorem opens_plainExits :
    Opens (plainExits vs) x label ↔ label = "" ∧ x ∈ vs.map (·.id) := by
  simp only [Opens, plainExits, List.mem_map]
  constructor
  · rintro ⟨e, ⟨v, hv, rfl⟩, rfl, rfl⟩
    exact ⟨rfl, v, hv, rfl⟩
  · rintro ⟨rfl, v, hv, rfl⟩
    exact ⟨_, ⟨v, hv, rfl⟩, rfl, rfl⟩

theorem opens_waysBack : Opens (waysBack body bs cs) x label ↔
    Opens body.exits x label ∧ x ∉ bs.map (·.id) ∨ label = "" ∧ x ∈ cs.map (·.id) := by
  rw [waysBack, opens_append, opens_plainExits]
  refine or_congr_left ?_
  simp only [Opens, List.mem_filter, Bool.not_eq_true', List.contains_eq_mem,
    decide_eq_false_iff_not]
  constructor
  · rintro ⟨e, ⟨he, hb⟩, rfl, rfl⟩
    exact ⟨⟨e, he, rfl, rfl⟩, hb⟩
  · rintro ⟨⟨e, he, rfl, rfl⟩, hb⟩
    exact ⟨e, ⟨he, hb⟩, rfl, rfl⟩

theorem edgesTo_leads :
    (∃ e ∈ edgesTo t X, e.ends? = some (x, y) ∧ e.label = label) ↔ y = t.id ∧ Opens X x label := by
  constructor
  · rintro ⟨_, hmem, hends, rfl⟩
    obtain ⟨e, he, rfl⟩ := mem_edgesTo.mp hmem
    have hpair : (e.vertex.id, t.id) = (x, y) := Option.some.inj hends
    cases hpair
    exact ⟨rfl, e, he, rfl, rfl⟩
  · rintro ⟨rfl, e, he, rfl, rfl⟩
    exact ⟨_, mem_edgesTo.mpr ⟨e, he, rfl⟩, rfl, rfl⟩

@[simp] theorem leads_cons :
    Leads (⟨v, edgesTo t X⟩ :: rs) x label y ↔ y = t.id ∧ Opens X x label ∨ Leads rs x label y := by
  rw [← edgesTo_leads]
  simp only [Leads, filedEdges_cons, List.mem_append, or_and_right, exists_or]

theorem leads_deliver : Leads (deliver t pending rs) x label y ↔
    Leads rs x label y ∨ label = "" ∧ x ∈ pending.map (·.id) ∧ x ∈ recordedIds rs ∧ y = t.id := by
  constructor
  · rintro ⟨e, he, hends, rfl⟩
    rcases mem_filedEdges_deliver.mp he with he | ⟨v, hv, hrec, rfl⟩
    · exact .inl ⟨e, he, hends, rfl⟩
    · have hpair : (v.id, t.id) = (x, y) := Option.some.inj hends
      cases hpair
      exact .inr ⟨rfl, List.mem_map_of_mem hv, hrec, rfl⟩
  · rintro (⟨e, he, hends, rfl⟩ | ⟨rfl, hx, hrec, rfl⟩)
    · exact ⟨e, mem_filedEdges_deliver.mpr (.inl he), hends, rfl⟩
    · obtain ⟨v, hv, rfl⟩ := List.mem_map.mp hx
      exact ⟨_, mem_filedEdges_deliver.mpr (.inr ⟨v, hv, hrec, rfl⟩), rfl, rfl⟩

theorem leads_looped : Leads (Piece.looped v E body).records x label y ↔
    y = v.id ∧ (Opens E x label ∨ Opens body.exits x label) ∨ Leads body.records x label y := by
  rw [Piece.looped, ← edgesTo_append, leads_cons, opens_append]

theorem leads_repeated : Leads (Piece.repeated w p).records x label y ↔ Leads p.records x label y ∨
    y = w.id ∧ Opens p.exits x label ∨
    x = w.id ∧ label = "Y" ∧ (recordedIds p.records ++ [w.id]).head? = some y := by
  have hhead : (recordedIds p.records ++ [w.id]).head? = (p.vertices ++ [w]).head?.map (·.id) := by
    rw [recordedIds_piece, ← List.head?_map, List.map_append]
    rfl
  rw [← edgesTo_leads, hhead, Option.map_eq_some_iff]
  constructor
  · rintro ⟨e, he, hends, rfl⟩
    rcases mem_filedEdges_repeated.mp he with he | he | ⟨u, hu, rfl⟩
    · exact .inl ⟨e, he, hends, rfl⟩
    · exact .inr (.inl ⟨e, he, hends, rfl⟩)
    · have hpair : (w.id, u.id) = (x, y) := Option.some.inj hends
      cases hpair
      exact .inr (.inr ⟨rfl, rfl, u, hu, rfl⟩)
  · rintro (⟨e, he, hends, rfl⟩ | ⟨e, he, hends, rfl⟩ | ⟨rfl, rfl, u, hu, rfl⟩)
    · exact ⟨e, mem_filedEdges_repeated.mpr (.inl he), hends, rfl⟩
    · exact ⟨e, mem_filedEdges_repeated.mpr (.inr (.inl he)), hends, rfl⟩
    · exact ⟨_, mem_filedEdges_repeated.mpr (.inr (.inr ⟨u, hu, rfl⟩)), rfl, rfl⟩

/-! ### Passing through -/

/-- A piece does not record the number, and what is open there leads to the entrance or through the
piece. -/
structure Passes (x : Int) (entrance : Option Int) (E : List Exit) (p : Piece) : Prop where
  unrecorded : x ∉ recordedIds p.records
  leads : ∀ label y, Leads p.records x label y ↔ Opens E x label ∧ entrance = some y
  opens : ∀ label, Opens p.exits x label ↔ Opens E x label ∧ entrance = none

namespace Passes

theorem skip : Passes x none E { exits := E } := ⟨by simp, by simp, by simp⟩

theorem seq (h₁ : Passes x entrance₁ E p₁) (h₂ : Passes x entrance₂ p₁.exits p₂) :
    Passes x (entrance₁.or entrance₂) E (p₁.followedBy p₂) := by
  refine ⟨?_, ?_, ?_⟩
  · simp [Piece.followedBy, h₁.unrecorded, h₂.unrecorded]
  · intro label y
    rw [Piece.followedBy, leads_append, h₁.leads, h₂.leads, h₁.opens]
    cases entrance₁ <;> simp
  · intro label
    rw [Piece.followedBy, h₂.opens, h₁.opens, and_assoc, Option.or_eq_none_iff]

/-- Nothing comes from a number that is not open before. -/
theorem quiet (h : Passes x entrance E p) (hE : ∀ label, ¬ Opens E x label) :
    (∀ label y, ¬ Leads p.records x label y) ∧ ∀ label, ¬ Opens p.exits x label := by
  refine ⟨?_, ?_⟩
  · intro label y hl
    exact hE label ((h.leads label y).mp hl).1
  · intro label ho
    exact hE label ((h.opens label).mp ho).1

/-- A head takes up all that is open, and nothing behind it has to do with the number. -/
theorem head (hids : x ∉ recordedIds rs) (hX : ∀ label, ¬ Opens X x label)
    (hleads : ∀ label y, Leads rs x label y ↔ y = v.id ∧ Opens E x label) :
    Passes x (some v.id) E ⟨rs, X⟩ := by
  refine ⟨hids, ?_, by simpa using hX⟩
  intro label y
  rw [hleads, Option.some.injEq, and_comm, eq_comm]

theorem forked (hne : x ≠ v.id) (h₁ : Passes x entrance₁ [⟨v, "Y"⟩] yes)
    (h₂ : Passes x entrance₂ [⟨v, "N"⟩] no) :
    Passes x (some v.id) E (.forked v E yes no) := by
  obtain ⟨hleads₁, hopens₁⟩ := h₁.quiet fun label => by simp [Ne.symm hne]
  obtain ⟨hleads₂, hopens₂⟩ := h₂.quiet fun label => by simp [Ne.symm hne]
  refine .head ?_ ?_ ?_
  · simp [h₁.unrecorded, h₂.unrecorded, hne]
  · simp [hopens₁, hopens₂]
  · simp [hleads₁, hleads₂]

theorem looped (hne : x ≠ v.id) (h : Passes x entrance [⟨v, "Y"⟩] body) (hcs : x ∉ cs.map (·.id)) :
    Passes x (some v.id) E (.looped v E { body with exits := waysBack body bs cs }) := by
  obtain ⟨hleads, hopens⟩ := h.quiet fun label => by simp [Ne.symm hne]
  have hways : ∀ label, ¬ Opens (waysBack body bs cs) x label := by
    intro label
    rw [opens_waysBack]
    simp [hopens, hcs]
  refine .head ?_ ?_ fun label y => leads_looped.trans ?_
  · simp [h.unrecorded, hne]
  · simp [Ne.symm hne]
  · simp [hways, hleads]

/-- The condition stands behind the body, so the body is entered first. -/
theorem repeated (hne : x ≠ w.id) (h : Passes x entrance E body) (hbs : x ∉ bs.map (·.id))
    (hcs : x ∉ cs.map (·.id)) :
    Passes x (entrance.or (some w.id)) E
      { Piece.repeated w { body with exits := body.exits ++ plainExits cs } with
        exits := ⟨w, "N"⟩ :: plainExits bs } := by
  refine ⟨?_, ?_, ?_⟩
  · rw [recordedIds_repeated]
    simp [h.unrecorded, hne]
  · intro label y
    rw [leads_repeated, opens_append, opens_plainExits, h.leads, h.opens]
    cases entrance <;> simp [hne, hcs, eq_comm, and_comm]
  · intro label
    cases entrance <;> simp [Ne.symm hne, hbs]

theorem headed (hne : x ≠ v.id) (he : e.vertex = v) (h : Passes x entrance [e] body)
    (hX : ∀ label, ¬ Opens X x label) :
    Passes x (some v.id) E (.headed v E { body with exits := body.exits ++ X }) := by
  obtain ⟨hleads, hopens⟩ := h.quiet fun label => by simp [he, Ne.symm hne]
  refine .head ?_ ?_ ?_
  · simp [h.unrecorded, hne]
  · simp [hopens, hX]
  · simp [hleads]

end Passes

theorem runAll_passes
    (hls : ∀ c ∈ ls, ∀ E p, (partAt src c).run E = .ok p → Passes x (entrance? src c.node) E p)
    (h : runAll (ls.map (partAt src)) E = .ok p) :
    Passes x (firstEntrance? src (ls.map (·.node))) E p := by
  induction ls generalizing E p with
  | nil =>
    cases h
    exact .skip
  | cons c rest ih =>
    obtain ⟨p₁, p₂, h₁, h₂, rfl⟩ := runAll_cons h
    rw [List.map_cons, firstEntrance?_cons]
    exact .seq (hls c List.mem_cons_self E p₁ h₁)
      (ih (fun c hc => hls c (List.mem_cons_of_mem _ hc)) h₂)

/-! ### Blocks -/

/-- The number at which vertices stop that wait before a row of statements. -/
def stop? (src : Source) (ts : List Tree) : Option Int :=
  firstEntrance? src (ts.filter fun t => !passesBy t.kind)

/-- All records are visible. -/
def AllVisible (rs : List Record) : Prop := ∀ v ∈ rs.map (·.vertex), isVisible v = true

theorem allVisible_append : AllVisible (rs₁ ++ rs₂) ↔ AllVisible rs₁ ∧ AllVisible rs₂ := by
  simp only [AllVisible, List.map_append, List.forall_mem_append]

theorem allVisible_cons : AllVisible (r :: rs) ↔ isVisible r.vertex = true ∧ AllVisible rs := by
  simp only [AllVisible, List.map_cons, List.forall_mem_cons]

theorem allVisible_deliver : AllVisible (deliver t pending rs) ↔ AllVisible rs := by
  rw [AllVisible, vertices_deliver, AllVisible]

theorem AllVisible.of_runBlock {qs : List Part} (hvis : AllVisible p.records)
    (h : runBlock src rs pending qs E = .ok p) : AllVisible rs := by
  obtain ⟨p', -, -, hvertices⟩ := runBlock_row h
  intro v hv
  refine hvis v ?_
  rw [← Piece.vertices, hvertices]
  exact List.mem_append_left _ hv

/-- Where all is visible, the first visible record of a member is that of its entrance. -/
theorem visible_entrance (hc : Enters src c) (hE : E ≠ []) (hvis : AllVisible p.records)
    (h : (partAt src c).run E = .ok p) :
    ((p.records.find? fun r => isVisible r.vertex).map fun r => r.vertex.id) =
    entrance? src c.node := by
  have hfind : (p.records.find? fun r => isVisible r.vertex) = p.records.head? := by
    cases hrs : p.records with
    | nil => rfl
    | cons r rest =>
      have hr : isVisible r.vertex = true := hvis r.vertex (by simp [hrs])
      simp only [List.find?_cons, hr, List.head?_cons]
  have hhead : (p.records.head?.map fun r => r.vertex.id) = (recordedIds p.records).head? := by
    rw [recordedIds, List.head?_map]
  rw [hfind, hhead]
  cases hent : entrance? src c.node with
  | none =>
    rw [hc.silent E p hent h]
    rfl
  | some y => exact hc.starts E p y hE hent h

theorem leavesWaiting_ids (h : leavesWaiting src (partAt src c) = .ok vs) :
    x ∈ vs.map (·.id) ↔ isLoop c.kind = true ∧ x ∈ jumpIds src "break_statement" c := by
  unfold leavesWaiting at h
  split at h
  · rename_i hloop
    rw [ids_verticesOf h]
    exact ⟨fun hx => ⟨hloop, hx⟩, fun hx => hx.2⟩
  · rename_i hloop
    cases h
    simp only [List.map_nil, List.not_mem_nil, false_iff, not_and]
    exact fun hk => absurd hk hloop

theorem stop?_cons_of_passesBy {t : Tree} {ts : List Tree} (h : passesBy t.kind = true) :
    stop? src (t :: ts) = stop? src ts := by
  rw [stop?, List.filter_cons_of_neg (by simp [h]), ← stop?]

theorem stop?_cons {t : Tree} {ts : List Tree} (h : passesBy t.kind = false) :
    stop? src (t :: ts) = (entrance? src t).or (stop? src ts) := by
  rw [stop?, List.filter_cons_of_pos (by simp [h]), firstEntrance?_cons, ← stop?]

/-- Vertices wait on at a member that lets them pass by, and at one without an entrance. -/
theorem waits_on {ts : List Tree} (hc : Enters src c) (hE : E ≠ []) (hvis : AllVisible p.records)
    (h : (partAt src c).run E = .ok p)
    (hwhy : passesBy c.kind = true ∨ (p.records.find? fun r => isVisible r.vertex) = none) :
    p.exits ≠ [] ∧ stop? src (c.node :: ts) = stop? src ts := by
  rcases hwhy with hkind | hnone
  · exact ⟨hc.passes E p hkind hE h, stop?_cons_of_passesBy hkind⟩
  have hsilent : entrance? src c.node = none := by
    rw [← visible_entrance hc hE hvis h, hnone]
    rfl
  rw [hc.silent E p hsilent h]
  refine ⟨hE, ?_⟩
  cases hk : passesBy c.node.kind with
  | true => exact stop?_cons_of_passesBy hk
  | false => rw [stop?_cons hk, hsilent, Option.none_or]

theorem stops_here {ts : List Tree} (hc : Enters src c) (hE : E ≠ []) (hvis : AllVisible p.records)
    (h : (partAt src c).run E = .ok p) (hkind : passesBy c.kind = false)
    (hr : (p.records.find? fun r => isVisible r.vertex) = some r) :
    stop? src (c.node :: ts) = some r.vertex.id := by
  have hentrance := visible_entrance hc hE hvis h
  rw [hr, Option.map_some] at hentrance
  rw [stop?_cons hkind, ← hentrance, Option.some_or]

/-- From a number that the members of a block do not have, control goes to the first entrance, and a
vertex that waits stops at the first member that does not let it pass by. -/
theorem runBlock_leads (hls : ∀ c ∈ ls, Enters src c ∧ x ∉ jumpIds src "break_statement" c ∧
      ∀ E p, (partAt src c).run E = .ok p → Passes x (entrance? src c.node) E p)
    (hwait : x ∈ pending.map (·.id) → E ≠ [] ∧ AllVisible p.records)
    (h : runBlock src rs pending (ls.map (partAt src)) E = .ok p) :
    Leads p.records x label y ↔ Leads rs x label y ∨
      Opens E x label ∧ firstEntrance? src (ls.map (·.node)) = some y ∨
        label = "" ∧ x ∈ pending.map (·.id) ∧ x ∈ recordedIds rs ∧
        stop? src (ls.map (·.node)) = some y := by
  induction ls generalizing rs pending E with
  | nil =>
    cases h
    simp [firstEntrance?, stop?]
  | cons c rest ih =>
    obtain ⟨hent, hjumps, hpass⟩ := hls c List.mem_cons_self
    have ih := fun {E rs pending} => @ih E rs pending fun c hc => hls c (List.mem_cons_of_mem _ hc)
    obtain ⟨piece, found, hpiece, hfound, hnext⟩ := runBlock_cons h
    have hp := hpass E piece hpiece
    have hpending : x ∈ (pending ++ found).map (·.id) ↔ x ∈ pending.map (·.id) := by
      rw [List.map_append, List.mem_append, leavesWaiting_ids hfound]
      simp [hjumps]
    have hids : x ∈ recordedIds (rs ++ piece.records) ↔ x ∈ recordedIds rs := by
      rw [recordedIds_append, List.mem_append]
      simp [hp.unrecorded]
    have hhere : Leads (rs ++ piece.records) x label y ↔
        Leads rs x label y ∨ Opens E x label ∧ entrance? src c.node = some y := by
      rw [leads_append, hp.leads]
    have hfirst : Opens E x label ∧ firstEntrance? src ((c :: rest).map (·.node)) = some y ↔
        Opens E x label ∧ entrance? src c.node = some y ∨
          (Opens E x label ∧ entrance? src c.node = none) ∧
          firstEntrance? src (rest.map (·.node)) = some y := by
      rw [List.map_cons, firstEntrance?_cons]
      cases entrance? src c.node <;> simp
    -- Either what waits goes past this member and the rest of the block decides, or it is delivered
    -- here.
    rcases hnext with ⟨hwhy, hnext⟩ | ⟨r, hkind, hr, hnext⟩
    · have hon : x ∈ pending.map (·.id) → piece.exits ≠ [] ∧
          stop? src ((c :: rest).map (·.node)) = stop? src (rest.map (·.node)) := by
        intro hx
        obtain ⟨hE, hvis⟩ := hwait hx
        have hvis := (allVisible_append.mp (hvis.of_runBlock hnext)).2
        refine waits_on hent hE hvis hpiece (hwhy.resolve_left ?_)
        intro hnil
        rw [← hpending, hnil] at hx
        cases hx
      have hwait' : x ∈ (pending ++ found).map (·.id) →
          piece.exits ≠ [] ∧ AllVisible p.records := by
        intro hx
        exact ⟨(hon (hpending.mp hx)).1, (hwait (hpending.mp hx)).2⟩
      have hstop : x ∈ pending.map (·.id) ∧ x ∈ recordedIds rs ∧
          stop? src ((c :: rest).map (·.node)) = some y ↔
          x ∈ pending.map (·.id) ∧ x ∈ recordedIds rs ∧ stop? src (rest.map (·.node)) = some y :=
        and_congr_right fun hx => by rw [(hon hx).2]
      rw [ih hwait' hnext, hhere, hp.opens, hpending, hids, hfirst, hstop]
      simp only [or_assoc]
    · have hstop : x ∈ pending.map (·.id) ∧ x ∈ recordedIds rs ∧
          stop? src ((c :: rest).map (·.node)) = some y ↔
          x ∈ pending.map (·.id) ∧ x ∈ recordedIds rs ∧ y = r.vertex.id := by
        refine and_congr_right fun hx => and_congr_right fun _ => ?_
        obtain ⟨hE, hvis⟩ := hwait hx
        have hvis := (allVisible_append.mp (allVisible_deliver.mp (hvis.of_runBlock hnext))).2
        rw [List.map_cons, stops_here hent hE hvis hpiece hkind hr, Option.some.injEq, eq_comm]
      have hnone : x ∈ ([] : List Vertex).map (·.id) → piece.exits ≠ [] ∧ AllVisible p.records := by
        intro hx
        cases hx
      rw [ih hnone hnext, leads_deliver, hhere, hp.opens, hpending, hids, hfirst, hstop]
      simp only [List.map_nil, List.not_mem_nil, false_and, and_false, or_false]
      rw [or_right_comm]
      simp only [or_assoc]

/-! ### Constructs -/

theorem ownNumbers_own {t : Tree} (hleaf : t.isLeaf = false)
    (hk : t.kind ≠ "compound_statement" ∧ t.kind ≠ "else_clause" ∧ t.kind ≠ "do_statement") :
    ownNumbers src t = [spanId src t] := by
  rw [ownNumbers, hleaf]
  split <;> simp_all

theorem ownNumbers_do {t : Tree} (hleaf : t.isLeaf = false) (hk : t.kind = "do_statement") :
    ownNumbers src t = (conditionId? src t).toList := by
  rw [ownNumbers, hleaf]
  simp [hk]

theorem notMem_jumpIds {kind : String} (ho : orderlyInside l.node = true)
    (hx : x ∉ numbers src l.node) :
    x ∉ jumpIds src kind l := by
  intro hj
  obtain ⟨i, t, hi, ht, hs⟩ := jumpIds_inner ho hj
  have hmem : t ∈ inner l.node := mem_inner.mpr ⟨i, hi, ht⟩
  have hin : orderlyInside t = true := (orderly_iff.mp ((orderlyInside_iff.mp ho).1 t hmem)).2
  exact hx (numbers_subset hmem (scannedIds_numbers hin hs))

section Inner

variable (hleaf : l.node.isLeaf = false) (ho : orderlyInside l.node = true)
  (hx : x ∉ numbers src l.node)
  (hinner : ∀ c ∈ l.children, c.node ∈ inner l.node →
    ∀ E p, (partAt src c).run E = .ok p → Passes x (entrance? src c.node) E p)

include hleaf hx in
/-- A statement with a vertex of its own is entered there. -/
theorem entrance_own
    (hk : l.kind ≠ "compound_statement" ∧ l.kind ≠ "else_clause" ∧ l.kind ≠ "do_statement")
    (hv : v.id = spanId src l.node) : entrance? src l.node = some v.id ∧ x ≠ v.id := by
  refine ⟨by rw [entrance?_own hleaf hk, hv], ?_⟩
  rintro rfl
  refine hx (mem_numbers.mpr (.inl ?_))
  rw [ownNumbers_own hleaf hk, hv]
  exact List.mem_cons_self

include hinner in
theorem passes_body
    (hk : isLoop l.kind = true ∨ l.kind = "switch_statement" ∨ l.kind = "function_definition")
    (hc : Named l "body" c) (h : (partAt src c).run E = .ok p) :
    Passes x (entrance? src c.node) E p := by
  refine hinner c hc.mem ?_ E p h
  rw [inner_body hk hc]
  exact List.mem_cons_self

include hleaf ho hx hinner in
/-- No vertex with this number waits in the block, as no break inside has it. -/
theorem passes_block (hk : l.kind = "compound_statement")
    (h : runBlock src [] [] (l.children.map (partAt src)) E = .ok p) :
    Passes x (entrance? src l.node) E p := by
  obtain ⟨p', hp', hexits, hids⟩ := runBlock_ids h
  have hpass := runAll_passes (fun c hc => hinner c hc (node_mem_row (.inl hk) hc)) hp'
  rw [entrance?_row hleaf (.inl hk), ← map_node_children]
  refine ⟨hids ▸ hpass.unrecorded, ?_, hexits ▸ hpass.opens⟩
  intro label y
  have hls : ∀ c ∈ l.children, Enters src c ∧ x ∉ jumpIds src "break_statement" c ∧
      ∀ E p, (partAt src c).run E = .ok p → Passes x (entrance? src c.node) E p := by
    intro c hc
    have hmem := node_mem_row (.inl hk) hc
    have hc' := (orderlyInside_iff.mp ho).1 c.node hmem
    refine ⟨enters c hc', ?_, hinner c hc hmem⟩
    exact notMem_jumpIds (orderly_iff.mp hc').2 fun hxc => hx (numbers_subset hmem hxc)
  rw [runBlock_leads hls (fun hx => by cases hx) h]
  simp

include hleaf hx hinner in
theorem passes_do (hk : l.kind = "do_statement") (hw : conditionId? src l.node = some w.id)
    (hc : Named l "body" c) (hbody : (partAt src c).run E = .ok body)
    (hbs : ∀ x, x ∈ bs.map (·.id) ↔
      x ∈ jumpIds src "break_statement" c ∧ x ∈ recordedIds body.records)
    (hcs : ∀ x, x ∈ cs.map (·.id) ↔
      x ∈ jumpIds src "continue_statement" c ∧ x ∈ recordedIds body.records) :
    Passes x (entrance? src l.node) E
      { Piece.repeated w { body with exits := body.exits ++ plainExits cs } with
        exits := ⟨w, "N"⟩ :: plainExits bs } := by
  have hloop : isLoop l.kind = true := by rw [hk]; rfl
  have hp := passes_body hinner (.inl hloop) hc hbody
  have hne : x ≠ w.id := by
    rintro rfl
    refine hx (mem_numbers.mpr (.inl ?_))
    rw [ownNumbers_do hleaf hk, hw]
    exact List.mem_cons_self
  have hone : firstEntrance? src [c.node] = entrance? src c.node := by
    rw [firstEntrance?_cons, firstEntrance?, List.findSome?_nil, Option.or_none]
  rw [entrance?_do hleaf hk, inner_body (.inl hloop) hc, hw, hone]
  refine .repeated hne hp ?_ ?_
  · exact fun hb => hp.unrecorded ((hbs x).mp hb).2
  · exact fun hc => hp.unrecorded ((hcs x).mp hc).2

include hinner in
theorem passes_members (hk : l.kind = "case_statement")
    (h : runAll ((l.children.drop (labelLength (l.node.children.map Tree.kind))).map
      (partAt src)) E = .ok p) :
    Passes x (firstEntrance? src
      ((l.children.drop (labelLength (l.node.children.map Tree.kind))).map (·.node))) E p := by
  refine runAll_passes (fun c hc => hinner c (List.mem_of_mem_drop hc) ?_) h
  rw [inner_case hk, ← map_node_children, ← List.map_drop, map_node_children]
  exact List.mem_map_of_mem hc

include hleaf ho hx hinner in
/-- The same for a construct, from the statements inside. -/
theorem Builds.passes (h : Builds src l E p) : Passes x (entrance? src l.node) E p := by
  cases h with
  | block hk h => exact passes_block hleaf ho hx hinner hk h
  | clause hk h =>
    rw [entrance?_row hleaf (.inr hk), ← map_node_children]
    exact runAll_passes (fun c hc => hinner c hc (node_mem_row (.inr hk) hc)) h
  | @branch v c yes no hk hv hc hyes hno =>
    obtain ⟨hent, hne⟩ := entrance_own hleaf hx (by simp [hk]) hv
    have hpyes := hinner c hc.mem (mem_inner_if hk hc (.inl rfl)) _ _ hyes
    rw [hent]
    rcases hno with ⟨d, hd, hno⟩ | ⟨-, rfl⟩
    · exact .forked hne hpyes (hinner d hd.mem (mem_inner_if hk hd (.inr rfl)) _ _ hno)
    · exact .forked hne hpyes .skip
  | loop hk hv hc hbody hbs hcs =>
    obtain ⟨hent, hne⟩ := entrance_own hleaf hx (kinds_of_counted hk) hv
    rw [hent]
    exact .looped hne (passes_body hinner (.inl (isLoop_of_counted hk)) hc hbody)
      (hcs ▸ notMem_jumpIds ho hx)
  | doLoop hk hw hc hbody hbs hcs => exact passes_do hleaf hx hinner hk hw hc hbody hbs hcs
  | bare hk hv =>
    obtain ⟨hent, hne⟩ := entrance_own hleaf hx (by simp [hk]) hv
    rw [hent]
    exact .head (by simp [hne]) (by simp [Ne.symm hne]) (by simp)
  | switch hk hv hc hbody hbs =>
    obtain ⟨hent, hne⟩ := entrance_own hleaf hx (by simp [hk]) hv
    rw [hent]
    refine .headed hne rfl (passes_body hinner (.inr (.inl hk)) hc hbody) ?_
    intro label
    rw [opens_plainExits, hbs]
    exact fun hb => notMem_jumpIds ho hx hb.2
  | label hk hv he hX hbody =>
    obtain ⟨hent, hne⟩ := entrance_own hleaf hx (by simp [hk]) hv
    rw [hent]
    refine .headed hne he (passes_members hinner hk hbody) ?_
    rintro label ⟨e', he', rfl, -⟩
    exact hne (congrArg Vertex.id (hX e' he'))
  | simple hk hv =>
    simp only [structuredKinds, List.mem_cons, not_or] at hk
    obtain ⟨hent, hne⟩ := entrance_own hleaf hx (by simp [hk]) hv
    rw [hent]
    refine .head (by simp [hne]) ?_ (by simp)
    intro label
    split
    · exact not_opens_nil
    · simp [Ne.symm hne]

end Inner

/-- What is open at a number that a statement does not have leads to its entrance, or through it. -/
theorem passes (l : Locus) : orderly l.node = true → x ∉ numbers src l.node →
    ∀ E p, (partAt src l).run E = .ok p → Passes x (entrance? src l.node) E p := by
  induction l using locus_induction with
  | step l ih =>
    intro ho hx E p h
    obtain ⟨hw, hin⟩ := orderly_iff.mp ho
    rcases builds hw h with ⟨hdead, rfl⟩ | ⟨hleaf, -, hb⟩
    · rcases hdead with hleaf | rfl
      · rw [entrance?_leaf hleaf]
        exact .skip
      · exact ⟨by simp, by simp, by simp⟩
    · refine Builds.passes hleaf hin hx ?_ hb
      intro c hc hmem
      exact ih c hc ((orderlyInside_iff.mp hin).1 c.node hmem) fun hxc =>
        hx (numbers_subset hmem hxc)

end CrossCall.Flow

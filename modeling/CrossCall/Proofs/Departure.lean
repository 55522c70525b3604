import CrossCall.Proofs.ClosedFlow
import CrossCall.Proofs.Visit

/-! The edges that leave a vertex. Each record may give out a few labels, each of them once: a
construct hands every exit on to one place at most. -/
namespace CrossCall.Flow

namespace Site

def isJump : Site → Bool
  | .statement l => Flow.isJump l.kind
  | .condition _ => false

def returns : Site → Bool
  | .statement l => l.kind == "return_statement"
  | .condition _ => false

/-- Control leaves along two ways: at a branch, at the head of a while or for loop, at the condition
of a do loop, and at a case that is no default. -/
def branches : Site → Bool
  | .statement l => l.kind == "if_statement" || isCountedLoop l.kind ||
    l.kind == "case_statement" && (l.node.children.map Tree.kind).head? == some "case"
  | .condition _ => true

/-- The labels of the edges that may leave a site, the edges of jumps left out. -/
def labels (s : Site) : List String :=
  if s.branches then ["Y", "N"] else if s.returns || s.isJump then [] else [""]

end Site

variable {src : Source} {l c f : Locus} {v w : Vertex} {x : Int} {label : String} {s : Site}
  {ss : List Site} {e : Exit} {E X : List Exit} {p p₁ p₂ : Piece} {V : Visit} {rs : List Record}
  {vs : List Vertex} {ls : List Locus} {es : List Edge} {g : Graph}

/-! ### Counting -/

/-- How many of the edges leave a number under a label. -/
def edgeCount (x : Int) (label : String) (es : List Edge) : Nat :=
  es.countP fun e => e.source.any (·.id == x) && e.label == label

/-- How many of the exits leave a number under a label. -/
def exitCount (x : Int) (label : String) (X : List Exit) : Nat :=
  X.countP fun e => e.vertex.id == x && e.label == label

/-- How often the sites of a number give out a label. -/
def siteCount (src : Source) (x : Int) (label : String) (ss : List Site) : Nat :=
  ((ss.filter fun s => s.number src == x).flatMap Site.labels).count label

@[simp] theorem edgeCount_nil : edgeCount x label [] = 0 := rfl

@[simp] theorem edgeCount_append {es es' : List Edge} :
    edgeCount x label (es ++ es') = edgeCount x label es + edgeCount x label es' :=
  List.countP_append

@[simp] theorem edgeCount_edgesTo : edgeCount x label (edgesTo v X) = exitCount x label X := by
  rw [edgeCount, edgesTo, List.countP_map]
  rfl

@[simp] theorem exitCount_nil : exitCount x label [] = 0 := rfl

@[simp] theorem exitCount_append {Y : List Exit} :
    exitCount x label (X ++ Y) = exitCount x label X + exitCount x label Y := List.countP_append

theorem exitCount_cons :
    exitCount x label (e :: X) = exitCount x label [e] + exitCount x label X := by
  rw [← exitCount_append, List.singleton_append]

theorem exitCount_filter_le {keep : Exit → Bool} :
    exitCount x label (X.filter keep) ≤ exitCount x label X :=
  List.Sublist.countP_le List.filter_sublist

/-- Plain exits of other numbers do not count. -/
theorem exitCount_plainExits (label : String) (h : ∀ v ∈ vs, v.id ≠ x) :
    exitCount x label (plainExits vs) = 0 := by
  rw [exitCount, List.countP_eq_zero]
  intro e he
  obtain ⟨v, hv, rfl⟩ := List.mem_map.mp he
  simp [h v hv]

@[simp] theorem siteCount_append {ss' : List Site} :
    siteCount src x label (ss ++ ss') = siteCount src x label ss + siteCount src x label ss' := by
  rw [siteCount, List.filter_append, List.flatMap_append, List.count_append]
  rfl

theorem siteCount_cons :
    siteCount src x label (s :: ss) = siteCount src x label [s] + siteCount src x label ss := by
  rw [← siteCount_append, List.singleton_append]

theorem siteCount_others (h : ∀ s ∈ ss, s.number src ≠ x) : siteCount src x label ss = 0 := by
  have hnone : (ss.filter fun s => s.number src == x) = [] := by
    rw [List.filter_eq_nil_iff]
    intro s hs
    simp [h s hs]
  rw [siteCount, hnone]
  rfl

theorem siteCount_self : siteCount src (s.number src) label [s] = s.labels.count label := by
  simp [siteCount]

theorem exitCount_other (h : v.id ≠ x) {a : String} : exitCount x label [⟨v, a⟩] = 0 := by
  simp [exitCount, h]

theorem exitCount_self {a : String} : exitCount v.id label [⟨v, a⟩] = [a].count label := by
  simp [exitCount, List.count]

theorem number_of_vertex (h : s.vertex src = .ok v) : v.id = s.number src := by
  cases s with
  | statement l => exact id_ofLocus h
  | condition l =>
    obtain ⟨w, hw, rfl⟩ := map_eq_ok.mp h
    have hid : w.id = spanId src l.node := id_ofLocus hw
    exact hid

/-- A site that branches pays for one exit of either label. -/
theorem exitCount_branches (x : Int) (label : String) (hs : s.branches = true)
    (hv : s.vertex src = .ok v) :
    exitCount x label [⟨v, "Y"⟩] + exitCount x label [⟨v, "N"⟩] = siteCount src x label [s] := by
  have hid := number_of_vertex hv
  by_cases hx : v.id = x
  · subst hx
    rw [exitCount_self, exitCount_self, hid, siteCount_self, Site.labels, if_pos hs,
      ← List.count_append]
    rfl
  · rw [exitCount_other hx, exitCount_other hx, siteCount_others (by simpa [← hid] using hx)]

theorem exitCount_plain (x : Int) (label : String) (hs : s.labels = [""])
    (hv : s.vertex src = .ok v) :
    exitCount x label [{ vertex := v }] = siteCount src x label [s] := by
  have hid := number_of_vertex hv
  by_cases hx : v.id = x
  · subst hx
    rw [exitCount_self, hid, siteCount_self, hs]
  · rw [exitCount_other hx, siteCount_others (by simpa [← hid] using hx)]

/-! ### Accounts -/

/-- Under each label no more leaves a number, in edges and exits, than comes in and the sites give
out. -/
def Accounts (src : Source) (x : Int) (V : Visit) (E : List Exit) (p : Piece) : Prop :=
  ∀ label, edgeCount x label (filedEdges p.records) + exitCount x label p.exits ≤
    exitCount x label E + siteCount src x label V.sites

/-- No break or continue at or below a position has this number. -/
def JumpsElsewhere (src : Source) (x : Int) (l : Locus) : Prop :=
  ∀ j ∈ l.preorder, isJump j.kind = true → spanId src j.node ≠ x

theorem JumpsElsewhere.child (h : JumpsElsewhere src x l) (hc : c ∈ l.children) :
    JumpsElsewhere src x c :=
  fun j hj => h j (mem_preorder_of_child hc hj)

theorem mem_preorder_self (l : Locus) : l ∈ l.preorder := by
  rw [preorder_eq_cons]
  exact List.mem_cons_self

theorem scanned_sub (l : Locus) : ∀ j ∈ scanned l, j ∈ l.preorder ∧ isJump j.kind = true := by
  induction l using locus_induction with
  | step l ih =>
    intro j hj
    unfold scanned at hj
    split at hj
    · rename_i hk
      cases List.mem_singleton.mp hj
      exact ⟨mem_preorder_self l, hk⟩
    · split at hj
      · cases hj
      · rw [jumpsBelow_eq, List.mem_flatMap] at hj
        obtain ⟨c, hc, hj⟩ := hj
        obtain ⟨hmem, hk⟩ := ih c hc j hj
        exact ⟨mem_preorder_of_child hc hmem, hk⟩

theorem JumpsElsewhere.jumps (h : JumpsElsewhere src x l) :
    ∀ j ∈ jumpsBelow l.above l.node, spanId src j.node ≠ x := by
  intro j hj
  rw [jumpsBelow_eq, List.mem_flatMap] at hj
  obtain ⟨c, hc, hj⟩ := hj
  obtain ⟨hmem, hk⟩ := scanned_sub c j hj
  exact h j (mem_preorder_of_child hc hmem) hk

/-- The vertices of jumps below do not have the number. -/
theorem JumpsElsewhere.vertices (h : JumpsElsewhere src x l) {kind : String}
    (hvs : verticesOf src ((jumpsBelow l.above l.node).filter fun j => j.kind == kind) = .ok vs) :
    ∀ v ∈ vs, v.id ≠ x := by
  intro v hv
  obtain ⟨j, hj, hid⟩ := (mem_verticesOf hvs).mp hv
  rw [id_ofLocus hid]
  exact h.jumps j (List.mem_filter.mp hj).1

theorem JumpsElsewhere.recorded (h : JumpsElsewhere src x l) {kind : String}
    (hvs : recordedJumps src rs ((jumpsBelow l.above l.node).filter fun j => j.kind == kind) =
      .ok vs) :
    ∀ v ∈ vs, v.id ≠ x := by
  intro v hv
  obtain ⟨hid, -⟩ := (mem_ids_recordedJumps hvs).mp (List.mem_map_of_mem hv)
  obtain ⟨j, hj, hid⟩ := List.mem_map.mp hid
  rw [← hid]
  exact h.jumps j (List.mem_filter.mp hj).1

theorem Accounts.pass : Accounts src x {} E { exits := E } := fun label => by simp

/-- A row hands the exits of each member on to the next. -/
theorem runAll_accounts
    (hls : ∀ c ∈ ls, ∀ E p, E ≠ [] → (partAt src c).run E = .ok p → Accounts src x (visitAt c) E p)
    (hE : E ≠ []) (h : runAll (ls.map (partAt src)) E = .ok p) :
    Accounts src x (.row (ls.map visitAt)) E p := by
  induction ls generalizing E p with
  | nil =>
    cases h
    exact .pass
  | cons c rest ih =>
    obtain ⟨p₁, p₂, h₁, -, rfl, h₂, ⟨hon, hX⟩ | ⟨hon, hX, rfl⟩⟩ := runAll_member (logged c) hE h
    · intro label
      have hfirst := hls c List.mem_cons_self E p₁ hE h₁ label
      have hrest := ih (fun c hc => hls c (List.mem_cons_of_mem _ hc)) hX h₂ label
      rw [List.map_cons, Visit.row, if_pos hon]
      simp only [Piece.followedBy, filedEdges_append, edgeCount_append, siteCount_append]
      omega
    · intro label
      have hfirst := hls c List.mem_cons_self E p₁ hE h₁ label
      rw [List.map_cons, Visit.row, if_neg (by simp [hon])]
      simp only [Piece.followedBy, List.append_nil, exitCount_nil]
      omega

/-- The edges of waiting vertices leave other numbers. -/
theorem runBlock_accounts (hapart : ∀ c ∈ ls, JumpsElsewhere src x c)
    (hrow : ∀ p', runAll (ls.map (partAt src)) E = .ok p' → Accounts src x V E p')
    (h : runBlock src [] [] (ls.map (partAt src)) E = .ok p) : Accounts src x V E p := by
  obtain ⟨p', hp', hexits, -⟩ := runBlock_row h
  obtain ⟨late, hperm, hlate⟩ := runBlock_perm h hp'
  have hzero : ∀ label, edgeCount x label late = 0 := by
    intro label
    rw [edgeCount, List.countP_eq_zero]
    intro e he
    obtain ⟨w, t, hw | ⟨c, hc, j, hj, hv⟩, rfl⟩ := hlate e he
    · cases hw
    · have hne : w.id ≠ x := by
        rw [id_ofLocus hv]
        exact (hapart c hc).jumps j (List.mem_filter.mp hj).1
      simp [edgeTo, hne]
  intro label
  have hcount : edgeCount x label (filedEdges p.records) =
      edgeCount x label (filedEdges p'.records) := by
    rw [edgeCount, hperm.countP_eq, ← edgeCount, edgeCount_append, edgeCount_append, hzero,
      filedEdges_nil, edgeCount_nil, Nat.zero_add, Nat.add_zero]
  rw [hcount, hexits]
  exact hrow p' hp' label

theorem branches_loop (hk : isCountedLoop l.kind = true) : (Site.statement l).branches = true := by
  simp [Site.branches, hk]

theorem labels_simple (hk : l.kind ∉ structuredKinds) : (Site.statement l).labels =
    if hasKind ["return_statement", "break_statement", "continue_statement"] l.kind then []
    else [""] := by
  simp only [structuredKinds, List.mem_cons, List.not_mem_nil, not_or, or_false] at hk
  have hb : (Site.statement l).branches = false := by simp [Site.branches, isCountedLoop, hk]
  have hends : ((Site.statement l).returns || (Site.statement l).isJump) =
      hasKind ["return_statement", "break_statement", "continue_statement"] l.kind := by
    rw [Bool.eq_iff_iff]
    simp [Site.returns, Site.isJump, isJump, hasKind]
  rw [Site.labels, hb, hends]
  rfl

theorem labels_switch (hk : l.kind = "switch_statement") : (Site.statement l).labels = [""] := by
  simp [Site.labels, Site.branches, Site.returns, Site.isJump, isJump, isCountedLoop, hk]

/-- What a function makes does not depend on where control comes from. -/
theorem function_accounts {body : Piece} (hk : l.kind = "function_definition")
    (hv : Vertex.ofLocus src l = .ok v) (h : Accounts src x (visitAt c) [{ vertex := v }] body) :
    Accounts src x ⟨(visitAt c).sites ++ [.statement l], false⟩ []
    ⟨body.records ++ [⟨v, []⟩], []⟩ := by
  intro label
  have hbody := h label
  have hlabels : (Site.statement l).labels = [""] := by
    simp [Site.labels, Site.branches, Site.returns, Site.isJump, isJump, isCountedLoop, hk]
  rw [exitCount_plain x label hlabels hv] at hbody
  simp only [filedEdges_append, filedEdges_cons, filedEdges_nil, List.append_nil, siteCount_append,
    exitCount_nil]
  omega

theorem edgeCount_repeated (c : Vertex) :
    edgeCount x label (filedEdges (Piece.repeated c p).records) =
    edgeCount x label (filedEdges p.records) + exitCount x label p.exits +
    exitCount x label [⟨c, "Y"⟩] := by
  unfold Piece.repeated
  cases p.records with
  | nil => simp [withBack]
  | cons r rest =>
    simp only [withBack, List.cons_append, filedEdges_cons, filedEdges_append, filedEdges_nil,
      List.append_nil, edgeCount_append, edgeCount_edgesTo]
    omega

/-- Entered along one way, and passed over along another if there is one, a case pays for both. -/
theorem exitCount_caseExits {kinds : List String} (x : Int) (label : String)
    (hk : l.kind = "case_statement") (hkinds : kinds = l.node.children.map Tree.kind)
    (hv : Vertex.ofLocus src l = .ok v) :
    exitCount x label [(caseExits kinds v).1] + exitCount x label (caseExits kinds v).2 =
      siteCount src x label [.statement l] := by
  unfold caseExits
  split
  · rename_i hcase
    exact exitCount_branches x label (by simp [Site.branches, hk, ← hkinds, hcase]) hv
  · rename_i hdefault
    have hlabels : (Site.statement l).labels = [""] := by
      simp [Site.labels, Site.branches, Site.returns, Site.isJump, isJump, isCountedLoop, hk,
        ← hkinds, hdefault]
    rw [exitCount_nil, Nat.add_zero, exitCount_plain x label hlabels hv]

section Constructs

variable {V₁ V₂ : Visit} {go : Bool} {Y : List Exit}

theorem Accounts.single (hown : ∀ label, exitCount x label X = siteCount src x label [s]) :
    Accounts src x ⟨[s], go⟩ E ⟨[⟨v, edgesTo v E⟩], X⟩ := by
  intro label
  have hown := hown label
  simp only [filedEdges_cons, filedEdges_nil, List.append_nil, edgeCount_edgesTo]
  omega

theorem Accounts.forked (hs : s.branches = true) (hv : s.vertex src = .ok v)
    (h₁ : Accounts src x V₁ [⟨v, "Y"⟩] p₁) (h₂ : Accounts src x V₂ [⟨v, "N"⟩] p₂) :
    Accounts src x ⟨s :: (V₁.sites ++ V₂.sites), go⟩ E (.forked v E p₁ p₂) := by
  intro label
  have hleft := h₁ label
  have hright := h₂ label
  rw [siteCount_cons, ← exitCount_branches x label hs hv]
  simp only [Piece.forked, filedEdges_cons, filedEdges_append, edgeCount_append, edgeCount_edgesTo,
    exitCount_append, siteCount_append]
  omega

/-- No more goes back to the head than leaves the body. -/
theorem Accounts.looped (hs : s.branches = true) (hv : s.vertex src = .ok v)
    (h : Accounts src x V [⟨v, "Y"⟩] p)
    (hX : ∀ label, exitCount x label X ≤ exitCount x label p.exits) :
    Accounts src x ⟨s :: V.sites, go⟩ E (.looped v E { p with exits := X }) := by
  intro label
  have hbody := h label
  have hback := hX label
  rw [siteCount_cons, ← exitCount_branches x label hs hv]
  simp only [Piece.looped, filedEdges_cons, edgeCount_append, edgeCount_edgesTo]
  omega

theorem Accounts.repeated (hs : s.branches = true) (hw : s.vertex src = .ok w)
    (h : Accounts src x V E p) (hX : ∀ label, exitCount x label X = 0)
    (hY : ∀ label, exitCount x label Y = 0) :
    Accounts src x ⟨V.sites ++ [s], go⟩ E
      { Piece.repeated w { p with exits := p.exits ++ X } with exits := ⟨w, "N"⟩ :: Y } := by
  intro label
  have hbody := h label
  have hback := hX label
  have hout := hY label
  rw [exitCount_cons, siteCount_append, ← exitCount_branches x label hs hw]
  simp only [edgeCount_repeated, exitCount_append]
  omega

/-- A head pays for the way into the body and for the ways past it. -/
theorem Accounts.headed
    (hown : ∀ label, exitCount x label [e] + exitCount x label X = siteCount src x label [s])
    (h : Accounts src x V [e] p) :
    Accounts src x ⟨s :: V.sites, go⟩ E (.headed v E { p with exits := p.exits ++ X }) := by
  intro label
  have hbody := h label
  rw [siteCount_cons, ← hown label]
  simp only [Piece.headed, filedEdges_cons, edgeCount_append, edgeCount_edgesTo, exitCount_append]
  omega

end Constructs

theorem Made.accounts (h : Made src l E p V) (hE : E ≠ []) (hapart : JumpsElsewhere src x l)
    (hin : ∀ c ∈ l.children, ∀ E p, E ≠ [] → (partAt src c).run E = .ok p →
      Accounts src x (visitAt c) E p) :
    Accounts src x V E p := by
  cases h with
  | @function v c body hk hv hc hbody =>
    intro label
    have hfunction := function_accounts hk hv (hin c hc.mem _ _ (List.cons_ne_nil _ _) hbody) label
    simp only [exitCount_nil] at hfunction ⊢
    omega
  | block hk h =>
    exact runBlock_accounts (fun c hc => hapart.child hc) (fun p' => runAll_accounts hin hE) h
  | members hk hls h => exact runAll_accounts (fun c hc => hin c (hls c hc)) hE h
  | @branch v c yes no V hk hv hc hyes hno =>
    refine .forked (by simp [Site.branches, hk]) hv
      (hin c hc.mem _ _ (List.cons_ne_nil _ _) hyes) ?_
    rcases hno with ⟨d, hd, hno, rfl⟩ | ⟨-, rfl, rfl⟩
    · exact hin d hd.mem _ _ (List.cons_ne_nil _ _) hno
    · exact .pass
  | @loop v c body bs cs hk hv hc hbody hbs hcs =>
    refine .looped (branches_loop hk) hv
      (hin c hc.mem _ _ (List.cons_ne_nil _ _) hbody) fun label => ?_
    rw [waysBack, exitCount_append, exitCount_plainExits label (hapart.vertices hcs)]
    exact exitCount_filter_le
  | @doLoop w c d body bs cs hk hc hbody hw hbs hcs =>
    have hbelow := hapart.child hc.mem
    refine .repeated rfl hw (hin c hc.mem _ _ hE hbody) ?_ ?_
    · exact fun label => exitCount_plainExits label (hbelow.recorded hcs)
    · exact fun label => exitCount_plainExits label (hbelow.recorded hbs)
  | bare hk hv => exact .single fun label => exitCount_plain x label (labels_switch hk) hv
  | @switch v c body bs hk hv hc hbody hbs =>
    refine .headed (fun label => ?_) (hin c hc.mem _ _ (List.cons_ne_nil _ _) hbody)
    rw [exitCount_plainExits label (hapart.vertices hbs),
      exitCount_plain x label (labels_switch hk) hv, Nat.add_zero]
  | @label v ls kinds body hk hkinds hv hls hbody =>
    refine .headed (fun label => exitCount_caseExits x label hk hkinds hv) ?_
    exact runAll_accounts (fun c hc => hin c (hls c hc)) (List.cons_ne_nil _ _) hbody
  | @simple v hk hv =>
    intro label
    simp only [filedEdges_cons, filedEdges_nil, List.append_nil, edgeCount_edgesTo]
    split
    · simp
    · rename_i hgo
      have hlabels : (Site.statement l).labels = [""] := by rw [labels_simple hk, if_neg hgo]
      rw [exitCount_plain x label hlabels hv]

theorem accounts (l : Locus) :
    JumpsElsewhere src x l → ∀ E p, E ≠ [] → (partAt src l).run E = .ok p →
    Accounts src x (visitAt l) E p := by
  induction l using locus_induction with
  | step l ih =>
    intro hapart E p hE h
    cases hleaf : l.node.isLeaf with
    | true =>
      rw [show (partAt src l).run E = .ok { exits := E } from transfer_leaf hleaf E] at h
      cases h
      rw [visitAt_leaf hleaf]
      exact .pass
    | false => exact (made hleaf hE h).accounts hE hapart fun c hc => ih c hc (hapart.child hc)

/-- The edges of a function that leave a number are paid for by its sites. -/
theorem edgeCount_functionRecords (hk : f.kind = "function_definition")
    (hapart : JumpsElsewhere src x f) (hr : functionRecords src f = .ok rs) (label : String) :
    edgeCount x label (filedEdges rs) ≤ siteCount src x label (visitAt f).sites := by
  cases hleaf : f.node.isLeaf with
  | true =>
    rw [functionRecords, transfer_leaf hleaf] at hr
    cases hr
    simp
  | false =>
    obtain ⟨v, q, body, hv, hq, hbody, rfl⟩ := functionRecords_eq_ok hk hleaf hr
    rw [parts_eq] at hq
    obtain ⟨c, hc, rfl⟩ := partNamed_children hq
    have hin := accounts c (hapart.child hc.mem) _ body (List.cons_ne_nil _ _) hbody
    have hfunction := function_accounts hk hv hin label
    rw [visitAt_function hleaf hk, named?_children visitAt hc]
    simpa using hfunction

/-! ### Graphs -/

theorem count_outgoing :
    ((g.outgoing x).map (·.label)).count label = edgeCount x label g.edges := by
  rw [List.count_eq_countP, List.countP_map, Graph.outgoing, List.countP_filter, edgeCount]
  congr 1
  funext e
  exact Bool.and_comm _ _

theorem siteCount_of_count (hs : s ∈ ss)
    (hd : (ss.map (Site.number src)).count (s.number src) ≤ 1) :
    siteCount src (s.number src) label ss = s.labels.count label := by
  obtain ⟨before, after, rfl⟩ := List.append_of_mem hs
  rw [List.map_append, List.map_cons, List.count_append, List.count_cons_self] at hd
  have hnone : ∀ ss' : List Site, (ss'.map (Site.number src)).count (s.number src) = 0 →
      siteCount src (s.number src) label ss' = 0 := by
    intro ss' hzero
    refine siteCount_others fun s' hs' heq => List.count_eq_zero.mp hzero ?_
    exact List.mem_map.mpr ⟨s', hs', heq⟩
  rw [siteCount_append, siteCount_cons, hnone before (by omega), hnone after (by omega),
    siteCount_self, Nat.zero_add, Nat.add_zero]

theorem recordedIds_sites (hr : functionRecords src f = .ok rs) :
    recordedIds rs = (visitAt f).sites.map (Site.number src) := by
  have hsites := functionRecords_sites hr
  rw [recordedIds]
  generalize (visitAt f).sites = ss at hsites ⊢
  clear hr
  induction hsites with
  | nil => rfl
  | cons hv _ ih => rw [List.map_cons, List.map_cons, ih, number_of_vertex hv]

/-- The labels of the edges that leave a recorded site are among its own, each as often at most. -/
theorem outgoing_subperm (hk : f.kind = "function_definition") (hr : functionRecords src f = .ok rs)
    (hd : (recordedIds rs).count (s.number src) ≤ 1) (hs : s ∈ (visitAt f).sites)
    (hapart : JumpsElsewhere src (s.number src) f) :
    (((graphOf rs).outgoing (s.number src)).map (·.label)).Subperm s.labels := by
  rw [recordedIds_sites hr] at hd
  refine List.subperm_ext_iff.mpr fun label _ => ?_
  rw [count_outgoing, edges_graphOf_eq, ← siteCount_of_count hs hd]
  exact edgeCount_functionRecords hk hapart hr label

/-- The way control leaves a site: not at all from a return, along one edge of either label at most
from a site that branches, and along one unlabelled edge at most from all others. -/
structure Disciplined (s : Site) (es : List Edge) : Prop where
  returns : s.returns = true → es = []
  branches : s.branches = true →
    (∀ e ∈ es, e.label = "Y" ∨ e.label = "N") ∧ (es.map (·.label)).Nodup
  others : s.returns = false → s.branches = false → s.isJump = false →
    es.length ≤ 1 ∧ ∀ e ∈ es, e.label = ""

theorem disciplined_of_subperm (h : (es.map (·.label)).Subperm s.labels) : Disciplined s es := by
  have hlabel : ∀ e ∈ es, e.label ∈ s.labels := fun e he => h.subset (List.mem_map_of_mem he)
  refine ⟨?_, ?_, ?_⟩
  · intro hreturns
    have hbranches : s.branches = false := by
      cases s with
      | condition l => cases hreturns
      | statement l =>
        have hk : l.kind = "return_statement" := by simpa [Site.returns] using hreturns
        simp [Site.branches, isCountedLoop, hk]
    have hlength := h.length_le
    simp only [Site.labels, hbranches, hreturns, Bool.true_or, if_true, Bool.false_eq_true,
      if_false, List.length_map, List.length_nil, Nat.le_zero, List.length_eq_zero_iff] at hlength
    exact hlength
  · intro hbranches
    rw [Site.labels, if_pos hbranches] at h hlabel
    refine ⟨fun e he => by simpa using hlabel e he, List.nodup_iff_count_le_one.mpr fun label => ?_⟩
    exact (h.count_le label).trans (List.nodup_iff_count_le_one.mp (by decide) label)
  · intro hreturns hbranches hjump
    have hlabels : s.labels = [""] := by simp [Site.labels, hreturns, hbranches, hjump]
    rw [hlabels] at h hlabel
    exact ⟨by simpa using h.length_le, fun e he => List.mem_singleton.mp (hlabel e he)⟩

/-- In the graph of a function whose records and jumps are told apart by their numbers, the edges
that leave a record that is no jump are as its kind of statement has them. -/
theorem outgoing_disciplined (hk : f.kind = "function_definition")
    (hr : functionRecords src f = .ok rs) (hd : (recordedIds rs).Nodup)
    (hjumps : ∀ s ∈ (visitAt f).sites, s.isJump = false → ∀ j ∈ f.preorder, isJump j.kind = true →
      spanId src j.node ≠ s.number src) :
    controlFlow src f = .ok (graphOf rs) ∧ List.Forall₂ (fun s r => s.vertex src = .ok r.vertex ∧
      (s.isJump = false → Disciplined s ((graphOf rs).outgoing r.vertex.id)))
      (visitAt f).sites rs := by
  refine ⟨map_eq_ok.mpr ⟨rs, hr, rfl⟩, ?_⟩
  obtain ⟨hlength, hzip⟩ := List.forall₂_iff_zip.mp (functionRecords_sites hr)
  refine List.forall₂_iff_zip.mpr ⟨hlength, fun {s r} hmem => ⟨hzip hmem, fun hjump => ?_⟩⟩
  have hs : s ∈ (visitAt f).sites := (List.of_mem_zip hmem).1
  rw [number_of_vertex (hzip hmem)]
  exact disciplined_of_subperm
    (outgoing_subperm hk hr (List.nodup_iff_count_le_one.mp hd _) hs (hjumps s hs hjump))

/-- A switch in a do loop, and a return. -/
def switchInDo : Source :=
  ⟨"void f()\x7bdo\x7bswitch(a)\x7bcase 1:break;\x7d\x7dwhile(b);return;\x7d"⟩

def switchInDoFunction : Locus :=
  ⟨.bareFunction 0 4 (.node "compound_statement" 8 54 (some "body") [
    .node "\x7b" 8 9 none [],
    .node "do_statement" 9 46 none [
      .node "do" 9 11 none [],
      .node "compound_statement" 11 37 (some "body") [
        .node "\x7b" 11 12 none [],
        .node "switch_statement" 12 36 none [
          .node "switch" 12 18 none [],
          .node "parenthesized_expression" 18 21 (some "condition") [
            .node "(" 18 19 none [],
            .node "identifier" 19 20 none [],
            .node ")" 20 21 none []],
          .node "compound_statement" 21 36 (some "body") [
            .node "\x7b" 21 22 none [],
            .node "case_statement" 22 35 none [
              .node "case" 22 26 none [],
              .node "number_literal" 27 28 (some "value") [],
              .node ":" 28 29 none [],
              .node "break_statement" 29 35 none [.node "break" 29 34 none [],
                .node ";" 34 35 none []]],
            .node "\x7d" 35 36 none []]],
        .node "\x7d" 36 37 none []],
      .node "while" 37 42 none [],
      .node "parenthesized_expression" 42 45 (some "condition") [
        .node "(" 42 43 none [],
        .node "identifier" 43 44 none [],
        .node ")" 44 45 none []],
      .node ";" 45 46 none []],
    .node "return_statement" 46 53 none [.node "return" 46 52 none [], .node ";" 52 53 none []],
    .node "\x7d" 53 54 none []]), []⟩

theorem outgoing_switchInDo : ∃ rs, switchInDoFunction.kind = "function_definition" ∧
    functionRecords switchInDo switchInDoFunction = .ok rs ∧ (recordedIds rs).Nodup ∧
      (∀ s ∈ (visitAt switchInDoFunction).sites, s.isJump = false →
        ∀ j ∈ switchInDoFunction.preorder,
        isJump j.kind = true → spanId switchInDo j.node ≠ s.number switchInDo) ∧
          controlFlow switchInDo switchInDoFunction = .ok (graphOf rs) ∧
            List.Forall₂ (fun s r => s.vertex switchInDo = .ok r.vertex ∧
              (s.isJump = false → Disciplined s ((graphOf rs).outgoing r.vertex.id)))
              (visitAt switchInDoFunction).sites rs := by
  have hbuilt : ((functionRecords switchInDo switchInDoFunction).toOption.map fun rs =>
      decide (recordedIds rs).Nodup) = some true := by decide +kernel
  have hjumps : ∀ s ∈ (visitAt switchInDoFunction).sites, s.isJump = false →
      ∀ j ∈ switchInDoFunction.preorder,
      isJump j.kind = true → spanId switchInDo j.node ≠ s.number switchInDo := by decide +kernel
  obtain ⟨rs, hr, hd⟩ := exists_ok_of_toOption hbuilt
  have hd : (recordedIds rs).Nodup := of_decide_eq_true hd
  exact ⟨rs, rfl, hr, hd, hjumps, outgoing_disciplined rfl hr hd hjumps⟩

end CrossCall.Flow

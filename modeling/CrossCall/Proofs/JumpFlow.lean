import CrossCall.Proofs.Destination

/-! The edges of a whole function. Every statement inside it has its piece among the records of the
function, with what becomes of each number in it, by descent from the body. A jump then leads to the
targets that the nodes around it give, the head of a loop to what comes next, and the targets are
told from the innermost statement that a jump belongs to. -/
namespace CrossCall.Flow

/-- A statement that is run inside a function. -/
inductive Inside (f : Locus) : Locus → Prop
  | body {i : Nat} {t : Tree} (hi : i ∈ places f.node) (ht : f.node.children[i]? = some t) :
      Inside f (f.child i t)
  | child {a : Locus} {i : Nat} {t : Tree} (h : Inside f a) (hi : i ∈ places a.node)
      (ht : a.node.children[i]? = some t) : Inside f (a.child i t)

variable {src : Source} {f l a c j S : Locus} {t : Tree} {i : Nat} {v : Vertex} {x y : Int}
  {kind label : String} {E : List Exit} {rs : List Record} {p : Piece} {above : List (Tree × Nat)}
  {stops : String → Bool} {path : List Nat} {g : Graph}

/-! ### Statements inside a function -/

theorem Inside.orderly (h : Inside f l) (ho : orderlyInside f.node = true) :
    orderly l.node = true := by
  induction h with
  | body hi ht => exact (orderlyInside_iff.mp ho).1 _ (mem_inner.mpr ⟨_, hi, ht⟩)
  | child _ hi ht ih =>
    exact (orderlyInside_iff.mp (orderly_iff.mp ih).2).1 _ (mem_inner.mpr ⟨_, hi, ht⟩)

theorem Inside.nodup (h : Inside f l) (hd : (numbers src f.node).Nodup) :
    (numbers src l.node).Nodup := by
  induction h with
  | body hi ht => exact nodup_inner hd (mem_inner.mpr ⟨_, hi, ht⟩)
  | child _ hi ht ih => exact nodup_inner ih (mem_inner.mpr ⟨_, hi, ht⟩)

theorem Inside.kind_ne (h : Inside f l) (ho : orderlyInside f.node = true) :
    l.kind ≠ "function_definition" :=
  (wellShaped_iff.mp (orderly_iff.mp (h.orderly ho)).1).1

theorem jumpFree_descend (hfree : jumpFree a.node = true) (hl : a.descend? path = some l) :
    isJump l.kind = false := by
  induction path generalizing a with
  | nil =>
    cases hl
    rw [jumpFree_eq, Bool.and_eq_true] at hfree
    exact (Bool.not_eq_true' _).mp hfree.1
  | cons i rest ih =>
    obtain ⟨t, ht, hl⟩ := Option.bind_eq_some_iff.mp hl
    rw [jumpFree_eq, Bool.and_eq_true, List.all_eq_true] at hfree
    exact ih (hfree.2 t (List.mem_of_getElem? ht)) hl

/-- A jump in orderly code stands among the statements. -/
theorem inside_of_descend (ha : a = f ∨ Inside f a) (ho : orderlyInside a.node = true)
    (hl : a.descend? path = some l) (hne : path ≠ []) (hj : isJump l.kind = true) : Inside f l := by
  induction path generalizing a with
  | nil => exact absurd rfl hne
  | cons i rest ih =>
    obtain ⟨t, ht, hl⟩ := Option.bind_eq_some_iff.mp hl
    -- No jump is below a child that is not run.
    have hi : i ∈ places a.node := by
      by_contra hi
      rw [jumpFree_descend ((orderlyInside_iff.mp ho).2 i t ht hi) hl] at hj
      cases hj
    have hin : Inside f (a.child i t) := by
      rcases ha with rfl | ha
      · exact .body hi ht
      · exact .child ha hi ht
    cases rest with
    | nil =>
      cases hl
      exact hin
    | cons k more =>
      have ho' := (orderlyInside_iff.mp ho).1 t (mem_inner.mpr ⟨i, hi, ht⟩)
      exact ih (.inr hin) (orderly_iff.mp ho').2 hl (List.cons_ne_nil _ _)

/-! ### The records of the function -/

/-- The records of the function are built around the piece of a statement. -/
structure Context (src : Source) (rs : List Record) (l : Locus) (E : List Exit) (p : Piece) :
    Prop where
  run : (partAt src l).run E = .ok p
  visible : AllVisible p.records
  clean : ∀ x ∈ numbers src l.node, ∀ label, ¬ Opens E x label
  ids : ∀ x ∈ numbers src l.node, x ∈ recordedIds rs ↔ x ∈ recordedIds p.records
  fate : ∀ x ∈ numbers src l.node, x ∈ recordedIds p.records →
    ∀ label y, Leads rs x label y ↔ Fate src l p x label y

theorem Context.child (h : Context src rs a E p) (ho : orderly a.node = true)
    (hd : (numbers src a.node).Nodup) (hi : i ∈ places a.node) (ht : a.node.children[i]? = some t) :
    ∃ E' p', Context src rs (a.child i t) E' p' := by
  obtain ⟨hw, hin⟩ := orderly_iff.mp ho
  obtain ⟨E', p', hc⟩ := exists_contains hin hd hi ht hw h.run
  have hsub : ∀ x ∈ numbers src t, x ∈ numbers src a.node :=
    fun x hx => numbers_subset (mem_inner.mpr ⟨i, hi, ht⟩) hx
  refine ⟨E', p', hc.run, hc.visible h.visible, ?_, ?_, ?_⟩
  · exact fun x hx => hc.clean x hx (h.clean x (hsub x hx))
  · exact fun x hx => (h.ids x (hsub x hx)).trans (hc.ids x hx)
  · intro x hx hmem label y
    rw [h.fate x (hsub x hx) ((hc.ids x hx).mpr hmem)]
    exact hc.fate hin hd hi ht (wellShaped_iff.mp hw).1 hx (h.clean x (hsub x hx)) h.visible hmem

/-- Nothing in a function leads beyond its body. -/
theorem context_body (hk : f.kind = "function_definition") (hd : (numbers src f.node).Nodup)
    (hr : functionRecords src f = .ok rs) (hvis : AllVisible rs) (hi : i ∈ places f.node)
    (ht : f.node.children[i]? = some t) : ∃ E p, Context src rs (f.child i t) E p := by
  have hkind : f.node.kind = "function_definition" := hk
  obtain ⟨v, q, p, hv, hq, hp, rfl⟩ := functionRecords_eq_ok hk (isLeaf_of_child ht) hr
  rw [parts_eq] at hq
  obtain ⟨c, hc, rfl⟩ := partNamed_children hq
  obtain rfl := named_body (.inr (.inr hk)) hi ht hc
  have hne := head_ne hd hi ht (by simp [hk]) (id_ofLocus hv)
  refine ⟨_, p, hp, (allVisible_append.mp hvis).1, ?_, ?_, ?_⟩
  · intro x hx label
    simp [hne x hx]
  · intro x hx
    simp [Ne.symm (hne x hx)]
  · intro x _ _ label y
    have hlast : ¬ Leads [⟨v, []⟩] x label y := by
      rintro ⟨e, he, -⟩
      cases he
    simp [hlast, Fate, Jumps, Locus.child, onward, outlets, waiting?, targets, hkind]

theorem Inside.context (h : Inside f l) (hk : f.kind = "function_definition")
    (ho : orderlyInside f.node = true) (hd : (numbers src f.node).Nodup)
    (hr : functionRecords src f = .ok rs) (hvis : AllVisible rs) :
    ∃ E p, Context src rs l E p := by
  induction h with
  | body hi ht => exact context_body hk hd hr hvis hi ht
  | child ha hi ht ih =>
    obtain ⟨E, p, hctx⟩ := ih
    exact hctx.child (ha.orderly ho) (ha.nodup hd) hi ht

/-! ### Jumps and heads -/

theorem not_structured_of_jump (hj : isJump l.kind = true) : l.kind ∉ structuredKinds := by
  have hk : l.kind = "break_statement" ∨ l.kind = "continue_statement" := by simpa [isJump] using hj
  rcases hk with hk | hk <;> simp [hk, structuredKinds]

/-- A statement of a kind that does not run its children is built as a single vertex. -/
theorem Builds.simple_of (h : Builds src l E p) (hk : l.kind ∉ structuredKinds) :
    ∃ v : Vertex, v.id = spanId src l.node ∧ p = ⟨[⟨v, edgesTo v E⟩],
      if hasKind ["return_statement", "break_statement", "continue_statement"] l.kind then []
      else [{ vertex := v }]⟩ := by
  simp only [structuredKinds, List.mem_cons, not_or] at hk
  cases h with
  | block hk' => simp [hk'] at hk
  | clause hk' => simp [hk'] at hk
  | branch hk' => simp [hk'] at hk
  | loop hk' =>
    have hk' : l.kind = "while_statement" ∨ l.kind = "for_statement" := by
      simpa [isCountedLoop] using hk'
    rcases hk' with hk' | hk' <;> simp [hk'] at hk
  | doLoop hk' => simp [hk'] at hk
  | bare hk' => simp [hk'] at hk
  | switch hk' => simp [hk'] at hk
  | label hk' => simp [hk'] at hk
  | @simple v _ hv => exact ⟨v, hv, rfl⟩

/-- From a jump control goes to its targets and nowhere else. -/
theorem Context.leads_jump (h : Context src rs j E p) (ho : orderly j.node = true)
    (hj : isJump j.kind = true) (hmem : spanId src j.node ∈ recordedIds rs) :
    Leads rs (spanId src j.node) label y ↔ label = "" ∧ y ∈ targets src j.kind j.above := by
  obtain ⟨hw, hin⟩ := orderly_iff.mp ho
  have hk : j.kind = "break_statement" ∨ j.kind = "continue_statement" := by simpa [isJump] using hj
  have hnum : spanId src j.node ∈ numbers src j.node := mem_numbers.mpr (.inl (spanId_mem_own hj))
  have hrec := (h.ids _ hnum).mp hmem
  have hnone : ∀ kind, spanId src j.node ∉ jumpIds src kind j := by
    intro kind hx
    obtain ⟨i, t, hi, -⟩ := jumpIds_inner hin hx
    rw [Locus.kind, isJump_of_place hi] at hj
    cases hj
  have hscan : ∀ kind, spanId src j.node ∈ scannedIds src kind j ↔ j.kind = kind := by
    intro kind
    simp [scannedIds, scanned, hj]
  rw [h.fate _ hnum hrec]
  rcases builds hw h.run with ⟨-, rfl⟩ | ⟨-, -, hb⟩
  · cases hrec
  obtain ⟨v, hv, rfl⟩ := hb.simple_of (not_structured_of_jump hj)
  have hends :
      hasKind ["return_statement", "break_statement", "continue_statement"] j.kind = true := by
    rcases hk with hk | hk <;> simp [hk, hasKind]
  simp only [Fate, Jumps, hnone, hscan, hends, if_true, leads_cons, h.clean _ hnum, not_leads_nil,
    not_opens_nil, false_and, and_false, false_or]
  rcases hk with hk | hk <;> simp [hk]

/-- The number of the vertex at which a loop is left: its head, or the condition of a do loop. -/
def headId? (src : Source) (t : Tree) : Option Int :=
  if t.kind = "do_statement" then conditionId? src t else some (spanId src t)

theorem isJump_of_loop (hk : isLoop kind = true) : isJump kind = false := by
  have hk : kind = "while_statement" ∨ kind = "for_statement" ∨ kind = "do_statement" := by
    simpa [isLoop, isCountedLoop, or_assoc] using hk
  rcases hk with rfl | rfl | rfl <;> rfl

/-- The head of a while or for loop leads out along `N` to what comes next. -/
theorem Context.leads_loopHead {body : Piece} {bs cs : List Vertex}
    (h : Context src rs l E (.looped v E { body with exits := waysBack body bs cs }))
    (ho : orderly l.node = true) (hd : (numbers src l.node).Nodup)
    (hk : isCountedLoop l.kind = true) (hown : v.id ∈ ownNumbers src l.node) (hc : Named l "body" c)
    (hbody : (partAt src c).run [⟨v, "Y"⟩] = .ok body) :
    Leads rs v.id "N" y ↔ onward src true l.above = some y := by
  have hmem : c.node ∈ inner l.node := by
    rw [inner_body (.inl (isLoop_of_counted hk)) hc]
    exact List.mem_cons_self
  have hc' := (orderlyInside_iff.mp (orderly_iff.mp ho).2).1 c.node hmem
  have hpass := passes c hc' (own_notMem_inner hd hown hmem) _ _ hbody
  have hleads : ¬ Leads body.records v.id "N" y := by
    rw [hpass.leads]
    simp
  have hopens : ¬ Opens body.exits v.id "N" := by
    rw [hpass.opens]
    simp
  have hback : loopsBack src v.id l = true := by
    rw [loopsBack_eq_true, scannedIds_loop hk (isJump_of_loop (isLoop_of_counted hk))]
    exact List.not_mem_nil
  have hnum : v.id ∈ numbers src l.node := mem_numbers.mpr (.inl hown)
  rw [h.fate v.id hnum (by simp [Piece.looped]), Fate, leads_looped, opens_waysBack, hback]
  simp [h.clean v.id hnum, hleads, hopens, Piece.looped]

/-- So does the condition of a do loop. -/
theorem Context.leads_condition {w : Vertex} {body : Piece} {bs cs : List Vertex}
    (h : Context src rs l E
      { Piece.repeated w { body with exits := body.exits ++ plainExits cs } with
        exits := ⟨w, "N"⟩ :: plainExits bs })
    (ho : orderly l.node = true) (hd : (numbers src l.node).Nodup) (hk : l.kind = "do_statement")
    (hown : w.id ∈ ownNumbers src l.node) (hc : Named l "body" c)
    (hbody : (partAt src c).run E = .ok body) :
    Leads rs w.id "N" y ↔ onward src true l.above = some y := by
  have hloop : isLoop l.kind = true := by rw [hk]; rfl
  have hmem : c.node ∈ inner l.node := by
    rw [inner_body (.inl hloop) hc]
    exact List.mem_cons_self
  have hin := (orderly_iff.mp ho).2
  have hc' := (orderlyInside_iff.mp hin).1 c.node hmem
  have hnum : w.id ∈ numbers src l.node := mem_numbers.mpr (.inl hown)
  obtain ⟨hleads, hopens⟩ :=
    (passes c hc' (own_notMem_inner hd hown hmem) _ _ hbody).quiet (h.clean w.id hnum)
  have hback : loopsBack src w.id l = true := by
    rw [loopsBack_eq_true, scannedIds_other (by simp [hk, isCountedLoop]) (isJump_of_loop hloop)]
    intro hj
    obtain ⟨i, t, hi, ht, hs⟩ := jumpIds_inner hin hj
    have hmem' : t ∈ inner l.node := mem_inner.mpr ⟨i, hi, ht⟩
    have hin' := (orderly_iff.mp ((orderlyInside_iff.mp hin).1 t hmem')).2
    exact own_notMem_inner hd hown hmem' (scannedIds_numbers hin' hs)
  rw [h.fate w.id hnum (by rw [recordedIds_repeated]; simp), Fate, leads_repeated, hback]
  simp [hleads, hopens]

/-- A loop that control comes to is left from its head for what comes next. -/
theorem Context.leads_head (h : Context src rs l E p) (ho : orderly l.node = true)
    (hd : (numbers src l.node).Nodup) (hk : isLoop l.kind = true) (hmem : p.records ≠ []) :
    ∃ z, headId? src l.node = some z ∧ ∀ y, Leads rs z "N" y ↔
    onward src true l.above = some y := by
  have hkind : l.node.kind = "while_statement" ∨ l.node.kind = "for_statement" ∨
      l.node.kind = "do_statement" := by
    simpa [isLoop, isCountedLoop, Locus.kind, or_assoc] using hk
  rcases builds (orderly_iff.mp ho).1 h.run with ⟨-, rfl⟩ | ⟨hleaf, -, hb⟩
  · exact absurd rfl hmem
  cases hb with
  | block hk' => simp [show l.node.kind = _ from hk'] at hkind
  | clause hk' => simp [show l.node.kind = _ from hk'] at hkind
  | branch hk' => simp [show l.node.kind = _ from hk'] at hkind
  | @loop v c body bs cs hk' hv hc hbody =>
    have hne : l.node.kind ≠ _ ∧ l.node.kind ≠ _ ∧ l.node.kind ≠ _ := kinds_of_counted hk'
    refine ⟨v.id, by rw [headId?, if_neg hne.2.2, hv],
      fun y => h.leads_loopHead ho hd hk' ?_ hc hbody⟩
    rw [ownNumbers_own hleaf hne, hv]
    exact List.mem_cons_self
  | @doLoop w c body bs cs hk' hw hc hbody =>
    have hdo : l.node.kind = "do_statement" := hk'
    refine ⟨w.id, by rw [headId?, if_pos hdo, hw], fun y => h.leads_condition ho hd hk' ?_ hc hbody⟩
    rw [ownNumbers_do hleaf hk', hw]
    exact List.mem_cons_self
  | bare hk' => simp [show l.node.kind = _ from hk'] at hkind
  | switch hk' => simp [show l.node.kind = _ from hk'] at hkind
  | label hk' => simp [show l.node.kind = _ from hk'] at hkind
  | simple hk' =>
    simp only [structuredKinds, List.mem_cons, not_or, Locus.kind] at hk'
    simp [hk'] at hkind

/-! ### The statement that a jump belongs to -/

/-- The innermost node around a place whose kind is asked for, inside the function. -/
def enclosing? (stops : String → Bool) : List (Tree × Nat) → Option Locus
  | [] => none
  | (p, _) :: rest =>
    if p.kind = "function_definition" then none
    else if stops p.kind then some ⟨p, rest⟩
    else enclosing? stops rest

/-- The kinds of statements that a break leaves. -/
def isBreakable (kind : String) : Bool := isLoop kind || kind == "switch_statement"

/-- The question leaves out no node that does something with jumps of this kind. -/
def Catches (kind : String) (stops : String → Bool) : Prop :=
  ∀ k, stops k = false → isLoop k = false ∧ (kind = "break_statement" → k ≠ "switch_statement")

theorem catches_break : Catches "break_statement" isBreakable := by
  intro k hk
  rw [isBreakable, Bool.or_eq_false_iff] at hk
  exact ⟨hk.1, fun _ => by simpa using hk.2⟩

theorem catches_continue : Catches "continue_statement" isLoop := fun _ hk => ⟨hk, by simp⟩

theorem Catches.loop (h : Catches kind stops) {k : String} (hk : isLoop k = true) :
    stops k = true := by
  by_contra hs
  rw [(h k (by simpa using hs)).1] at hk
  cases hk

/-- A do loop takes what stands below its body, not the body itself. -/
def doTakes (src : Source) (kind : String) (l : Locus) : List Int :=
  if l.kind = "do_statement" then
    (if kind = "break_statement" then onward src false l.above else conditionId? src l.node).toList
  else []

theorem takes_of_caught (h : Catches kind stops) (hs : stops l.kind = false) :
    takes src kind l = [] := by
  obtain ⟨hloop, hswitch⟩ := h _ hs
  rw [isLoop, Bool.or_eq_false_iff] at hloop
  unfold takes
  split
  · rename_i hk
    rw [if_neg (hswitch hk)]
  · rw [if_neg (by simp [hloop.1])]

/-- Below a node that is no loop, the only outlet is that of a do loop of which the node is the
body. -/
theorem outlets_of_caught (h : Catches kind stops) (hs : stops l.kind = false)
    (hS : enclosing? stops l.above = some S) :
    y ∈ outlets src kind l ↔ parentIs l "do_statement" = true ∧ y ∈ doTakes src kind S := by
  obtain ⟨hloop, -⟩ := h _ hs
  have hcounted : isCountedLoop l.kind = false := by
    rw [isLoop, Bool.or_eq_false_iff] at hloop
    exact hloop.1
  obtain ⟨t, above⟩ := l
  cases above with
  | nil => cases hS
  | cons q rest =>
    obtain ⟨q, i⟩ := q
    by_cases hdo : q.kind = "do_statement"
    · have hS : S = ⟨q, rest⟩ := by
        have hstop : stops "do_statement" = true := h.loop rfl
        simpa [enclosing?, hdo, hstop, eq_comm] using hS
      subst hS
      rw [Locus.kind] at hloop hcounted
      simp [outlets, doTakes, parentIs, Locus.parent?, Locus.kind, hdo, hloop, hcounted]
    · simp [outlets, parentIs, Locus.parent?, hdo, hloop]

/-- The targets of a jump, from the statement that it belongs to. -/
theorem mem_targets (h : Catches kind stops) (hS : enclosing? stops l.above = some S) :
    y ∈ targets src kind l.above ↔
      (y ∈ takes src kind S ∨ parentIs l "do_statement" = false ∧ y ∈ doTakes src kind S) ∨
        y ∈ outlets src kind S ∨ isCountedLoop S.kind = false ∧ y ∈ targets src kind S.above := by
  obtain ⟨t, above⟩ := l
  induction above generalizing t with
  | nil => cases hS
  | cons q rest ih =>
    obtain ⟨q, i⟩ := q
    rw [enclosing?] at hS
    split at hS
    · cases hS
    rename_i hfun
    rw [targets, if_neg hfun, List.mem_append, List.mem_append, or_assoc]
    -- A node that is asked for ends the climb; any other only passes on what a do loop right above
    -- it takes.
    split at hS
    · cases hS
      have hbody :
          ¬ (parentIs ⟨t, (q, i) :: rest⟩ "do_statement" = false ∧
            y ∈ doTakes src kind ⟨q, rest⟩) := by
        rintro ⟨hp, hy⟩
        by_cases hdo : q.kind = "do_statement"
        · simp [parentIs, Locus.parent?, hdo] at hp
        · simp [doTakes, Locus.kind, hdo] at hy
      cases hloop : isCountedLoop q.kind <;> simp [hbody, Locus.kind, hloop]
    · rename_i hs
      have hs : stops q.kind = false := Bool.not_eq_true _ |>.mp hs
      have hloop := (h q.kind hs).1
      rw [isLoop, Bool.or_eq_false_iff, beq_eq_false_iff_ne] at hloop
      have hbody : parentIs ⟨t, (q, i) :: rest⟩ "do_statement" = false := by
        simp [parentIs, Locus.parent?, hloop.2]
      have hrest : y ∈ targets src kind rest ↔ _ := ih q hS
      rw [takes_of_caught h (l := ⟨q, rest⟩) hs, outlets_of_caught h (l := ⟨q, rest⟩) hs hS,
        hloop.1, if_neg Bool.false_ne_true, hrest, hbody]
      cases parentIs ⟨q, rest⟩ "do_statement" <;> simp [or_assoc, or_left_comm]

theorem parentIs_of_free (h : Catches kind stops) (hS : enclosing? stops l.above = none) :
    parentIs l "do_statement" = false := by
  obtain ⟨t, above⟩ := l
  cases above with
  | nil => rfl
  | cons q rest =>
    obtain ⟨q, i⟩ := q
    have hne : q.kind ≠ "do_statement" := by
      intro hdo
      have hstop : stops "do_statement" = true := h.loop rfl
      simp [enclosing?, hdo, hstop] at hS
    simp [parentIs, Locus.parent?, hne]

theorem outlets_of_parent (hp : parentIs l "do_statement" = false) : outlets src kind l =
    if kind = "break_statement" then (if isLoop l.kind then (waiting? src l).toList else [])
    else [] := by
  obtain ⟨t, above⟩ := l
  cases above with
  | nil => simp [outlets]
  | cons q rest =>
    have hne : q.1.kind ≠ "do_statement" := by simpa [parentIs, Locus.parent?] using hp
    simp [outlets, hne]

/-- Where nothing around takes jumps of a kind, there are no targets. -/
theorem targets_of_free (h : Catches kind stops) (hS : enclosing? stops above = none) :
    targets src kind above = [] := by
  induction above with
  | nil => rfl
  | cons q rest ih =>
    obtain ⟨q, i⟩ := q
    rw [enclosing?] at hS
    rw [targets]
    split at hS
    · rename_i hfun
      rw [if_pos hfun]
    rename_i hfun
    split at hS
    · cases hS
    rename_i hs
    have hs : stops q.kind = false := Bool.not_eq_true _ |>.mp hs
    have hloop : isLoop (⟨q, rest⟩ : Locus).kind = false := (h q.kind hs).1
    have hp : parentIs ⟨q, rest⟩ "do_statement" = false := parentIs_of_free h hS
    rw [if_neg hfun, takes_of_caught h (l := ⟨q, rest⟩) hs, ih hS, outlets_of_parent hp, hloop]
    simp

/-- Where no loop stands around, all that goes onward may go back. -/
theorem onward_of_free (h : Catches kind stops) (hS : enclosing? stops above = none) :
    onward src false above = onward src true above := by
  induction above with
  | nil => rfl
  | cons q rest ih =>
    obtain ⟨q, i⟩ := q
    rw [enclosing?] at hS
    split at hS
    · rename_i hfun
      simp [onward, hfun]
    split at hS
    · cases hS
    rename_i hs
    have hloop := (h q.kind (Bool.not_eq_true _ |>.mp hs)).1
    simp only [isLoop, isCountedLoop, Bool.or_eq_false_iff, beq_eq_false_iff_ne] at hloop
    have ih := ih hS
    unfold onward
    split <;> simp_all

/-! ### Positions around -/

theorem Inside.enclosing (h : Inside f l) (hk : f.kind = "function_definition")
    (ho : orderlyInside f.node = true) (hS : enclosing? stops l.above = some S) :
    Inside f S ∧ stops S.kind = true ∧ S.node.isLeaf = false ∧
      ∀ src, ∀ x ∈ numbers src l.node, x ∈ numbers src S.node := by
  induction h with
  | body hi ht =>
    have hk : f.node.kind = "function_definition" := hk
    simp [Locus.child, enclosing?, hk] at hS
  | @child a i t ha hi ht ih =>
    have hne : a.node.kind ≠ "function_definition" := ha.kind_ne ho
    have hsub : ∀ src, ∀ x ∈ numbers src t, x ∈ numbers src a.node :=
      fun src x hx => numbers_subset (mem_inner.mpr ⟨i, hi, ht⟩) hx
    rw [Locus.child, enclosing?, if_neg hne] at hS
    split at hS
    · rename_i hs
      cases hS
      exact ⟨ha, hs, isLeaf_of_child ht, hsub⟩
    · obtain ⟨hin, hstop, hleaf, hnum⟩ := ih hS
      exact ⟨hin, hstop, hleaf, fun src x hx => hnum src x (hsub src x hx)⟩

theorem Inside.condition (h : Inside f l) (ho : orderlyInside f.node = true)
    (hdo : l.kind = "do_statement") :
    ∃ z, conditionId? src l.node = some z := by
  obtain ⟨-, -, -, hcondition⟩ := wellShaped_iff.mp (orderly_iff.mp (h.orderly ho)).1
  obtain ⟨d, hd⟩ := Option.isSome_iff_exists.mp (hcondition hdo)
  exact ⟨spanId src d, by rw [conditionId?, hd]; rfl⟩

theorem Inside.parent_do (h : Inside f l) (hk : f.kind = "function_definition")
    (ho : orderlyInside f.node = true) (hp : parentIs l "do_statement" = true) :
    ∃ z, outlets src "continue_statement" l = [z] := by
  cases h with
  | body hi ht =>
    have hk : f.node.kind = "function_definition" := hk
    simp [Locus.child, parentIs, Locus.parent?, hk] at hp
  | @child a i t ha hi ht =>
    have hdo : a.node.kind = "do_statement" := by
      simpa [Locus.child, parentIs, Locus.parent?] using hp
    obtain ⟨z, hz⟩ : ∃ z, conditionId? src a.node = some z := ha.condition ho hdo
    exact ⟨z, by simp [outlets, Locus.child, hdo, hz]⟩

/-- What takes a continue from outside a statement is not inside it. -/
theorem Inside.outer (h : Inside f l) (hk : f.kind = "function_definition")
    (ho : orderlyInside f.node = true) (hd : (numbers src f.node).Nodup)
    (hy : y ∈ outlets src "continue_statement" l ∨ y ∈ targets src "continue_statement" l.above) :
    y ∉ numbers src l.node := by
  induction h with
  | body hi ht =>
    have hk : f.node.kind = "function_definition" := hk
    simp [Locus.child, outlets, targets, hk] at hy
  | @child a i t ha hi ht ih =>
    have hleaf := isLeaf_of_child ht
    have hmem : t ∈ inner a.node := mem_inner.mpr ⟨i, hi, ht⟩
    have hown : ∀ z ∈ ownNumbers src a.node, z ∉ numbers src t :=
      fun z hz => own_notMem_inner (ha.nodup hd) hz hmem
    rcases hy with hy | hy
    · have hdo : a.node.kind = "do_statement" ∧ conditionId? src a.node = some y := by
        by_cases hdo : a.node.kind = "do_statement"
        · simpa [outlets, Locus.child, hdo] using hy
        · simp [outlets, Locus.child, hdo] at hy
      refine hown y ?_
      rw [ownNumbers_do hleaf hdo.1, hdo.2]
      exact List.mem_cons_self
    · have hne : a.node.kind ≠ "function_definition" := ha.kind_ne ho
      rw [Locus.child, targets, if_neg hne, List.mem_append, List.mem_append] at hy
      rcases hy with (hy | hy) | hy
      · have hloop : isCountedLoop a.node.kind = true ∧ y = spanId src a.node := by
          cases hloop : isCountedLoop a.node.kind with
          | true => simpa [takes, Locus.kind, hloop] using hy
          | false => simp [takes, Locus.kind, hloop] at hy
        refine hown y ?_
        rw [ownNumbers_own hleaf (kinds_of_counted hloop.1), hloop.2]
        exact List.mem_cons_self
      · exact fun hx => ih (.inl hy) (numbers_subset hmem hx)
      · split at hy
        · cases hy
        · exact fun hx => ih (.inr hy) (numbers_subset hmem hx)

/-! ### Breaks and continues -/

theorem mem_successors_iff : y ∈ (graphOf rs).successors x ↔ ∃ label, Leads rs x label y := by
  rw [mem_successors, Graph.mem_arcs, edges_graphOf_eq]
  constructor
  · rintro ⟨e, he, hends⟩
    exact ⟨e.label, e, he, hends, rfl⟩
  · rintro ⟨label, e, he, hends, -⟩
    exact ⟨e, he, hends⟩

/-- A function with its records: its statements are orderly, they have numbers of their own, and all
that is recorded is visible. -/
structure Legible (src : Source) (f : Locus) (rs : List Record) : Prop where
  function : f.kind = "function_definition"
  orderly : orderlyInside f.node = true
  distinct : (numbers src f.node).Nodup
  recorded : functionRecords src f = .ok rs
  visible : AllVisible rs

theorem Legible.context (h : Legible src f rs) (hl : Inside f l) : ∃ E p, Context src rs l E p :=
  hl.context h.function h.orderly h.distinct h.recorded h.visible

theorem Legible.graph (h : Legible src f rs) (hg : controlFlow src f = .ok g) : g = graphOf rs := by
  rw [controlFlow, h.recorded] at hg
  exact (Except.ok.inj hg).symm

theorem Legible.inside (h : Legible src f rs) (hl : f.descend? path = some l)
    (hj : isJump l.kind = true) :
    Inside f l := by
  refine inside_of_descend (.inl rfl) h.orderly hl ?_ hj
  rintro rfl
  cases hl
  rw [h.function] at hj
  cases hj

/-- Control leaves the statement for a vertex: along an edge `N` from the head of a loop, and past
the end of any other statement. -/
def Exits (src : Source) (g : Graph) (l : Locus) (y : Int) : Prop :=
  if isLoop l.kind then ∃ z, headId? src l.node = some z ∧ ∃ e ∈ g.edges, e.ends? = some (z, y) ∧
    e.label = "N"
  else onward src true l.above = some y

theorem Legible.exits (h : Legible src f rs) (hl : Inside f l) (hx : x ∈ numbers src l.node)
    (hmem : x ∈ recordedIds rs) :
    Exits src (graphOf rs) l y ↔ onward src true l.above = some y := by
  rw [Exits]
  split
  · rename_i hloop
    obtain ⟨E, p, hctx⟩ := h.context hl
    have hrec : p.records ≠ [] := by
      intro hnil
      have hmem := (hctx.ids x hx).mp hmem
      rw [hnil] at hmem
      cases hmem
    obtain ⟨z, hz, hleads⟩ :=
      hctx.leads_head (hl.orderly h.orderly) (hl.nodup h.distinct) hloop hrec
    rw [← hleads y, Leads, edges_graphOf_eq, hz]
    simp
  · exact Iff.rfl

theorem Legible.successors (h : Legible src f rs) (hl : Inside f l) (hj : isJump l.kind = true)
    (hmem : spanId src l.node ∈ recordedIds rs) :
    y ∈ (graphOf rs).successors (spanId src l.node) ↔ y ∈ targets src l.kind l.above := by
  obtain ⟨E, p, hctx⟩ := h.context hl
  rw [mem_successors_iff]
  simp only [hctx.leads_jump (hl.orderly h.orderly) hj hmem]
  exact ⟨fun ⟨_, _, hy⟩ => hy, fun hy => ⟨"", rfl, hy⟩⟩

end CrossCall.Flow

import CrossCall.Proofs.FileLocality

/-! Which statements the search for a context finds. It follows variables from statement to
statement until nothing new turns up, but of the statements on one line it takes only the first that
it comes to: all statements that are connected with the first variables are found exactly if no two
of them stand on one line. -/
namespace CrossCall

variable {α : Type} [DecidableEq α] {s t : List α}

/-! ### Names that are new -/

theorem unionNames_extends (s t : List α) : s <+: unionNames s t := by
  unfold unionNames
  induction t generalizing s with
  | nil => exact List.prefix_rfl
  | cons x rest ih =>
    refine List.IsPrefix.trans ?_ (ih (insertName s x))
    unfold insertName
    split
    · exact List.prefix_rfl
    · exact List.prefix_append _ _

theorem exists_new (h : s.length < (unionNames s t).length) : ∃ x ∈ t, x ∉ s := by
  induction t with
  | nil => exact absurd h (lt_irrefl _)
  | cons x rest ih =>
    by_cases hx : x ∈ s
    · have hskip : unionNames s (x :: rest) = unionNames s rest := by
        simp [unionNames, insertName, hx]
      obtain ⟨y, hy, hnew⟩ := ih (hskip ▸ h)
      exact ⟨y, List.mem_cons_of_mem _ hy, hnew⟩
    · exact ⟨x, List.mem_cons_self, hx⟩

end CrossCall

namespace CrossCall.Embedding

open CrossCall.Flow (Graph Vertex controlFlow dataDependence exists_ok_of_toOption)

variable {g : Graph} {start : List String} {s : Trace} {v w : Vertex} {us : List Vertex}
  {x : String} {e : Statement} {n : Nat}

/-! ### Connected variables -/

/-- The least set of variables that holds the first ones and, with one variable of a statement, all
of them. -/
inductive Connected (g : Graph) (start : List String) : String → Prop
  | start {x : String} (hx : x ∈ start) : Connected g start x
  | step {x y : String} {v : Vertex} (hv : v ∈ g.vertices) (hy : y ∈ variablesAt g v)
      (h : Connected g start y)
      (hx : x ∈ variablesAt g v) : Connected g start x

/-- A statement has a connected variable. -/
def Related (g : Graph) (start : List String) (v : Vertex) : Prop :=
  ∃ x ∈ variablesAt g v, Connected g start x

/-- What a context says of a statement. -/
def entryAt (g : Graph) (v : Vertex) : Statement :=
  ⟨v.line, v.text, v.kind, g.defs.getD v.id [], g.uses.getD v.id []⟩

/-- All related statements have entries, each its own. -/
def Complete (g : Graph) (start : List String) (context : List Statement) : Prop :=
  ∀ us : List Vertex, us.Sublist g.vertices → (∀ v ∈ us, Related g start v) →
    (us.map (entryAt g)).Subperm context

/-- No two related statements stand on one line. -/
def LinesApart (g : Graph) (start : List String) : Prop :=
  g.vertices.Pairwise fun v w => Related g start v → Related g start w → v.line ≠ w.line

theorem mem_variablesAt : x ∈ variablesAt g v ↔ x ∈ (entryAt g v).defs ∨ x ∈ (entryAt g v).uses :=
  mem_unionNames

theorem Related.connected (h : Related g start v) (hv : v ∈ g.vertices) (hx : x ∈ variablesAt g v) :
    Connected g start x := by
  obtain ⟨y, hy, hc⟩ := h
  exact .step hv hy hc hx

/-! ### One statement -/

/-- The state of the search after it has taken a statement. -/
def taken (g : Graph) (s : Trace) (v : Vertex) : Trace where
  vars := unionNames s.vars (variablesAt g v)
  lines := s.lines ++ [v.line]
  found := s.found ++ [entryAt g v]
  grown := s.grown || decide (s.vars.length < (unionNames s.vars (variablesAt g v)).length)

theorem follow_cases (g : Graph) (s : Trace) (v : Vertex) :
    follow g s v = s ∧ (v.line ∈ s.lines ∨ ∀ x ∈ variablesAt g v, x ∉ s.vars) ∨
      v.line ∉ s.lines ∧ (∃ x ∈ variablesAt g v, x ∈ s.vars) ∧ follow g s v = taken g s v := by
  have hshares : shares (variablesAt g v) s.vars = true ↔ ∃ x ∈ variablesAt g v, x ∈ s.vars := by
    simp [shares]
  unfold follow
  by_cases hline : v.line ∈ s.lines
  · exact .inl ⟨by simp [hline], .inl hline⟩
  by_cases hx : ∃ x ∈ variablesAt g v, x ∈ s.vars
  · exact .inr ⟨hline, hx, by simp [hline, hshares.mpr hx, taken, entryAt]⟩
  · have hnone : shares (variablesAt g v) s.vars = false := by rwa [← Bool.not_eq_true, hshares]
    push Not at hx
    exact .inl ⟨by simp [hnone], .inr hx⟩

theorem taken_grown (h : (taken g s v).grown = false) :
    s.grown = false ∧ (taken g s v).vars = s.vars := by
  simp only [taken, Bool.or_eq_false_iff, decide_eq_false_iff_not, not_lt] at h
  exact ⟨h.1, ((unionNames_extends _ _).eq_of_length_le h.2).symm⟩

/-- What a search from the first variables has come to. -/
structure Traced (g : Graph) (start : List String) (s : Trace) : Prop where
  starts : ∀ x ∈ start, x ∈ s.vars
  connected : ∀ x ∈ s.vars, Connected g start x
  lines : s.lines = s.found.map (·.line)
  apart : s.lines.Nodup
  found : ∀ e ∈ s.found, ∃ v ∈ g.vertices, Related g start v ∧ e = entryAt g v ∧
    ∀ x ∈ variablesAt g v, x ∈ s.vars

namespace Traced

theorem follow (h : Traced g start s) (hv : v ∈ g.vertices) : Traced g start (follow g s v) := by
  rcases follow_cases g s v with ⟨hsame, -⟩ | ⟨hline, ⟨x, hx, hvar⟩, htaken⟩
  · rwa [hsame]
  have hrelated : Related g start v := ⟨x, hx, h.connected x hvar⟩
  rw [htaken]
  exact {
    starts y hy := mem_unionNames.mpr (.inl (h.starts y hy))
    connected y hy := (mem_unionNames.mp hy).elim (h.connected y) (hrelated.connected hv)
    lines := by simp [taken, h.lines, entryAt]
    apart := by simpa [taken, List.nodup_append', h.apart] using hline
    found := by
      intro e he
      rcases List.mem_append.mp he with he | he
      · obtain ⟨w, hw, hr, hentry, hall⟩ := h.found e he
        exact ⟨w, hw, hr, hentry, fun y hy => mem_unionNames.mpr (.inl (hall y hy))⟩
      · exact ⟨v, hv, hrelated, List.mem_singleton.mp he,
          fun y hy => mem_unionNames.mpr (.inr hy)⟩ }

theorem followAll (h : Traced g start s) (hus : ∀ v ∈ us, v ∈ g.vertices) :
    Traced g start (us.foldl (Embedding.follow g) s) := by
  induction us generalizing s with
  | nil => exact h
  | cons v rest ih =>
    have hv := hus v List.mem_cons_self
    exact ih (h.follow hv) fun w hw => hus w (List.mem_cons_of_mem _ hw)

theorem pass (h : Traced g start s) : Traced g start (pass g s) :=
  followAll ⟨h.starts, h.connected, h.lines, h.apart, h.found⟩ fun _ hv => hv

theorem saturate (h : Traced g start s) (n : Nat) : Traced g start (saturate g n s) := by
  induction n generalizing s with
  | zero => exact h
  | succ n ih =>
    unfold Embedding.saturate
    dsimp only
    split
    · exact ih h.pass
    · exact h.pass

end Traced

/-! ### One pass, and all of them -/

/-- Every statement that has a followed variable stands on a line that is taken. -/
def Settled (g : Graph) (s : Trace) : Prop :=
  ∀ v ∈ g.vertices, (∃ x ∈ variablesAt g v, x ∈ s.vars) → v.line ∈ s.lines

/-- Statements that add no variable leave the variables as they are, so each of them was compared
with all. -/
theorem followAll_still (h : (us.foldl (follow g) s).grown = false) :
    s.grown = false ∧ (us.foldl (follow g) s).vars = s.vars ∧
    (∀ k ∈ s.lines, k ∈ (us.foldl (follow g) s).lines) ∧
      ∀ v ∈ us, (∃ x ∈ variablesAt g v, x ∈ s.vars) → v.line ∈ (us.foldl (follow g) s).lines := by
  induction us generalizing s with
  | nil => exact ⟨h, rfl, fun _ hk => hk, fun _ hv => by cases hv⟩
  | cons v rest ih =>
    rw [List.foldl_cons] at h ⊢
    obtain ⟨hgrown, hvars, hlines, hrest⟩ := ih h
    -- The first statement is passed over or taken; in both cases the variables stay.
    have hstep : s.grown = false ∧ (follow g s v).vars = s.vars ∧
        (∀ k ∈ s.lines, k ∈ (follow g s v).lines) ∧
        ((∃ x ∈ variablesAt g v, x ∈ s.vars) → v.line ∈ (follow g s v).lines) := by
      rcases follow_cases g s v with ⟨hsame, hwhy⟩ | ⟨-, -, htaken⟩
      · rw [hsame] at hgrown ⊢
        refine ⟨hgrown, rfl, fun _ hk => hk, fun ⟨x, hx, hvar⟩ => ?_⟩
        exact hwhy.resolve_right fun hnone => hnone x hx hvar
      · rw [htaken] at hgrown ⊢
        obtain ⟨hs, hsame⟩ := taken_grown hgrown
        exact ⟨hs, hsame, fun _ hk => List.mem_append_left _ hk,
          fun _ => List.mem_append_right _ List.mem_cons_self⟩
    obtain ⟨hs, hkeep, hmore, hfirst⟩ := hstep
    refine ⟨hs, hvars.trans hkeep, fun k hk => hlines k (hmore k hk), fun w hw hshare => ?_⟩
    rcases List.mem_cons.mp hw with rfl | hw
    · exact hlines _ (hfirst hshare)
    · exact hrest w hw (by rwa [hkeep])

theorem settled_pass (h : (pass g s).grown = false) : Settled g (pass g s) := by
  obtain ⟨-, hvars, -, hall⟩ := followAll_still h
  intro v hv hshare
  rw [pass, hvars] at hshare
  exact hall v hv hshare

theorem follow_keeps (hx : x ∈ s.vars) : x ∈ (follow g s v).vars := by
  rcases follow_cases g s v with ⟨hsame, -⟩ | ⟨-, -, htaken⟩
  · rwa [hsame]
  · rw [htaken]
    exact mem_unionNames.mpr (.inl hx)

theorem followAll_keeps (hx : x ∈ s.vars) : x ∈ (us.foldl (follow g) s).vars := by
  induction us generalizing s with
  | nil => exact hx
  | cons v rest ih => exact ih (follow_keeps hx)

/-- A search that grew has taken up a new variable of one of the statements. -/
theorem followAll_grown (h : (us.foldl (follow g) s).grown = true) : s.grown = true ∨
    ∃ v ∈ us, ∃ x ∈ variablesAt g v, x ∉ s.vars ∧ x ∈ (us.foldl (follow g) s).vars := by
  induction us generalizing s with
  | nil => exact .inl h
  | cons v rest ih =>
    rw [List.foldl_cons] at h ⊢
    rcases ih h with hgrown | ⟨w, hw, x, hx, hnew, hvar⟩
    · rcases follow_cases g s v with ⟨hsame, -⟩ | ⟨-, -, htaken⟩
      · exact .inl (hsame ▸ hgrown)
      · simp only [htaken, taken, Bool.or_eq_true, decide_eq_true_eq] at hgrown
        refine hgrown.imp_right fun hlonger => ?_
        obtain ⟨x, hx, hnew⟩ := exists_new hlonger
        refine ⟨v, List.mem_cons_self, x, hx, hnew, followAll_keeps ?_⟩
        rw [htaken]
        exact mem_unionNames.mpr (.inr hx)
    · exact .inr ⟨w, List.mem_cons_of_mem _ hw, x, hx, fun hold => hnew (follow_keeps hold), hvar⟩

/-- How many variables of the graph are not yet followed. -/
def unfollowed (g : Graph) (s : Trace) : Nat :=
  ((g.vertices.flatMap (variablesAt g)).filter fun x => decide (x ∉ s.vars)).length

theorem unfollowed_pass (h : (pass g s).grown = true) :
    unfollowed g (pass g s) < unfollowed g s := by
  obtain ⟨v, hv, x, hx, hnew, hvar⟩ := (followAll_grown h).resolve_left Bool.false_ne_true
  have hfewer :
      (g.vertices.flatMap (variablesAt g)).filter (fun x => decide (x ∉ (pass g s).vars)) =
      ((g.vertices.flatMap (variablesAt g)).filter fun x => decide (x ∉ s.vars)).filter
        fun x => decide (x ∉ (pass g s).vars) := by
    rw [List.filter_filter]
    refine List.filter_congr fun y _ => ?_
    have hkeep : y ∈ s.vars → y ∈ (pass g s).vars := fun hy => followAll_keeps hy
    rw [← Bool.decide_and]
    exact decide_eq_decide.mpr ⟨fun hy => ⟨hy, fun hold => hy (hkeep hold)⟩, fun hy => hy.1⟩
  unfold unfollowed
  rw [hfewer, List.length_filter_lt_length_iff_exists]
  refine ⟨x, List.mem_filter.mpr ⟨List.mem_flatMap.mpr ⟨v, hv, hx⟩, decide_eq_true hnew⟩, ?_⟩
  simp only [decide_eq_true_eq, not_not]
  exact hvar

theorem settled_saturate (h : unfollowed g s < n) : Settled g (saturate g n s) := by
  induction n generalizing s with
  | zero => exact absurd h (Nat.not_lt_zero _)
  | succ n ih =>
    unfold saturate
    dsimp only
    split
    · rename_i hgrown
      exact ih (lt_of_lt_of_le (unfollowed_pass hgrown) (Nat.le_of_lt_succ h))
    · rename_i hgrown
      exact settled_pass (by simpa using hgrown)

/-! ### The statements found -/

/-- The search when it is over. -/
def lastTrace (g : Graph) (start : List String) : Trace :=
  saturate g ((g.vertices.flatMap (variablesAt g)).length + 1) { vars := unionNames [] start }

theorem traced_last (g : Graph) (start : List String) : Traced g start (lastTrace g start) := by
  refine Traced.saturate ⟨?_, ?_, rfl, List.nodup_nil, by simp⟩ _
  · exact fun x hx => mem_unionNames.mpr (.inr hx)
  · exact fun x hx => .start ((mem_unionNames.mp hx).resolve_left List.not_mem_nil)

theorem settled_last (g : Graph) (start : List String) : Settled g (lastTrace g start) :=
  settled_saturate (Nat.lt_succ_of_le (List.length_filter_le _ _))

theorem byLine_perm (xs : List Statement) : (byLine xs).Perm xs := List.mergeSort_perm _ _

theorem relatedStatements_perm (g : Graph) (start : List String) :
    (relatedStatements g start).Perm (lastTrace g start).found := byLine_perm _

theorem mem_relatedStatements : e ∈ relatedStatements g start ↔ e ∈ (lastTrace g start).found :=
  (relatedStatements_perm g start).mem_iff

theorem nodup_lines (g : Graph) (start : List String) :
    ((relatedStatements g start).map (·.line)).Nodup := by
  have hlast := traced_last g start
  rw [((relatedStatements_perm g start).map _).nodup_iff, ← hlast.lines]
  exact hlast.apart

/-- The lines of a context go up, and none of them stands twice. -/
theorem relatedStatements_ascending (g : Graph) (start : List String) :
    (relatedStatements g start).Pairwise fun a b => a.line < b.line := by
  have hle : (relatedStatements g start).Pairwise fun a b => decide (a.line ≤ b.line) = true := by
    refine List.pairwise_mergeSort ?_ ?_ _
    · intro a b c hab hbc
      exact decide_eq_true ((of_decide_eq_true hab).trans (of_decide_eq_true hbc))
    · intro a b
      simpa using le_total a.line b.line
  have hne := List.pairwise_map.mp (nodup_lines g start)
  exact hle.imp₂ (fun a b hab hne => lt_of_le_of_ne (of_decide_eq_true hab) hne) hne

/-- A statement with a variable that is followed stands on a line of the context. -/
theorem exists_on_line (hv : v ∈ g.vertices) (hx : x ∈ variablesAt g v)
    (hvar : x ∈ (lastTrace g start).vars) :
    ∃ e ∈ relatedStatements g start, e.line = v.line := by
  have hline := settled_last g start v hv ⟨x, hx, hvar⟩
  rw [(traced_last g start).lines] at hline
  obtain ⟨e, he, hline⟩ := List.mem_map.mp hline
  exact ⟨e, mem_relatedStatements.mpr he, hline⟩

theorem related_of_mem (he : e ∈ relatedStatements g start) :
    ∃ v ∈ g.vertices, Related g start v ∧ e = entryAt g v ∧
    ∀ x ∈ variablesAt g v, x ∈ (lastTrace g start).vars :=
  (traced_last g start).found e (mem_relatedStatements.mp he)

theorem entry_of_mem (he : e ∈ relatedStatements g start) :
    ∃ v ∈ g.vertices, Related g start v ∧ e = entryAt g v := by
  obtain ⟨v, hv, hrelated, hentry, -⟩ := related_of_mem he
  exact ⟨v, hv, hrelated, hentry⟩

theorem LinesApart.eq (h : LinesApart g start) (hv : v ∈ g.vertices) (hw : w ∈ g.vertices)
    (hrv : Related g start v) (hrw : Related g start w) (hline : v.line = w.line) : v = w := by
  by_contra hne
  have hsymm : Std.Symm fun v w : Vertex => Related g start v → Related g start w →
      v.line ≠ w.line :=
    ⟨fun _ _ h hb ha => (h ha hb).symm⟩
  exact h.forall hv hw hne hrv hrw hline

/-- Where no line has two related statements, a followed variable of a statement brings all of
them. -/
theorem LinesApart.taken (h : LinesApart g start) (hv : v ∈ g.vertices) (hx : x ∈ variablesAt g v)
    (hvar : x ∈ (lastTrace g start).vars) :
    entryAt g v ∈ relatedStatements g start ∧
    ∀ y ∈ variablesAt g v, y ∈ (lastTrace g start).vars := by
  obtain ⟨e, he, hline⟩ := exists_on_line hv hx hvar
  obtain ⟨w, hw, hrelated, rfl, hall⟩ := related_of_mem he
  obtain rfl := h.eq hv hw ⟨x, hx, (traced_last g start).connected x hvar⟩ hrelated hline.symm
  exact ⟨he, hall⟩

theorem LinesApart.followed (h : LinesApart g start) (hx : Connected g start x) :
    x ∈ (lastTrace g start).vars := by
  induction hx with
  | start hx => exact (traced_last g start).starts _ hx
  | step hv hy _ hx ih => exact (h.taken hv hy ih).2 _ hx

/-- Where no line has two related statements, a context holds the related statements and nothing
else. -/
theorem LinesApart.mem_iff (h : LinesApart g start) :
    e ∈ relatedStatements g start ↔ ∃ v ∈ g.vertices, Related g start v ∧ e = entryAt g v := by
  refine ⟨entry_of_mem, ?_⟩
  rintro ⟨v, hv, ⟨x, hx, hconnected⟩, rfl⟩
  exact (h.taken hv hx (h.followed hconnected)).1

theorem LinesApart.nodup (h : LinesApart g start) (hus : us.Sublist g.vertices)
    (hrelated : ∀ v ∈ us, Related g start v) : (us.map (·.line)).Nodup := by
  have hpairs := List.Pairwise.sublist hus h
  exact List.pairwise_map.mpr
    (hpairs.imp_of_mem fun ha hb hne => hne (hrelated _ ha) (hrelated _ hb))

theorem LinesApart.complete (h : LinesApart g start) :
    Complete g start (relatedStatements g start) := by
  intro us hus hrelated
  have hnodup : (us.map (entryAt g)).Nodup := by
    refine List.Nodup.of_map (·.line) ?_
    rw [List.map_map]
    exact h.nodup hus hrelated
  refine hnodup.subperm fun e he => ?_
  obtain ⟨v, hv, rfl⟩ := List.mem_map.mp he
  exact h.mem_iff.mpr ⟨v, hus.subset hv, hrelated v hv, rfl⟩

/-- Two related statements on one line cannot both have an entry. -/
theorem linesApart_of_complete (h : Complete g start (relatedStatements g start)) :
    LinesApart g start := by
  rw [LinesApart, List.pairwise_iff_forall_sublist]
  intro v w hsub hv hw hline
  obtain ⟨entries, hperm, hentries⟩ := h [v, w] hsub (by simp [hv, hw])
  have hnodup := (nodup_lines g start).sublist (hentries.map (·.line))
  rw [(hperm.map (·.line)).nodup_iff] at hnodup
  simp [entryAt, hline] at hnodup

/-- The context that a search finds has entries for all related statements exactly if no two of them
stand on one line. In any case its entries are those of related statements, in the order of their
lines and one for each line, and a statement that shares a variable with the first ones or with one
of the entries stands on a line that has an entry. -/
theorem relatedStatements_complete_iff (g : Graph) (start : List String) :
    (Complete g start (relatedStatements g start) ↔ LinesApart g start) ∧
      (∀ e ∈ relatedStatements g start, ∃ v ∈ g.vertices, Related g start v ∧ e = entryAt g v) ∧
        ((relatedStatements g start).Pairwise fun a b => a.line < b.line) ∧
          ∀ v ∈ g.vertices, ∀ x ∈ variablesAt g v,
            (x ∈ start ∨ ∃ e ∈ relatedStatements g start, x ∈ e.defs ∨ x ∈ e.uses) →
              ∃ e ∈ relatedStatements g start, e.line = v.line := by
  refine ⟨⟨linesApart_of_complete, LinesApart.complete⟩, fun _ he => entry_of_mem he,
    relatedStatements_ascending g start, ?_⟩
  rintro v hv x hx (hfirst | ⟨e, he, hvar⟩)
  · exact exists_on_line hv hx ((traced_last g start).starts x hfirst)
  · obtain ⟨w, -, -, rfl, hall⟩ := related_of_mem he
    exact exists_on_line hv hx (hall x (mem_variablesAt.mpr hvar))

/-! ### Two statements on a line -/

def oneLineSource : Source := ⟨"int f()\x7bPyObject_Call(a);b(a);\x7d"⟩

def oneLineTree : Tree :=
  .bareFunction 0 3 (.node "compound_statement" 7 31 (some "body") [
    .node "\x7b" 7 8 none [],
    entryStatement 8 [letter 22] 25,
    .node "expression_statement" 25 30 none [callTree 25 1 [letter 27] 29, .node ";" 29 30 none []],
    .node "\x7d" 30 31 none []])

/-- The function in this text. -/
def oneLineFunction : Locus := Locus.child ⟨unitOf 31 [oneLineTree], []⟩ 0 oneLineTree

/-- Two statements on one line have the variable `a`, and a search that starts from the one does not
find the other. -/
theorem exists_related_left_out : ∃ cfg g v w, controlFlow oneLineSource oneLineFunction = .ok cfg ∧
    g = dataDependence cfg ∧ v ∈ g.vertices ∧ w ∈ g.vertices ∧ v.text = "PyObject_Call(a);" ∧
      Related g (variablesAt g v) w ∧ entryAt g w ∉ relatedStatements g (variablesAt g v) := by
  have heval : (controlFlow oneLineSource oneLineFunction).toOption.map
      (fun cfg => let g := dataDependence cfg
      decide (∃ v ∈ g.vertices, ∃ w ∈ g.vertices, v.text = "PyObject_Call(a);" ∧
        (∃ x ∈ variablesAt g w, x ∈ variablesAt g v) ∧
        entryAt g w ∉ relatedStatements g (variablesAt g v))) =
          some true := by decide +kernel
  obtain ⟨cfg, hcfg, heval⟩ := exists_ok_of_toOption heval
  obtain ⟨v, hv, w, hw, htext, ⟨x, hx, hshared⟩, hout⟩ := of_decide_eq_true heval
  exact ⟨cfg, _, v, w, hcfg, rfl, hv, hw, htext, ⟨x, hx, .start hshared⟩, hout⟩

end CrossCall.Embedding

import CrossCall.Proofs.Connection

/-! Contexts of several calls in one function. Where every statement has a line of its own, a
context is a connected component of the statements and their variables, so two contexts are the same
or have nothing in common, and the order in which the statements are met does not matter. -/
namespace CrossCall.Embedding

open CrossCall.Flow (Graph Vertex controlFlow dataDependence exists_ok_of_toOption)

variable {g g' : Graph} {a b start : List String} {v w : Vertex} {us : List Vertex} {x y : String}
  {line line' : Int}

/-! ### Components -/

theorem Connected.trans (h : ∀ y ∈ b, Connected g a y) (hx : Connected g b x) :
    Connected g a x := by
  induction hx with
  | start hx => exact h _ hx
  | step hv hy _ hx ih => exact .step hv hy ih hx

/-- From every variable that is connected with the first ones a way leads back to each of them. -/
def Joined (g : Graph) (start : List String) : Prop :=
  ∀ x, Connected g start x → ∀ y ∈ start, Connected g [x] y

theorem joined_nil (g : Graph) : Joined g [] := fun _ _ _ hy => absurd hy List.not_mem_nil

theorem joined_variablesAt (hv : v ∈ g.vertices) : Joined g (variablesAt g v) := by
  intro x hx y hy
  induction hx with
  | start hx => exact .step hv hx (.start List.mem_cons_self) hy
  | @step x z u hu hz _ hx ih =>
    -- The last statement on the way to `x` leads from `x` to the variable before it.
    have hlast : Connected g [x] z := .step hu hx (.start List.mem_cons_self) hz
    exact Connected.trans (by simpa using hlast) ih

theorem Joined.connected (h : Joined g a) (hxa : Connected g a x) (hxb : Connected g b x)
    (hy : Connected g a y) :
    Connected g b y := by
  refine Connected.trans (fun z hz => ?_) hy
  exact Connected.trans (by simpa using hxb) (h x hxa z hz)

/-- Variables that lead to one and the same variable lead to the same variables. -/
theorem Joined.connected_iff (ha : Joined g a) (hb : Joined g b) (hxa : Connected g a x)
    (hxb : Connected g b x) :
    Connected g a y ↔ Connected g b y :=
  ⟨ha.connected hxa hxb, hb.connected hxb hxa⟩

/-! ### The order of the statements -/

theorem Connected.reorder (hsub : ∀ v ∈ g.vertices, v ∈ us) (hx : Connected g start x) :
    Connected { g with vertices := us } start x := by
  induction hx with
  | start hx => exact .start hx
  | step hv hy _ hx ih => exact .step (hsub _ hv) hy ih hx

theorem connected_reorder (h : us.Perm g.vertices) :
    Connected { g with vertices := us } start x ↔ Connected g start x :=
  ⟨Connected.reorder fun _ hv => h.mem_iff.mp hv, Connected.reorder fun _ hv => h.mem_iff.mpr hv⟩

/-! ### Contexts -/

theorem linesApart_of_nodup (h : (g.vertices.map (·.line)).Nodup) (start : List String) :
    LinesApart g start :=
  (List.pairwise_map.mp h).imp fun hne _ _ => hne

/-- Contexts that hold the same statements list them in the same order. -/
theorem relatedStatements_ext (h : ∀ e, e ∈ relatedStatements g a ↔ e ∈ relatedStatements g' b) :
    relatedStatements g a = relatedStatements g' b := by
  have hirrefl : Std.Irrefl fun a b : Statement => a.line < b.line := ⟨fun a => lt_irrefl a.line⟩
  have hantisymm : Std.Antisymm fun a b : Statement => a.line < b.line :=
    ⟨fun _ _ hab hba => absurd hba hab.asymm⟩
  exact (relatedStatements_ascending g a).eq_of_mem_iff (relatedStatements_ascending g' b) h

theorem relatedStatements_reorder (hlines : (g.vertices.map (·.line)).Nodup)
    (h : us.Perm g.vertices) :
    relatedStatements { g with vertices := us } start = relatedStatements g start := by
  have hlines' : (us.map (·.line)).Nodup := (h.map _).nodup_iff.mpr hlines
  refine relatedStatements_ext fun e => ?_
  have hapart : LinesApart { g with vertices := us } start := linesApart_of_nodup hlines' start
  rw [(linesApart_of_nodup hlines start).mem_iff, hapart.mem_iff]
  refine exists_congr fun v => and_congr h.mem_iff (and_congr_left fun _ => ?_)
  exact exists_congr fun x => and_congr_right fun _ => connected_reorder h

/-- Two searches that have a statement in common find the same ones. -/
theorem Joined.same_or_apart (hlines : (g.vertices.map (·.line)).Nodup) (ha : Joined g a)
    (hb : Joined g b) :
    relatedStatements g a = relatedStatements g b ∨
    (relatedStatements g a).Disjoint (relatedStatements g b) := by
  have hma : ∀ {e}, e ∈ relatedStatements g a ↔ _ := (linesApart_of_nodup hlines a).mem_iff
  have hmb : ∀ {e}, e ∈ relatedStatements g b ↔ _ := (linesApart_of_nodup hlines b).mem_iff
  refine or_iff_not_imp_right.mpr fun hmeet => relatedStatements_ext fun e => ?_
  rw [List.disjoint_left] at hmeet
  push Not at hmeet
  obtain ⟨common, hca, hcb⟩ := hmeet
  obtain ⟨v, hv, ⟨x, hx, hxa⟩, rfl⟩ := hma.mp hca
  obtain ⟨w, hw, hwb, hentry⟩ := hmb.mp hcb
  obtain rfl : v = w := List.inj_on_of_nodup_map hlines hv hw (congrArg Statement.line hentry)
  have hsame : ∀ y, Connected g a y ↔ Connected g b y :=
    fun y => ha.connected_iff hb hxa (hwb.connected hv hx)
  rw [hma, hmb]
  simp only [Related, hsame]

theorem joined_onLine (g : Graph) (line : Int) : Joined g (variablesOnLine g line) := by
  unfold variablesOnLine
  cases h : g.vertices.find? fun v => v.line == line with
  | none => exact joined_nil g
  | some v => exact joined_variablesAt (List.mem_of_find?_eq_some h)

/-- Where every statement has a line of its own, the contexts found from the variables of two
statements are the same, statement by statement, or have no statement in common, and so have those
of two calls. Other orders of the statements change none of them. -/
theorem contexts_same_or_apart (hlines : (g.vertices.map (·.line)).Nodup) (hv : v ∈ g.vertices)
    (hw : w ∈ g.vertices) (hperm : us.Perm g.vertices) :
    (relatedStatements g (variablesAt g v) = relatedStatements g (variablesAt g w) ∨
      (relatedStatements g (variablesAt g v)).Disjoint (relatedStatements g (variablesAt g w))) ∧
    (∀ d t t', contextAt g d t = contextAt g d t' ∨ (contextAt g d t).Disjoint (contextAt g d t')) ∧
    ∀ start, relatedStatements { g with vertices := us } start = relatedStatements g start := by
  refine ⟨Joined.same_or_apart hlines (joined_variablesAt hv) (joined_variablesAt hw),
    fun d t t' => ?_, fun _ => ?_⟩
  · unfold contextAt
    rcases Joined.same_or_apart hlines (joined_onLine g _) (joined_onLine g _) with hsame | hapart
    · exact .inl (congrArg byLine hsame)
    · exact .inr fun e he he' => hapart ((byLine_perm _).subset he) ((byLine_perm _).subset he')
  · exact relatedStatements_reorder hlines hperm

/-! ### Three statements on three lines -/

def threeLinesSource : Source := ⟨"int f()\n\x7b\na=b;\nc=b;\nd=e;\n\x7d"⟩

/-- An assignment between variables with names of one letter. -/
def letterAssignment (o : Nat) : Tree :=
  .node "expression_statement" o (o + 4) none [
    .node "assignment_expression" o (o + 3) none [
      .node "identifier" o (o + 1) (some "left") [], .node "=" (o + 1) (o + 2) (some "operator") [],
      .node "identifier" (o + 2) (o + 3) (some "right") []],
    .node ";" (o + 3) (o + 4) none []]

def threeLinesTree : Tree :=
  .bareFunction 0 3 (.node "compound_statement" 8 26 (some "body") [
    .node "\x7b" 8 9 none [], letterAssignment 10, letterAssignment 15, letterAssignment 20,
    .node "\x7d" 25 26 none []])

/-- The function in this text. -/
def threeLinesFunction : Locus := Locus.child ⟨unitOf 26 [threeLinesTree], []⟩ 0 threeLinesTree

/-- The first two statements share `b` and have one context, the third has its own. -/
theorem contexts_same_or_apart_threeLines :
    ∃ cfg g v w, controlFlow threeLinesSource threeLinesFunction = .ok cfg ∧
    g = dataDependence cfg ∧ (g.vertices.map (·.line)).Nodup ∧ v ∈ g.vertices ∧ w ∈ g.vertices ∧
      g.vertices.reverse.Perm g.vertices ∧ v.text = "a=b;" ∧ w.text = "d=e;" ∧
        (relatedStatements g (variablesAt g v)).length = 2 ∧
        (relatedStatements g (variablesAt g w)).length = 1 ∧
          (relatedStatements g (variablesAt g v)).Disjoint (relatedStatements g (variablesAt g w)) ∧
            relatedStatements { g with vertices := g.vertices.reverse } (variablesAt g v) =
              relatedStatements g (variablesAt g v) := by
  have heval : (controlFlow threeLinesSource threeLinesFunction).toOption.map
      (fun cfg => let g := dataDependence cfg
      decide ((g.vertices.map (·.line)).Nodup ∧ ∃ v ∈ g.vertices, ∃ w ∈ g.vertices,
        v.text = "a=b;" ∧ w.text = "d=e;" ∧
        (lastTrace g (variablesAt g v)).found.length = 2 ∧
        (lastTrace g (variablesAt g w)).found.length = 1)) =
          some true := by decide +kernel
  obtain ⟨cfg, hcfg, heval⟩ := exists_ok_of_toOption heval
  obtain ⟨hlines, v, hv, w, hw, htext, htext', htwo, hone⟩ := of_decide_eq_true heval
  rw [← (relatedStatements_perm _ _).length_eq] at htwo hone
  have hperm := List.reverse_perm (dataDependence cfg).vertices
  obtain ⟨hcontexts, -, horder⟩ := contexts_same_or_apart hlines hv hw hperm
  have hapart := hcontexts.resolve_left fun hsame => by simp [hsame, hone] at htwo
  exact ⟨cfg, _, v, w, hcfg, rfl, hlines, hv, hw, hperm, htext, htext', htwo, hone, hapart,
    horder _⟩

end CrossCall.Embedding

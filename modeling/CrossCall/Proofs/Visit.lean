import CrossCall.Proofs.Construct

/-! What becomes of control that comes to a piece of syntax: the sites at which it is recorded, in
order, and whether it goes on behind. Both are read off the tree alone. -/
namespace CrossCall.Flow

/-- What a record stands for: a statement, or the condition of a do loop. -/
inductive Site where
  | statement (here : Locus)
  | condition (here : Locus)

namespace Site

def locus : Site → Locus
  | .statement l => l
  | .condition l => l

def number (src : Source) (s : Site) : Int := spanId src s.locus.node

def vertex (src : Source) : Site → Except Fault Vertex
  | .statement l => Vertex.ofLocus src l
  | .condition l => (Vertex.ofLocus src l).map conditionOf

end Site

structure Visit where
  sites : List Site := []
  goesOn : Bool := true

/-- One visit after the other, for as long as control goes on. -/
def Visit.row : List Visit → Visit
  | [] => {}
  | v :: vs => if v.goesOn then ⟨v.sites ++ (row vs).sites, (row vs).goesOn⟩ else v

/-- What a list that goes along with the children has under a field name. -/
def named? {α : Type} (t : Tree) (xs : List α) (name : String) : Option α :=
  (t.fieldIndex? name).bind fun i => xs[i]?

/-- The members that an else clause runs: all but its word, if there are any others. -/
def elseMembers {α : Type} (t : Tree) (xs : List α) : List α :=
  if t.children.length > 1 then ((t.children.zip xs).filter fun c => c.1.kind != "else").map (·.2)
  else []

/-- The visit of a node from those of its children. -/
def visitNode (l : Locus) (vs : List Visit) : Visit :=
  let body := (named? l.node vs "body").getD {}
  if l.node.isLeaf then {}
  else match l.kind with
    | "function_definition" => ⟨body.sites ++ [.statement l], false⟩
    | "compound_statement" => .row vs
    | "else_clause" => .row (elseMembers l.node vs)
    | "if_statement" =>
      let yes := (named? l.node vs "consequence").getD { goesOn := false }
      let no := (named? l.node vs "alternative").getD {}
      ⟨.statement l :: (yes.sites ++ no.sites), yes.goesOn || no.goesOn⟩
    | "while_statement" => ⟨.statement l :: body.sites, true⟩
    | "for_statement" => ⟨.statement l :: body.sites, true⟩
    | "do_statement" =>
      ⟨body.sites ++ (named? l.node l.children "condition").toList.map .condition, true⟩
    | "switch_statement" => ⟨.statement l :: body.sites, body.goesOn || !(breaksBelow l).isEmpty⟩
    | "case_statement" =>
      let kinds := l.node.children.map Tree.kind
      let members := Visit.row (vs.drop (labelLength kinds))
      ⟨.statement l :: members.sites, members.goesOn || decide (kinds.head? = some "case")⟩
    | "translation_unit" => .row vs
    | k =>
      ⟨[.statement l], !hasKind ["return_statement", "break_statement", "continue_statement"] k⟩

mutual

/-- The visit of a tree at a position. -/
def visit (above : List (Tree × Nat)) : Tree → Visit
  | .node k a b f cs => visitNode ⟨.node k a b f cs, above⟩ (visitAll (.node k a b f cs) above 0 cs)

def visitAll (parent : Tree) (above : List (Tree × Nat)) (i : Nat) : List Tree → List Visit
  | [] => []
  | t :: ts => visit ((parent, i) :: above) t :: visitAll parent above (i + 1) ts

end

def visitAt (l : Locus) : Visit := visit l.above l.node

/-- What a construct that control comes to builds, beside its visit. -/
inductive Made (src : Source) (l : Locus) (E : List Exit) : Piece → Visit → Prop
  | function {v : Vertex} {c : Locus} {body : Piece} (hk : l.kind = "function_definition")
      (hv : Vertex.ofLocus src l = .ok v) (hc : Named l "body" c)
      (hbody : (partAt src c).run [{ vertex := v }] = .ok body) :
      Made src l E ⟨body.records ++ [⟨v, []⟩], []⟩ ⟨(visitAt c).sites ++ [.statement l], false⟩
  | block {p : Piece} (hk : l.kind = "compound_statement")
      (h : runBlock src [] [] (l.children.map (partAt src)) E = .ok p) :
      Made src l E p (.row (l.children.map visitAt))
  | members {ls : List Locus} {p : Piece}
      (hk : l.kind = "else_clause" ∨ l.kind = "translation_unit")
      (hls : ∀ c ∈ ls, c ∈ l.children) (h : runAll (ls.map (partAt src)) E = .ok p) :
      Made src l E p (.row (ls.map visitAt))
  | branch {v : Vertex} {c : Locus} {yes no : Piece} {V : Visit} (hk : l.kind = "if_statement")
      (hv : Vertex.ofLocus src l = .ok v) (hc : Named l "consequence" c)
      (hyes : (partAt src c).run [⟨v, "Y"⟩] = .ok yes)
      (hno :
        (∃ d, Named l "alternative" d ∧ (partAt src d).run [⟨v, "N"⟩] = .ok no ∧ V = visitAt d) ∨
        l.node.fieldIndex? "alternative" = none ∧ no = { exits := [⟨v, "N"⟩] } ∧ V = {}) :
      Made src l E (.forked v E yes no)
        ⟨.statement l :: ((visitAt c).sites ++ V.sites), (visitAt c).goesOn || V.goesOn⟩
  | loop {v : Vertex} {c : Locus} {body : Piece} {bs cs : List Vertex}
      (hk : isCountedLoop l.kind = true)
      (hv : Vertex.ofLocus src l = .ok v) (hc : Named l "body" c)
        (hbody : (partAt src c).run [⟨v, "Y"⟩] = .ok body)
      (hbs : verticesOf src (breaksBelow l) = .ok bs)
        (hcs : verticesOf src (continuesBelow l) = .ok cs) :
      Made src l E (.looped v E { body with exits := waysBack body bs cs })
      ⟨.statement l :: (visitAt c).sites, true⟩
  | doLoop {w : Vertex} {c d : Locus} {body : Piece} {bs cs : List Vertex}
      (hk : l.kind = "do_statement")
      (hc : Named l "body" c) (hbody : (partAt src c).run E = .ok body)
        (hw : (Site.condition d).vertex src = .ok w)
      (hbs : recordedJumps src body.records (breaksBelow c) = .ok bs)
      (hcs : recordedJumps src body.records (continuesBelow c) = .ok cs) :
      Made src l E { Piece.repeated w { body with exits := body.exits ++ plainExits cs } with
        exits := ⟨w, "N"⟩ :: plainExits bs } ⟨(visitAt c).sites ++ [.condition d], true⟩
  | bare {v : Vertex} (hk : l.kind = "switch_statement") (hv : Vertex.ofLocus src l = .ok v) :
      Made src l E ⟨[⟨v, edgesTo v E⟩], [{ vertex := v }]⟩ ⟨[.statement l], true⟩
  | switch {v : Vertex} {c : Locus} {body : Piece} {bs : List Vertex}
      (hk : l.kind = "switch_statement")
      (hv : Vertex.ofLocus src l = .ok v) (hc : Named l "body" c)
      (hbody : (partAt src c).run [{ vertex := v }] = .ok body)
        (hbs : verticesOf src (breaksBelow l) = .ok bs) :
      Made src l E (.headed v E { body with exits := body.exits ++ plainExits bs })
        ⟨.statement l :: (visitAt c).sites, (visitAt c).goesOn || !(breaksBelow l).isEmpty⟩
  | label {v : Vertex} {ls : List Locus} {kinds : List String} {body : Piece}
      (hk : l.kind = "case_statement")
      (hkinds : kinds = l.node.children.map Tree.kind) (hv : Vertex.ofLocus src l = .ok v)
      (hls : ∀ c ∈ ls, c ∈ l.children)
        (hbody : runAll (ls.map (partAt src)) [(caseExits kinds v).1] = .ok body) :
      Made src l E (.headed v E { body with exits := body.exits ++ (caseExits kinds v).2 })
        ⟨.statement l :: (Visit.row (ls.map visitAt)).sites,
          (Visit.row (ls.map visitAt)).goesOn || decide (kinds.head? = some "case")⟩
  | simple {v : Vertex} (hk : l.kind ∉ structuredKinds) (hv : Vertex.ofLocus src l = .ok v) :
      Made src l E ⟨[⟨v, edgesTo v E⟩],
        if hasKind ["return_statement", "break_statement", "continue_statement"] l.kind then []
        else [{ vertex := v }]⟩
        ⟨[.statement l],
          !hasKind ["return_statement", "break_statement", "continue_statement"] l.kind⟩

variable {src : Source} {l c : Locus} {v : Vertex} {E : List Exit} {p : Piece} {q : Part}
  {ls : List Locus} {name : String} {V : Visit} {rs : List Record} {f : Locus}

theorem map_eq_ok {ε α β : Type} {x : Except ε α} {f : α → β} {r : β} :
    x.map f = .ok r ↔ ∃ a, x = .ok a ∧ f a = r := by
  cases x with
  | error e => simp [Except.map]
  | ok a => simp [Except.map]

/-- What is computed of a result shows that there is one. -/
theorem exists_ok_of_toOption {ε α β : Type} {x : Except ε α} {k : α → β} {r : β}
    (h : x.toOption.map k = some r) :
    ∃ a, x = .ok a ∧ k a = r := by
  cases x with
  | error e => cases h
  | ok a => exact ⟨a, rfl, Option.some.inj h⟩

/-! ### Visits of children -/

theorem visitAll_eq {parent : Tree} {above : List (Tree × Nat)} (cs : List Tree) (i : Nat) :
    visitAll parent above i cs =
    (cs.mapIdx fun j c => ⟨c, (parent, j + i) :: above⟩).map visitAt := by
  induction cs generalizing i with
  | nil => rfl
  | cons c rest ih =>
    rw [visitAll, ih, List.mapIdx_cons, List.map_cons]
    simp [visitAt, Nat.add_assoc, Nat.add_comm 1 i]

theorem visitAt_eq (l : Locus) : visitAt l = visitNode l (l.children.map visitAt) := by
  have hcs : visitAll l.node l.above 0 l.node.children = l.children.map visitAt := visitAll_eq _ 0
  rw [← hcs]
  obtain ⟨⟨k, a, b, f, cs⟩, above⟩ := l
  rfl

theorem visitAt_leaf (h : l.node.isLeaf = true) : visitAt l = {} := by
  rw [visitAt_eq, visitNode, if_pos h]

theorem named?_children {α : Type} (g : Locus → α) (h : Named l name c) :
    named? l.node (l.children.map g) name = some (g c) := by
  obtain ⟨i, t, hi, ht, rfl⟩ := h
  rw [named?, hi, Option.bind_some, List.getElem?_map, getElem?_children, ht]
  rfl

theorem named?_none {α : Type} {xs : List α} (h : l.node.fieldIndex? name = none) :
    named? l.node xs name = none := by
  rw [named?, h, Option.bind_none]

theorem elseMembers_children {α : Type} (g : Locus → α) : elseMembers l.node (l.children.map g) =
    if l.children.length > 1 then (l.children.filter fun c => c.kind != "else").map g else [] := by
  have hzip : l.node.children.zip (l.children.map g) = l.children.map fun c => (c.node, g c) := by
    rw [← map_node_children, List.zip_map']
  have hlength : l.node.children.length = l.children.length := by
    rw [← map_node_children, List.length_map]
  rw [elseMembers, hzip, List.filter_map, List.map_map, hlength]
  rfl

theorem visitAt_function (hleaf : l.node.isLeaf = false) (hk : l.kind = "function_definition") :
    visitAt l =
    ⟨((named? l.node (l.children.map visitAt) "body").getD {}).sites ++ [.statement l], false⟩ := by
  simp [visitAt_eq l, visitNode, hleaf, hk]

theorem visitAt_else (hleaf : l.node.isLeaf = false) (hk : l.kind = "else_clause") : visitAt l =
    .row (if l.children.length > 1 then (l.children.filter fun c => c.kind != "else").map visitAt
      else []) := by
  rw [← elseMembers_children]
  simp [visitAt_eq l, visitNode, hleaf, hk]

theorem visitAt_if (hleaf : l.node.isLeaf = false) (hk : l.kind = "if_statement") : visitAt l =
    ⟨.statement l ::
      (((named? l.node (l.children.map visitAt) "consequence").getD { goesOn := false }).sites ++
        ((named? l.node (l.children.map visitAt) "alternative").getD {}).sites),
      ((named? l.node (l.children.map visitAt) "consequence").getD { goesOn := false }).goesOn ||
        ((named? l.node (l.children.map visitAt) "alternative").getD {}).goesOn⟩ := by
  simp [visitAt_eq l, visitNode, hleaf, hk]

theorem visitAt_loop (hleaf : l.node.isLeaf = false) (hk : isCountedLoop l.kind = true) :
    visitAt l =
    ⟨.statement l :: ((named? l.node (l.children.map visitAt) "body").getD {}).sites, true⟩ := by
  have hkind : l.kind = "while_statement" ∨ l.kind = "for_statement" := by
    simpa [isCountedLoop] using hk
  rcases hkind with hkind | hkind <;> simp [visitAt_eq l, visitNode, hleaf, hkind]

theorem visitAt_simple (hleaf : l.node.isLeaf = false) (hk : l.kind ∉ structuredKinds) : visitAt l =
    ⟨[.statement l],
      !hasKind ["return_statement", "break_statement", "continue_statement"] l.kind⟩ := by
  simp only [structuredKinds, List.mem_cons, List.not_mem_nil, not_or, or_false] at hk
  rw [visitAt_eq l]
  simp only [visitNode, hleaf]
  split <;> simp_all

/-! ### What is made -/

theorem runFunction_made (hleaf : l.node.isLeaf = false) (hk : l.kind = "function_definition")
    (h : runFunction src l (l.children.map (partAt src)) E = .ok p) :
    Made src l E p (visitAt l) := by
  obtain ⟨v, hv, h⟩ := bind_eq_ok.mp h
  obtain ⟨q, hq, h⟩ := bind_eq_ok.mp h
  obtain ⟨body, hbody, h⟩ := bind_eq_ok.mp h
  cases h
  obtain ⟨c, hc, rfl⟩ := partNamed_children hq
  rw [visitAt_function hleaf hk, named?_children visitAt hc]
  exact .function hk hv hc hbody

theorem runElse_made (hleaf : l.node.isLeaf = false) (hk : l.kind = "else_clause")
    (h : (if (l.children.map (partAt src)).length > 1 then
        runAll ((l.children.map (partAt src)).filter fun q => q.kind != "else") E
      else .ok { exits := E }) = .ok p) :
    Made src l E p (visitAt l) := by
  rw [visitAt_else hleaf hk]
  rw [List.length_map, List.filter_map] at h
  split at h
  · rename_i hmany
    rw [if_pos hmany]
    exact .members (.inl hk) (fun c hc => List.mem_of_mem_filter hc) h
  · rename_i hfew
    rw [if_neg hfew]
    have hnone : ∀ c ∈ ([] : List Locus), c ∈ l.children := by simp
    exact .members (.inl hk) hnone h

theorem runIf_made (hleaf : l.node.isLeaf = false) (hk : l.kind = "if_statement")
    (h : runIf src l (l.children.map (partAt src)) E = .ok p) : Made src l E p (visitAt l) := by
  obtain ⟨v, q, yes, no, hv, hq, hyes, hno, rfl⟩ := runIf_ok h
  obtain ⟨c, hc, rfl⟩ := partNamed_children hq
  rw [visitAt_if hleaf hk, named?_children visitAt hc]
  unfold BuildsElse at hno
  split at hno
  · rename_i q' hq'
    obtain ⟨d, hd, rfl⟩ := find?_children_some hq'
    rw [named?_children visitAt hd]
    exact .branch hk hv hc hyes (.inl ⟨d, hd, hno, rfl⟩)
  · rename_i hnone
    have hnone := find?_children_none hnone
    rw [named?_none hnone]
    exact .branch hk hv hc hyes (.inr ⟨hnone, hno, rfl⟩)

theorem runCountedLoop_made (hleaf : l.node.isLeaf = false) (hk : isCountedLoop l.kind = true)
    (h : runCountedLoop src l (l.children.map (partAt src)) E = .ok p) :
    Made src l E p (visitAt l) := by
  obtain ⟨v, q, body, bs, cs, hv, hq, hbody, hbs, hcs, rfl⟩ := runCountedLoop_ok h
  obtain ⟨c, hc, rfl⟩ := partNamed_children hq
  rw [visitAt_loop hleaf hk, named?_children visitAt hc]
  exact .loop hk hv hc hbody hbs hcs

theorem runDo_made (hleaf : l.node.isLeaf = false) (hk : l.kind = "do_statement")
    (h : runDo src (l.children.map (partAt src)) E = .ok p) : Made src l E p (visitAt l) := by
  obtain ⟨q, body, q', plain, bs, cs, hq, hbody, hq', hplain, hbs, hcs, rfl⟩ := runDo_ok h
  obtain ⟨c, hc, rfl⟩ := partNamed_children hq
  obtain ⟨d, hd, rfl⟩ := partNamed_children hq'
  have hcondition : named? l.node l.children "condition" = some d := by
    simpa using named?_children id hd
  have hV : visitAt l = ⟨(visitAt c).sites ++ [.condition d], true⟩ := by
    simp [visitAt_eq l, visitNode, hleaf, hk, named?_children visitAt hc, hcondition]
  have hplain : Vertex.ofLocus src d = .ok plain := hplain
  rw [hV]
  exact .doLoop hk hc hbody (by rw [Site.vertex, hplain]; rfl) hbs hcs

theorem runSwitch_made (hleaf : l.node.isLeaf = false) (hk : l.kind = "switch_statement")
    (h : runSwitch src l (l.children.map (partAt src)) E = .ok p) : Made src l E p (visitAt l) := by
  obtain ⟨v, hv, ⟨hnone, rfl⟩ | ⟨q, body, bs, hq, hbody, hbs, rfl⟩⟩ := runSwitch_ok h
  · have hV : visitAt l = ⟨[.statement l], true⟩ := by
      simp [visitAt_eq l, visitNode, hleaf, hk, named?_none (find?_children_none hnone)]
    rw [hV]
    exact .bare hk hv
  · obtain ⟨c, hc, rfl⟩ := partNamed_children hq
    have hV :
        visitAt l =
        ⟨.statement l :: (visitAt c).sites, (visitAt c).goesOn || !(breaksBelow l).isEmpty⟩ := by
      simp [visitAt_eq l, visitNode, hleaf, hk, named?_children visitAt hc]
    rw [hV]
    exact .switch hk hv hc hbody hbs

theorem runCase_made (hleaf : l.node.isLeaf = false) (hk : l.kind = "case_statement")
    (h : runCase src l (l.children.map (partAt src)) E = .ok p) : Made src l E p (visitAt l) := by
  obtain ⟨v, body, hv, hbody, rfl⟩ := runCase_ok h
  rw [kinds_children, ← List.map_drop] at hbody
  rw [kinds_children]
  have hV := visitAt_eq l
  simp only [visitNode, hleaf, hk, ← List.map_drop, Bool.false_eq_true, if_false] at hV
  rw [hV]
  exact .label hk rfl hv (fun c hc => List.mem_of_mem_drop hc) hbody

theorem runSimple_made (hleaf : l.node.isLeaf = false) (hk : l.kind ∉ structuredKinds)
    (h : runSimple src l E = .ok p) : Made src l E p (visitAt l) := by
  obtain ⟨v, hv, rfl⟩ := runSimple_ok h
  rw [visitAt_simple hleaf hk]
  exact .simple hk hv

/-- A node that is no leaf and that control comes to makes one of the constructs. -/
theorem made (hleaf : l.node.isLeaf = false) (hE : E ≠ []) (h : (partAt src l).run E = .ok p) :
    Made src l E p (visitAt l) := by
  have hrun : runNode src l (l.children.map (partAt src)) E = .ok p := by
    rw [← transfer_eq_runNode]
    exact h
  have hlive : ¬ (l.node.isLeaf || E.isEmpty) = true := by simp [hleaf, hE]
  rw [runNode, if_neg hlive] at hrun
  have hrow : l.kind = "compound_statement" ∨ l.kind = "translation_unit" →
      visitAt l = .row (l.children.map visitAt) := by
    rintro (hk | hk) <;> simp [visitAt_eq l, visitNode, hleaf, hk]
  split at hrun
  · rename_i hk
    exact runFunction_made hleaf hk hrun
  · rename_i hk
    rw [hrow (.inl hk)]
    exact .block hk hrun
  · rename_i hk
    exact runElse_made hleaf hk hrun
  · rename_i hk
    exact runIf_made hleaf hk hrun
  · rename_i hk
    exact runCountedLoop_made hleaf (by rw [hk]; rfl) hrun
  · rename_i hk
    exact runCountedLoop_made hleaf (by rw [hk]; rfl) hrun
  · rename_i hk
    exact runDo_made hleaf hk hrun
  · rename_i hk
    exact runSwitch_made hleaf hk hrun
  · rename_i hk
    exact runCase_made hleaf hk hrun
  · rename_i hk
    rw [hrow (.inr hk)]
    exact .members (.inr hk) (fun _ hc => hc) hrun
  · rename_i h₁ h₂ h₃ h₄ h₅ h₆ h₇ h₈ h₉ h₁₀
    refine runSimple_made hleaf ?_ hrun
    simp only [structuredKinds, List.mem_cons, List.not_mem_nil, not_or, or_false]
    exact ⟨h₁, h₂, h₃, h₄, h₅, h₆, h₇, h₈, h₉, h₁₀⟩

/-! ### The records are those of the sites -/

/-- The vertices of a piece are those of the sites, in order, and it has exits where control goes
on. -/
structure Logs (src : Source) (V : Visit) (p : Piece) : Prop where
  sites : List.Forall₂ (fun s v => s.vertex src = .ok v) V.sites p.vertices
  exits : p.exits = [] ↔ V.goesOn = false

/-- Control that comes to a position leaves the records of its sites. -/
def Logged (src : Source) (l : Locus) : Prop :=
  ∀ E p, E ≠ [] → (partAt src l).run E = .ok p → Logs src (visitAt l) p

theorem runAll_nil (ls : List Locus) : runAll (ls.map (partAt src)) [] = .ok {} := by
  induction ls with
  | nil => rfl
  | cons c rest ih => exact bind_eq_ok.mpr ⟨{}, run_nil c, bind_eq_ok.mpr ⟨{}, ih, rfl⟩⟩

/-- A member behind which control does not go on is the last that leaves a trace. -/
theorem runAll_member (hc : Logged src c) (hE : E ≠ [])
    (h : runAll ((c :: ls).map (partAt src)) E = .ok p) :
    ∃ p₁ p₂, (partAt src c).run E = .ok p₁ ∧ Logs src (visitAt c) p₁ ∧ p = p₁.followedBy p₂ ∧
      runAll (ls.map (partAt src)) p₁.exits = .ok p₂ ∧
        ((visitAt c).goesOn = true ∧ p₁.exits ≠ [] ∨ (visitAt c).goesOn = false ∧ p₁.exits = [] ∧
          p₂ = {}) := by
  obtain ⟨p₁, p₂, h₁, h₂, rfl⟩ := runAll_cons h
  have hlogs := hc E p₁ hE h₁
  refine ⟨p₁, p₂, h₁, hlogs, rfl, h₂, ?_⟩
  cases hon : (visitAt c).goesOn with
  | true =>
    refine .inl ⟨rfl, fun hnil => ?_⟩
    rw [hlogs.exits.mp hnil] at hon
    cases hon
  | false =>
    have hnil := hlogs.exits.mpr hon
    rw [hnil, runAll_nil] at h₂
    exact .inr ⟨rfl, hnil, (Except.ok.inj h₂).symm⟩

theorem runAll_logs (hls : ∀ c ∈ ls, Logged src c) (hE : E ≠ [])
    (h : runAll (ls.map (partAt src)) E = .ok p) :
    Logs src (.row (ls.map visitAt)) p := by
  induction ls generalizing E p with
  | nil =>
    cases h
    exact ⟨.nil, iff_of_false hE (by simp [Visit.row])⟩
  | cons c rest ih =>
    obtain ⟨p₁, p₂, -, hlogs, rfl, h₂, ⟨hon, hX⟩ | ⟨hon, hX, rfl⟩⟩ :=
      runAll_member (hls c List.mem_cons_self) hE h
    · have hrest := ih (fun c hc => hls c (List.mem_cons_of_mem _ hc)) hX h₂
      rw [List.map_cons, Visit.row, if_pos hon]
      refine ⟨?_, hrest.exits⟩
      simpa [Piece.vertices, Piece.followedBy] using List.rel_append hlogs.sites hrest.sites
    · rw [List.map_cons, Visit.row, if_neg (by simp [hon])]
      refine ⟨?_, iff_of_true rfl hon⟩
      simpa [Piece.vertices, Piece.followedBy] using hlogs.sites

/-- The head of a construct is recorded before what stands below it. -/
theorem Logs.headed {ss : List Site} {records : List Record} {edges : List Edge} {X : List Exit}
    {on : Bool} (hv : Vertex.ofLocus src l = .ok v)
    (hss : List.Forall₂ (fun s v => s.vertex src = .ok v) ss (records.map (·.vertex)))
    (hX : X = [] ↔ on = false) : Logs src ⟨.statement l :: ss, on⟩ ⟨⟨v, edges⟩ :: records, X⟩ :=
  ⟨.cons hv hss, hX⟩

theorem append_eq_nil_iff_goesOn {X Y : List Exit} {a b : Bool} (hX : X = [] ↔ a = false)
    (hY : Y = [] ↔ b = false) :
    X ++ Y = [] ↔ (a || b) = false := by
  rw [List.append_eq_nil_iff, Bool.or_eq_false_iff, hX, hY]

theorem plainExits_eq_nil {j : List Locus} {vs : List Vertex} (h : verticesOf src j = .ok vs) :
    plainExits vs = [] ↔ (!j.isEmpty) = false := by
  have hlength : vs.length = j.length := by simpa using congrArg List.length (ids_verticesOf h)
  rw [plainExits, List.map_eq_nil_iff, Bool.not_eq_false', List.isEmpty_iff,
    ← List.length_eq_zero_iff, hlength, List.length_eq_zero_iff]

theorem Made.logs (h : Made src l E p V) (hE : E ≠ []) (hin : ∀ c ∈ l.children, Logged src c) :
    Logs src V p := by
  cases h with
  | @function v c body hk hv hc hbody =>
    have hlogs := hin c hc.mem _ _ (List.cons_ne_nil _ _) hbody
    refine ⟨?_, by simp⟩
    rw [Piece.vertices, List.map_append]
    exact List.rel_append hlogs.sites (.cons hv .nil)
  | block hk h =>
    obtain ⟨p', hp', hexits, hvertices⟩ := runBlock_row h
    have hlogs := runAll_logs hin hE hp'
    refine ⟨?_, by rw [hexits]; exact hlogs.exits⟩
    rw [hvertices]
    exact hlogs.sites
  | members hk hls h => exact runAll_logs (fun c hc => hin c (hls c hc)) hE h
  | @branch v c yes no V hk hv hc hyes hno =>
    have hleft := hin c hc.mem _ _ (List.cons_ne_nil _ _) hyes
    have hright : Logs src V no := by
      rcases hno with ⟨d, hd, hno, rfl⟩ | ⟨-, rfl, rfl⟩
      · exact hin d hd.mem _ _ (List.cons_ne_nil _ _) hno
      · exact ⟨.nil, by simp⟩
    refine .headed hv ?_ (append_eq_nil_iff_goesOn hleft.exits hright.exits)
    rw [List.map_append]
    exact List.rel_append hleft.sites hright.sites
  | @loop v c body bs cs hk hv hc hbody =>
    exact .headed hv (hin c hc.mem _ _ (List.cons_ne_nil _ _) hbody).sites (by simp)
  | @doLoop w c d body bs cs hk hc hbody hw hbs hcs =>
    have hlogs := hin c hc.mem _ _ hE hbody
    refine ⟨?_, by simp⟩
    have hvertices :=
      vertices_repeated (c := w) (p := { body with exits := body.exits ++ plainExits cs })
    rw [Piece.vertices] at hvertices ⊢
    rw [hvertices]
    exact List.rel_append hlogs.sites (.cons hw .nil)
  | bare hk hv => exact .headed hv .nil (by simp)
  | @switch v c body bs hk hv hc hbody hbs =>
    have hlogs := hin c hc.mem _ _ (List.cons_ne_nil _ _) hbody
    exact .headed hv hlogs.sites (append_eq_nil_iff_goesOn hlogs.exits (plainExits_eq_nil hbs))
  | @label v ls kinds body hk hkinds hv hls hbody =>
    have hlogs := runAll_logs (fun c hc => hin c (hls c hc)) (List.cons_ne_nil _ _) hbody
    refine .headed hv hlogs.sites (append_eq_nil_iff_goesOn hlogs.exits ?_)
    unfold caseExits
    split <;> simp_all
  | simple hk hv =>
    refine .headed hv .nil ?_
    split <;> simp_all

theorem logged (l : Locus) : Logged src l := by
  induction l using locus_induction with
  | step l ih =>
    intro E p hE h
    cases hleaf : l.node.isLeaf with
    | true =>
      rw [show (partAt src l).run E = .ok { exits := E } from transfer_leaf hleaf E] at h
      cases h
      rw [visitAt_leaf hleaf]
      exact ⟨.nil, by simp [hE]⟩
    | false => exact (made hleaf hE h).logs hE ih

/-- The records of a function are those of its sites, in order. -/
theorem functionRecords_sites (h : functionRecords src f = .ok rs) :
    List.Forall₂ (fun s r => s.vertex src = .ok r.vertex) (visitAt f).sites rs := by
  obtain ⟨p, hp, rfl⟩ := map_eq_ok.mp h
  have hsites := (logged f _ p (List.cons_ne_nil _ _) hp).sites
  rwa [Piece.vertices, List.forall₂_map_right_iff] at hsites

/-! ### The edges of a block -/

theorem filedEdges_fileEdges_perm {id : Int} {es : List Edge} :
    (filedEdges (fileEdges id es rs)).Perm
    (filedEdges rs ++ if id ∈ recordedIds rs then es else []) := by
  induction rs with
  | nil => simp [fileEdges]
  | cons r rest ih =>
    unfold fileEdges
    split
    · rename_i heq
      rw [filedEdges_cons, filedEdges_cons, recordedIds_cons, if_pos (by simp [heq]),
        List.append_assoc, List.append_assoc]
      exact List.perm_append_comm.append_left _
    · rename_i hne
      have hmem : id ∈ recordedIds (r :: rest) ↔ id ∈ recordedIds rest := by simp [Ne.symm hne]
      rw [filedEdges_cons, filedEdges_cons, List.append_assoc]
      simp only [hmem]
      exact ih.append_left _

/-- Beside the edges that were there, each waiting vertex has one more at most. -/
theorem filedEdges_deliver_perm {t : Vertex} {pending : List Vertex} : ∃ late,
    (filedEdges (deliver t pending rs)).Perm (filedEdges rs ++ late) ∧
      ∀ e ∈ late, ∃ w ∈ pending, e = edgeTo t { vertex := w } := by
  induction pending generalizing rs with
  | nil => exact ⟨[], by simp [deliver], by simp⟩
  | cons w rest ih =>
    obtain ⟨late, hperm, hlate⟩ := @ih (fileEdges w.id [edgeTo t { vertex := w }] rs)
    refine ⟨(if w.id ∈ recordedIds rs then [edgeTo t { vertex := w }] else []) ++ late, ?_, ?_⟩
    · rw [deliver, List.foldl_cons, ← deliver, ← List.append_assoc]
      exact hperm.trans (filedEdges_fileEdges_perm.append_right _)
    · intro e he
      rcases List.mem_append.mp he with he | he
      · split at he
        · exact ⟨w, List.mem_cons_self, List.mem_singleton.mp he⟩
        · cases he
      · obtain ⟨w', hw', rfl⟩ := hlate e he
        exact ⟨w', List.mem_cons_of_mem _ hw', rfl⟩

/-- A vertex that waits in a block, or that is left waiting by a member: a break of a loop. -/
def Pending (src : Source) (pending : List Vertex) (ls : List Locus) (w : Vertex) : Prop :=
  w ∈ pending ∨ ∃ c ∈ ls, ∃ j ∈ breaksBelow c, Vertex.ofLocus src j = .ok w

theorem Pending.earlier {found pending : List Vertex} {w : Vertex}
    (h : Pending src (pending ++ found) ls w)
    (hfound : leavesWaiting src (partAt src c) = .ok found) : Pending src pending (c :: ls) w := by
  rcases h with hw | ⟨d, hd, hw⟩
  · rcases List.mem_append.mp hw with hw | hw
    · exact .inl hw
    · unfold leavesWaiting at hfound
      split at hfound
      · obtain ⟨j, hj, hv⟩ := (mem_verticesOf hfound).mp hw
        exact .inr ⟨c, List.mem_cons_self, j, hj, hv⟩
      · cases hfound
        cases hw
  · exact .inr ⟨d, List.mem_cons_of_mem _ hd, hw⟩

/-- The edges of a block are those of the row of its members and edges from waiting vertices. -/
theorem runBlock_perm {pending : List Vertex} {p' : Piece}
    (h : runBlock src rs pending (ls.map (partAt src)) E = .ok p)
    (h' : runAll (ls.map (partAt src)) E = .ok p') :
    ∃ late, (filedEdges p.records).Perm (filedEdges rs ++ filedEdges p'.records ++ late) ∧
      ∀ e ∈ late, ∃ w t, Pending src pending ls w ∧ e = edgeTo t { vertex := w } := by
  induction ls generalizing rs pending E p' with
  | nil =>
    cases h
    cases h'
    exact ⟨[], by simp, by simp⟩
  | cons c rest ih =>
    obtain ⟨piece, found, hpiece, hfound, hrest⟩ := runBlock_cons h
    obtain ⟨p₁, p₂, h₁, h₂, rfl⟩ := runAll_cons h'
    obtain rfl : piece = p₁ := Except.ok.inj (hpiece.symm.trans h₁)
    rw [Piece.followedBy, filedEdges_append]
    rcases hrest with ⟨-, hrest⟩ | ⟨r, -, -, hrest⟩
    · obtain ⟨late, hperm, hlate⟩ := ih hrest h₂
      refine ⟨late, ?_, ?_⟩
      · simpa [List.append_assoc] using hperm
      · intro e he
        obtain ⟨w, t, hw, rfl⟩ := hlate e he
        exact ⟨w, t, hw.earlier hfound, rfl⟩
    · obtain ⟨late, hperm, hlate⟩ := ih hrest h₂
      obtain ⟨now, hnow, hdeliver⟩ :=
        @filedEdges_deliver_perm (rs ++ piece.records) r.vertex (pending ++ found)
      refine ⟨now ++ late, ?_, ?_⟩
      · refine List.perm_iff_count.mpr fun e => ?_
        have hall := hperm.count_eq e
        have hsome := hnow.count_eq e
        simp only [List.count_append, filedEdges_append] at hall hsome ⊢
        omega
      · intro e he
        rcases List.mem_append.mp he with he | he
        · obtain ⟨w, hw, rfl⟩ := hdeliver e he
          exact ⟨w, _, Pending.earlier (.inl hw) hfound, rfl⟩
        · obtain ⟨w, t, hw, rfl⟩ := hlate e he
          rcases hw with hw | ⟨d, hd, hw⟩
          · cases hw
          · exact ⟨w, t, .inr ⟨d, List.mem_cons_of_mem _ hd, hw⟩, rfl⟩

end CrossCall.Flow

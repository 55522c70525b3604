import CrossCall.Proofs.Passage

/-! Where the edges from one vertex of a function lead, told by the nodes around it: to what comes
next, back to the head of a loop, and for a jump to every place to which the constructs around it
take it. -/
namespace CrossCall.Flow

variable {src : Source} {f l a c : Locus} {t t' : Tree} {i k : Nat} {v : Vertex} {x y : Int}
  {kind label : String} {E E' X : List Exit} {rs : List Record} {pending : List Vertex}
  {p p' p₁ p₂ : Piece} {qs₁ qs₂ : List Part} {before after : List Locus} {above : List (Tree × Nat)}

/-! ### Destinations -/

/-- Where control goes when the statement at a place ends. From the body of a while or for loop it
goes back to the head, if it may. -/
def onward (src : Source) (back : Bool) : List (Tree × Nat) → Option Int
  | [] => none
  | (p, i) :: rest =>
    match p.kind with
    | "function_definition" => none
    | "while_statement" => if back then some (spanId src p) else none
    | "for_statement" => if back then some (spanId src p) else none
    | "do_statement" => conditionId? src p
    | "if_statement" => onward src back rest
    | "switch_statement" => onward src back rest
    | _ => (firstEntrance? src (p.children.drop (i + 1))).or (onward src back rest)

/-- Where the breaks of a loop stop that wait in the block around it. -/
def waiting? (src : Source) (l : Locus) : Option Int :=
  match l.above with
  | [] => none
  | (p, i) :: _ =>
    if p.kind = "compound_statement" then stop? src (p.children.drop (i + 1)) else none

/-- Where the jumps below a node are taken by what stands around the node: the breaks of a loop wait
in a block, and a do loop takes all that is below its body. -/
def outlets (src : Source) (kind : String) (l : Locus) : List Int :=
  (if kind = "break_statement" then (if isLoop l.kind then (waiting? src l).toList else [])
    else []) ++
    match l.above with
    | [] => []
    | (p, _) :: rest =>
      if p.kind = "do_statement" then
        (if kind = "break_statement" then onward src (isCountedLoop l.kind) rest
          else conditionId? src p).toList
      else []

/-- Where a node itself takes the jumps below: a switch sends breaks past its end, a while or for
loop takes continues to its head. -/
def takes (src : Source) (kind : String) (l : Locus) : List Int :=
  if kind = "break_statement" then
    (if l.kind = "switch_statement" then (onward src false l.above).toList else [])
  else if isCountedLoop l.kind then [spanId src l.node] else []

/-- All places to which a jump under these nodes is taken. No scan looks into a while or for loop
from outside. -/
def targets (src : Source) (kind : String) : List (Tree × Nat) → List Int
  | [] => []
  | (p, _) :: rest =>
    if p.kind = "function_definition" then []
    else takes src kind ⟨p, rest⟩ ++ outlets src kind ⟨p, rest⟩ ++
      if isCountedLoop p.kind then [] else targets src kind rest

/-- What is open at a number goes back to the head of a loop unless the scan for breaks comes upon
it. -/
def loopsBack (src : Source) (x : Int) (l : Locus) : Bool :=
  decide (x ∉ scannedIds src "break_statement" l)

theorem loopsBack_eq_true : loopsBack src x l = true ↔ x ∉ scannedIds src "break_statement" l :=
  decide_eq_true_iff

/-- A jump with this number is taken to that number. -/
def Jumps (src : Source) (kind : String) (l : Locus) (x y : Int) : Prop :=
  x ∈ jumpIds src kind l ∧ y ∈ outlets src kind l ∨ x ∈ scannedIds src kind l ∧
    y ∈ targets src kind l.above

/-- Where the edges from a number inside a statement lead, given the piece of the statement. -/
def Fate (src : Source) (l : Locus) (p : Piece) (x : Int) (label : String) (y : Int) : Prop :=
  Leads p.records x label y ∨
    Opens p.exits x label ∧ onward src (loopsBack src x l) l.above = some y ∨
    label = "" ∧ (Jumps src "break_statement" l x y ∨ Jumps src "continue_statement" l x y)

/-- A jump inside a child is taken by the node or by what stands around the child. -/
def Taken (src : Source) (kind : String) (a c : Locus) (x y : Int) : Prop :=
  x ∈ jumpIds src kind c ∧ y ∈ outlets src kind c ∨ x ∈ jumpIds src kind a ∧ y ∈ takes src kind a

/-- The piece of a node is built around that of a child: what comes from a number inside the child
is known from the child's piece. -/
structure Contains (src : Source) (a : Locus) (E : List Exit) (p : Piece) (c : Locus)
    (E' : List Exit) (p' : Piece) :
    Prop where
  run : (partAt src c).run E' = .ok p'
  visible : AllVisible p.records → AllVisible p'.records
  clean : ∀ x ∈ numbers src c.node, (∀ label, ¬ Opens E x label) → ∀ label, ¬ Opens E' x label
  ids : ∀ x ∈ numbers src c.node, x ∈ recordedIds p.records ↔ x ∈ recordedIds p'.records
  step : ∀ x ∈ numbers src c.node, (∀ label, ¬ Opens E x label) → AllVisible p.records →
    x ∈ recordedIds p'.records →
    ∀ label y, Leads p.records x label y ∨
    Opens p.exits x label ∧ onward src (loopsBack src x a) a.above = some y ↔
      Leads p'.records x label y ∨ Opens p'.exits x label ∧
      onward src (loopsBack src x c) c.above = some y ∨
        label = "" ∧ (Taken src "break_statement" a c x y ∨ Taken src "continue_statement" a c x y)

/-! ### The other statements -/

/-- An orderly statement that does not have the number. -/
def Apart (src : Source) (x : Int) (l : Locus) : Prop :=
  orderly l.node = true ∧ x ∉ numbers src l.node

theorem Apart.passes (h : Apart src x l) :
    ∀ E p, (partAt src l).run E = .ok p → Passes x (entrance? src l.node) E p :=
  CrossCall.Flow.passes l h.1 h.2

theorem Apart.member (h : Apart src x l) : Enters src l ∧ x ∉ jumpIds src "break_statement" l ∧
    ∀ E p, (partAt src l).run E = .ok p → Passes x (entrance? src l.node) E p :=
  ⟨enters l h.1, notMem_jumpIds (orderly_iff.mp h.1).2 h.2, h.passes⟩

section Child

variable (ho : orderlyInside a.node = true) (hd : (numbers src a.node).Nodup)
  (hi : i ∈ places a.node) (ht : a.node.children[i]? = some t)

include ho hd hi ht

/-- The statements at other places. -/
theorem apart_of_ne (hx : x ∈ numbers src t) (hk : k ∈ places a.node) (hik : i ≠ k)
    (hc : a.children[k]? = some c) :
    Apart src x c := by
  rw [getElem?_children, Option.map_eq_some_iff] at hc
  obtain ⟨t', ht', rfl⟩ := hc
  refine ⟨(orderlyInside_iff.mp ho).1 t' (mem_inner.mpr ⟨k, hk, ht'⟩), ?_⟩
  exact numbers_disjoint hd hi hk hik ht ht' hx

theorem mem_jumpIds_child (hx : x ∈ numbers src t) :
    x ∈ jumpIds src kind a ↔ x ∈ scannedIds src kind (a.child i t) := by
  constructor
  · intro hj
    obtain ⟨k, t', hk, ht', hs⟩ := jumpIds_inner ho hj
    by_cases hik : i = k
    · subst hik
      rw [ht] at ht'
      cases ht'
      exact hs
    · have hin : orderlyInside t' = true :=
        (orderly_iff.mp ((orderlyInside_iff.mp ho).1 t' (mem_inner.mpr ⟨k, hk, ht'⟩))).2
      exact absurd (scannedIds_numbers hin hs) (numbers_disjoint hd hi hk hik ht ht' hx)
  · intro hs
    refine mem_jumpIds.mpr ⟨a.child i t, ?_, hs⟩
    exact List.mem_of_getElem? (by rw [getElem?_children, ht, Option.map_some])

end Child

theorem isJump_of_place (hi : i ∈ places t) : isJump t.kind = false := by
  cases hj : isJump t.kind with
  | false => rfl
  | true =>
    have hk : t.kind = "break_statement" ∨ t.kind = "continue_statement" := by
      simpa [isJump] using hj
    have hnone : places t = [] :=
      places_simple (by rcases hk with hk | hk <;> simp [hk, structuredKinds])
    rw [hnone] at hi
    cases hi

/-! ### Rows -/

theorem runAll_append (h : runAll (qs₁ ++ qs₂) E = .ok p) :
    ∃ p₁ p₂, runAll qs₁ E = .ok p₁ ∧ runAll qs₂ p₁.exits = .ok p₂ ∧ p = p₁.followedBy p₂ := by
  induction qs₁ generalizing E p with
  | nil => exact ⟨_, p, rfl, h, rfl⟩
  | cons q qs ih =>
    obtain ⟨p₁, p₂, h₁, h₂, rfl⟩ := runAll_cons h
    obtain ⟨p₃, p₄, h₃, h₄, rfl⟩ := ih h₂
    refine ⟨p₁.followedBy p₃, p₄, ?_, h₄, ?_⟩
    · exact bind_eq_ok.mpr ⟨p₁, h₁, bind_eq_ok.mpr ⟨p₃, h₃, rfl⟩⟩
    · simp [Piece.followedBy]

/-- A statement in a row is entered by what leaves those before it. -/
theorem runAll_around (h : runAll ((before ++ c :: after).map (partAt src)) E = .ok p) :
    ∃ p₁ p' p₂, runAll (before.map (partAt src)) E = .ok p₁ ∧ (partAt src c).run p₁.exits = .ok p' ∧
      runAll (after.map (partAt src)) p'.exits = .ok p₂ ∧ p = p₁.followedBy (p'.followedBy p₂) := by
  rw [List.map_append, List.map_cons] at h
  obtain ⟨p₁, p₂, h₁, h₂, rfl⟩ := runAll_append h
  obtain ⟨p', p₃, h₃, h₄, rfl⟩ := runAll_cons h₂
  exact ⟨p₁, p', p₃, h₁, h₃, h₄, rfl⟩

theorem apart_row (hls : ∀ d ∈ after, Apart src x d)
    (h : runAll (after.map (partAt src)) E = .ok p) :
    Passes x (firstEntrance? src (after.map (·.node))) E p :=
  runAll_passes (fun d hd => (hls d hd).passes) h

/-- What comes from a number of one statement in a row goes to the first entrance behind it, or
leaves the row. -/
theorem row_around (h : runAll ((before ++ c :: after).map (partAt src)) E = .ok p) :
    ∃ E' p', (partAt src c).run E' = .ok p' ∧ (AllVisible p.records → AllVisible p'.records) ∧
      ∀ x, (∀ d ∈ before ++ after, Apart src x d) →
      (x ∈ recordedIds p.records ↔ x ∈ recordedIds p'.records) ∧
        ((∀ label, ¬ Opens E x label) → (∀ label, ¬ Opens E' x label) ∧
          (∀ label y, Leads p.records x label y ↔ Leads p'.records x label y ∨
            Opens p'.exits x label ∧ firstEntrance? src (after.map (·.node)) = some y) ∧
          ∀ label, Opens p.exits x label ↔
            Opens p'.exits x label ∧ firstEntrance? src (after.map (·.node)) = none) := by
  obtain ⟨p₁, p', p₂, h₁, h', h₂, rfl⟩ := runAll_around h
  refine ⟨p₁.exits, p', h', fun hvis => (allVisible_append.mp (allVisible_append.mp hvis).2).1, ?_⟩
  intro x hx
  have hpass₁ := apart_row (fun d hd => hx d (List.mem_append_left _ hd)) h₁
  have hpass₂ := apart_row (fun d hd => hx d (List.mem_append_right _ hd)) h₂
  refine ⟨?_, ?_⟩
  · simp [Piece.followedBy, hpass₁.unrecorded, hpass₂.unrecorded]
  · intro hE
    obtain ⟨hquiet, hclean⟩ := hpass₁.quiet hE
    refine ⟨hclean, ?_, hpass₂.opens⟩
    intro label y
    simp [Piece.followedBy, hquiet, hpass₂.leads]

/-- The members of a block before one of them leave a number alone that they do not have. -/
theorem runBlock_append
    (h : runBlock src rs pending ((before ++ after).map (partAt src)) E = .ok p) :
    ∃ rs' pending' p₁, runAll (before.map (partAt src)) E = .ok p₁ ∧
      runBlock src rs' pending' (after.map (partAt src)) p₁.exits = .ok p ∧
        rs'.map (·.vertex) = rs.map (·.vertex) ++ p₁.vertices ∧
          ∀ x, (∀ d ∈ before, Apart src x d) → (∀ label, ¬ Opens E x label) →
          x ∉ pending.map (·.id) →
            (∀ label y, ¬ Leads rs x label y) →
            x ∉ pending'.map (·.id) ∧ ∀ label y, ¬ Leads rs' x label y := by
  induction before generalizing rs pending E with
  | nil => exact ⟨rs, pending, _, rfl, h, by simp [Piece.vertices], fun x _ _ hp hl => ⟨hp, hl⟩⟩
  | cons d rest ih =>
    obtain ⟨piece, found, hpiece, hfound, hnext⟩ := runBlock_cons h
    -- The state after the first member: its records are added, and what waits may have been
    -- delivered.
    obtain ⟨rs₁, pending₁, hrest, hvertices, hpending, hleads⟩ : ∃ rs₁ pending₁,
        runBlock src rs₁ pending₁ ((rest ++ after).map (partAt src)) piece.exits = .ok p ∧
          rs₁.map (·.vertex) = rs.map (·.vertex) ++ piece.vertices ∧
            (∀ x, x ∉ (pending ++ found).map (·.id) → x ∉ pending₁.map (·.id)) ∧
              ∀ x label y, x ∉ (pending ++ found).map (·.id) → Leads rs₁ x label y →
                Leads (rs ++ piece.records) x label y := by
      rcases hnext with ⟨-, hnext⟩ | ⟨r, -, -, hnext⟩
      · exact ⟨_, _, hnext, by simp [Piece.vertices], fun _ h => h, fun _ _ _ _ h => h⟩
      · refine ⟨_, _, hnext, by simp [Piece.vertices], fun _ _ h => (List.not_mem_nil h).elim, ?_⟩
        intro x label y hx hl
        rcases leads_deliver.mp hl with hl | ⟨-, hmem, -⟩
        · exact hl
        · exact absurd hmem hx
    obtain ⟨rs', pending', p₁, hp₁, hlast, hvertices', huntouched⟩ := ih hrest
    refine ⟨rs', pending', piece.followedBy p₁, ?_, hlast, ?_, ?_⟩
    · exact bind_eq_ok.mpr ⟨piece, hpiece, bind_eq_ok.mpr ⟨p₁, hp₁, rfl⟩⟩
    · rw [hvertices', hvertices, List.append_assoc]
      simp [Piece.vertices, Piece.followedBy]
    · intro x hx hE hp hl
      have hd := hx d List.mem_cons_self
      have hpass := hd.passes E piece hpiece
      obtain ⟨hquiet, hclean⟩ := hpass.quiet hE
      have hnot : x ∉ (pending ++ found).map (·.id) := by
        rw [List.map_append, List.mem_append, leavesWaiting_ids hfound]
        simp [hp, hd.member.2.1]
      refine huntouched x (fun d hd => hx d (List.mem_cons_of_mem _ hd)) hclean (hpending x hnot) ?_
      intro label y h
      rcases leads_append.mp (hleads x label y hnot h) with h | h
      · exact hl label y h
      · exact hquiet label y h

/-- A member of a block among the others. -/
theorem runBlock_around
    (h : runBlock src [] [] ((before ++ c :: after).map (partAt src)) E = .ok p) :
    ∃ p₁ p' p₂, runAll (before.map (partAt src)) E = .ok p₁ ∧ (partAt src c).run p₁.exits = .ok p' ∧
      runAll (after.map (partAt src)) p'.exits = .ok p₂ ∧ p.exits = p₂.exits ∧
        p.vertices = p₁.vertices ++ p'.vertices ++ p₂.vertices ∧
          ∀ x, (∀ d ∈ before ++ after, Apart src x d) → (∀ label, ¬ Opens E x label) →
            Enters src c → AllVisible p.records → x ∈ recordedIds p'.records →
            ∀ label y, Leads p.records x label y ↔
              Leads p'.records x label y ∨
                Opens p'.exits x label ∧ firstEntrance? src (after.map (·.node)) = some y ∨
                  label = "" ∧ (isLoop c.kind = true ∧ x ∈ jumpIds src "break_statement" c) ∧
                    stop? src (after.map (·.node)) = some y := by
  obtain ⟨rs, pending, p₁, hp₁, h, hvertices, huntouched⟩ := runBlock_append h
  obtain ⟨p', found, hp', hfound, hnext⟩ := runBlock_cons h
  have hin : ∀ x, x ∉ pending.map (·.id) →
      (x ∈ (pending ++ found).map (·.id) ↔
        isLoop c.kind = true ∧ x ∈ jumpIds src "break_statement" c) := by
    intro x hx
    rw [List.map_append, List.mem_append, leavesWaiting_ids hfound]
    exact or_iff_right hx
  -- What the number waits for behind the member, and that nothing was delivered to it there.
  obtain ⟨rs₁, pending₁, hrest, hvertices₁, hpending, hleads⟩ : ∃ rs₁ pending₁,
      runBlock src rs₁ pending₁ (after.map (partAt src)) p'.exits = .ok p ∧
        rs₁.map (·.vertex) = rs.map (·.vertex) ++ p'.vertices ∧
          (∀ x, x ∉ pending.map (·.id) →
            (x ∈ pending₁.map (·.id) ↔
              isLoop c.kind = true ∧ x ∈ jumpIds src "break_statement" c)) ∧
            ∀ x label y, x ∉ pending.map (·.id) →
            (Leads rs₁ x label y ↔ Leads (rs ++ p'.records) x label y) := by
    rcases hnext with ⟨-, hnext⟩ | ⟨r, hkind, -, hnext⟩
    · exact ⟨_, _, hnext, by simp [Piece.vertices], hin, fun _ _ _ _ => Iff.rfl⟩
    · have hloop : isLoop c.kind = false := by
        rw [passesBy, Bool.or_eq_false_iff] at hkind
        exact hkind.1
      refine ⟨_, _, hnext, by simp [Piece.vertices], fun x _ => by simp [hloop], ?_⟩
      intro x label y hx
      rw [leads_deliver, hin x hx, hloop]
      simp
  obtain ⟨p₂, hp₂, hexits, hvertices₂⟩ := runBlock_row hrest
  refine ⟨p₁, p', p₂, hp₁, hp', hp₂, hexits, ?_, ?_⟩
  · rw [hvertices₂, hvertices₁, hvertices]
    rfl
  · intro x hx hE hc hvis hmem label y
    obtain ⟨hpend, hnone⟩ :=
      huntouched x (fun d hd => hx d (List.mem_append_left _ hd)) hE (by simp) (by simp)
    have hids : x ∈ recordedIds rs₁ := by
      rw [recordedIds_eq, hvertices₁, List.map_append, List.mem_append, ← recordedIds_piece]
      exact .inr hmem
    have hlive : p₁.exits ≠ [] := by
      intro hnil
      rw [hnil, run_nil] at hp'
      cases hp'
      cases hmem
    have hwait : x ∈ pending₁.map (·.id) → p'.exits ≠ [] ∧ AllVisible p.records := by
      intro hw
      refine ⟨hc.passes _ p' ?_ hlive hp', hvis⟩
      rw [passesBy, ((hpending x hpend).mp hw).1, Bool.true_or]
    rw [runBlock_leads (fun d hd => (hx d (List.mem_append_right _ hd)).member) hwait hrest,
      hleads x label y hpend, leads_append, hpending x hpend]
    simp only [hnone, hids, true_and, false_or]

/-! ### Constructs around a statement -/

theorem split_at {α : Type} {xs : List α} {z : α} (h : xs[i]? = some z) :
    xs = xs.take i ++ z :: xs.drop (i + 1) := by
  obtain ⟨hlt, rfl⟩ := List.getElem?_eq_some_iff.mp h
  rw [← List.drop_eq_getElem_cons hlt, List.take_append_drop]

/-- The first child that is run in a row. -/
def rowStart (t : Tree) : Nat :=
  if t.kind = "case_statement" then labelLength (t.children.map Tree.kind) else 0

/-- The kinds of nodes that run their children in a row. -/
def isRow (kind : String) : Prop :=
  kind = "compound_statement" ∨ kind = "else_clause" ∨ kind = "case_statement"

theorem mem_places_row (hk : isRow t.kind) :
    k ∈ places t ↔ rowStart t ≤ k ∧ k < t.children.length := by
  have hp : places t = (List.range t.children.length).drop (rowStart t) := by
    rcases hk with hk | hk | hk <;> simp [places, rowStart, hk]
  rw [hp, List.mem_drop_iff_getElem]
  simp only [List.getElem_range, List.length_range]
  constructor
  · rintro ⟨m, hm, rfl⟩
    exact ⟨Nat.le_add_right _ _, by omega⟩
  · rintro ⟨hle, hlt⟩
    exact ⟨k - rowStart t, by omega, by omega⟩

theorem onward_row {back : Bool} {rest : List (Tree × Nat)} (hk : isRow t.kind) :
    onward src back ((t, i) :: rest) =
    (firstEntrance? src (t.children.drop (i + 1))).or (onward src back rest) := by
  rcases hk with hk | hk | hk <;> simp [onward, hk]

theorem isRow_not_counted {kind : String} (hk : isRow kind) : isCountedLoop kind = false := by
  rcases hk with hk | hk | hk <;> simp [hk, isCountedLoop]

/-- What goes to the next entrance or leaves goes onward. -/
theorem next_or_leaves {L O W : Prop} {next out : Option Int} :
    (L ∨ O ∧ next = some y ∨ W) ∨ (O ∧ next = none) ∧ out = some y ↔
    L ∨ O ∧ next.or out = some y ∨ W := by
  cases next with
  | none =>
    simp only [reduceCtorEq, and_false, false_or, and_true, Option.none_or, or_assoc]
    exact or_congr_right or_comm
  | some z => simp

theorem not_taken
    (hk : a.kind = "else_clause" ∨ a.kind = "case_statement" ∨ a.kind = "if_statement") :
    ¬ Taken src kind a (a.child i t) x y := by
  have hk : a.node.kind = "else_clause" ∨ a.node.kind = "case_statement" ∨
      a.node.kind = "if_statement" := hk
  rintro (⟨-, hy⟩ | ⟨-, hy⟩)
  · rcases hk with hk | hk | hk <;> simp [outlets, waiting?, Locus.child, hk] at hy
  · rcases hk with hk | hk | hk <;> simp [takes, isCountedLoop, Locus.kind, hk] at hy

theorem taken_block (hk : a.kind = "compound_statement") :
    Taken src "break_statement" a (a.child i t) x y ∨
    Taken src "continue_statement" a (a.child i t) x y ↔
      (isLoop (a.child i t).kind = true ∧ x ∈ jumpIds src "break_statement" (a.child i t)) ∧
        stop? src (a.node.children.drop (i + 1)) = some y := by
  have hk : a.node.kind = "compound_statement" := hk
  have hbreaks : y ∈ outlets src "break_statement" (a.child i t) ↔
      isLoop (a.child i t).kind = true ∧ stop? src (a.node.children.drop (i + 1)) = some y := by
    by_cases hloop : isLoop t.kind = true
    · simp [outlets, waiting?, Locus.child, Locus.kind, hk, hloop]
    · simp [outlets, Locus.child, Locus.kind, hk, hloop]
  have hcontinues : outlets src "continue_statement" (a.child i t) = [] := by
    simp [outlets, Locus.child, hk]
  have htakes : ∀ kind, takes src kind a = [] := by simp [takes, isCountedLoop, Locus.kind, hk]
  simp only [Taken, hbreaks, hcontinues, htakes, List.not_mem_nil, and_false, or_false]
  rw [← and_assoc, and_comm (a := x ∈ _)]

theorem isLeaf_of_child (ht : t.children[i]? = some t') : t.isLeaf = false := by
  cases hl : t.isLeaf with
  | false => rfl
  | true =>
    rw [List.isEmpty_iff.mp hl] at ht
    cases ht

theorem Named.eq {name : String} (h : Named a name c) (hi : a.node.fieldIndex? name = some i)
    (ht : a.node.children[i]? = some t) : c = a.child i t := by
  obtain ⟨k, t', hk, ht', rfl⟩ := h
  rw [hi] at hk
  cases hk
  rw [ht] at ht'
  cases ht'
  rfl

/-- The head of a node is not a number of a statement inside. -/
theorem head_ne (hd : (numbers src a.node).Nodup) (hi : i ∈ places a.node)
    (ht : a.node.children[i]? = some t)
    (hk : a.kind ≠ "compound_statement" ∧ a.kind ≠ "else_clause" ∧ a.kind ≠ "do_statement")
    (hv : v.id = spanId src a.node) : ∀ x ∈ numbers src t, v.id ≠ x := by
  rintro _ hx rfl
  refine own_notMem_inner hd ?_ (mem_inner.mpr ⟨i, hi, ht⟩) hx
  rw [ownNumbers_own (isLeaf_of_child ht) hk, hv]
  exact List.mem_cons_self

theorem named_body
    (hk : isLoop a.kind = true ∨ a.kind = "switch_statement" ∨ a.kind = "function_definition")
    (hi : i ∈ places a.node) (ht : a.node.children[i]? = some t) (hc : Named a "body" c) :
    c = a.child i t := by
  rw [places_body hk, Option.mem_toList] at hi
  exact hc.eq hi ht

/-- Seen from outside, what stands below a while or for loop is no break of anything else. -/
theorem loopsBack_of_jumpIds (ho : orderlyInside a.node = true) (hi : i ∈ places a.node)
    (ht : a.node.children[i]? = some t) (hj : x ∈ jumpIds src "break_statement" (a.child i t)) :
    loopsBack src x (a.child i t) = isCountedLoop (a.child i t).kind := by
  have hin : orderlyInside t = true :=
    (orderly_iff.mp ((orderlyInside_iff.mp ho).1 t (mem_inner.mpr ⟨i, hi, ht⟩))).2
  obtain ⟨k, t', hk, -⟩ := jumpIds_inner (l := a.child i t) hin hj
  have hjump : isJump (a.child i t).kind = false := isJump_of_place hk
  cases hloop : isCountedLoop (a.child i t).kind with
  | true =>
    rw [loopsBack_eq_true, scannedIds_loop hloop hjump]
    exact List.not_mem_nil
  | false =>
    rw [← Bool.not_eq_true, loopsBack_eq_true, scannedIds_other hloop hjump]
    exact fun h => h hj

section Around

variable (ho : orderlyInside a.node = true) (hd : (numbers src a.node).Nodup)
  (hi : i ∈ places a.node) (ht : a.node.children[i]? = some t)

include ho hd hi ht

theorem loopsBack_child (hk : isCountedLoop a.kind = false) (hx : x ∈ numbers src t) :
    loopsBack src x a = loopsBack src x (a.child i t) := by
  rw [loopsBack, loopsBack, scannedIds_other hk (isJump_of_place hi), decide_eq_decide,
    mem_jumpIds_child ho hd hi ht hx]

/-- The row of a node, cut at one statement: the others do not have its numbers. -/
theorem cut_row (hk : isRow a.kind) :
    ∃ before, a.children.drop (rowStart a.node) = before ++ a.child i t :: a.children.drop (i + 1) ∧
      ∀ x ∈ numbers src t, ∀ d ∈ before ++ a.children.drop (i + 1), Apart src x d := by
  have hlow : rowStart a.node ≤ i := ((mem_places_row hk).mp hi).1
  have hget : a.children[i]? = some (a.child i t) := by rw [getElem?_children, ht, Option.map_some]
  have hplace : ∀ (k : Nat) (d : Locus), a.children[k]? = some d → rowStart a.node ≤ k →
      k ∈ places a.node := by
    intro k d hk' hle
    refine (mem_places_row hk).mpr ⟨hle, ?_⟩
    rw [getElem?_children, Option.map_eq_some_iff] at hk'
    obtain ⟨t', ht', -⟩ := hk'
    exact (List.getElem?_eq_some_iff.mp ht').1
  refine ⟨(a.children.drop (rowStart a.node)).take (i - rowStart a.node), ?_, ?_⟩
  · have hat : (a.children.drop (rowStart a.node))[i - rowStart a.node]? = some (a.child i t) := by
      rw [List.getElem?_drop, Nat.add_sub_cancel' hlow, hget]
    have hcut := split_at hat
    rw [List.drop_drop, show rowStart a.node + (i - rowStart a.node + 1) = i + 1 by omega] at hcut
    exact hcut
  · intro x hx d hmem
    rcases List.mem_append.mp hmem with hmem | hmem
    · obtain ⟨m, hm⟩ := List.mem_iff_getElem?.mp hmem
      rw [List.getElem?_take] at hm
      split at hm
      · rw [List.getElem?_drop] at hm
        exact apart_of_ne ho hd hi ht hx (hplace _ d hm (Nat.le_add_right _ _)) (by omega) hm
      · cases hm
    · obtain ⟨m, hm⟩ := List.mem_iff_getElem?.mp hmem
      rw [List.getElem?_drop] at hm
      exact apart_of_ne ho hd hi ht hx (hplace _ d hm (by omega)) (by omega) hm

/-- A node that runs a row of its children and adds nothing to what comes from inside. -/
theorem contains_row {body : Piece} (hk : a.kind = "else_clause" ∨ a.kind = "case_statement")
    (h : runAll ((a.children.drop (rowStart a.node)).map (partAt src)) X = .ok body)
    (hX : ∀ x ∈ numbers src t, (∀ label, ¬ Opens E x label) → ∀ label, ¬ Opens X x label)
    (hvis : AllVisible p.records → AllVisible body.records)
    (hids : ∀ x ∈ numbers src t, x ∈ recordedIds p.records ↔ x ∈ recordedIds body.records)
    (hleads : ∀ x ∈ numbers src t, (∀ label, ¬ Opens E x label) →
      ∀ label y, Leads p.records x label y ↔ Leads body.records x label y)
    (hopens : ∀ x ∈ numbers src t, ∀ label, Opens p.exits x label ↔ Opens body.exits x label) :
    ∃ E' p', Contains src a E p (a.child i t) E' p' := by
  have hrow : isRow a.kind := .inr hk
  obtain ⟨before, hcut, hapart⟩ := cut_row ho hd hi ht hrow
  rw [hcut] at h
  obtain ⟨E', p', hrun, hvis', haround⟩ := row_around h
  refine ⟨E', p', hrun, fun hp => hvis' (hvis hp), ?_, ?_, ?_⟩
  · exact fun x hx hE => ((haround x (hapart x hx)).2 (hX x hx hE)).1
  · exact fun x hx => (hids x hx).trans (haround x (hapart x hx)).1
  · intro x hx hE _ _ label y
    obtain ⟨-, hin, hout⟩ := (haround x (hapart x hx)).2 (hX x hx hE)
    rw [hleads x hx hE, hopens x hx, hin, hout,
      loopsBack_child ho hd hi ht (isRow_not_counted hrow) hx, Locus.child, onward_row hrow,
      ← Locus.child, List.map_drop, map_node_children]
    simp only [not_taken (hk.imp_right .inl), or_self, and_false]
    rw [← next_or_leaves, or_false]

/-- In a block the breaks of a loop wait. -/
theorem contains_block (hk : a.kind = "compound_statement")
    (h : runBlock src [] [] (a.children.map (partAt src)) E = .ok p) :
    ∃ E' p', Contains src a E p (a.child i t) E' p' := by
  have hrow : isRow a.kind := .inl hk
  have hkind : a.node.kind = "compound_statement" := hk
  have hstart : rowStart a.node = 0 := by simp [rowStart, hkind]
  obtain ⟨before, hcut, hapart⟩ := cut_row ho hd hi ht hrow
  rw [hstart, List.drop_zero] at hcut
  have hc : orderly t = true := (orderlyInside_iff.mp ho).1 t (mem_inner.mpr ⟨i, hi, ht⟩)
  rw [hcut] at h
  obtain ⟨p₁, p', p₂, h₁, h', h₂, hexits, hvertices, hleads⟩ := runBlock_around h
  have hpass₁ : ∀ x ∈ numbers src t, Passes x (firstEntrance? src (before.map (·.node))) E p₁ :=
    fun x hx => apart_row (fun d hd => hapart x hx d (List.mem_append_left _ hd)) h₁
  have hpass₂ : ∀ x ∈ numbers src t,
      Passes x (firstEntrance? src ((a.children.drop (i + 1)).map (·.node))) p'.exits p₂ :=
    fun x hx => apart_row (fun d hd => hapart x hx d (List.mem_append_right _ hd)) h₂
  refine ⟨p₁.exits, p', h', ?_, fun x hx hE => ((hpass₁ x hx).quiet hE).2, ?_, ?_⟩
  · intro hvis v hv
    refine hvis v ?_
    rw [← Piece.vertices, hvertices]
    exact List.mem_append_left _ (List.mem_append_right _ hv)
  · intro x hx
    have hids : recordedIds p.records = recordedIds p₁.records ++ recordedIds p'.records ++
        recordedIds p₂.records := by
      simp only [recordedIds_piece, hvertices, List.map_append]
    simp [hids, (hpass₁ x hx).unrecorded, (hpass₂ x hx).unrecorded]
  · intro x hx hE hvis hmem label y
    rw [hleads x (hapart x hx) hE (enters _ hc) hvis hmem, hexits, (hpass₂ x hx).opens,
      loopsBack_child ho hd hi ht (isRow_not_counted hrow) hx, Locus.child, onward_row hrow,
      ← Locus.child, List.map_drop, map_node_children, taken_block hk, next_or_leaves]

/-- One branch of an if statement, the other not having its numbers. -/
theorem contains_fork {other : Piece} {label' : String} {entrance : Option Int}
    (hk : a.kind = "if_statement") (hv : v.id = spanId src a.node)
    (hrun : (partAt src (a.child i t)).run [⟨v, label'⟩] = .ok p')
    (hvis : AllVisible p.records → AllVisible p'.records)
    (hids : ∀ x, x ∈ recordedIds p.records ↔
      x = v.id ∨ x ∈ recordedIds p'.records ∨ x ∈ recordedIds other.records)
    (hleads : ∀ x label y, Leads p.records x label y ↔
      y = v.id ∧ Opens E x label ∨ Leads p'.records x label y ∨ Leads other.records x label y)
    (hopens : ∀ x label, Opens p.exits x label ↔ Opens p'.exits x label ∨ Opens other.exits x label)
    (hother : ∀ x ∈ numbers src t, Passes x entrance [⟨v, label⟩] other) :
    Contains src a E p (a.child i t) [⟨v, label'⟩] p' := by
  have hkind : a.node.kind = "if_statement" := hk
  have hne := head_ne hd hi ht (by simp [hk]) hv
  refine ⟨hrun, hvis, ?_, ?_, ?_⟩
  · intro x hx _
    simp [hne x hx]
  · intro x hx
    rw [hids]
    simp [Ne.symm (hne x hx), (hother x hx).unrecorded]
  · intro x hx hE _ _ label y
    obtain ⟨hquiet, hclosed⟩ := (hother x hx).quiet fun label => by simp [hne x hx]
    rw [hleads, hopens, loopsBack_child ho hd hi ht (by simp [hk, isCountedLoop]) hx]
    simp only [hE, hquiet, hclosed, and_false, false_or, or_false, not_taken (.inr (.inr hk)),
      or_self]
    simp [Locus.child, onward, hkind]

/-- Children that a node knows under different names stand at different places. -/
theorem apart_of_named {name other : String} (hne : name ≠ other)
    (hname : a.node.fieldIndex? name = some i) (hc : Named a other c)
    (hplace : ∀ k, a.node.fieldIndex? other = some k → k ∈ places a.node) :
    ∀ x ∈ numbers src t, Apart src x c := by
  intro x hx
  obtain ⟨k, t', hk, ht', rfl⟩ := hc
  refine apart_of_ne ho hd hi ht hx
    (hplace k hk) ?_ (by rw [getElem?_children, ht', Option.map_some])
  rintro rfl
  obtain ⟨_, hf, -⟩ := List.findIdx?_eq_some_iff_getElem.mp hname
  obtain ⟨_, hf', -⟩ := List.findIdx?_eq_some_iff_getElem.mp hk
  rw [beq_iff_eq] at hf hf'
  rw [hf] at hf'
  exact hne (Option.some.inj hf')

theorem contains_branch {yes no : Piece} (hk : a.kind = "if_statement")
    (hv : v.id = spanId src a.node) (hc : Named a "consequence" c)
    (hyes : (partAt src c).run [⟨v, "Y"⟩] = .ok yes)
    (hno : (∃ d, Named a "alternative" d ∧ (partAt src d).run [⟨v, "N"⟩] = .ok no) ∨
      a.node.fieldIndex? "alternative" = none ∧ no = { exits := [⟨v, "N"⟩] }) :
    ∃ E' p', Contains src a E (.forked v E yes no) (a.child i t) E' p' := by
  have hplaces := places_if hk
  have hat := hi
  rw [hplaces, List.mem_append, Option.mem_toList, Option.mem_toList] at hat
  rcases hat with hat | hat
  · obtain rfl : c = a.child i t := hc.eq hat ht
    refine ⟨[⟨v, "Y"⟩], yes, ?_⟩
    obtain ⟨entrance, hother⟩ :
        ∃ entrance, ∀ x ∈ numbers src t, Passes x entrance [⟨v, "N"⟩] no := by
      rcases hno with ⟨d, hd', hno⟩ | ⟨-, rfl⟩
      · refine ⟨entrance? src d.node,
          fun x hx => (apart_of_named ho hd hi ht ?_ hat hd' ?_ x hx).passes _ _ hno⟩
        · decide
        · exact fun k hk' => by simp [hplaces, hk']
      · exact ⟨none, fun x _ => .skip⟩
    refine contains_fork ho hd hi ht hk hv hyes ?_ ?_ ?_ ?_ hother
    · exact fun h => (allVisible_append.mp (allVisible_cons.mp h).2).1
    · simp [Piece.forked]
    · simp [Piece.forked]
    · simp [Piece.forked]
  · rcases hno with ⟨d, hd', hno⟩ | ⟨hnone, -⟩
    · obtain rfl : d = a.child i t := hd'.eq hat ht
      refine ⟨[⟨v, "N"⟩], no, ?_⟩
      have hother : ∀ x ∈ numbers src t, Passes x (entrance? src c.node) [⟨v, "Y"⟩] yes := by
        refine fun x hx => (apart_of_named ho hd hi ht ?_ hat hc ?_ x hx).passes _ _ hyes
        · decide
        · exact fun k hk' => by simp [hplaces, hk']
      refine contains_fork ho hd hi ht hk hv hno ?_ ?_ ?_ ?_ hother
      · exact fun h => (allVisible_append.mp (allVisible_cons.mp h).2).2
      · simp [Piece.forked, or_comm]
      · simp [Piece.forked, or_comm]
      · simp [Piece.forked, or_comm]
    · rw [hnone] at hat
      cases hat

theorem contains_label {e : Exit} {body : Piece} (hk : a.kind = "case_statement")
    (hv : v.id = spanId src a.node) (he : e.vertex = v) (hX : ∀ x ∈ X, x.vertex = v)
    (h : runAll
      ((a.children.drop (labelLength (a.node.children.map Tree.kind))).map (partAt src)) [e] =
        .ok body) :
    ∃ E' p', Contains src a E (.headed v E { body with exits := body.exits ++ X })
      (a.child i t) E' p' := by
  have hkind : a.node.kind = "case_statement" := hk
  have hne := head_ne hd hi ht (by simp [hk]) hv
  have hstart : rowStart a.node = labelLength (a.node.children.map Tree.kind) := by
    simp [rowStart, hkind]
  rw [← hstart] at h
  refine contains_row ho hd hi ht (.inr hk) h ?_ ?_ ?_ ?_ ?_
  · intro x hx _
    simp [he, hne x hx]
  · exact fun h => (allVisible_cons.mp h).2
  · intro x hx
    simp [Piece.headed, Ne.symm (hne x hx)]
  · intro x _ hE label y
    simp [Piece.headed, hE]
  · intro x hx label
    have hnot : ¬ Opens X x label := by
      rintro ⟨e', he', heq, -⟩
      rw [hX e' he'] at heq
      exact hne x hx heq
    simp [Piece.headed, hnot]

/-- The body of a while or for loop leads back to the head, and so do the continues. -/
theorem contains_loop {body : Piece} {bs cs : List Vertex} (hk : isCountedLoop a.kind = true)
    (hv : v.id = spanId src a.node) (hbody : (partAt src (a.child i t)).run [⟨v, "Y"⟩] = .ok body)
    (hbs : bs.map (·.id) = jumpIds src "break_statement" a)
    (hcs : cs.map (·.id) = jumpIds src "continue_statement" a) :
    Contains src a E (.looped v E { body with exits := waysBack body bs cs })
    (a.child i t) [⟨v, "Y"⟩] body := by
  have hkind : a.node.kind = "while_statement" ∨ a.node.kind = "for_statement" := by
    simpa [isCountedLoop, Locus.kind] using hk
  have hne := head_ne hd hi ht (kinds_of_counted hk) hv
  refine ⟨hbody, fun h => (allVisible_cons.mp h).2, ?_, ?_, ?_⟩
  · intro x hx _
    simp [hne x hx]
  · intro x hx
    simp [Piece.looped, Ne.symm (hne x hx)]
  · intro x hx hE _ _ label y
    have hclosed :
        ¬ Opens (Piece.looped v E { body with exits := waysBack body bs cs }).exits x label := by
      simp [Piece.looped, hne x hx]
    have hback : onward src (loopsBack src x (a.child i t)) (a.child i t).above = some y ↔
        x ∉ jumpIds src "break_statement" a ∧ y = v.id := by
      rw [mem_jumpIds_child ho hd hi ht hx, ← loopsBack_eq_true, hv]
      cases loopsBack src x (a.child i t) <;> rcases hkind with hk | hk <;>
        simp [Locus.child, onward, hk, eq_comm]
    have htaken : Taken src "break_statement" a (a.child i t) x y ∨
        Taken src "continue_statement" a (a.child i t) x y ↔
        x ∈ jumpIds src "continue_statement" a ∧ y = v.id := by
      rw [hv]
      rcases hkind with hk | hk <;>
        simp [Taken, outlets, takes, waiting?, isCountedLoop, Locus.child, Locus.kind, hk]
    rw [leads_looped, opens_waysBack, hbs, hcs, hback, htaken]
    simp only [hE, hclosed, false_and, or_false, false_or]
    grind

theorem contains_switch {body : Piece} {bs : List Vertex} (hk : a.kind = "switch_statement")
    (hv : v.id = spanId src a.node)
    (hbody : (partAt src (a.child i t)).run [{ vertex := v }] = .ok body)
    (hbs : bs.map (·.id) = jumpIds src "break_statement" a) :
    Contains src a E (.headed v E { body with exits := body.exits ++ plainExits bs })
    (a.child i t) [{ vertex := v }]
      body := by
  have hkind : a.node.kind = "switch_statement" := hk
  have hne := head_ne hd hi ht (by simp [hk]) hv
  have hnot : isCountedLoop a.kind = false := by simp [hk, isCountedLoop]
  refine ⟨hbody, fun h => (allVisible_cons.mp h).2, ?_, ?_, ?_⟩
  · intro x hx _
    simp [hne x hx]
  · intro x hx
    simp [Piece.headed, Ne.symm (hne x hx)]
  · intro x hx hE _ _ label y
    have htaken : Taken src "break_statement" a (a.child i t) x y ∨
        Taken src "continue_statement" a (a.child i t) x y ↔
        x ∈ jumpIds src "break_statement" a ∧ onward src false a.above = some y := by
      simp [Taken, outlets, takes, waiting?, isCountedLoop, Locus.child, Locus.kind, hkind]
    have hflag : x ∈ jumpIds src "break_statement" a → loopsBack src x (a.child i t) = false := by
      intro hj
      simpa [loopsBack] using (mem_jumpIds_child ho hd hi ht hx).mp hj
    have honward : onward src (loopsBack src x (a.child i t)) (a.child i t).above =
        onward src (loopsBack src x (a.child i t)) a.above := by
      simp [Locus.child, onward, hkind]
    rw [loopsBack_child ho hd hi ht hnot hx, htaken, honward]
    simp only [Piece.headed, leads_cons, hE, and_false, false_or, opens_append, opens_plainExits,
      hbs]
    by_cases hj : x ∈ jumpIds src "break_statement" a
    · rw [hflag hj]
      grind
    · grind

/-- The body of a do loop leads to the condition, and so do the continues below it; the breaks below
it leave. -/
theorem contains_do {w : Vertex} {body : Piece} {bs cs : List Vertex} (hk : a.kind = "do_statement")
    (hw : conditionId? src a.node = some w.id) (hbody : (partAt src (a.child i t)).run E = .ok body)
    (hbs : ∀ x, x ∈ bs.map (·.id) ↔
      x ∈ jumpIds src "break_statement" (a.child i t) ∧ x ∈ recordedIds body.records)
    (hcs : ∀ x, x ∈ cs.map (·.id) ↔
      x ∈ jumpIds src "continue_statement" (a.child i t) ∧ x ∈ recordedIds body.records) :
    Contains src a E { Piece.repeated w { body with exits := body.exits ++ plainExits cs } with
      exits := ⟨w, "N"⟩ :: plainExits bs } (a.child i t) E body := by
  have hkind : a.node.kind = "do_statement" := hk
  have hnot : isCountedLoop a.kind = false := by simp [hk, isCountedLoop]
  have hne : ∀ x ∈ numbers src t, w.id ≠ x := by
    rintro _ hx rfl
    refine own_notMem_inner hd ?_ (mem_inner.mpr ⟨i, hi, ht⟩) hx
    rw [ownNumbers_do (isLeaf_of_child ht) hk, hw]
    exact List.mem_cons_self
  refine ⟨hbody, ?_, fun x _ hE => hE, ?_, ?_⟩
  · intro hvis u hu
    have hsub :
        u ∈ (Piece.repeated w { body with exits := body.exits ++ plainExits cs }).vertices := by
      rw [vertices_repeated]
      exact List.mem_append_left _ hu
    exact hvis u hsub
  · intro x hx
    rw [recordedIds_repeated]
    simp [Ne.symm (hne x hx)]
  · intro x hx hE _ hmem label y
    have hbreaks : Taken src "break_statement" a (a.child i t) x y ↔
        x ∈ jumpIds src "break_statement" (a.child i t) ∧
        onward src (loopsBack src x a) a.above = some y := by
      have hnone : outlets src "break_statement" (a.child i t) =
          (onward src (isCountedLoop (a.child i t).kind) a.above).toList := by
        simp [outlets, waiting?, Locus.child, Locus.kind, hkind]
      have htakes : takes src "break_statement" a = [] := by simp [takes, Locus.kind, hkind]
      rw [Taken, hnone, htakes, Option.mem_toList]
      simp only [List.not_mem_nil, and_false, or_false]
      refine and_congr_right fun hj => ?_
      rw [loopsBack_child ho hd hi ht hnot hx, loopsBack_of_jumpIds ho hi ht hj]
    have hcontinues : Taken src "continue_statement" a (a.child i t) x y ↔
        x ∈ jumpIds src "continue_statement" (a.child i t) ∧ y = w.id := by
      simp [Taken, outlets, takes, isCountedLoop, Locus.child, Locus.kind, hkind, hw, eq_comm]
    have honward : onward src (loopsBack src x (a.child i t)) (a.child i t).above = some w.id := by
      simp [Locus.child, onward, hkind, hw]
    rw [leads_repeated, hbreaks, hcontinues, honward, opens_append, opens_plainExits, opens_cons,
      opens_plainExits, hbs, hcs, Option.some.injEq, eq_comm (a := w.id) (b := y)]
    simp only [hmem, hne x hx, Ne.symm (hne x hx), and_true, false_and, false_or, or_false]
    grind

theorem contains_clause (hk : a.kind = "else_clause")
    (h : runAll (a.children.map (partAt src)) E = .ok p) :
    ∃ E' p', Contains src a E p (a.child i t) E' p' := by
  have hkind : a.node.kind = "else_clause" := hk
  have hstart : rowStart a.node = 0 := by simp [rowStart, hkind]
  rw [← List.drop_zero (l := a.children), ← hstart] at h
  refine contains_row ho hd hi ht (.inl hk) h ?_ ?_ ?_ ?_ ?_
  · exact fun _ _ hE => hE
  · exact fun hvis => hvis
  · exact fun _ _ => Iff.rfl
  · exact fun _ _ _ _ _ => Iff.rfl
  · exact fun _ _ _ => Iff.rfl

theorem Builds.contains (h : Builds src a E p) :
    ∃ E' p', Contains src a E p (a.child i t) E' p' := by
  cases h with
  | block hk h => exact contains_block ho hd hi ht hk h
  | clause hk h => exact contains_clause ho hd hi ht hk h
  | branch hk hv hc hyes hno => exact contains_branch ho hd hi ht hk hv hc hyes hno
  | loop hk hv hc hbody hbs hcs =>
    obtain rfl := named_body (.inl (isLoop_of_counted hk)) hi ht hc
    exact ⟨_, _, contains_loop ho hd hi ht hk hv hbody hbs hcs⟩
  | doLoop hk hw hc hbody hbs hcs =>
    obtain rfl := named_body (.inl (by rw [hk]; rfl)) hi ht hc
    exact ⟨_, _, contains_do ho hd hi ht hk hw hbody hbs hcs⟩
  | bare hk hv hnone =>
    rw [places_body (.inr (.inl hk)), hnone] at hi
    cases hi
  | switch hk hv hc hbody hbs =>
    obtain rfl := named_body (.inr (.inl hk)) hi ht hc
    exact ⟨_, _, contains_switch ho hd hi ht hk hv hbody hbs⟩
  | label hk hv he hX h => exact contains_label ho hd hi ht hk hv he hX h
  | simple hk =>
    rw [places_simple hk] at hi
    cases hi

/-- Whatever a node builds, it builds around each statement inside. -/
theorem exists_contains (hw : wellShaped a.node = true) (h : (partAt src a).run E = .ok p) :
    ∃ E' p', Contains src a E p (a.child i t) E' p' := by
  rcases builds hw h with ⟨hleaf | rfl, rfl⟩ | ⟨-, -, hb⟩
  · rw [isLeaf_of_child ht] at hleaf
    cases hleaf
  · refine ⟨[], {}, run_nil _, fun hvis => hvis, fun _ _ hE => hE, fun _ _ => Iff.rfl, ?_⟩
    rintro x - - - ⟨⟩
  · exact hb.contains ho hd hi ht

theorem jumps_child (hk : a.kind ≠ "function_definition") (hx : x ∈ numbers src t) :
    Jumps src kind (a.child i t) x y ↔
    Taken src kind a (a.child i t) x y ∨ Jumps src kind a x y := by
  have hk : a.node.kind ≠ "function_definition" := hk
  have htargets : y ∈ targets src kind (a.child i t).above ↔
      y ∈ takes src kind a ∨ y ∈ outlets src kind a ∨ isCountedLoop a.kind = false ∧
      y ∈ targets src kind a.above := by
    rw [Locus.child, targets, if_neg hk, List.mem_append, List.mem_append, or_assoc]
    cases hloop : isCountedLoop a.kind with
    | true => simp [show isCountedLoop a.node.kind = true from hloop]
    | false => simp [show isCountedLoop a.node.kind = false from hloop]
  have hscanned : x ∈ scannedIds src kind a ↔
      x ∈ jumpIds src kind a ∧ isCountedLoop a.kind = false := by
    cases hloop : isCountedLoop a.kind with
    | true => simp [scannedIds_loop hloop (isJump_of_place hi)]
    | false => simp [scannedIds_other hloop (isJump_of_place hi)]
  rw [Jumps, Taken, Jumps, htargets, hscanned, ← mem_jumpIds_child ho hd hi ht hx]
  simp only [and_or_left, and_assoc, or_assoc]

/-- The fate of a number is the same, seen from the statement and from the node around it. -/
theorem Contains.fate (h : Contains src a E p (a.child i t) E' p')
    (hk : a.kind ≠ "function_definition") (hx : x ∈ numbers src t) (hE : ∀ label, ¬ Opens E x label)
    (hvis : AllVisible p.records) (hmem : x ∈ recordedIds p'.records) :
    Fate src a p x label y ↔ Fate src (a.child i t) p' x label y := by
  rw [Fate, ← or_assoc, h.step x hx hE hvis hmem, Fate, jumps_child ho hd hi ht hk hx,
    jumps_child ho hd hi ht hk hx]
  grind

end Around

end CrossCall.Flow

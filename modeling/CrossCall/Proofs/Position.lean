import CrossCall.Proofs.Piece

/-! Where control may stand in a tree: the children of a node that are run as statements, the
numbers of all vertices that may be recorded below it, the first of them, and the jumps that a scan
of the tree comes upon. -/
namespace CrossCall.Flow

variable {α β : Type} {src : Source} {t c c' : Tree} {l a j : Locus} {i k : Nat} {x y : Int}
  {kind : String}

/-! ### Places -/

/-- The numbers of the children that are run as statements, in order. -/
def places (t : Tree) : List Nat :=
  match t.kind with
  | "function_definition" => (t.fieldIndex? "body").toList
  | "compound_statement" => List.range t.children.length
  | "else_clause" => List.range t.children.length
  | "if_statement" => (t.fieldIndex? "consequence").toList ++ (t.fieldIndex? "alternative").toList
  | "while_statement" => (t.fieldIndex? "body").toList
  | "for_statement" => (t.fieldIndex? "body").toList
  | "do_statement" => (t.fieldIndex? "body").toList
  | "switch_statement" => (t.fieldIndex? "body").toList
  | "case_statement" => (List.range t.children.length).drop (labelLength (t.children.map Tree.kind))
  | _ => []

/-- What a list that goes along with the children has at the places. -/
def atPlaces (t : Tree) (xs : List α) : List α := (places t).filterMap fun i => xs[i]?

/-- The children that are run as statements. -/
def inner (t : Tree) : List Tree := atPlaces t t.children

theorem mem_atPlaces {xs : List α} {z : α} : z ∈ atPlaces t xs ↔ ∃ i ∈ places t, xs[i]? = some z :=
  List.mem_filterMap

theorem mem_inner : c ∈ inner t ↔ ∃ i ∈ places t, t.children[i]? = some c := mem_atPlaces

theorem atPlaces_map (f : α → β) (xs : List α) : atPlaces t (xs.map f) = (atPlaces t xs).map f := by
  rw [atPlaces, atPlaces, List.map_filterMap]
  simp only [List.getElem?_map]

theorem filterMap_range_drop (xs : List α) (k : Nat) :
    ((List.range xs.length).drop k).filterMap (fun i => xs[i]?) = xs.drop k := by
  have hall : (List.range xs.length).map (fun i => xs[i]?) = xs.map some := by
    apply List.ext_getElem?
    intro i
    by_cases hi : i < xs.length
    · simp [hi]
    · simp [hi]
  have hdrop : ((List.range xs.length).drop k).map (fun i => xs[i]?) = (xs.drop k).map some := by
    rw [List.map_drop, hall, List.map_drop]
  have hid : ((List.range xs.length).drop k).filterMap (fun i => xs[i]?) =
      (((List.range xs.length).drop k).map fun i => xs[i]?).filterMap id := by
    rw [List.filterMap_map]
    rfl
  rw [hid, hdrop, List.filterMap_map]
  exact List.filterMap_some

/-! ### Values of a tree -/

mutual

/-- The value of a node from those of its children. -/
def foldTree (f : Tree → List α → α) : Tree → α
  | .node k a b g cs => f (.node k a b g cs) (foldTrees f cs)

def foldTrees (f : Tree → List α → α) : List Tree → List α
  | [] => []
  | t :: ts => foldTree f t :: foldTrees f ts

end

theorem foldTrees_eq (f : Tree → List α → α) (cs : List Tree) :
    foldTrees f cs = cs.map (foldTree f) := by
  induction cs with
  | nil => rfl
  | cons c rest ih => rw [foldTrees, ih, List.map_cons]

theorem foldTree_eq (f : Tree → List α → α) (t : Tree) :
    foldTree f t = f t (t.children.map (foldTree f)) := by
  rw [← foldTrees_eq]
  obtain ⟨k, a, b, g, cs⟩ := t
  rfl

/-- The number of the condition of a do loop. -/
def conditionId? (src : Source) (t : Tree) : Option Int :=
  (t.childByField? "condition").map (spanId src)

/-- The number under which a node itself may be recorded or come upon as a jump. -/
def ownNumbers (src : Source) (t : Tree) : List Int :=
  if t.isLeaf then (if isJump t.kind then [spanId src t] else [])
  else match t.kind with
    | "compound_statement" => []
    | "else_clause" => []
    | "do_statement" => (conditionId? src t).toList
    | _ => [spanId src t]

/-- The numbers of all vertices of a tree, recorded or not. -/
def numbers (src : Source) : Tree → List Int :=
  foldTree fun t ns => ownNumbers src t ++ (atPlaces t ns).flatten

theorem numbers_eq (src : Source) (t : Tree) :
    numbers src t = ownNumbers src t ++ (inner t).flatMap (numbers src) := by
  rw [numbers, foldTree_eq, atPlaces_map, List.flatMap]
  rfl

/-- The number of the vertex that control comes to first in a tree, if it comes to any. -/
def entrance? (src : Source) : Tree → Option Int := foldTree fun t es =>
  if t.isLeaf then none
  else match t.kind with
    | "compound_statement" => (atPlaces t es).findSome? id
    | "else_clause" => (atPlaces t es).findSome? id
    | "do_statement" => ((atPlaces t es).findSome? id).or (conditionId? src t)
    | _ => some (spanId src t)

/-- The first entrance of a row of statements. -/
def firstEntrance? (src : Source) (ts : List Tree) : Option Int := ts.findSome? (entrance? src)

theorem entrance?_eq (src : Source) (t : Tree) : entrance? src t =
    if t.isLeaf then none
    else match t.kind with
      | "compound_statement" => firstEntrance? src (inner t)
      | "else_clause" => firstEntrance? src (inner t)
      | "do_statement" => (firstEntrance? src (inner t)).or (conditionId? src t)
      | _ => some (spanId src t) := by
  have hfind : (atPlaces t (t.children.map (entrance? src))).findSome? id =
      firstEntrance? src (inner t) := by
    rw [atPlaces_map, List.findSome?_map]
    rfl
  rw [entrance?, foldTree_eq, ← entrance?, hfind]

/-! ### Distinct numbers -/

theorem numbers_subset (hc : c ∈ inner t) (hx : x ∈ numbers src c) : x ∈ numbers src t := by
  rw [numbers_eq, List.mem_append]
  exact .inr (List.mem_flatMap.mpr ⟨c, hc, hx⟩)

theorem mem_numbers :
    x ∈ numbers src t ↔ x ∈ ownNumbers src t ∨ ∃ c ∈ inner t, x ∈ numbers src c := by
  rw [numbers_eq, List.mem_append, List.mem_flatMap]

/-- The numbers of the child at a place. -/
def numbersAt (src : Source) (t : Tree) (i : Nat) : List Int :=
  ((t.children[i]?).map (numbers src)).getD []

theorem flatMap_inner (src : Source) (t : Tree) :
    (inner t).flatMap (numbers src) = (places t).flatMap (numbersAt src t) := by
  unfold inner atPlaces
  induction places t with
  | nil => rfl
  | cons i rest ih =>
    rw [List.filterMap_cons, List.flatMap_cons, ← ih, numbersAt]
    cases t.children[i]? <;> simp

section Distinct

variable (hd : (numbers src t).Nodup)

include hd

theorem own_notMem_inner (hx : x ∈ ownNumbers src t) (hc : c ∈ inner t) : x ∉ numbers src c := by
  rw [numbers_eq] at hd
  intro hxc
  exact (List.nodup_append'.mp hd).2.2 hx (List.mem_flatMap.mpr ⟨c, hc, hxc⟩)

theorem nodup_inner (hc : c ∈ inner t) : (numbers src c).Nodup := by
  rw [numbers_eq] at hd
  exact (List.nodup_flatMap.mp (List.nodup_append'.mp hd).2.1).1 c hc

/-- Children at different places have no number in common. -/
theorem numbers_disjoint (hi : i ∈ places t) (hk : k ∈ places t) (hik : i ≠ k)
    (hc : t.children[i]? = some c) (hc' : t.children[k]? = some c') (hx : x ∈ numbers src c) :
    x ∉ numbers src c' := by
  rw [numbers_eq, flatMap_inner] at hd
  have hsymm : Std.Symm (Function.onFun List.Disjoint (numbersAt src t)) := ⟨fun _ _ h => h.symm⟩
  have hdis := (List.nodup_flatMap.mp (List.nodup_append'.mp hd).2.1).2.forall hi hk hik
  simp only [Function.onFun, numbersAt, hc, hc', Option.map_some, Option.getD_some] at hdis
  exact hdis hx

end Distinct

/-! ### Orderly code -/

/-- No jump stands anywhere in the tree. -/
def jumpFree : Tree → Bool := foldTree fun t bs => !isJump t.kind && bs.all id

theorem jumpFree_eq (t : Tree) : jumpFree t = (!isJump t.kind && t.children.all jumpFree) := by
  rw [jumpFree, foldTree_eq, List.all_map]
  rfl

/-- No function inside a function, the word of an else clause and what follows it apart, a condition
for each do loop. -/
def wellShaped (t : Tree) : Bool :=
  t.kind != "function_definition" && t.kind != "translation_unit" &&
    (t.kind != "else_clause" || (t.children.all (fun c => c.kind != "else" || c.isLeaf) &&
      (decide (1 < t.children.length) || t.children.all (·.isLeaf)))) &&
    (t.kind != "do_statement" || (t.childByField? "condition").isSome)

/-- The children that are not run as statements hold no jump. -/
def strayless (t : Tree) : Bool :=
  t.children.zipIdx.all fun ci => decide (ci.2 ∈ places t) || jumpFree ci.1

/-- Jumps stand only where statements are run, and all statements are well shaped. -/
def orderly : Tree → Bool :=
  foldTree fun t os => wellShaped t && ((atPlaces t os).all id && strayless t)

/-- All that is run inside a node is orderly. -/
def orderlyInside (t : Tree) : Bool := (inner t).all orderly && strayless t

theorem orderly_eq (t : Tree) : orderly t = (wellShaped t && orderlyInside t) := by
  rw [orderly, foldTree_eq, atPlaces_map, List.all_map]
  rfl

theorem orderly_iff : orderly t = true ↔ wellShaped t = true ∧ orderlyInside t = true := by
  rw [orderly_eq, Bool.and_eq_true]

theorem orderlyInside_iff : orderlyInside t = true ↔ (∀ c ∈ inner t, orderly c = true) ∧
    ∀ i c, t.children[i]? = some c → i ∉ places t → jumpFree c = true := by
  rw [orderlyInside, Bool.and_eq_true, List.all_eq_true, strayless, List.all_eq_true]
  refine and_congr_right fun _ => ⟨?_, ?_⟩
  · intro h i c hc hi
    have hmem : (c, i) ∈ t.children.zipIdx := List.mem_zipIdx_iff_getElem?.mpr hc
    simpa [hi] using h _ hmem
  · rintro h ⟨c, i⟩ hmem
    have hc := List.mem_zipIdx_iff_getElem?.mp hmem
    by_cases hi : i ∈ places t
    · simp [hi]
    · simp [h i c hc hi]

theorem orderlyInside_inner (ho : orderlyInside t = true) (hc : c ∈ inner t) :
    orderlyInside c = true :=
  (orderly_iff.mp ((orderlyInside_iff.mp ho).1 c hc)).2

/-! ### Scanned jumps -/

/-- The jumps that a scan comes upon at a child. -/
def scanned (l : Locus) : List Locus :=
  if isJump l.kind then [l] else if isCountedLoop l.kind then [] else jumpsBelow l.above l.node

theorem jumpsBelow_eq (l : Locus) : jumpsBelow l.above l.node = l.children.flatMap scanned := by
  suffices hs : ∀ (cs : List Tree) (i : Nat), jumpsAmong l.node l.above i cs =
      (cs.mapIdx fun j c => (⟨c, (l.node, j + i) :: l.above⟩ : Locus)).flatMap scanned by
    have h := hs l.node.children 0
    obtain ⟨⟨k, a, b, f, cs⟩, above⟩ := l
    exact h
  intro cs
  induction cs with
  | nil => exact fun _ => rfl
  | cons c rest ih =>
    intro i
    rw [jumpsAmong, ih, List.mapIdx_cons, List.flatMap_cons]
    simp [scanned, Locus.kind, Nat.add_assoc, Nat.add_comm 1 i]

/-- The numbers of the jumps of a kind below a position. -/
def jumpIds (src : Source) (kind : String) (l : Locus) : List Int :=
  ((jumpsBelow l.above l.node).filter fun j => j.kind == kind).map fun j => spanId src j.node

/-- The numbers of the jumps of a kind that a scan comes upon at a child. -/
def scannedIds (src : Source) (kind : String) (l : Locus) : List Int :=
  ((scanned l).filter fun j => j.kind == kind).map fun j => spanId src j.node

theorem mem_jumpIds : x ∈ jumpIds src kind l ↔ ∃ c ∈ l.children, x ∈ scannedIds src kind c := by
  simp only [jumpIds, scannedIds, jumpsBelow_eq, List.mem_map, List.mem_filter, List.mem_flatMap]
  constructor
  · rintro ⟨j, ⟨⟨c, hc, hj⟩, hk⟩, rfl⟩
    exact ⟨c, hc, j, ⟨hj, hk⟩, rfl⟩
  · rintro ⟨c, hc, j, ⟨hj, hk⟩, rfl⟩
    exact ⟨j, ⟨⟨c, hc, hj⟩, hk⟩, rfl⟩

theorem scannedIds_loop (h : isCountedLoop l.kind = true) (hj : isJump l.kind = false) :
    scannedIds src kind l = [] := by
  simp [scannedIds, scanned, h, hj]

theorem scannedIds_other (h : isCountedLoop l.kind = false) (hj : isJump l.kind = false) :
    scannedIds src kind l = jumpIds src kind l := by
  simp [scannedIds, scanned, jumpIds, h, hj]

theorem getElem?_children (l : Locus) (i : Nat) :
    l.children[i]? = (l.node.children[i]?).map (l.child i) := by
  rw [Locus.children, List.getElem?_mapIdx]

theorem scanned_jumpFree : ∀ l : Locus, jumpFree l.node = true → scanned l = [] := by
  intro l
  induction l using locus_induction with
  | step l ih =>
    intro h
    rw [jumpFree_eq, Bool.and_eq_true, List.all_eq_true] at h
    obtain ⟨hjump, hcs⟩ := h
    have hbelow : jumpsBelow l.above l.node = [] := by
      rw [jumpsBelow_eq, List.flatMap_eq_nil_iff]
      exact fun c hc => ih c hc (hcs c.node (node_mem_children hc))
    have hjump : isJump l.kind = false := (Bool.not_eq_true' _).mp hjump
    simp [scanned, hjump, hbelow]

theorem spanId_mem_own (h : isJump t.kind = true) : spanId src t ∈ ownNumbers src t := by
  unfold ownNumbers
  have hk : t.kind = "break_statement" ∨ t.kind = "continue_statement" := by simpa [isJump] using h
  split
  · exact List.mem_cons_self
  · rcases hk with hk | hk <;> simp [hk]

/-- The jumps that a scan comes upon are among the numbered statements. -/
theorem scanned_numbers : ∀ l : Locus, orderlyInside l.node = true → ∀ j ∈ scanned l,
    spanId src j.node ∈ numbers src l.node := by
  intro l
  induction l using locus_induction with
  | step l ih =>
    intro ho j hj
    obtain ⟨hin, hout⟩ := orderlyInside_iff.mp ho
    by_cases hjump : isJump l.kind = true
    · obtain rfl : j = l := by simpa [scanned, hjump] using hj
      exact mem_numbers.mpr (.inl (spanId_mem_own hjump))
    · have hbelow : j ∈ jumpsBelow l.above l.node := by
        rw [scanned, if_neg hjump] at hj
        split at hj
        · cases hj
        · exact hj
      rw [jumpsBelow_eq, List.mem_flatMap] at hbelow
      obtain ⟨c, hc, hj⟩ := hbelow
      obtain ⟨i, hi⟩ := List.mem_iff_getElem?.mp hc
      rw [getElem?_children, Option.map_eq_some_iff] at hi
      obtain ⟨t, ht, rfl⟩ := hi
      by_cases hp : i ∈ places l.node
      · have hmem : t ∈ inner l.node := mem_inner.mpr ⟨i, hp, ht⟩
        have hnum := ih _ hc (orderly_iff.mp (hin t hmem)).2 j hj
        exact numbers_subset hmem hnum
      · rw [scanned_jumpFree (l.child i t) (hout i t ht hp)] at hj
        cases hj

theorem scannedIds_numbers (ho : orderlyInside l.node = true) (hx : x ∈ scannedIds src kind l) :
    x ∈ numbers src l.node := by
  obtain ⟨j, hj, rfl⟩ := List.mem_map.mp hx
  exact scanned_numbers l ho j (List.mem_filter.mp hj).1

/-- A number that a node shares with no statement inside is not come upon there. -/
theorem jumpIds_inner (ho : orderlyInside l.node = true) (hx : x ∈ jumpIds src kind l) :
    ∃ i t, i ∈ places l.node ∧ l.node.children[i]? = some t ∧
    x ∈ scannedIds src kind (l.child i t) := by
  obtain ⟨-, hout⟩ := orderlyInside_iff.mp ho
  obtain ⟨c, hc, hx⟩ := mem_jumpIds.mp hx
  obtain ⟨i, hi⟩ := List.mem_iff_getElem?.mp hc
  rw [getElem?_children, Option.map_eq_some_iff] at hi
  obtain ⟨t, ht, rfl⟩ := hi
  refine ⟨i, t, ?_, ht, hx⟩
  by_contra hp
  obtain ⟨j, hj, -⟩ := List.mem_map.mp hx
  rw [scanned_jumpFree (l.child i t) (hout i t ht hp)] at hj
  cases hj

end CrossCall.Flow

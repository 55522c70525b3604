import Mathlib
import CrossCall.Embedding.Call
import CrossCall.Parse.Cursor

/-! The walk of a cursor, as rounds of a loop. What is still to be met and how many rounds that
takes can be read off the cursor, and each round brings both down by its share; so the loop ends,
and what it has met is the preorder. Every node costs two rounds, one to enter it and one to leave
it. The loop needs no room for calls; the recursive collectors beside it do, and have it for trees
of any depth. -/
namespace CrossCall

namespace Cursor

/-! ### Rounds -/

/-- Where the next round begins: whether what is below the focus has been visited, and the cursor.
In a round the cursor goes down, or on, or up, or it stays and the focus counts as visited. Without
a way on or up the loop is over. -/
def advance? : Bool → Cursor → Option (Bool × Cursor)
  | false, c => some ((c.firstChild?.map (false, ·)).getD (true, c))
  | true, c => (c.nextSibling?.map (false, ·)).or (c.parent?.map (true, ·))

/-- What a round meets. -/
def met : Bool → Cursor → List Tree
  | false, c => [c.focus]
  | true, _ => []

/-- The loop ends after `n` rounds, the last one included, and meets `ts` in them. -/
inductive Runs : Nat → Bool → Cursor → List Tree → Prop
  | stop {left : Bool} {c : Cursor} : advance? left c = none → Runs 1 left c (met left c)
  | round {n : Nat} {left left' : Bool} {c c' : Cursor} {ts : List Tree} :
      advance? left c = some (left', c') →
      Runs n left' c' ts → Runs (n + 1) left c (met left c ++ ts)

variable {left left' : Bool} {c c' : Cursor} {n m : Nat} {ts : List Tree}

theorem walkFrom_succ (n : Nat) (left : Bool) (c : Cursor) :
    walkFrom (n + 1) left c = met left c ++ (advance? left c).elim [] fun s =>
    walkFrom n s.1 s.2 := by
  cases left with
  | false => cases hdown : c.firstChild? <;> simp [walkFrom, met, advance?, hdown]
  | true =>
    cases hon : c.nextSibling? with
    | some d => simp [walkFrom, met, advance?, hon]
    | none => cases hup : c.parent? <;> simp [walkFrom, met, advance?, hon, hup]

/-- A loop that ends is walked to its end if there is fuel for its rounds. -/
theorem Runs.walkFrom_eq (h : Runs n left c ts) (hm : n ≤ m) : walkFrom m left c = ts := by
  induction h generalizing m with
  | stop hnone =>
    obtain ⟨k, rfl⟩ := Nat.exists_eq_add_of_le' hm
    rw [walkFrom_succ, hnone, Option.elim_none, List.append_nil]
  | @round n left left' c c' ts hsome _ ih =>
    obtain ⟨k, rfl⟩ := Nat.exists_eq_add_of_le' hm
    rw [← Nat.add_assoc, walkFrom_succ, hsome, Option.elim_some, ih (Nat.le_add_left n k)]

/-! ### What is left to do -/

/-- The rounds that the frames above still take. -/
def roundsAbove : List (Tree × List Tree) → Nat
  | [] => 0
  | u :: up => 2 * Tree.sizeAll u.2 + 1 + roundsAbove up

/-- The rounds from here to the end. -/
def rounds (left : Bool) (c : Cursor) : Nat :=
  (if left then 1 else 2 * c.focus.size) + 2 * Tree.sizeAll c.later + roundsAbove c.above

/-- The nodes from here to the end. -/
def remaining (left : Bool) (c : Cursor) : List Tree :=
  (if left then [] else c.focus.preorder) ++ Tree.preorderAll c.later ++ c.above.flatMap fun u =>
    Tree.preorderAll u.2

theorem rounds_pos (left : Bool) (c : Cursor) : 0 < rounds left c := by
  cases left with
  | false =>
    obtain ⟨⟨k, a, b, f, cs⟩, later, above⟩ := c
    simp [rounds, Tree.size]
  | true => simp [rounds]

/-- A round takes one from the rounds, and what it meets from the front of the nodes. -/
theorem advance?_some (h : advance? left c = some (left', c')) :
    rounds left c = rounds left' c' + 1 ∧ remaining left c = met left c ++ remaining left' c' := by
  obtain ⟨⟨k, a, b, f, cs⟩, later, above⟩ := c
  -- How a round can go: at a leaf the cursor stays, else it goes down; and later on or up, or the
  -- loop is over.
  cases left with
  | false =>
    cases cs with
    | nil =>
      cases h
      refine ⟨?_, by simp [remaining, met, Tree.preorder, Tree.preorderAll]⟩
      simp only [rounds, Tree.size, Tree.sizeAll, Bool.false_eq_true, if_false, if_true]
      omega
    | cons d ds =>
      cases h
      refine ⟨?_, by simp [remaining, met, Tree.preorder, Tree.preorderAll]⟩
      simp only [rounds, roundsAbove, Tree.size, Tree.sizeAll, Bool.false_eq_true, if_false]
      omega
  | true =>
    cases later with
    | cons d ds =>
      cases h
      refine ⟨?_, by simp [remaining, met, Tree.preorderAll]⟩
      simp only [rounds, Tree.sizeAll, Bool.false_eq_true, if_false, if_true]
      omega
    | nil =>
      cases above with
      | nil => cases h
      | cons u up =>
        cases h
        refine ⟨?_, by simp [remaining, met, Tree.preorderAll]⟩
        simp only [rounds, roundsAbove, Tree.sizeAll, if_true]
        omega

theorem advance?_none (h : advance? left c = none) :
    rounds left c = 1 ∧ remaining left c = met left c := by
  obtain ⟨focus, later, above⟩ := c
  cases left with
  | false => cases h
  | true =>
    cases later with
    | cons d ds => cases h
    | nil =>
      cases above with
      | cons u up => cases h
      | nil => exact ⟨rfl, rfl⟩

/-- From wherever it stands the loop ends, and meets what remains. -/
theorem runs_remaining (left : Bool) (c : Cursor) :
    Runs (rounds left c) left c (remaining left c) := by
  induction hn : rounds left c generalizing left c with
  | zero => exact absurd hn (rounds_pos left c).ne'
  | succ n ih =>
    cases hadvance : advance? left c with
    | none =>
      obtain ⟨hone, hrest⟩ := advance?_none hadvance
      rw [← hn, hone, hrest]
      exact .stop hadvance
    | some s =>
      obtain ⟨hless, hrest⟩ := advance?_some hadvance
      rw [hrest]
      exact .round hadvance (ih s.1 s.2 (by omega))

end Cursor

theorem Tree.runs_preorder (t : Tree) : Cursor.Runs (2 * t.size) false ⟨t, [], []⟩ t.preorder := by
  simpa [Cursor.rounds, Cursor.roundsAbove, Cursor.remaining, Tree.sizeAll, Tree.preorderAll] using
    Cursor.runs_remaining false ⟨t, [], []⟩

/-- The cursor meets the nodes of a tree in preorder. -/
theorem Tree.walk_eq_preorder (t : Tree) : t.walk = t.preorder :=
  t.runs_preorder.walkFrom_eq (Nat.le_refl _)

/-! ### Positions in preorder -/

mutual

/-- The ways from a node to those at and below it, as child numbers, in preorder. -/
def Tree.paths : Tree → List (List Nat)
  | .node _ _ _ _ cs => [] :: Tree.pathsAmong 0 cs

def Tree.pathsAmong (i : Nat) : List Tree → List (List Nat)
  | [] => []
  | t :: ts => t.paths.map (i :: ·) ++ Tree.pathsAmong (i + 1) ts

end

mutual

theorem Locus.map_descend?_paths (above : List (Tree × Nat)) : (t : Tree) →
    t.paths.map (Locus.descend? ⟨t, above⟩) = (Locus.preorderOf above t).map some
  | .node k a b f cs => by
    rw [Tree.paths, List.map_cons, Locus.preorderOf, List.map_cons]
    exact congrArg _ (map_descend?_pathsAmong above (.node k a b f cs) 0 cs rfl)

theorem Locus.map_descend?_pathsAmong (above : List (Tree × Nat)) (parent : Tree) (i : Nat) :
    (ts : List Tree) →
    parent.children.drop i = ts →
      (Tree.pathsAmong i ts).map (Locus.descend? ⟨parent, above⟩) =
      (Locus.preorderOfAll parent above i ts).map some
  | [], _ => rfl
  | t :: ts, h => by
    have hchild : parent.children[i]? = some t := by rw [← List.head?_drop, h, List.head?_cons]
    have hrest : parent.children.drop (i + 1) = ts := by rw [← List.tail_drop, h, List.tail_cons]
    have hbelow : Locus.descend? ⟨parent, above⟩ ∘
        (i :: ·) = Locus.descend? ⟨t, (parent, i) :: above⟩ := by
      funext p
      simp [Locus.descend?, hchild, Locus.child]
    rw [Tree.pathsAmong, List.map_append, List.map_map, hbelow, map_descend?_paths,
      map_descend?_pathsAmong above parent (i + 1) ts hrest, Locus.preorderOfAll, List.map_append]

end

namespace Tree

variable {c : Tree} {cs : List Tree} {i k : Nat} {p q : List Nat}

theorem exists_of_mem_pathsAmong (h : p ∈ pathsAmong i cs) : ∃ j q, i ≤ j ∧ p = j :: q := by
  induction cs generalizing i with
  | nil => cases h
  | cons c rest ih =>
    rw [pathsAmong, List.mem_append, List.mem_map] at h
    rcases h with ⟨q, -, rfl⟩ | h
    · exact ⟨i, q, Nat.le_refl i, rfl⟩
    · obtain ⟨j, q, hj, rfl⟩ := ih h
      exact ⟨j, q, Nat.le_of_succ_le hj, rfl⟩

theorem mem_pathsAmong (hc : cs[k]? = some c) (hq : q ∈ c.paths) :
    (i + k) :: q ∈ pathsAmong i cs := by
  induction cs generalizing i k with
  | nil => cases hc
  | cons d rest ih =>
    rw [pathsAmong, List.mem_append]
    cases k with
    | zero =>
      cases hc
      exact .inl (List.mem_map_of_mem hq)
    | succ k =>
      rw [Nat.add_comm k 1, ← Nat.add_assoc]
      exact .inr (ih hc)

mutual

/-- A way comes before those that go on from it, and before those that turn off it to the right. -/
theorem pairwise_paths : (t : Tree) → t.paths.Pairwise (List.Lex (· < ·))
  | .node _ _ _ _ cs => by
    rw [paths, List.pairwise_cons]
    refine ⟨fun p hp => ?_, pairwise_pathsAmong 0 cs⟩
    obtain ⟨j, q, -, rfl⟩ := exists_of_mem_pathsAmong hp
    exact .nil

theorem pairwise_pathsAmong (i : Nat) :
    (cs : List Tree) → (pathsAmong i cs).Pairwise (List.Lex (· < ·))
  | [] => .nil
  | c :: cs => by
    rw [pathsAmong, List.pairwise_append]
    refine ⟨c.pairwise_paths.map _ fun _ _ => .cons, pairwise_pathsAmong (i + 1) cs, ?_⟩
    intro p hp p' hp'
    obtain ⟨q, -, rfl⟩ := List.mem_map.mp hp
    obtain ⟨j, q', hj, rfl⟩ := exists_of_mem_pathsAmong hp'
    exact .rel hj

end

end Tree

namespace Locus

theorem descend?_paths (l : Locus) : l.node.paths.map l.descend? = l.preorder.map some :=
  map_descend?_paths l.above l.node

/-- The ways are all that lead anywhere. -/
theorem mem_paths_iff {p : List Nat} (l : Locus) :
    p ∈ l.node.paths ↔ (l.descend? p).isSome = true := by
  constructor
  · intro hp
    have hmem : l.descend? p ∈ l.preorder.map some := l.descend?_paths ▸ List.mem_map_of_mem hp
    obtain ⟨x, -, hx⟩ := List.mem_map.mp hmem
    rw [← hx, Option.isSome_some]
  · intro hp
    induction p generalizing l with
    | nil =>
      obtain ⟨⟨k, a, b, f, cs⟩, above⟩ := l
      exact List.mem_cons_self
    | cons i q ih =>
      obtain ⟨⟨k, a, b, f, cs⟩, above⟩ := l
      obtain ⟨x, hx⟩ := Option.isSome_iff_exists.mp hp
      obtain ⟨c, hc, hx⟩ := Option.bind_eq_some_iff.mp hx
      have hq :=
        ih (Locus.child ⟨.node k a b f cs, above⟩ i c) (Option.isSome_iff_exists.mpr ⟨x, hx⟩)
      have hmem := Tree.mem_pathsAmong (i := 0) hc hq
      rw [Nat.zero_add] at hmem
      exact List.mem_cons_of_mem _ hmem

mutual

theorem map_node_preorderOf (above : List (Tree × Nat)) : (t : Tree) →
    (preorderOf above t).map Locus.node = t.preorder
  | .node k a b f cs => by
    rw [preorderOf, List.map_cons, map_node_preorderOfAll, Tree.preorder]

theorem map_node_preorderOfAll (parent : Tree) (above : List (Tree × Nat)) (i : Nat) :
    (cs : List Tree) →
    (preorderOfAll parent above i cs).map Locus.node = Tree.preorderAll cs
  | [] => rfl
  | c :: cs => by
    rw [preorderOfAll, List.map_append, map_node_preorderOf, map_node_preorderOfAll,
      Tree.preorderAll]

end

end Locus

/-! ### Collecting functions -/

open CrossCall.Embedding (isFunction)

namespace Tree

variable (isWanted : Tree → Bool)

mutual

theorem collect_eq_filter : (t : Tree) → t.collect isWanted = t.preorder.filter isWanted
  | .node k a b f cs => by
    rw [collect, preorder, List.filter_cons, collectAll_eq_filter cs]
    split <;> rfl

theorem collectAll_eq_filter : (ts : List Tree) →
    collectAll isWanted ts = (preorderAll ts).filter isWanted
  | [] => rfl
  | t :: ts => by
    rw [collectAll, preorderAll, List.filter_append, collect_eq_filter t, collectAll_eq_filter ts]

end

mutual

theorem gather_eq_collect (found : List Tree) : (t : Tree) →
    t.gather isWanted found = found ++ t.collect isWanted
  | .node k a b f cs => by
    rw [gather, collect, gatherAll_eq_collectAll _ cs]
    split <;> simp

theorem gatherAll_eq_collectAll (found : List Tree) : (ts : List Tree) →
    gatherAll isWanted found ts = found ++ collectAll isWanted ts
  | [] => (List.append_nil found).symm
  | t :: ts => by
    rw [gatherAll, collectAll, gather_eq_collect found t, gatherAll_eq_collectAll _ ts,
      List.append_assoc]

end

end Tree

theorem Locus.map_node_functions (l : Locus) :
    l.functions.map Locus.node = l.node.preorder.filter isFunction := by
  rw [← map_node_preorderOf l.above l.node, List.filter_map]
  rfl

/-- The walk of a cursor ends after two rounds for each node. It meets every position at and below
the start once, in the order of the ways that lead there; and the functions among them are those
that a collection by recursion finds, whether it joins lists or lets one grow, and in its order. -/
theorem walk_traverses (l : Locus) :
    Cursor.Runs (2 * l.node.size) false ⟨l.node, [], []⟩ l.node.walk ∧
    (∃ ways : List (List Nat), ways.Pairwise (List.Lex (· < ·)) ∧
      (∀ p, p ∈ ways ↔ (l.descend? p).isSome = true) ∧
      l.node.walk.map some = ways.map (fun p => (l.descend? p).map Locus.node) ∧
        l.functions.map some = (ways.map l.descend?).filter fun x => x.any fun y =>
        isFunction y.node) ∧
    l.node.walk.filter isFunction = l.node.collect isFunction ∧
      l.node.walk.filter isFunction = l.node.gather isFunction [] ∧
      l.node.walk.filter isFunction = l.node.preorder.filter isFunction ∧
        l.node.walk.filter isFunction = l.functions.map Locus.node := by
  rw [Tree.walk_eq_preorder]
  refine ⟨l.node.runs_preorder,
    ⟨l.node.paths, l.node.pairwise_paths, fun p => l.mem_paths_iff, ?_, ?_⟩, ?_, ?_, rfl, ?_⟩
  · have hnodes : l.node.paths.map (fun p => (l.descend? p).map Locus.node) =
        (l.node.paths.map l.descend?).map (Option.map Locus.node) := by rw [List.map_map]; rfl
    rw [hnodes, l.descend?_paths, List.map_map, ← Locus.map_node_preorderOf l.above l.node,
      List.map_map]
    rfl
  · rw [l.descend?_paths, List.filter_map]
    rfl
  · exact (l.node.collect_eq_filter isFunction).symm
  · rw [Tree.gather_eq_collect, List.nil_append, Tree.collect_eq_filter]
  · exact l.map_node_functions.symm

end CrossCall

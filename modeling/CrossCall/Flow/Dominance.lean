import CrossCall.Flow.Graph
/-!
Immediate dominators by semidominators, with path compression on a forest. Vertices are numbered by
a depth-first walk from the root; `0` stands for "none" where the algorithm keeps a vertex or
nothing. Both the walk and the compression call themselves, and there is room for calls of any
depth: a graph may be as deep as it likes. Beside the algorithm stands what it is to compute: a
vertex dominates another if it lies on every walk from the root.
-/
namespace CrossCall.Flow

/-! ### Dominance -/

/-- `Walk next a xs b`: `xs` are the vertices of a walk from `a` to `b`, both included. -/
inductive Walk (next : Int → List Int) : Int → List Int → Int → Prop
  | here {a : Int} : Walk next a [a] a
  | step {a m b : Int} {xs : List Int} : m ∈ next a → Walk next m xs b → Walk next a (a :: xs) b

/-- A vertex on every walk from the root to another one. -/
def Dominates (next : Int → List Int) (root d v : Int) : Prop := ∀ xs, Walk next root xs v → d ∈ xs

/-! ### Numbering -/

/-- The outcome of the depth-first walk: the vertices in the order of their first visit, and for all
but the root the vertex they were reached from. -/
structure Numbering where
  order : List Int
  parent : Table Int Int := {}
deriving Repr

namespace Numbering

def number? (s : Numbering) (v : Int) : Option Nat := s.order.findIdx? (· == v)

def visit (s : Numbering) (v w : Int) : Numbering := ⟨s.order ++ [w], s.parent.insert w v⟩

end Numbering

/-- Follows arcs that are still to be looked at, those of the latest vertex first. -/
def depthFirst (next : Int → List Int) : Nat → List (Int × Int) → Numbering → Numbering
  | 0, _, s => s
  | _ + 1, [], s => s
  | n + 1, (v, w) :: rest, s =>
    if (s.number? w).isSome then depthFirst next n rest s
    else depthFirst next n ((next w).map (w, ·) ++ rest) (s.visit v w)

/-- The successors of a vertex in a table. -/
def nextIn (succ : Table Int (List Int)) (v : Int) : List Int := succ.getD v []

/-- Numbers what can be reached from the root. Every arc is looked at once at most. -/
def numberFrom (succ : Table Int (List Int)) (root : Int) : Numbering :=
  depthFirst (nextIn succ) (succ.values.flatten.length + 1) ((nextIn succ root).map (root, ·))
    { order := [root] }

/-! ### The forest of linked vertices -/

/-- The working state. All tables have the listed vertices that were numbered as keys. -/
structure Forest where
  semi : Table Int Nat := {}
  idom : Table Int Int := {}
  ancestor : Table Int Int := {}
  label : Table Int Int := {}
  bucket : Table Int (List Int) := {}
deriving Repr

/-- The value under a key that has to be there. -/
def look {ν : Type} (t : Table Int ν) (v : Int) : Except Fault ν :=
  match t.get? v with
  | some x => .ok x
  | none => .error .unlisted

namespace Forest

/-- At first every vertex is its own semidominator and label and is linked to nothing. -/
def start (s : Numbering) (vs : List Int) : Forest :=
  vs.foldl (fun f v => match s.number? v with
    | none => f
    | some n => {
        semi := f.semi.insert v n
        idom := f.idom.insert v 0
        ancestor := f.ancestor.insert v 0
        label := f.label.insert v v
        bucket := f.bucket.insert v [] }) {}

/-- The semidominator number of a vertex's label. -/
def labelSemi (f : Forest) (v : Int) : Except Fault Nat := do look f.semi (← look f.label v)

/-- Moves a vertex and its ancestors right under the root of their tree, keeping the best label on
the way. -/
def compress : Nat → Int → Forest → Except Fault Forest
  | 0, _, f => .ok f
  | n + 1, v, f => do
    let a ← look f.ancestor v
    let top ← look f.ancestor a
    if top = 0 then pure f
    else
      let f ← compress n a f
      let a ← look f.ancestor v
      let best ← look f.label a
      let f := if (← f.labelSemi a) < (← f.labelSemi v) then
        { f with label := f.label.insert v best } else f
      pure { f with ancestor := f.ancestor.insert v (← look f.ancestor a) }

/-- The vertex of least semidominator on the way from `v` to the root of its tree. -/
def eval (size : Nat) (v : Int) (f : Forest) : Except Fault (Int × Forest) := do
  if (← look f.ancestor v) = 0 then pure (← look f.label v, f)
  else
    let f ← compress size v f
    let a ← look f.ancestor v
    if (← f.labelSemi a) ≥ (← f.labelSemi v) then pure (← look f.label v, f)
    else pure (← look f.label a, f)

/-- Lowers the semidominator of `w` by one of its predecessors. -/
def relax (size : Nat) (w : Int) (f : Forest) (v : Int) : Except Fault Forest := do
  let (u, f) ← f.eval size v
  let best ← look f.semi u
  if best < (← look f.semi w) then pure { f with semi := f.semi.insert w best } else pure f

/-- Settles one vertex that waited for `p` to be linked. -/
def settle (size : Nat) (p : Int) (f : Forest) (v : Int) : Except Fault Forest := do
  let (u, f) ← f.eval size v
  let d := if (← look f.semi u) < (← look f.semi v) then u else p
  pure { f with idom := f.idom.insert v d }

/-- Treats the vertex `w`: its semidominator, its bucket, its link, and the bucket of its parent. -/
def process (s : Numbering) (preds : List Int) (w : Int) (f : Forest) : Except Fault Forest := do
  let size := s.order.length
  let f ← preds.foldlM (relax size w) f
  let f ← match s.order[← look f.semi w]? with
    | none => pure f
    | some d => pure { f with bucket := f.bucket.insert d ((← look f.bucket d) ++ [w]) }
  match s.parent.get? w with
  | none => pure f
  | some p =>
    if p = 0 then pure f
    else
      let f := { f with ancestor := f.ancestor.insert w p }
      let f ← (← look f.bucket p).foldlM (settle size p) f
      pure { f with bucket := f.bucket.insert p [] }

/-- Resolves a dominator that was left relative to another vertex. -/
def resolve (s : Numbering) (f : Forest) (w : Int) : Except Fault Forest :=
  match f.idom.get? w with
  | none => pure f
  | some d => do
    if d = 0 then pure f
    else match s.order[← look f.semi w]? with
      | none => pure f
      | some x =>
        if d = x then pure f else pure { f with idom := f.idom.insert w (← look f.idom d) }

end Forest

/-- The listed vertices that have `w` among their successors and were numbered. -/
def numberedPredecessors (s : Numbering) (succ : Table Int (List Int)) (vs : List Int) (w : Int) :
    List Int :=
  vs.filter fun v => (nextIn succ v).contains w && (s.number? v).isSome

/-- Immediate dominators of the listed vertices. The root dominates itself, and so it does with
every vertex that cannot be reached. -/
def immediateDominators (vs : List Int) (succ : Table Int (List Int)) (root : Int) :
    Except Fault (Table Int Int) := do
  let s := numberFrom succ root
  let f ← s.order.tail.reverse.foldlM
    (fun f w => f.process s (numberedPredecessors s succ vs w) w) (Forest.start s vs)
  let f ← s.order.tail.foldlM (fun f w => f.resolve s w) f
  pure (vs.foldl (fun t v => if (s.number? v).isSome then t else t.insert v root)
    (f.idom.insert root root))

/-! ### Trees -/

/-- A tree given by parents and children. -/
structure DominatorTree where
  root : Int
  parent : Table Int Int
  children : Table Int (List Int)
deriving Repr

namespace DominatorTree

/-- Reads parents off the children; vertices without children get an empty list. -/
def ofChildren (vs : List Int) (children : Table Int (List Int)) (root : Int) : DominatorTree where
  root := root
  parent :=
    (children.entries.foldl (fun (t : Table Int Int) e => e.2.foldl (fun t c => t.insert c e.1) t)
      {}).insert root root
  children := vs.foldl (fun t v => t.insertNew v []) children

end DominatorTree

/-- The vertex under which domination in a graph starts. -/
def Graph.exitId (g : Graph) : Int := g.exit.getD (-1)

/-- Hangs every vertex below its immediate dominator. -/
def hang (idom : Table Int Int) (t : DominatorTree) (v : Int) : Except Fault DominatorTree :=
  match idom.get? v with
  | none => .ok { t with parent := t.parent.insert v v }
  | some d => do
    if d = v then pure { t with parent := t.parent.insert v v }
    else pure {
      t with
      children := t.children.insert d ((← look t.children d) ++ [v])
      parent := t.parent.insert v d }

/-- The tree of dominators from the exit of a graph. On a reversed graph these are the
postdominators. -/
def dominatorTree (g : Graph) : Except Fault DominatorTree := do
  let idom ← immediateDominators g.ids g.successorTable g.exitId
  g.ids.foldlM (hang idom)
    { root := g.exitId, parent := {}, children := g.ids.foldl (fun t v => t.insert v []) {} }

/-- Climbs from `runner` and enters `v` on the way, up to the parent of `v` or the top. -/
def climb (t : DominatorTree) (v : Int) :
    Nat → Int → Table Int (List Int) → Except Fault (Table Int (List Int))
  | 0, _, df => .ok df
  | n + 1, runner, df => do
    if runner = t.parent.getD v v then pure df
    else
      let df ← if runner = v then pure df else do
        pure (df.insert runner ((← look df runner) ++ [v]))
      if runner = t.parent.getD runner runner then pure df
      else climb t v n (← look t.parent runner) df

/-- For every vertex the vertices at which its domination ends: joins that it dominates a
predecessor of, but not strictly. Only joins, that is vertices with several incoming edges, are
looked at. -/
def dominanceFrontier (g : Graph) : Except Fault (Table Int (List Int)) := do
  let t ← dominatorTree g
  let prev := g.predecessorTable
  g.ids.foldlM (fun df v =>
    let ps := prev.getD v []
    if ps.length > 1 then ps.foldlM (fun df p => climb t v (g.ids.length + 1) p df) df else pure df)
    (g.ids.foldl (fun df v => df.insert v []) {})

end CrossCall.Flow

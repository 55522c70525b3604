import Mathlib
import CrossCall.Flow.Control

/-! Structured statements and their executions, in which every condition may turn out either way. -/
namespace CrossCall

/-- A function without parameters and with a name of one letter, at an offset, from the length of
its type and its body. -/
def Tree.bareFunction (o typeLength : Nat) (body : Tree) : Tree :=
  let name := o + typeLength + 1
  .node "function_definition" o body.stop none [
    .node "primitive_type" o (o + typeLength) (some "type") [],
    .node "function_declarator" name (name + 3) (some "declarator") [
      .node "identifier" name (name + 1) (some "declarator") [],
      .node "parameter_list" (name + 1) (name + 3) (some "parameters") [
        .node "(" (name + 1) (name + 2) none [], .node ")" (name + 2) (name + 3) none []]],
    body]

end CrossCall

namespace CrossCall.Flow

/-! ### Statements -/

/-- A structured statement. Positions stand for what is visited: a statement without inner
structure, or the head of one that branches. -/
inductive Stmt where
  | skip
  | seq (first second : Stmt)
  | visit (here : Locus)
  | ret (here : Locus)
  | branch (head : Locus) (yes no : Stmt)
  | loop (head : Locus) (body : Stmt)
  /-- Here the position is that of the whole statement, whose condition is visited after the
  body. -/
  | doLoop (body : Stmt) (whole : Locus)

/-- A child of a node with the statement that it is. -/
structure Member where
  locus : Locus
  stmt : Stmt

namespace Stmt

def sequence : List Member → Stmt
  | [] => skip
  | m :: ms => seq m.stmt (sequence ms)

/-- The member that a field name leads to. One that is not there does nothing. -/
def named (ms : List Member) (name : String) : Stmt :=
  match ms.find? fun m => m.locus.node.field == some name with
  | some m => m.stmt
  | none => skip

def ofNode (l : Locus) (ms : List Member) : Stmt :=
  if l.node.isLeaf then skip
  else match l.kind with
    | "function_definition" => seq (visit l) (named ms "body")
    | "compound_statement" => sequence ms
    | "else_clause" => sequence ms
    | "if_statement" => branch l (named ms "consequence") (named ms "alternative")
    | "while_statement" => loop l (named ms "body")
    | "for_statement" => loop l (named ms "body")
    | "do_statement" => doLoop (named ms "body") l
    | "return_statement" => ret l
    | "comment" => skip
    | _ => visit l

mutual

/-- The statement that a tree is. -/
def ofTree (above : List (Tree × Nat)) : Tree → Stmt
  | .node k a b f cs => ofNode ⟨.node k a b f cs, above⟩ (members (.node k a b f cs) above 0 cs)

def members (parent : Tree) (above : List (Tree × Nat)) (i : Nat) : List Tree → List Member
  | [] => []
  | t :: ts =>
    ⟨⟨t, (parent, i) :: above⟩, ofTree ((parent, i) :: above) t⟩ :: members parent above (i + 1) ts

end

end Stmt

/-- Kinds that structured code does without. -/
def unstructuredKinds : List String :=
  ["break_statement", "continue_statement", "switch_statement", "case_statement",
    "function_definition", "translation_unit"]

/-- May a node stand in structured code? Comments and the word `else` have no inner structure, and
an else clause has something beside that word. -/
def isPlain (t : Tree) : Bool :=
  !unstructuredKinds.contains t.kind && (t.kind != "comment" || t.isLeaf) &&
    (t.kind != "else_clause" ||
      (t.children.all fun c => c.kind != "else" || c.isLeaf) &&
        (1 < t.children.length || t.children.all (·.isLeaf)))

/-- All code below a node is structured. -/
def Structured (t : Tree) : Prop := ∀ x ∈ Tree.preorderAll t.children, isPlain x = true

instance (t : Tree) : Decidable (Structured t) := inferInstanceAs (Decidable (∀ x ∈ _, _))

/-! ### Executions -/

inductive Outcome where
  | done
  | returned
deriving Repr, DecidableEq

/-- The vertex of the condition of a do loop. -/
def conditionVertex (src : Source) (l : Locus) : Except Fault Vertex :=
  match l.childByField? "condition" with
  | none => .error .missingPart
  | some c => (Vertex.ofLocus src c).map fun v =>
    { v with text := "while (" ++ v.text ++ ")", branch := true }

/-- The statement can be run from its beginning to its end, visiting these vertices in order. -/
inductive Executes (src : Source) : Stmt → List Vertex → Outcome → Prop
  | skip : Executes src .skip [] .done
  | seq {a b xs ys o} : Executes src a xs .done → Executes src b ys o →
      Executes src (.seq a b) (xs ++ ys) o
  | seqReturned {a b xs} : Executes src a xs .returned → Executes src (.seq a b) xs .returned
  | visit {l v} : Vertex.ofLocus src l = .ok v → Executes src (.visit l) [v] .done
  | ret {l v} : Vertex.ofLocus src l = .ok v → Executes src (.ret l) [v] .returned
  | yes {l v a b xs o} : Vertex.ofLocus src l = .ok v → Executes src a xs o →
      Executes src (.branch l a b) (v :: xs) o
  | no {l v a b xs o} : Vertex.ofLocus src l = .ok v → Executes src b xs o →
      Executes src (.branch l a b) (v :: xs) o
  | leave {l v a} : Vertex.ofLocus src l = .ok v → Executes src (.loop l a) [v] .done
  | again {l v a xs ys o} : Vertex.ofLocus src l = .ok v → Executes src a xs .done →
      Executes src (.loop l a) ys o → Executes src (.loop l a) (v :: (xs ++ ys)) o
  | loopReturned {l v a xs} : Vertex.ofLocus src l = .ok v → Executes src a xs .returned →
      Executes src (.loop l a) (v :: xs) .returned
  | doLeave {l v a xs} : Executes src a xs .done → conditionVertex src l = .ok v →
      Executes src (.doLoop a l) (xs ++ [v]) .done
  | doAgain {l v a xs ys o} : Executes src a xs .done → conditionVertex src l = .ok v →
      Executes src (.doLoop a l) ys o → Executes src (.doLoop a l) (xs ++ v :: ys) o
  | doReturned {l a xs} : Executes src a xs .returned → Executes src (.doLoop a l) xs .returned

/-- An execution begins with these visits. -/
def Begins (src : Source) (s : Stmt) (xs : List Vertex) : Prop :=
  ∃ ys o, Executes src s ys o ∧ xs <+: ys

variable {src : Source} {l : Locus} {s a b : Stmt} {v : Vertex} {xs ys us ws : List Vertex}
  {o : Outcome}

theorem Executes.begins (h : Executes src s xs o) : Begins src s xs := ⟨xs, o, h, List.prefix_rfl⟩

/-- A loop that was left could have gone on instead. -/
theorem Executes.loop_go_on (h : Executes src (.loop l a) us .done)
    (hgo : Executes src (.seq a (.loop l a)) ys o) : Executes src (.loop l a) (us ++ ys) o := by
  generalize hs : Stmt.loop l a = s, ho : Outcome.done = o' at h
  induction h with
  | leave hv =>
    cases hs
    cases hgo with
    | seq ha hl => simpa using Executes.again hv ha hl
    | seqReturned ha => exact .loopReturned hv ha
  | again hv ha hl _ ih =>
    cases hs
    subst ho
    simpa using Executes.again hv ha (ih rfl rfl)
  | loopReturned => cases ho
  | _ => cases hs

theorem Executes.do_go_on (h : Executes src (.doLoop a l) us .done)
    (hgo : Executes src (.doLoop a l) ys o) : Executes src (.doLoop a l) (us ++ ys) o := by
  generalize hs : Stmt.doLoop a l = s, ho : Outcome.done = o' at h
  induction h with
  | doLeave ha hv =>
    cases hs
    simpa using Executes.doAgain ha hv hgo
  | doAgain ha hv hl _ ih =>
    cases hs
    subst ho
    simpa using Executes.doAgain ha hv (ih rfl rfl)
  | doReturned => cases ho
  | _ => cases hs

namespace Begins

theorem nil (h : Begins src s xs) : Begins src s [] := by
  obtain ⟨ys, o, hys, _⟩ := h
  exact ⟨ys, o, hys, List.nil_prefix⟩

theorem seq_left (h : Begins src a xs) (hb : Begins src b []) : Begins src (.seq a b) xs := by
  obtain ⟨ys, o, ha, hp⟩ := h
  obtain ⟨zs, o', hz, _⟩ := hb
  cases o with
  | done => exact ⟨ys ++ zs, o', .seq ha hz, hp.trans (List.prefix_append ys zs)⟩
  | returned => exact ⟨ys, .returned, .seqReturned ha, hp⟩

theorem seq_right (ha : Executes src a us .done) (h : Begins src b ws) :
    Begins src (.seq a b) (us ++ ws) := by
  obtain ⟨ys, o, hb, hp⟩ := h
  exact ⟨us ++ ys, o, .seq ha hb, (List.prefix_append_right_inj us).mpr hp⟩

theorem yes (hv : Vertex.ofLocus src l = .ok v) (h : Begins src a xs) :
    Begins src (.branch l a b) (v :: xs) := by
  obtain ⟨ys, o, ha, hp⟩ := h
  exact ⟨v :: ys, o, .yes hv ha, (List.prefix_cons_inj v).mpr hp⟩

theorem no (hv : Vertex.ofLocus src l = .ok v) (h : Begins src b xs) :
    Begins src (.branch l a b) (v :: xs) := by
  obtain ⟨ys, o, hb, hp⟩ := h
  exact ⟨v :: ys, o, .no hv hb, (List.prefix_cons_inj v).mpr hp⟩

theorem loop (hv : Vertex.ofLocus src l = .ok v) (hl : Executes src (.loop l a) us .done)
    (h : Begins src a ws) : Begins src (.loop l a) (us ++ ws) := by
  have hon : Begins src (.seq a (.loop l a)) ws := h.seq_left (Executes.leave hv).begins.nil
  obtain ⟨ys, o, hgo, hp⟩ := hon
  exact ⟨us ++ ys, o, hl.loop_go_on hgo, (List.prefix_append_right_inj us).mpr hp⟩

theorem doBody (hv : conditionVertex src l = .ok v) (h : Begins src a ws) :
    Begins src (.doLoop a l) ws := by
  obtain ⟨ys, o, ha, hp⟩ := h
  cases o with
  | done => exact ⟨ys ++ [v], .done, .doLeave ha hv, hp.trans (List.prefix_append ys [v])⟩
  | returned => exact ⟨ys, .returned, .doReturned ha, hp⟩

theorem doLoop (hl : Executes src (.doLoop a l) us .done) (h : Begins src (.doLoop a l) ws) :
    Begins src (.doLoop a l) (us ++ ws) := by
  obtain ⟨ys, o, hgo, hp⟩ := h
  exact ⟨us ++ ys, o, hl.do_go_on hgo, (List.prefix_append_right_inj us).mpr hp⟩

end Begins

end CrossCall.Flow

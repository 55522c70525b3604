import CrossCall.Table
import CrossCall.Text.Word
import CrossCall.Parse.SpanHash
/-!
Vertices of the dependence graphs. A vertex describes one statement, or the head of a branching one:
where it stands, how it is written, whether control branches there, and which variables it defines
and uses.
-/
namespace CrossCall.Flow

/-- Why a vertex or a graph cannot be built. -/
inductive Fault where
  /-- The bytes of a node are no text. -/
  | undecodable
  /-- A part that the construction needs is missing from the tree. -/
  | missingPart
  /-- The parser has no tree for the text. -/
  | unparsed
  /-- A number was looked up that names no vertex. -/
  | unlisted
deriving Repr, DecidableEq

structure Vertex where
  id : Int
  line : Int := -1
  kind : String := "virtual"
  text : String := ""
  branch : Bool := false
  defs : List String := []
  uses : List String := []
deriving Repr, DecidableEq, Inhabited

/-- The text of a node, or the fault. -/
def readText (src : Source) (t : Tree) : Except Fault String :=
  match src.textOf? t with
  | some s => .ok s
  | none => .error .undecodable

/-! ### How a statement is written -/

/-- The texts of the nodes one after the other, each after the separator. -/
def readAll (src : Source) (sep : String) : List Tree → Except Fault String
  | [] => .ok ""
  | t :: ts => do
    let s ← readText src t
    let rest ← readAll src sep ts
    pure (sep ++ s ++ rest)

/-- The field under which a branching statement keeps the part that its head does not cover. -/
def bodyField (kind : String) : String := if kind = "if_statement" then "consequence" else "body"

def isHeadKind (kind : String) : Bool :=
  kind == "if_statement" || kind == "while_statement" || kind == "for_statement" ||
    kind == "switch_statement"

/-- A function shows its signature, a branching statement its head, a case its label, and every
other statement its whole text. -/
def displayText (src : Source) (t : Tree) : Except Fault String :=
  if t.kind = "function_definition" then
    match t.childByField? "declarator", t.childByField? "type" with
    | some d, some ty => do
      let r ← readText src ty
      let s ← readText src d
      pure (r ++ " " ++ s)
    | some d, none => readText src d
    | none, _ => .ok "function"
  else if isHeadKind t.kind then readAll src "" (t.childrenBefore (bodyField t.kind))
  else if t.kind = "case_statement" then
    readAll src " " (t.children.takeWhile fun c => c.kind != ":")
  else readText src t

/-- Control branches at if, while, for and case statements and at the condition of a do loop. -/
def isBranch (l : Locus) : Bool :=
  l.kind == "if_statement" || l.kind == "while_statement" || l.kind == "for_statement" ||
    l.kind == "case_statement" ||
    ((l.parent?.map (·.kind)) == some "do_statement" && l.isFieldOfParent "condition")

/-! ### Definitions and uses -/

/-- Is the parent of this kind? -/
def parentIs (l : Locus) (kind : String) : Bool := l.parent?.map (·.kind) == some kind

/-- The identifiers at or below a position, callees left out: an identifier directly under a call
expression names what is called. -/
def variablesIn (l : Locus) : List Locus :=
  l.preorder.filter fun x =>
    x.kind == "identifier" && x.parent?.isSome && !parentIs x "call_expression"

/-- Functions that write through the addresses they are given. -/
def readers : List String := ["scanf", "fscanf", "sscanf", "gets", "fgets"]

/-- Is this the operand of an address operator among the arguments of a reading function? -/
def isReadTarget (src : Source) (l : Locus) : Except Fault Bool :=
  match l.ancestor? 0, l.ancestor? 1, l.ancestor? 2 with
  | some p, g?, c? =>
    match p.children.head? with
    | none => .ok false
    | some operator => do
      let op ← readText src operator
      match op == "&", g?, c? with
      | true, some g, some c =>
        if g.kind = "argument_list" ∧ c.kind = "call_expression" then
          match c.childByField? "function" with
          | none => pure false
          | some f => do
            let name ← readText src f
            pure (readers.contains name)
        else pure false
      | _, _, _ => pure false
  | none, _, _ => .ok false

/-- Does an identifier stand where its statement gives it a value? -/
def isDefinition (src : Source) (l : Locus) : Except Fault Bool :=
  match l.parent? with
  | none => .ok false
  | some p =>
    if p.kind = "declaration" then .ok true
    else if p.kind = "init_declarator" then .ok (l.isFieldOfParent "declarator")
    else if p.kind = "parameter_declaration" then .ok true
    else if p.kind = "array_declarator" then
      .ok ((l.ancestor? 1).map (·.kind) == some "parameter_declaration")
    else if p.kind = "assignment_expression" then .ok (l.isFieldOfParent "left")
    else if p.kind = "update_expression" then .ok true
    else if p.kind = "unary_expression" ∨ p.kind = "pointer_expression" then isReadTarget src l
    else .ok false

/-- Defined and used variables. -/
structure Effect where
  defs : List String := []
  uses : List String := []
deriving Repr, DecidableEq

namespace Effect

def define (e : Effect) (x : String) : Effect := { e with defs := insertName e.defs x }

def use (e : Effect) (x : String) : Effect := { e with uses := insertName e.uses x }

end Effect

/-- Classifies identifiers one after the other. -/
def classify (src : Source) : Effect → List Locus → Except Fault Effect
  | e, [] => .ok e
  | e, l :: ls => do
    let isDef ← isDefinition src l
    let name ← readText src l.node
    classify src (if isDef then e.define name else e.use name) ls

/-- The identifiers in the parameter list of a function's own declarator. -/
def signatureVariables (l : Locus) : List Locus :=
  match l.children.find? fun c => c.kind == "function_declarator" with
  | none => []
  | some d =>
    match d.children.find? fun c => c.kind == "parameter_list" with
    | none => []
    | some ps => ps.preorder.filter fun x => x.kind == "identifier"

/-- Variables handed to a call. -/
def argumentNames (src : Source) (l : Locus) : Except Fault (List String) :=
  match l.childByField? "arguments" with
  | none => .ok []
  | some args => do
    let ids := (args.children.filter fun c => c.kind != ",").flatMap variablesIn
    let names ← ids.mapM fun x => readText src x.node
    pure (names.filter fun s => !s.isEmpty && !s.toList.head?.any (· == '"') && !Text.isNumeral s)

/-- The field that holds the condition of a branching statement. -/
def conditionField (kind : String) : String :=
  if kind = "switch_statement" then "value" else "condition"

/-- The positions whose identifiers a statement is answerable for: the condition of an if, while or
switch (or, without one, all that stands before the body), the clauses of a for loop, the parameters
of a function, and the whole of any other statement. -/
def effectVariables (l : Locus) : List Locus :=
  if l.kind = "if_statement" ∨ l.kind = "while_statement" ∨ l.kind = "switch_statement" then
    match l.childByField? (conditionField l.kind) with
    | some c => variablesIn c
    | none => (l.childrenBefore (bodyField l.kind)).flatMap variablesIn
  else if l.kind = "for_statement" then (l.childrenBefore "body").flatMap variablesIn
  else if l.kind = "function_definition" then signatureVariables l
  else variablesIn l

/-- What a statement defines and uses. The arguments of a call expression count as both. -/
def effect (src : Source) (l : Locus) : Except Fault Effect := do
  let e ← classify src {} (effectVariables l)
  if l.kind = "call_expression" then do
    let args ← argumentNames src l
    pure (args.foldl (fun e x => (e.define x).use x) e)
  else pure e

/-- The number of a node, taken from its span. -/
def spanId (src : Source) (t : Tree) : Int := SpanHash.ofSpan (src.point t.start) (src.point t.stop)

/-- The vertex of a statement. -/
def Vertex.ofLocus (src : Source) (l : Locus) : Except Fault Vertex := do
  let text ← displayText src l.node
  let e ← effect src l
  pure {
    id := spanId src l.node
    line := (src.point l.node.start).row + 1
    kind := l.kind
    text := text
    branch := isBranch l
    defs := e.defs
    uses := e.uses }

end CrossCall.Flow

import CrossCall.Calls.Reading
import CrossCall.Calls.Token
/-!
Python text read into constructs, by recursive descent. A construct is an array of its kind, its
line and its fields, as programs that were read elsewhere have it.
-/
namespace CrossCall.Calls.Grammar

abbrev Parse := StateT (List Token) (Except ParseFault)

def fail {α : Type} : Parse α := throw Token.badText

def keywords : List String := [
  "False", "None", "True", "and", "as", "assert", "async", "await", "break", "class", "continue",
  "def", "del", "elif", "else", "except", "finally", "for", "from", "global", "if", "import", "in",
  "is", "lambda", "nonlocal", "not", "or", "pass", "raise", "return", "try", "while", "with",
  "yield"]

def peek : Parse (Option Token) := do return (← get).head?

def isWord (t : Token) (s : String) : Bool := (t.kind = .symbol || t.kind = .name) && t.text == s

/-- Is a symbol or keyword next? -/
def sees (s : String) : Parse Bool := do return (← peek).any (isWord · s)

def seesKind (k : TokenKind) : Parse Bool := do return (← peek).any (·.kind = k)

def skip : Parse Unit := modify List.tail

/-- Goes past a symbol or keyword if it is next. -/
def accept (s : String) : Parse Bool := do
  if ← sees s then
    skip
    return true
  return false

def expect (s : String) : Parse Unit := do
  unless ← accept s do fail

def expectKind (k : TokenKind) : Parse Unit := do
  if ← seesKind k then skip else fail

def line : Parse Json := do return .int ((← peek).elim 0 (·.line))

/-- A name that is no keyword. -/
def identifier : Parse String := do
  match ← peek with
  | some t =>
    if t.kind = .name && !keywords.contains t.text then
      skip
      return t.text
    fail
  | none => fail

/-- One of several words, if it is next. -/
def acceptOf (words : List String) : Parse (Option String) := do
  match (← peek).bind fun t => words.find? (isWord t) with
  | some w =>
    skip
    return some w
  | none => return none

def construct (kind : String) (at_ : Json) (fields : List Json) : Json :=
  .arr (.str kind :: at_ :: fields)

def kindOf : Json → String
  | .arr (.str k :: _) => k
  | _ => ""

/-- Can something be assigned to a construct? -/
def isTarget : Nat → Json → Bool
  | 0, _ => false
  | n + 1, j =>
    match j with
    | .arr [.str "Starred", _, v] => isTarget n v
    | .arr [.str "Tuple", _, .arr xs] => xs.all (isTarget n)
    | .arr [.str "List", _, .arr xs] => xs.all (isTarget n)
    | _ => ["Name", "Attribute", "Subscript"].contains (kindOf j)

def needTarget (j : Json) : Parse Unit := do
  unless isTarget 100 j do fail

/-! ### Constants -/

def radixValue? (radix : Nat) (cs : List Char) : Option Nat :=
  let cs := cs.filter (· != '_')
  if cs.isEmpty then none
  else cs.foldlM (fun n c => (Json.hexValue? c).bind fun d => if d < radix then some (n * radix + d)
    else none) 0

/-- A number as a constant. -/
def numberConstant? (s : String) : Option Json :=
  let whole (n : Nat) : Json := .obj [("int", .str (toString n))]
  match s.toLower.toList with
  | '0' :: 'x' :: cs => (radixValue? 16 cs).map whole
  | '0' :: 'o' :: cs => (radixValue? 8 cs).map whole
  | '0' :: 'b' :: cs => (radixValue? 2 cs).map whole
  | cs =>
    let plain := cs.filter (· != '_')
    if plain.all Char.isDigit then
      if plain.head? == some '0' && plain.any (· != '0') then none
      else (radixValue? 10 cs).map whole
    else if plain.getLast? == some 'j' then some (.obj [("complex", .str s)])
    else
      let plain := if plain.head? == some '.' then '0' :: plain else plain
      let plain := if plain.getLast? == some '.' then plain ++ ['0'] else plain
      match Json.parse? (String.ofList plain) with
      | some (.real t) => some (.obj [("float", .str t)])
      | _ => none

/-- Adjacent texts, which form one. -/
def texts : Nat → Parse (List Token)
  | 0 => fail
  | n + 1 => do
    match ← peek with
    | some t =>
      if t.kind = .text || t.kind = .bytes || t.kind = .formatted then
        skip
        return t :: (← texts n)
      return []
    | none => return []

def textConstruct (at_ : Json) (ts : List Token) : Parse Json := do
  let plain := String.join (ts.map (·.text))
  if ts.any (·.kind = .bytes) then
    if ts.all (·.kind = .bytes) then return construct "Constant" at_ [.obj [("bytes", .str plain)]]
    else fail
  if ts.any (·.kind = .formatted) then return construct "JoinedStr" at_ [.arr []]
  return construct "Constant" at_ [.obj [("str", .str plain)]]

/-! ### Expressions -/

def binaryLevels : List (List String) := [
  ["|"], ["^"], ["&"], ["<<", ">>"], ["+", "-"], ["*", "/", "//", "%", "@"]]

def augmented : List String :=
  ["+=", "-=", "*=", "/=", "//=", "%=", "@=", "&=", "|=", "^=", ">>=", "<<=", "**="]

/-- Parameters so far. -/
structure Params where
  positionalOnly : List Json := []
  plain : List Json := []
  rest : Json := .null
  keywordOnly : List Json := []
  keywordDefaults : List Json := []
  mapping : Json := .null
  defaults : List Json := []
  /-- Has a star been passed? -/
  starred : Bool := false

def Params.toJson (p : Params) : Json := construct "arguments" .null [
  .arr p.positionalOnly, .arr p.plain, p.rest, .arr p.keywordOnly, .arr p.keywordDefaults,
  p.mapping, .arr p.defaults]

/-- Arguments so far. -/
structure Args where
  plain : List Json := []
  keywords : List Json := []

/-- Can an expression list go on after a comma? -/
def endsList : Parse Bool := do
  return (← seesKind .newline) || (← peek).isNone ||
    (← acceptsOne [")", "]", "\x7d", ":", "=", ";", "in"])
where
  acceptsOne (words : List String) : Parse Bool := do
    return ((← peek).bind fun t => words.find? (isWord t)).isSome

mutual

/-- A conditional, a function without a name, or a plain expression. -/
def expression : Nat → Parse Json
  | 0 => fail
  | n + 1 => do
    let start ← line
    if ← accept "lambda" then
      let params ← parameters n false ":" {}
      expect ":"
      return construct "Lambda" start [params.toJson, ← expression n]
    let body ← disjunction n
    if ← accept "if" then
      let test ← disjunction n
      expect "else"
      return construct "IfExp" start [test, body, ← expression n]
    return body

/-- An expression that may name its value. -/
def namedExpression : Nat → Parse Json
  | 0 => fail
  | n + 1 => do
    let start ← line
    let e ← expression n
    if kindOf e == "Name" then
      if ← accept ":=" then return construct "NamedExpr" start [e, ← expression n]
    return e

/-- A named expression, or one with a star. -/
def starNamed : Nat → Parse Json
  | 0 => fail
  | n + 1 => do
    let start ← line
    if ← accept "*" then return construct "Starred" start [← binary n binaryLevels]
    namedExpression n

/-- What follows the first element of a list, and whether there was a comma. -/
def listTail : Nat → Parse (List Json × Bool)
  | 0 => fail
  | n + 1 => do
    if ← accept "," then
      if ← endsList then return ([], true)
      let e ← starNamed n
      let (es, _) ← listTail n
      return (e :: es, true)
    return ([], false)

/-- Expressions between commas; more than one, or a comma, make a tuple. -/
def expressions : Nat → Parse Json
  | 0 => fail
  | n + 1 => do
    let start ← line
    let e ← starNamed n
    let (es, comma) ← listTail n
    return if comma then construct "Tuple" start [.arr (e :: es)] else e

def yieldExpression : Nat → Parse Json
  | 0 => fail
  | n + 1 => do
    let start ← line
    expect "yield"
    if ← accept "from" then return construct "YieldFrom" start [← expression n]
    if ← endsList then return construct "Yield" start [.null]
    return construct "Yield" start [← expressions n]

def expressionsOrYield : Nat → Parse Json
  | 0 => fail
  | n + 1 => do if ← sees "yield" then yieldExpression n else expressions n

def disjunction : Nat → Parse Json
  | 0 => fail
  | n + 1 => do
    let start ← line
    let e ← conjunction n
    let es ← joined n "or"
    if es.isEmpty then return e
    return construct "BoolOp" start [.str "Or", .arr (e :: es)]

def conjunction : Nat → Parse Json
  | 0 => fail
  | n + 1 => do
    let start ← line
    let e ← inversion n
    let es ← joined n "and"
    if es.isEmpty then return e
    return construct "BoolOp" start [.str "And", .arr (e :: es)]

/-- Further operands of a logical word. -/
def joined : Nat → String → Parse (List Json)
  | 0, _ => fail
  | n + 1, word => do
    if ← accept word then
      let e ← if word == "or" then conjunction n else inversion n
      return e :: (← joined n word)
    return []

def inversion : Nat → Parse Json
  | 0 => fail
  | n + 1 => do
    let start ← line
    if ← accept "not" then return construct "UnaryOp" start [.str "Not", ← inversion n]
    let left ← binary n binaryLevels
    let (ops, rights) ← comparisons n
    if ops.isEmpty then return left
    return construct "Compare" start [left, Json.ofTexts ops, .arr rights]

def comparisons : Nat → Parse (List String × List Json)
  | 0 => fail
  | n + 1 => do
    let op ← match ← acceptOf ["<", ">", "==", ">=", "<=", "!=", "in", "is", "not"] with
      | some "not" =>
        expect "in"
        pure (some "not in")
      | some "is" => pure (some (if ← accept "not" then "is not" else "is"))
      | op => pure op
    match op with
    | none => return ([], [])
    | some op =>
      let right ← binary n binaryLevels
      let (ops, rights) ← comparisons n
      return (op :: ops, right :: rights)

def binary : Nat → List (List String) → Parse Json
  | 0, _ => fail
  | n + 1, [] => unary n
  | n + 1, ops :: levels => do
    let start ← line
    binaryTail n ops levels start (← binary n levels)

def binaryTail : Nat → List String → List (List String) → Json → Json → Parse Json
  | 0, _, _, _, _ => fail
  | n + 1, ops, levels, start, left => do
    match ← acceptOf ops with
    | some op =>
      binaryTail n ops levels start (construct "BinOp" start [left, .str op, ← binary n levels])
    | none => return left

def unary : Nat → Parse Json
  | 0 => fail
  | n + 1 => do
    let start ← line
    match ← acceptOf ["+", "-", "~"] with
    | some op => return construct "UnaryOp" start [.str op, ← unary n]
    | none =>
      let base ← if ← accept "await" then pure (construct "Await" start [← primary n])
        else primary n
      if ← accept "**" then return construct "BinOp" start [base, .str "**", ← unary n]
      return base

def primary : Nat → Parse Json
  | 0 => fail
  | n + 1 => do
    let start ← line
    trailers n start (← atom n)

/-- What is done with a value: a part of it, a call, an element. -/
def trailers : Nat → Json → Json → Parse Json
  | 0, _, _ => fail
  | n + 1, start, value => do
    match ← acceptOf [".", "(", "["] with
    | some "." => trailers n start (construct "Attribute" start [value, .str (← identifier)])
    | some "(" =>
      let args ← arguments n {}
      trailers n start (construct "Call" start [value, .arr args.plain, .arr args.keywords])
    | some _ =>
      let at_ ← line
      let first ← subscript n
      let (others, comma) ← subscripts n
      let slice := if comma then construct "Tuple" at_ [.arr (first :: others)] else first
      expect "]"
      trailers n start (construct "Subscript" start [value, slice])
    | none => return value

def subscript : Nat → Parse Json
  | 0 => fail
  | n + 1 => do
    let start ← line
    let lower ← if ← sees ":" then pure .null else starNamed n
    if ← accept ":" then
      let upper ← optionalBound n
      let step ← if ← accept ":" then optionalBound n else pure .null
      return construct "Slice" start [lower, upper, step]
    return lower

def optionalBound : Nat → Parse Json
  | 0 => fail
  | n + 1 => do
    if (← sees ":") || (← sees ",") || (← sees "]") then return .null
    expression n

def subscripts : Nat → Parse (List Json × Bool)
  | 0 => fail
  | n + 1 => do
    if ← accept "," then
      if ← sees "]" then return ([], true)
      let e ← subscript n
      let (es, _) ← subscripts n
      return (e :: es, true)
    return ([], false)

/-- The arguments of a call up to the closing bracket. -/
def arguments : Nat → Args → Parse Args
  | 0, _ => fail
  | n + 1, args => do
    if ← accept ")" then return args
    let start ← line
    let args ← do
      if ← accept "**" then
        let keyword := construct "keyword" start [.null, ← expression n]
        pure { args with keywords := args.keywords ++ [keyword] }
      else if ← accept "*" then
        pure { args with plain := args.plain ++ [construct "Starred" start [← expression n]] }
      else
        let e ← namedExpression n
        if ← accept "=" then
          match e with
          | .arr [.str "Name", _, name] =>
            let keyword := construct "keyword" start [name, ← expression n]
            pure { args with keywords := args.keywords ++ [keyword] }
          | _ => fail
        else
          let e ← if (← sees "for") || (← sees "async") then
              pure (construct "GeneratorExp" start [e, .arr (← generators n)])
            else pure e
          if args.keywords.isEmpty then pure { args with plain := args.plain ++ [e] } else fail
    if ← accept "," then arguments n args
    else
      expect ")"
      return args

/-- The loops of a comprehension, of which there is at least one. -/
def generators : Nat → Parse (List Json)
  | 0 => fail
  | n + 1 => do
    let isAsync ← accept "async"
    expect "for"
    let target ← targets n
    expect "in"
    let source ← disjunction n
    let tests ← conditions n
    let this :=
      construct "comprehension" .null [target, source, .arr tests, .int (if isAsync then 1 else 0)]
    if (← sees "for") || (← sees "async") then return this :: (← generators n)
    return [this]

def conditions : Nat → Parse (List Json)
  | 0 => fail
  | n + 1 => do
    if ← accept "if" then
      let e ← disjunction n
      return e :: (← conditions n)
    return []

/-- What a loop assigns to. -/
def targets : Nat → Parse Json
  | 0 => fail
  | n + 1 => do
    let start ← line
    let e ← target n
    let (es, comma) ← targetTail n
    let whole := if comma then construct "Tuple" start [.arr (e :: es)] else e
    needTarget whole
    return whole

def target : Nat → Parse Json
  | 0 => fail
  | n + 1 => do
    let start ← line
    if ← accept "*" then return construct "Starred" start [← binary n binaryLevels]
    binary n binaryLevels

def targetTail : Nat → Parse (List Json × Bool)
  | 0 => fail
  | n + 1 => do
    if ← accept "," then
      if ← endsList then return ([], true)
      let e ← target n
      let (es, _) ← targetTail n
      return (e :: es, true)
    return ([], false)

def atom : Nat → Parse Json
  | 0 => fail
  | n + 1 => do
    let start ← line
    match ← peek with
    | none => fail
    | some t =>
      match t.kind with
      | .number =>
        skip
        match numberConstant? t.text with
        | some c => return construct "Constant" start [c]
        | none => fail
      | .text | .bytes | .formatted => textConstruct start (← texts n)
      | .name =>
        match ← acceptOf ["True", "False", "None"] with
        | some "None" => return construct "Constant" start [.obj [("none", .bool true)]]
        | some w => return construct "Constant" start [.obj [("bool", .bool (w == "True"))]]
        | none => return construct "Name" start [.str (← identifier)]
      | .symbol =>
        match ← acceptOf ["...", "(", "[", "\x7b"] with
        | some "..." => return construct "Constant" start [.obj [("ellipsis", .bool true)]]
        | some "(" => inParentheses n start
        | some "[" => inBrackets n start
        | some _ => inBraces n start
        | none => fail
      | _ => fail

def inParentheses : Nat → Json → Parse Json
  | 0, _ => fail
  | n + 1, start => do
    if ← accept ")" then return construct "Tuple" start [.arr []]
    if ← sees "yield" then
      let e ← yieldExpression n
      expect ")"
      return e
    let e ← starNamed n
    if (← sees "for") || (← sees "async") then
      let gs ← generators n
      expect ")"
      return construct "GeneratorExp" start [e, .arr gs]
    let (es, comma) ← listTail n
    expect ")"
    if comma then return construct "Tuple" start [.arr (e :: es)]
    if kindOf e == "Starred" then fail
    return e

def inBrackets : Nat → Json → Parse Json
  | 0, _ => fail
  | n + 1, start => do
    if ← accept "]" then return construct "List" start [.arr []]
    let e ← starNamed n
    if (← sees "for") || (← sees "async") then
      let gs ← generators n
      expect "]"
      return construct "ListComp" start [e, .arr gs]
    let (es, _) ← listTail n
    expect "]"
    return construct "List" start [.arr (e :: es)]

/-- A dictionary or a set. -/
def inBraces : Nat → Json → Parse Json
  | 0, _ => fail
  | n + 1, start => do
    if ← accept "\x7d" then return construct "Dict" start [.arr [], .arr []]
    if ← sees "**" then
      let (keys, values) ← entries n
      return construct "Dict" start [.arr keys, .arr values]
    let e ← starNamed n
    if ← accept ":" then
      let v ← expression n
      if (← sees "for") || (← sees "async") then
        let gs ← generators n
        expect "\x7d"
        return construct "DictComp" start [e, v, .arr gs]
      let (keys, values) ← do
        if ← accept "," then entries n
        else
          expect "\x7d"
          pure ([], [])
      return construct "Dict" start [.arr (e :: keys), .arr (v :: values)]
    if (← sees "for") || (← sees "async") then
      let gs ← generators n
      expect "\x7d"
      return construct "SetComp" start [e, .arr gs]
    let (es, _) ← listTail n
    expect "\x7d"
    return construct "Set" start [.arr (e :: es)]

/-- The entries of a dictionary up to the closing brace. -/
def entries : Nat → Parse (List Json × List Json)
  | 0 => fail
  | n + 1 => do
    if ← accept "\x7d" then return ([], [])
    let (k, v) ← do
      if ← accept "**" then pure (.null, ← binary n binaryLevels)
      else
        let k ← expression n
        expect ":"
        pure (k, ← expression n)
    let (keys, values) ← do
      if ← accept "," then entries n
      else
        expect "\x7d"
        pure ([], [])
    return (k :: keys, v :: values)

/-- Parameters up to a closing mark, which stays. -/
def parameters : Nat → Bool → String → Params → Parse Params
  | 0, _, _, _ => fail
  | n + 1, noted, close, p => do
    if ← sees close then return p
    let p ← do
      if ← accept "**" then pure { p with mapping := ← parameter n noted }
      else if ← accept "*" then
        if ← sees "," then pure { p with starred := true }
        else pure { p with rest := ← parameter n noted, starred := true }
      else if ← accept "/" then pure { p with positionalOnly := p.plain, plain := [] }
      else
        let arg ← parameter n noted
        let default ← if ← accept "=" then (do pure (some (← expression n))) else pure none
        if p.starred then
          pure { p with
            keywordOnly := p.keywordOnly ++ [arg]
            keywordDefaults := p.keywordDefaults ++ [default.getD .null] }
        else if default.isNone && !p.defaults.isEmpty then fail
        else pure { p with plain := p.plain ++ [arg], defaults := p.defaults ++ default.toList }
    if ← accept "," then parameters n noted close p
    else if ← sees close then return p
    else fail

def parameter : Nat → Bool → Parse Json
  | 0, _ => fail
  | n + 1, noted => do
    let start ← line
    let name ← identifier
    let note ← if noted && (← sees ":") then (do skip; expression n) else pure .null
    return construct "arg" start [.str name, note]

end

/-! ### Simple statements -/

def dottedName : Nat → Parse String
  | 0 => fail
  | n + 1 => do
    let first ← identifier
    if ← accept "." then return first ++ "." ++ (← dottedName n)
    return first

def rename : Parse Json := do
  if ← accept "as" then return .str (← identifier)
  return .null

/-- Imported names between commas. -/
def aliases (dotted inBrackets : Bool) : Nat → Parse (List Json)
  | 0 => fail
  | n + 1 => do
    if inBrackets && (← sees ")") then return []
    let start ← line
    let name ← if dotted then dottedName n else identifier
    let this := construct "alias" start [.str name, ← rename]
    if ← accept "," then return this :: (← aliases dotted inBrackets n)
    return [this]

/-- The dots before a module name. -/
def dots : Nat → Parse Nat
  | 0 => fail
  | n + 1 => do
    match ← acceptOf [".", "..."] with
    | some "." => return 1 + (← dots n)
    | some _ => return 3 + (← dots n)
    | none => return 0

def importFrom (n : Nat) (start : Json) : Parse Json := do
  let level ← dots n
  let module ← if ← sees "import" then (if level = 0 then fail else pure .null)
    else (do pure (.str (← dottedName n)))
  expect "import"
  let at_ ← line
  let names ← do
    if ← accept "*" then pure [construct "alias" at_ [.str "*", .null]]
    else if ← accept "(" then
      let names ← aliases false true n
      expect ")"
      if names.isEmpty then fail else pure names
    else aliases false false n
  return construct "ImportFrom" start [module, .arr names, .int level]

def nameList : Nat → Parse (List String)
  | 0 => fail
  | n + 1 => do
    let name ← identifier
    if ← accept "," then return name :: (← nameList n)
    return [name]

/-- Further targets of an assignment; the last one is the value. -/
def assigned : Nat → Json → Parse (List Json × Json)
  | 0, _ => fail
  | n + 1, e => do
    if ← accept "=" then
      needTarget e
      let (ts, v) ← assigned n (← expressionsOrYield n)
      return (e :: ts, v)
    return ([], e)

/-- An expression, or an assignment of one of three kinds. -/
def expressionStatement (n : Nat) (start : Json) : Parse Json := do
  let isBare := !(← sees "(")
  let e ← expressionsOrYield n
  if ← accept ":" then
    unless ["Name", "Attribute", "Subscript"].contains (kindOf e) do fail
    let note ← expression n
    let value ← if ← accept "=" then expressionsOrYield n else pure .null
    let simple := if kindOf e == "Name" && isBare then 1 else 0
    return construct "AnnAssign" start [e, note, value, .int simple]
  match ← acceptOf augmented with
  | some op =>
    unless ["Name", "Attribute", "Subscript"].contains (kindOf e) do fail
    return construct "AugAssign" start [e, .str op, ← expressionsOrYield n]
  | none =>
    let (targets, value) ← assigned n e
    if targets.isEmpty then return construct "Expr" start [value]
    return construct "Assign" start [.arr targets, value]

def simpleStatement (n : Nat) : Parse Json := do
  let start ← line
  let word ← acceptOf [
    "pass", "break", "continue", "return", "raise", "global", "nonlocal", "del", "assert", "import",
    "from"]
  match word with
  | none => expressionStatement n start
  | some "pass" => return construct "Pass" start []
  | some "break" => return construct "Break" start []
  | some "continue" => return construct "Continue" start []
  | some "return" =>
    if ← endsList then return construct "Return" start [.null]
    return construct "Return" start [← expressions n]
  | some "raise" =>
    if ← endsList then return construct "Raise" start [.null, .null]
    let e ← expression n
    let cause ← if ← accept "from" then expression n else pure .null
    return construct "Raise" start [e, cause]
  | some "global" => return construct "Global" start [Json.ofTexts (← nameList n)]
  | some "nonlocal" => return construct "Nonlocal" start [Json.ofTexts (← nameList n)]
  | some "del" =>
    let e ← expressions n
    needTarget e
    return construct "Delete" start [match e with
      | .arr [.str "Tuple", _, .arr es] => .arr es
      | e => .arr [e]]
  | some "assert" =>
    let test ← expression n
    let note ← if ← accept "," then expression n else pure .null
    return construct "Assert" start [test, note]
  | some "import" => return construct "Import" start [.arr (← aliases true false n)]
  | some _ => importFrom n start

/-- Statements on one line. -/
def simpleLine : Nat → Parse (List Json)
  | 0 => fail
  | n + 1 => do
    let s ← simpleStatement n
    if ← accept ";" then
      if ← seesKind .newline then
        skip
        return [s]
      return s :: (← simpleLine n)
    expectKind .newline
    return [s]

/-! ### Compound statements -/

mutual

def statements : Nat → Parse (List Json)
  | 0 => fail
  | n + 1 => do
    if (← peek).isNone || (← seesKind .dedent) then return []
    if ← seesKind .indent then throw Token.badIndent
    let s ← statement n
    return s ++ (← statements n)

/-- What belongs to the head of a compound statement: the rest of its line, or an indented part. -/
def suite : Nat → Parse (List Json)
  | 0 => fail
  | n + 1 => do
    expect ":"
    if ← seesKind .newline then
      skip
      unless ← seesKind .indent do throw Token.badIndent
      skip
      let body ← statements n
      expectKind .dedent
      return body
    simpleLine n

def statement : Nat → Parse (List Json)
  | 0 => fail
  | n + 1 => do
    let start ← line
    match ← acceptOf ["def", "class", "if", "for", "while", "try", "with", "async", "@"] with
    | some "def" => return [← functionStatement n "FunctionDef" start []]
    | some "class" => return [← classStatement n start []]
    | some "if" => return [← ifStatement n start]
    | some "for" => return [← forStatement n "For" start]
    | some "while" =>
      let test ← namedExpression n
      let body ← suite n
      return [construct "While" start [test, .arr body, .arr (← alternative n)]]
    | some "try" => return [← tryStatement n start]
    | some "with" => return [← withStatement n "With" start]
    | some "async" =>
      match ← acceptOf ["def", "for", "with"] with
      | some "def" => return [← functionStatement n "AsyncFunctionDef" start []]
      | some "for" => return [← forStatement n "AsyncFor" start]
      | some _ => return [← withStatement n "AsyncWith" start]
      | none => fail
    | some _ => return [← decorated n []]
    | none => simpleLine n

def alternative : Nat → Parse (List Json)
  | 0 => fail
  | n + 1 => do
    if ← accept "else" then suite n else return []

def ifStatement : Nat → Json → Parse Json
  | 0, _ => fail
  | n + 1, start => do
    let test ← namedExpression n
    let body ← suite n
    let at_ ← line
    let rest ← if ← accept "elif" then (do pure [← ifStatement n at_]) else alternative n
    return construct "If" start [test, .arr body, .arr rest]

def forStatement : Nat → String → Json → Parse Json
  | 0, _, _ => fail
  | n + 1, kind, start => do
    let target ← targets n
    expect "in"
    let source ← expressions n
    let body ← suite n
    return construct kind start [target, source, .arr body, .arr (← alternative n)]

def tryStatement : Nat → Json → Parse Json
  | 0, _ => fail
  | n + 1, start => do
    let body ← suite n
    let handlers ← exceptions n false
    let groups ← if handlers.isEmpty then exceptions n true else pure []
    let kind := if groups.isEmpty then "Try" else "TryStar"
    let handlers := handlers ++ groups
    let rest ← if handlers.isEmpty then pure [] else alternative n
    let final ← if ← accept "finally" then suite n else pure []
    if handlers.isEmpty && final.isEmpty then fail
    return construct kind start [.arr body, .arr handlers, .arr rest, .arr final]

/-- Handlers of exceptions, or of groups of them. -/
def exceptions : Nat → Bool → Parse (List Json)
  | 0, _ => fail
  | n + 1, forGroups => do
    let start ← line
    let isGroup := ((← get).drop 1).head?.any (isWord · "*")
    if (← sees "except") && isGroup == forGroups then
      skip
      if forGroups then skip
      let (type, name) ← do
        if ← sees ":" then pure (.null, .null)
        else
          let e ← expression n
          pure (e, ← rename)
      let body ← suite n
      return construct "ExceptHandler" start [type, name, .arr body] :: (← exceptions n forGroups)
    return []

def withStatement : Nat → String → Json → Parse Json
  | 0, _, _ => fail
  | n + 1, kind, start => do
    let items ← withItems n
    let body ← suite n
    return construct kind start [.arr items, .arr body]

def withItems : Nat → Parse (List Json)
  | 0 => fail
  | n + 1 => do
    let e ← expression n
    let bound ← do
      if ← accept "as" then
        let t ← target n
        needTarget t
        pure t
      else pure .null
    let this := construct "withitem" .null [e, bound]
    if ← accept "," then return this :: (← withItems n)
    return [this]

/-- A function or class with its decorators, after the sign of the first one. -/
def decorated : Nat → List Json → Parse Json
  | 0, _ => fail
  | n + 1, done => do
    let done := done ++ [← namedExpression n]
    expectKind .newline
    let start ← line
    match ← acceptOf ["@", "def", "class", "async"] with
    | some "@" => decorated n done
    | some "def" => functionStatement n "FunctionDef" start done
    | some "class" => classStatement n start done
    | some _ =>
      expect "def"
      functionStatement n "AsyncFunctionDef" start done
    | none => fail

def functionStatement : Nat → String → Json → List Json → Parse Json
  | 0, _, _, _ => fail
  | n + 1, kind, start, decorators => do
    let name ← identifier
    expect "("
    let params ← parameters n true ")" {}
    expect ")"
    let result ← if ← accept "->" then expression n else pure .null
    let body ← suite n
    return construct kind start [.str name, params.toJson, .arr body, .arr decorators, result]

def classStatement : Nat → Json → List Json → Parse Json
  | 0, _, _ => fail
  | n + 1, start, decorators => do
    let name ← identifier
    let args ← if ← accept "(" then arguments n {} else pure {}
    let body ← suite n
    return construct "ClassDef"
      start [.str name, .arr args.plain, .arr args.keywords, .arr body, .arr decorators]

end

/-- The constructs of a module. -/
def readModule (text : String) : Except ParseFault Json := do
  let tokens ← Token.scan text
  let fuel := 40 * (tokens.length + 2)
  let (body, rest) ← (statements fuel).run tokens
  if rest.isEmpty then pure (construct "Module" .null [.arr body]) else throw Token.badText

/-! ### Blocks -/

def block (kind name : String) (at_ : Json) (inner : List Json) : Json :=
  .arr [.str kind, .str name, at_, .arr inner]

/-- The name of the block that a comprehension is. -/
def comprehensionName? : String → Option String
  | "ListComp" => some "listcomp"
  | "SetComp" => some "setcomp"
  | "DictComp" => some "dictcomp"
  | "GeneratorExp" => some "genexpr"
  | _ => none

/-- The blocks in a construct, in order. What stands in the head of a function or class is outside
its block, and so is the first source of a comprehension. -/
def blocksIn : Nat → Json → List Json
  | 0, _ => []
  | n + 1, j =>
    let all (xs : List Json) : List Json := xs.flatMap (blocksIn n)
    match j with
    | .arr [.str "FunctionDef", at_, .str name, params, body, decorators, result] =>
      all [params, result, decorators] ++ [block "function" name at_ (blocksIn n body)]
    | .arr [.str "AsyncFunctionDef", at_, .str name, params, body, decorators, result] =>
      all [params, result, decorators] ++ [block "function" name at_ (blocksIn n body)]
    | .arr [.str "ClassDef", at_, .str name, bases, keywords, body, decorators] =>
      all [bases, keywords, decorators] ++ [block "class" name at_ (blocksIn n body)]
    | .arr [.str "Lambda", at_, params, body] =>
      blocksIn n params ++ [block "function" "lambda" at_ (blocksIn n body)]
    | .arr [.str "Try", _, body, handlers, rest, final] => all [body, rest, handlers, final]
    | .arr [.str "TryStar", _, body, handlers, rest, final] => all [body, rest, handlers, final]
    | .arr (.str kind :: at_ :: fields) =>
      match comprehensionName? kind, fields.getLast? with
      | some name, some (.arr (.arr [_, _, target, source, tests, _] :: others)) =>
        blocksIn n source ++
          [block "function" name at_ (all ([target, tests] ++ others ++ fields.dropLast.reverse))]
      | _, _ => all (at_ :: fields)
    | .arr xs => all xs
    | _ => []

/-- The blocks of a module. -/
def moduleBlock (depth : Nat) (code : Json) : Json :=
  block "module" "top" (.int 0) (blocksIn depth code)

/-- The program that a text is. -/
def program (text : String) : Program :=
  match readModule text with
  | .ok code => Reading.program code (moduleBlock (text.length + 8) code)
  | .error e => { code := .error e, blocks := .error e }

end CrossCall.Calls.Grammar

import CrossCall.Table
import CrossCall.Text.Blank
import CrossCall.Text.Lines
/-!
Lines that name a required package: a name, perhaps extras in brackets, then an address or version
bounds, then perhaps a condition after a semicolon. Bounds are turned into ranges of versions.
-/
namespace CrossCall.Calls

/-- A bound on versions, as it is written. -/
structure Bound where
  operator : String
  version : String
deriving Repr, DecidableEq

structure Requirement where
  name : String
  bounds : List Bound := []
deriving Repr, DecidableEq

namespace Requirement

/-! ### Pieces of a line -/

def isGap (c : Char) : Bool := c == ' ' || c == '\t' || c == '\n' || c == '\r'

def skipGap (cs : List Char) : List Char := cs.dropWhile isGap

/-- What is left after a text at the start, gaps before it apart. -/
def after? (t : String) (cs : List Char) : Option (List Char) :=
  let cs := skipGap cs
  if t.toList.isPrefixOf cs then some (cs.drop t.length) else none

def isNameMark (c : Char) : Bool := c == '-' || c == '_' || c == '.'

/-- Letters and digits, joined by marks: an identifier starts and ends with a letter or digit. -/
def identifierTail : Nat → List Char → List Char × List Char
  | 0, cs => ([], cs)
  | n + 1, cs =>
    let marks := cs.takeWhile isNameMark
    let rest := cs.dropWhile isNameMark
    let word := rest.takeWhile Char.isAlphanum
    if word.isEmpty then ([], cs)
    else
      let (more, left) := identifierTail n (rest.dropWhile Char.isAlphanum)
      (marks ++ word ++ more, left)

def identifier? (cs : List Char) : Option (String × List Char) :=
  let cs := skipGap cs
  let word := cs.takeWhile Char.isAlphanum
  if word.isEmpty then none
  else
    let (more, left) := identifierTail cs.length (cs.dropWhile Char.isAlphanum)
    some (String.ofList (word ++ more), left)

def extrasTail : Nat → List Char → List Char
  | 0, cs => cs
  | n + 1, cs =>
    match (after? "," cs).bind identifier? with
    | some (_, rest) => extrasTail n rest
    | none => cs

/-- Extras in brackets, if there are any. -/
def skipExtras (cs : List Char) : List Char :=
  match after? "[" cs with
  | none => cs
  | some inside =>
    let rest := (identifier? inside).elim inside fun (_, rest) => extrasTail rest.length rest
    (after? "]" rest).getD cs

/-! ### Versions -/

def digits (cs : List Char) : List Char × List Char :=
  (cs.takeWhile Char.isDigit, cs.dropWhile Char.isDigit)

/-- The value of digits, leading zeros aside. -/
def digitsText (cs : List Char) : String :=
  let ds := cs.dropWhile (· == '0')
  if ds.isEmpty then "0" else String.ofList ds

def dropMark (cs : List Char) : List Char :=
  match cs with
  | c :: rest => if isNameMark c then rest else cs
  | [] => []

/-- One of the words, with its number, if it stands next. Marks may stand before and after the
word. -/
def labelled? (words : List (String × String)) (cs : List Char) : Option (String × List Char) :=
  words.findSome? fun (word, canonical) =>
    let rest := dropMark cs
    if word.toList.isPrefixOf rest then
      let (ds, left) := digits (dropMark (rest.drop word.length))
      let left := if ds.isEmpty then rest.drop word.length else left
      some (canonical ++ digitsText ds, left)
    else none

/-- Numbers joined by dots. -/
def release : Nat → List Char → List String × List Char
  | 0, cs => ([], cs)
  | n + 1, cs =>
    let (ds, rest) := digits cs
    if ds.isEmpty then ([], cs)
    else match rest with
      | '.' :: more =>
        if (digits more).1.isEmpty then ([digitsText ds], rest)
        else
          let (others, left) := release n more
          (digitsText ds :: others, left)
      | _ => ([digitsText ds], rest)

def dropZeros (xs : List String) : List String := match xs with
  | [] => []
  | x :: rest => x :: (rest.reverse.dropWhile (· == "0")).reverse

def isLocal (c : Char) : Bool := c.isDigit || c.isLower

/-- A local label: words joined by single marks. -/
def localLabel : Nat → List Char → Option (List String)
  | 0, _ => none
  | n + 1, cs =>
    let word := cs.takeWhile isLocal
    if word.isEmpty then none
    else
      let text := if word.all Char.isDigit then digitsText word else String.ofList word
      match cs.dropWhile isLocal with
      | [] => some [text]
      | c :: rest => if isNameMark c then (localLabel n rest).map (text :: ·) else none

/-- A spelling that is the same for equal versions. What is no version keeps its own. -/
def canonical (version : String) : String :=
  let cs := (Text.trim version).toList.map Char.toLower
  let cs := match cs with
    | 'v' :: rest => rest
    | cs => cs
  let (epoch, cs) := match digits cs with
    | (d :: ds, '!' :: rest) => (digitsText (d :: ds), rest)
    | _ => ("0", cs)
  let (numbers, cs) := release cs.length cs
  if numbers.isEmpty then version
  else
    let (pre, cs) :=
      (labelled? [("alpha", "a"), ("a", "a"), ("beta", "b"), ("b", "b"), ("preview", "rc"),
      ("pre", "rc"), ("rc", "rc"), ("c", "rc")] cs).getD ("", cs)
    let (post, cs) := match cs with
      | '-' :: rest =>
        match digits rest with
        | ([], _) =>
          (labelled? [("post", ".post"), ("rev", ".post"), ("r", ".post")] cs).getD ("", cs)
        | (ds, left) => (".post" ++ digitsText ds, left)
      | _ => (labelled? [("post", ".post"), ("rev", ".post"), ("r", ".post")] cs).getD ("", cs)
    let (dev, cs) := (labelled? [("dev", ".dev")] cs).getD ("", cs)
    let base :=
      (if epoch == "0" then "" else epoch ++ "!") ++ String.intercalate "." (dropZeros numbers) ++
      pre ++ post ++ dev
    match cs with
    | [] => base
    | '+' :: rest =>
      match localLabel rest.length rest with
      | some words => base ++ "+" ++ String.intercalate "." words
      | none => version
    | _ => version

/-! ### Bounds -/

/-- The operators with a version of any form, longer ones first. -/
def operators : List String := ["==", "!=", "<=", ">=", "<", ">"]

def isVersionChar (c : Char) : Bool := c != ',' && c != ';' && c != ')' && !Text.isBlank c

/-- Does a text start with a version that has at least two numbers? The rest is what follows it. -/
def compatible? (cs : List Char) : Option (List Char) :=
  let low := (cs.dropWhile Text.isBlank).map Char.toLower
  let low := match low with
    | 'v' :: rest => rest
    | rest => rest
  let low := match digits low with
    | (_ :: _, '!' :: rest) => rest
    | _ => low
  let (numbers, rest) := release low.length low
  if numbers.length < 2 then none
  else
    let rest :=
      (labelled? [("alpha", ""), ("a", ""), ("beta", ""), ("b", ""), ("preview", ""), ("pre", ""),
      ("rc", ""), ("c", "")] rest).elim rest (·.2)
    let posted := (labelled? [("post", ""), ("rev", ""), ("r", "")] rest).elim rest (·.2)
    let rest := match rest with
      | '-' :: more => if (digits more).1.isEmpty then posted else (digits more).2
      | _ => posted
    let rest := (labelled? [("dev", "")] rest).elim rest (·.2)
    some (cs.drop (cs.length - rest.length))

/-- One bound as written, and the rest. -/
def bound? (cs : List Char) : Option (String × List Char) :=
  let cs := skipGap cs
  let taken (rest : List Char) := some (String.ofList (cs.take (cs.length - rest.length)), rest)
  if "===".toList.isPrefixOf cs then
    taken (((cs.drop 3).dropWhile Text.isBlank).dropWhile (!Text.isBlank ·))
  else if "~=".toList.isPrefixOf cs then (compatible? (cs.drop 2)).bind taken
  else match operators.find? fun o => o.toList.isPrefixOf cs with
    | none => none
    | some o => taken (((cs.drop o.length).dropWhile Text.isBlank).dropWhile isVersionChar)

def boundsTail : Nat → List Char → List String × List Char
  | 0, cs => ([], cs)
  | n + 1, cs =>
    match (after? "," cs).bind bound? with
    | some (b, rest) =>
      let (bs, left) := boundsTail n rest
      (b :: bs, left)
    | none => ([], cs)

def bounds? (cs : List Char) : Option (List String × List Char) := do
  let (b, rest) ← bound? cs
  let (bs, left) := boundsTail rest.length rest
  pure (b :: bs, left)

/-- Bounds, perhaps in parentheses, perhaps none. -/
def readBounds (cs : List Char) : List String × List Char :=
  let closed := do
    let (bs, rest) ← bounds? (← after? "(" cs)
    pure (bs, ← after? ")" rest)
  (closed.or (bounds? cs)).getD ([], cs)

/-- A bound in its two parts. -/
def split? (s : String) : Option Bound :=
  let cs := (Text.trim s).toList
  let part (o : String) : Bound := ⟨o, Text.trim (String.ofList (cs.drop o.length))⟩
  match ["===", "~="].find? fun o => o.toList.isPrefixOf cs with
  | some o =>
    if o == "~=" && (compatible? (cs.drop 2)) != some [] then none
    else if (part o).version.toList.any Text.isBlank then none else some (part o)
  | none =>
    match operators.find? fun o => o.toList.isPrefixOf cs with
    | some o => if (part o).version.toList.all isVersionChar then some (part o) else none
    | none => none

/-- The bounds of a written list. Of equal ones the first stays. -/
def splitAll? (written : List String) : Option (List Bound) := do
  let pieces := (Text.splitAt ',' (String.intercalate "," written)).filter fun s =>
    !(Text.trim s).isEmpty
  let bounds ← pieces.mapM split?
  pure (bounds.foldl (fun kept b =>
    if kept.any fun k => k.operator == b.operator && canonical k.version == canonical b.version then
      kept
    else kept ++ [b]) [])

/-! ### Conditions -/

def conditionVariables : List String := [
  "implementation_version", "platform_python_implementation", "implementation_name",
  "python_full_version", "platform_release", "platform_version", "platform_machine",
  "platform_system", "python_version", "sys_platform", "os_name", "os.name", "sys.platform",
  "platform.version", "platform.machine", "platform.python_implementation",
  "python_implementation", "extra"]

def comparisons : List String := ["===", "==", ">=", "<=", "!=", "~=", ">", "<", "not in", "in"]

/-- A text between two quotation marks on one line. -/
def quoted? (mark : Char) (cs : List Char) : Option (List Char) :=
  match cs with
  | c :: rest =>
    if c = mark then
      match rest.dropWhile fun c => c != mark && c != '\n' && c != '\r' with
      | d :: left => if d = mark then some left else none
      | [] => none
    else none
  | [] => none

def operand? (cs : List Char) : Option (List Char) :=
  let cs := skipGap cs
  (conditionVariables.findSome? (after? · cs)).or ((quoted? '\'' cs).or (quoted? '"' cs))

def comparison? (cs : List Char) : Option (List Char) := do
  let rest ← operand? cs
  operand? (← comparisons.findSome? (after? · rest))

/-- A condition: comparisons joined by words, with parentheses. -/
def condition? : Nat → List Char → Option (List Char)
  | 0, _ => none
  | n + 1, cs =>
    let atom := (comparison? cs).or do
      after? ")" (← condition? n (← after? "(" cs))
    atom.map fun rest =>
      (((after? "and" rest).or (after? "or" rest)).bind (condition? n)).getD rest

/-- An optional condition after a semicolon. -/
def skipCondition (cs : List Char) : List Char :=
  ((after? ";" cs).bind fun rest => condition? (rest.length + 1) rest).getD cs

/-! ### Addresses -/

def isSchemeChar (c : Char) : Bool := c.isAlphanum || c == '+' || c == '-' || c == '.'

/-- An address needs a scheme and a host; the address of a file needs to be in its plain form. -/
def isAddress (url : List Char) : Bool :=
  let scheme := url.takeWhile (· != ':')
  match url.drop scheme.length with
  | ':' :: rest =>
    if scheme.isEmpty || !scheme.all isSchemeChar || !(scheme.head?.any Char.isAlpha) then false
    else
      let host := match rest with
        | '/' :: '/' :: more => more.takeWhile fun c => c != '/' && c != '?' && c != '#'
        | _ => []
      if scheme.map Char.toLower == "file".toList then
        "file://".toList.isPrefixOf url &&
          !(url.getLast?.any fun c => c == '#' || c == '?' || c == ';')
      else !host.isEmpty
  | _ => false

/-! ### Lines -/

/-- Reads a requirement from a line without comment. -/
def read? (cs : List Char) : Option Requirement := do
  let (name, rest) ← identifier? cs
  let rest := skipExtras rest
  match (after? "@" rest).map skipGap with
  | some address =>
    let url := address.takeWhile (· != ' ')
    if url.isEmpty then none
    else if skipGap (skipCondition (address.drop url.length)) ≠ [] then none
    else if isAddress url then some { name := name } else none
  | none =>
    let (written, rest) := readBounds rest
    if skipGap (skipCondition rest) ≠ [] then none
    else (splitAll? written).map fun bs => { name := name, bounds := bs }

/-- All before a blank and a hash sign. -/
def dropComment : List Char → List Char
  | [] => []
  | ' ' :: '#' :: _ => []
  | c :: rest => c :: dropComment rest

/-- A backslash at the end joins lines, and takes the character before it along. Nothing is left if
there is no line to join. -/
def joinLines : List Char → List (List Char) → List (List Char)
  | item, [] => if item.getLast? == some '\\' then [] else [item]
  | item, next :: rest =>
    if item.getLast? == some '\\' then
      let kept := (Text.trim (String.ofList (item.dropLast.dropLast))).toList
      joinLines (kept ++ next) rest
    else item :: joinLines next rest

/-- Reads a requirement. A text that is no single requirement gives none. -/
def parse? (s : String) : Option Requirement :=
  let lines := ((Text.lines s).map Text.trim).filter fun l => !l.isEmpty && !Text.hasStart l "#"
  match lines.map fun l => dropComment l.toList with
  | [] => none
  | first :: rest =>
    match joinLines first rest with
    | [line] => read? line
    | _ => none

/-! ### Ranges -/

/-- One end of a range, and whether it belongs to the range. -/
structure RangeEnd where
  version : String
  isIn : Bool
deriving Repr, DecidableEq

def range (low high : Option RangeEnd) : List String :=
  match low, high with
  | some l, some h =>
    [(if l.isIn then "[" else "(") ++ l.version ++ ".." ++ h.version ++
      (if h.isIn then "]" else ")")]
  | some l, none => [(if l.isIn then "[" else "(") ++ l.version ++ "..]"]
  | none, some h => ["[.." ++ h.version ++ (if h.isIn then "]" else ")")]
  | none, none => []

structure Ranges where
  done : List String := []
  low : Option RangeEnd := none
  high : Option RangeEnd := none

namespace Ranges

def close (r : Ranges) : Ranges := { done := r.done ++ range r.low r.high }

/-- Takes one more bound, in the order of versions. A new lower end closes a range that has an upper
one; an exact version stands for itself unless a range without upper end is open. -/
def add (r : Ranges) (b : Bound) : Ranges :=
  match b.operator with
  | "==" =>
    let r := if r.low.isSome && r.high.isSome then r.close else r
    if r.low.isNone then { r with done := r.done ++ ["[" ++ b.version ++ "]"] } else r
  | ">" => raise r false
  | ">=" => raise r true
  | "<" => { r with high := some ⟨b.version, false⟩ }
  | "<=" => { r with high := some ⟨b.version, true⟩ }
  | _ => r
where
  raise (r : Ranges) (isIn : Bool) : Ranges :=
    let r := if r.high.isSome then r.close else r
    if r.low.isNone then { r with low := some ⟨b.version, isIn⟩ } else r

end Ranges

/-- The ranges that the bounds leave, with versions ordered as texts. -/
def ranges (r : Requirement) : List String :=
  let sorted := r.bounds.mergeSort fun a b => decide (a.version ≤ b.version)
  (sorted.foldl Ranges.add {}).close.done

end Requirement

end CrossCall.Calls

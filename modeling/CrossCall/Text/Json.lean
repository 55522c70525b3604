import CrossCall.Text.Binary64
/-!
JSON values with ordered members, a reader and two writers: an indented one that keeps every
character but control characters, and a compact one that writes ASCII only. Values may be nested to
any depth.
-/
namespace CrossCall

inductive Json where
  | null
  | bool (b : Bool)
  | int (n : Int)
  /-- A number with a fraction or an exponent, or one of the words for what is no number, in its
  canonical spelling. -/
  | real (text : String)
  | str (s : String)
  /-- A text with half of a surrogate pair in it, by its code points. There is no way to write such
  a text to a file. -/
  | torn (codes : List Nat)
  | arr (items : List Json)
  | obj (members : List (String × Json))
deriving Repr, Inhabited

namespace Json

/-- Is a code point half of a surrogate pair? -/
def isHalf (n : Nat) : Bool := 0xd800 ≤ n && n < 0xe000

/-- A torn text, with replacement characters for the halves. -/
def mended (codes : List Nat) : String :=
  String.ofList (codes.map fun n => if isHalf n then '�' else Char.ofNat n)

def member? (name : String) : List (String × Json) → Option Json
  | [] => none
  | (k, v) :: rest => if k = name then some v else member? name rest

def get? (j : Json) (name : String) : Option Json :=
  match j with
  | obj ms => member? name ms
  | _ => none

def str? : Json → Option String
  | str s => some s
  | torn codes => some (mended codes)
  | _ => none

def arr? : Json → Option (List Json)
  | arr xs => some xs
  | _ => none

def int? : Json → Option Int
  | int n => some n
  | _ => none

/-- Sets a member: in place if the name is known, at the end otherwise. -/
def setMember (name : String) (v : Json) : List (String × Json) → List (String × Json)
  | [] => [(name, v)]
  | (k, w) :: rest => if k = name then (k, v) :: rest else (k, w) :: setMember name v rest

/-! ### Looking inside -/

def field (j : Json) (name : String) : Json := (j.get? name).getD .null

def strD (j : Json) (name : String) (default : String := "") : String :=
  ((j.get? name).bind str?).getD default

def intD (j : Json) (name : String) (default : Int := 0) : Int :=
  ((j.get? name).bind int?).getD default

def boolD (j : Json) (name : String) (default : Bool) : Bool :=
  match j.get? name with
  | some (bool b) => b
  | _ => default

def items (j : Json) (name : String) : List Json := ((j.get? name).bind arr?).getD []

/-- The texts of an array. -/
def texts : Json → List String
  | arr xs => xs.filterMap str?
  | _ => []

/-- The whole numbers of an array. -/
def numbers : Json → List Int
  | arr xs => xs.filterMap int?
  | _ => []

def members : Json → List (String × Json)
  | obj ms => ms
  | _ => []

def ofTexts (xs : List String) : Json := arr (xs.map str)

def ofNumbers (xs : List Int) : Json := arr (xs.map int)

def ofOption {α : Type} (f : α → Json) (x : Option α) : Json := x.elim null f

/-! ### Reading -/

/-- Why a text denotes no value. -/
inductive Flaw where
  | malformed
  /-- A whole number with more digits than are read. -/
  | longNumber (digits : Nat)
deriving Repr, DecidableEq

/-- How many digits a whole number may have. -/
def digitLimit : Nat := 4300

def orMalformed {α : Type} (x : Option α) : Except Flaw α := x.elim (.error .malformed) .ok

def isSpace (c : Char) : Bool := c == ' ' || c == '\t' || c == '\n' || c == '\r'

def skip (cs : List Char) : List Char := cs.dropWhile isSpace

def hexValue? (c : Char) : Option Nat :=
  if c.isDigit then some (c.toNat - 48)
  else if 'a' ≤ c ∧ c ≤ 'f' then some (c.toNat - 87)
  else if 'A' ≤ c ∧ c ≤ 'F' then some (c.toNat - 55)
  else none

def hex4? : List Char → Option (Nat × List Char)
  | a :: b :: c :: d :: rest => do
    let n := ((← hexValue? a) * 16 + (← hexValue? b)) * 16 + (← hexValue? c)
    pure (n * 16 + (← hexValue? d), rest)
  | _ => none

def escapeChar? : Char → Option Char
  | '"' => some '"'
  | '\\' => some '\\'
  | '/' => some '/'
  | 'b' => some '\x08'
  | 'f' => some '\x0c'
  | 'n' => some '\n'
  | 'r' => some '\r'
  | 't' => some '\t'
  | _ => none

/-- A code unit, joined with a following one if the two are the halves of a pair. -/
def codePoint (n : Nat) (rest : List Char) : Nat × List Char :=
  if 0xd800 ≤ n ∧ n < 0xdc00 then
    match rest with
    | '\\' :: 'u' :: more =>
      match hex4? more with
      | some (m, after) =>
        if 0xdc00 ≤ m ∧ m < 0xe000 then (0x10000 + (n - 0xd800) * 1024 + (m - 0xdc00), after)
        else (n, rest)
      | none => (n, rest)
    | _ => (n, rest)
  else (n, rest)

def ofCodes (codes : List Nat) : Json :=
  if codes.any isHalf then torn codes else str (mended codes)

/-- The code points of a string up to its closing quotation mark. -/
def readString : Nat → List Nat → List Char → Option (Json × List Char)
  | 0, _, _ => none
  | _ + 1, _, [] => none
  | n + 1, acc, c :: cs =>
    if c = '"' then some (ofCodes acc.reverse, cs)
    else if c = '\\' then
      match cs with
      | 'u' :: rest =>
        match hex4? rest with
        | none => none
        | some (u, rest) =>
          let (code, rest) := codePoint u rest
          readString n (code :: acc) rest
      | e :: rest =>
        match escapeChar? e with
        | some ch => readString n (ch.toNat :: acc) rest
        | none => none
      | [] => none
    else if c.toNat < 32 then none
    else readString n (c.toNat :: acc) cs

def digitsValue (cs : List Char) : Nat := cs.foldl (fun n c => n * 10 + (c.toNat - 48)) 0

/-- A fraction part: a point and at least one digit. -/
def readFraction : List Char → List Char × List Char
  | '.' :: cs =>
    let ds := cs.takeWhile Char.isDigit
    if ds.isEmpty then ([], '.' :: cs) else (ds, cs.dropWhile Char.isDigit)
  | cs => ([], cs)

/-- An exponent part: a letter, perhaps a sign, and at least one digit. -/
def readExponent (cs : List Char) : Option (Int × List Char) :=
  match cs with
  | e :: rest =>
    if e = 'e' ∨ e = 'E' then
      let (neg, ds) := match rest with
        | '-' :: r => (true, r)
        | '+' :: r => (false, r)
        | r => (false, r)
      let digits := ds.takeWhile Char.isDigit
      if digits.isEmpty then none
      else
        let n : Int := digitsValue digits
        some (if neg then -n else n, ds.dropWhile Char.isDigit)
    else none
  | [] => none

/-- A number after its sign. Only whole numbers are bounded in length. -/
def readNumber (neg : Bool) (cs : List Char) : Except Flaw (Json × List Char) :=
  let whole := match cs with
    | '0' :: _ => ['0']
    | _ => cs.takeWhile Char.isDigit
  if whole.isEmpty then .error .malformed
  else
    let rest := cs.drop whole.length
    let (fraction, rest) := readFraction rest
    let ex := readExponent rest
    if fraction.isEmpty && ex.isNone then
      if digitLimit < whole.length then .error (.longNumber whole.length)
      else
        let n : Int := digitsValue whole
        .ok (int (if neg then -n else n), rest)
    else
      let e := ex.elim 0 (·.1)
      let digits := digitsValue (whole ++ fraction)
      .ok (real (Text.Binary64.canonical neg digits (e - fraction.length)), ex.elim rest (·.2))

def word? (w : String) (cs : List Char) : Option (List Char) :=
  if w.toList.isPrefixOf cs then some (cs.drop w.length) else none

def readWord (cs : List Char) : Option (Json × List Char) :=
  [("null", null), ("true", bool true), ("false", bool false), ("NaN", real "NaN"),
    ("Infinity", real "Infinity")].findSome? fun (w, v) => (word? w cs).map (v, ·)

/-- A member of a name that was read. What stands under a torn name is torn. -/
def memberOf (name value : Json) : String × Json :=
  match name with
  | str s => (s, value)
  | _ => (name.str?.getD "", name)

/-- What a container is being read. -/
inductive Open where
  | value
  | items (done : List Json)
  | members (done : List (String × Json))

/-- A value, or the rest of a container of which `done` was read. The first flaw ends the
reading. -/
def read : Nat → Open → List Char → Except Flaw (Json × List Char)
  | 0, _, _ => .error .malformed
  | n + 1, .value, cs =>
    match cs with
    | '"' :: rest => orMalformed (readString (rest.length + 1) [] rest)
    | '[' :: rest =>
      match skip rest with
      | ']' :: r => .ok (arr [], r)
      | r => read n (.items []) r
    | '{' :: rest =>
      match skip rest with
      | '}' :: r => .ok (obj [], r)
      | r => read n (.members []) r
    | '-' :: 'I' :: rest => orMalformed ((word? "nfinity" rest).map (real "-Infinity", ·))
    | '-' :: rest => readNumber true rest
    | c :: rest =>
      if c.isDigit then readNumber false (c :: rest) else orMalformed (readWord (c :: rest))
    | [] => .error .malformed
  | n + 1, .items done, cs => do
    let (v, r) ← read n .value cs
    match skip r with
    | ',' :: r => read n (.items (v :: done)) (skip r)
    | ']' :: r => .ok (arr (v :: done).reverse, r)
    | _ => .error .malformed
  | n + 1, .members done, cs =>
    match cs with
    | '"' :: rest => do
      let (k, r) ← orMalformed (readString (rest.length + 1) [] rest)
      match skip r with
      | ':' :: r => do
        let (v, r) ← read n .value (skip r)
        let done := memberOf k v :: done
        match skip r with
        | ',' :: r => read n (.members done) (skip r)
        | '}' :: r => .ok (obj (done.reverse.foldl (fun ms e => setMember e.1 e.2 ms) []), r)
        | _ => .error .malformed
      | _ => .error .malformed
    | _ => .error .malformed

/-- The value that a whole text denotes. Of several members of one name the last value counts. -/
def parse (s : String) : Except Flaw Json := do
  let cs := s.toList
  let (v, r) ← read (2 * cs.length + 2) .value (skip cs)
  if (skip r).isEmpty then pure v else .error .malformed

def parse? (s : String) : Option Json := (parse s).toOption

/-! ### Writing -/

def hexDigit (n : Nat) : Char := if n < 10 then Char.ofNat (48 + n) else Char.ofNat (87 + n)

def hex4 (n : Nat) : List Char :=
  ['\\', 'u', hexDigit (n / 4096 % 16), hexDigit (n / 256 % 16), hexDigit (n / 16 % 16),
    hexDigit (n % 16)]

/-- A character of a string. With `ascii` all but the printable ASCII characters are written as code
units. -/
def writeChar (ascii : Bool) (c : Char) : List Char :=
  if c = '"' then ['\\', '"']
  else if c = '\\' then ['\\', '\\']
  else if c = '\n' then ['\\', 'n']
  else if c = '\r' then ['\\', 'r']
  else if c = '\t' then ['\\', 't']
  else if c = '\x08' then ['\\', 'b']
  else if c = '\x0c' then ['\\', 'f']
  else if c.toNat < 32 then hex4 c.toNat
  else if ascii && c.toNat ≥ 127 then
    if c.toNat < 0x10000 then hex4 c.toNat
    else hex4 (0xd800 + (c.toNat - 0x10000) / 1024) ++ hex4 (0xdc00 + (c.toNat - 0x10000) % 1024)
  else [c]

def writeString (ascii : Bool) (s : String) : String :=
  "\"" ++ String.ofList (s.toList.flatMap (writeChar ascii)) ++ "\""

/-- The code points of a text, in ASCII. -/
def writeCodes (codes : List Nat) : String :=
  "\"" ++ String.ofList (codes.flatMap fun n =>
    if isHalf n then hex4 n else writeChar true (Char.ofNat n)) ++ "\""

/-- Stands for a text that cannot be written. No value is written with it otherwise. -/
def tornMark : Char := '\x00'

def newline (depth : Nat) : String := "\n" ++ String.ofList (List.replicate (2 * depth) ' ')

/-- What stands before an item is written together with the item if that is a text. -/
def leading (s : String) : Json → String
  | torn _ => String.singleton tornMark ++ s
  | _ => s

mutual

/-- Indented by two blanks a level. -/
def pretty (depth : Nat) : Json → String
  | null => "null"
  | bool b => if b then "true" else "false"
  | int n => toString n
  | real t => t
  | str s => writeString false s
  | torn _ => String.singleton tornMark
  | arr [] => "[]"
  | arr (x :: xs) =>
    leading ("[" ++ newline (depth + 1)) x ++ pretty (depth + 1) x ++ prettyItems (depth + 1) xs ++
      newline depth ++ "]"
  | obj [] => "\x7b\x7d"
  | obj ((k, v) :: ms) =>
    "\x7b" ++ newline (depth + 1) ++ writeString false k ++ ": " ++ pretty (depth + 1) v ++
      prettyMembers (depth + 1) ms ++ newline depth ++ "\x7d"

def prettyItems (depth : Nat) : List Json → String
  | [] => ""
  | x :: xs => leading ("," ++ newline depth) x ++ pretty depth x ++ prettyItems depth xs

def prettyMembers (depth : Nat) : List (String × Json) → String
  | [] => ""
  | (k, v) :: ms =>
    "," ++ newline depth ++ writeString false k ++ ": " ++ pretty depth v ++ prettyMembers depth ms

end

mutual

/-- On one line, with a blank after every comma and colon. -/
def compact : Json → String
  | null => "null"
  | bool b => if b then "true" else "false"
  | int n => toString n
  | real t => t
  | str s => writeString true s
  | torn codes => writeCodes codes
  | arr [] => "[]"
  | arr (x :: xs) => "[" ++ compact x ++ compactItems xs ++ "]"
  | obj [] => "\x7b\x7d"
  | obj ((k, v) :: ms) =>
    "\x7b" ++ writeString true k ++ ": " ++ compact v ++ compactMembers ms ++ "\x7d"

def compactItems : List Json → String
  | [] => ""
  | x :: xs => ", " ++ compact x ++ compactItems xs

def compactMembers : List (String × Json) → String
  | [] => ""
  | (k, v) :: ms => ", " ++ writeString true k ++ ": " ++ compact v ++ compactMembers ms

end

/-- The indented text of a value. -/
def render (j : Json) : String := pretty 0 j

mutual

/-- Is there a text in a value that cannot be written? -/
def isTorn : Json → Bool
  | torn _ => true
  | arr xs => isTornItems xs
  | obj ms => isTornMembers ms
  | _ => false

def isTornItems : List Json → Bool
  | [] => false
  | x :: xs => isTorn x || isTornItems xs

def isTornMembers : List (String × Json) → Bool
  | [] => false
  | (_, v) :: ms => isTorn v || isTornMembers ms

end

end Json

end CrossCall

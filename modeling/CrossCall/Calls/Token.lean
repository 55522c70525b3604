import CrossCall.Calls.Program
import CrossCall.Text.Json
import CrossCall.Text.Word
/-!
Python text as tokens. The indentation of lines shows as tokens of its own; inside brackets lines do
not count.
-/
namespace CrossCall.Calls

inductive TokenKind where
  | name
  | number
  | text
  | bytes
  /-- A text with expressions in it, which are not looked at. -/
  | formatted
  | symbol
  | newline
  | indent
  | dedent
deriving Repr, DecidableEq

structure Token where
  kind : TokenKind
  text : String := ""
  line : Int
deriving Repr, DecidableEq

namespace Token

def badText : ParseFault := ⟨"SyntaxError"⟩

def badIndent : ParseFault := ⟨"IndentationError"⟩

/-- Two indentations compare differently when tabs are taken to be narrow. -/
def badTabs : ParseFault := ⟨"TabError"⟩

/-! ### Texts -/

/-- What a letter after a backslash stands for. -/
def simpleEscape? : Char → Option Char
  | '\\' => some '\\'
  | '\'' => some '\''
  | '"' => some '"'
  | 'n' => some '\n'
  | 'r' => some '\r'
  | 't' => some '\t'
  | 'a' => some '\x07'
  | 'b' => some '\x08'
  | 'f' => some '\x0c'
  | 'v' => some '\x0b'
  | _ => none

def hexNumber (cs : List Char) : Nat := cs.foldl (fun n c => n * 16 + (Json.hexValue? c).getD 0) 0

def isHex (c : Char) : Bool := (Json.hexValue? c).isSome

def isOctal (c : Char) : Bool := '0' ≤ c && c ≤ '7'

/-- The number of digits that a letter after a backslash asks for. -/
def escapeWidth? : Char → Option Nat
  | 'x' => some 2
  | 'u' => some 4
  | 'U' => some 8
  | _ => none

/-- What a backslash and the characters after it stand for, and how many of those it takes. -/
def escape (cs : List Char) : Option (List Char × Nat) :=
  match cs with
  | [] => none
  | '\n' :: _ => some ([], 1)
  | c :: rest =>
    let octal := (cs.take 3).takeWhile isOctal
    match simpleEscape? c, escapeWidth? c with
    | some d, _ => some ([d], 1)
    | none, some n =>
      let digits := (rest.take n).takeWhile isHex
      if digits.length = n then some ([Char.ofNat (hexNumber digits)], n + 1) else none
    | none, none =>
      if octal.isEmpty then some (['\\', c], 1)
      else some ([Char.ofNat (octal.foldl (fun n c => n * 8 + (c.toNat - 48)) 0)], octal.length)

/-- The body of a text, and what follows its closing mark. -/
def scanText (mark : List Char) (raw : Bool) :
    Nat → List Char → List Char → Option (List Char × List Char)
  | 0, _, _ => none
  | _ + 1, _, [] => none
  | fuel + 1, done, c :: cs =>
    if mark.isPrefixOf (c :: cs) then some (done.reverse, (c :: cs).drop mark.length)
    else if c = '\n' && mark.length = 1 then none
    else if c ≠ '\\' then scanText mark raw fuel (c :: done) cs
    else if raw then
      match cs with
      | [] => none
      | d :: rest => scanText mark raw fuel (d :: c :: done) rest
    else do
      let (ds, n) ← escape cs
      scanText mark raw fuel (ds.reverse ++ done) (cs.drop n)

/-- The letters that may stand before a text: what they make of it, and whether backslashes stay. -/
def textForm? (letters : String) : Option (TokenKind × Bool) :=
  match letters.toLower with
  | "" => some (.text, false)
  | "u" => some (.text, false)
  | "r" => some (.text, true)
  | "b" => some (.bytes, false)
  | "br" => some (.bytes, true)
  | "rb" => some (.bytes, true)
  | "f" => some (.formatted, false)
  | "fr" => some (.formatted, true)
  | "rf" => some (.formatted, true)
  | _ => none

/-- A text that starts with a quotation mark, one or three of them. -/
def scanQuoted (raw : Bool) (cs : List Char) : Option (List Char × List Char) :=
  match cs with
  | q :: r =>
    if q ≠ '"' && q ≠ '\'' then none
    else
      let mark := if [q, q, q].isPrefixOf cs then [q, q, q] else [q]
      scanText mark raw (cs.length + 1) [] (if mark.length = 3 then cs.drop 3 else r)
  | [] => none

/-! ### Other tokens -/

def isNameStart (c : Char) : Bool := Text.isWord c && !Text.isDigitChar c

/-- Is a character part of a number whose characters so far are given in reverse? -/
def continuesNumber (done : List Char) (c : Char) : Bool :=
  c.isAlphanum || c == '_' || c == '.' ||
    ((c == '+' || c == '-') && (done.head? == some 'e' || done.head? == some 'E') &&
      !(done.getLast? == some '0' && (done.contains 'x' || done.contains 'X')))

def scanNumber (done : List Char) : List Char → List Char × List Char
  | [] => (done.reverse, [])
  | c :: cs => if continuesNumber done c then scanNumber (c :: done) cs else (done.reverse, c :: cs)

/-- Symbols, longer ones before those they start with. -/
def symbols : List String := [
  "**=", "//=", ">>=", "<<=", "...", "!=", "->", ":=", "+=", "-=", "*=", "/=", "%=", "&=", "|=",
  "^=", "@=", "==", "<=", ">=", "<<", ">>", "**", "//", "+", "-", "*", "/", "%", "@", "<", ">", "=",
  "(", ")", "[", "]", "\x7b", "\x7d", ",", ":", ".", ";", "&", "|", "^", "~"]

def opens (s : String) : Bool := s == "(" || s == "[" || s == "\x7b"

def closes (s : String) : Bool := s == ")" || s == "]" || s == "\x7d"

/-! ### Lines -/

structure Reader where
  line : Int := 1
  /-- The number of open brackets. -/
  depth : Nat := 0
  /-- The columns of the open indentations, and the columns they have with narrow tabs. -/
  indents : List (Nat × Nat) := [(0, 0)]
  atStart : Bool := true
  /-- The tokens so far, the last one first. -/
  done : List Token := []

namespace Reader

def emit (r : Reader) (kind : TokenKind) (text : String := "") : Reader :=
  { r with done := { kind := kind, text := text, line := r.line } :: r.done }

/-- The column after some blanks, with tabs of the given width. -/
def column (tab : Nat) (blanks : List Char) : Nat :=
  blanks.foldl (fun n c => if c = '\t' then (n / tab + 1) * tab else if c = '\x0c' then 0
    else n + 1) 0

def closeIndents (width : Nat) : List (Nat × Nat) → Reader → Reader
  | top :: rest, r =>
    if width < top.1 then closeIndents width rest (r.emit .dedent)
    else { r with indents := top :: rest }
  | [], r => { r with indents := [] }

/-- Starts a line after some blanks. -/
def startLine (r : Reader) (blanks : List Char) : Except ParseFault Reader :=
  let r := { r with atStart := false }
  let width := column 8 blanks
  let narrow := column 1 blanks
  let top := r.indents.headD (0, 0)
  if width > top.1 then
    if narrow ≤ top.2 then .error badTabs
    else .ok { r.emit .indent with indents := (width, narrow) :: r.indents }
  else
    let r := closeIndents width r.indents r
    match r.indents.head? with
    | some (w, n) =>
      if w ≠ width then .error badIndent else if n ≠ narrow then .error badTabs else .ok r
    | none => .error badIndent

/-- Ends the text: a last line is closed, and so is every indentation. -/
def finish (r : Reader) : Except ParseFault (List Token) :=
  if r.depth > 0 then .error badText
  else
    let r := if r.atStart then r else r.emit .newline
    .ok (closeIndents 0 r.indents r).done.reverse

/-- One token that is no line end, and the rest. -/
def token (r : Reader) (cs : List Char) : Except ParseFault (Reader × List Char) :=
  let letters := cs.takeWhile fun c => Text.isWord c
  let after := cs.drop letters.length
  let name := String.ofList letters
  let form := if after.head? == some '"' || after.head? == some '\'' then textForm? name else none
  match form with
  | some (kind, raw) =>
    match scanQuoted raw after with
    | none => .error badText
    | some (body, rest) =>
      let used := (after.take (after.length - rest.length)).count '\n'
      let r := r.emit kind (String.ofList body)
      .ok ({ r with line := r.line + used }, rest)
  | none =>
    if cs.head?.any isNameStart then .ok (r.emit .name name, after)
    else if cs.head?.any Char.isDigit ||
      (cs.head? == some '.' && (cs.drop 1).head?.any Char.isDigit) then
      let (number, rest) := scanNumber [] cs
      .ok (r.emit .number (String.ofList number), rest)
    else match symbols.find? fun s => s.toList.isPrefixOf cs with
      | none => .error badText
      | some s =>
        if closes s && r.depth = 0 then .error badText
        else
          let depth := if opens s then r.depth + 1 else if closes s then r.depth - 1 else r.depth
          .ok ({ r.emit .symbol s with depth := depth }, cs.drop s.length)

/-- All tokens of a text. -/
def run : Nat → Reader → List Char → Except ParseFault (List Token)
  | 0, _, _ => .error badText
  | fuel + 1, r, cs =>
    let isGap (c : Char) : Bool := c == ' ' || c == '\t' || c == '\x0c'
    let blanks := cs.takeWhile isGap
    let nextLine : Reader := { r with line := r.line + 1 }
    match cs.drop blanks.length with
    | [] => r.finish
    | '#' :: rest => run fuel r (rest.dropWhile (· != '\n'))
    | '\n' :: rest =>
      if r.atStart || r.depth > 0 then run fuel nextLine rest
      else run fuel { r.emit .newline with line := r.line + 1, atStart := true } rest
    | '\\' :: '\n' :: rest => run fuel nextLine rest
    | c :: rest => do
      let r ← if r.atStart then r.startLine blanks else .ok r
      let (r, cs) ← r.token (c :: rest)
      run fuel r cs

end Reader

/-- The tokens of a text. -/
def scan (text : String) : Except ParseFault (List Token) :=
  Reader.run (2 * text.length + 2) {} text.toList

end Token

end CrossCall.Calls

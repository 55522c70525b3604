import CrossCall.Text.Json
import CrossCall.Text.Word
/-!
Values as they are shown to a reader. A text by itself is shown as it is; inside another value it
stands in quotation marks.
-/
namespace CrossCall

/-- A text as it is passed on. A torn one holds half of a surrogate pair, for which a replacement
character stands, and can neither be printed nor be written to a file. -/
structure Wording where
  text : String
  torn : Bool := false
deriving Repr, DecidableEq

instance : Coe String Wording := ⟨fun s => { text := s }⟩

namespace Json

/-- Controls, formats, private characters and all blanks but the plain one. -/
def unshownRanges : List (Nat × Nat) := [
  (0x0, 0x1f), (0x7f, 0xa0), (0xad, 0xad), (0x600, 0x605), (0x61c, 0x61c), (0x6dd, 0x6dd),
  (0x70f, 0x70f), (0x890, 0x891), (0x8e2, 0x8e2), (0x1680, 0x1680), (0x180e, 0x180e),
  (0x2000, 0x200f), (0x2028, 0x202f), (0x205f, 0x2064), (0x2066, 0x206f), (0x3000, 0x3000),
  (0xe000, 0xf8ff), (0xfeff, 0xfeff), (0xfff9, 0xfffb), (0x110bd, 0x110bd), (0x110cd, 0x110cd),
  (0x13430, 0x13438), (0x1bca0, 0x1bca3), (0x1d173, 0x1d17a), (0xe0001, 0xe0001),
  (0xe0020, 0xe007f), (0xf0000, 0xffffd), (0x100000, 0x10fffd)]

/-- The last `width` hexadecimal digits of a number. -/
def hexDigits : Nat → Nat → List Char
  | 0, _ => []
  | width + 1, n => hexDigits width (n / 16) ++ [hexDigit (n % 16)]

/-- A character between quotation marks of the given kind. -/
def quotedChar (mark c : Char) : List Char :=
  if c = mark || c = '\\' then ['\\', c]
  else if c = '\n' then ['\\', 'n']
  else if c = '\r' then ['\\', 'r']
  else if c = '\t' then ['\\', 't']
  else if !Text.inRanges unshownRanges c.toNat then [c]
  else if c.toNat < 0x100 then ['\\', 'x'] ++ hexDigits 2 c.toNat
  else if c.toNat < 0x10000 then ['\\', 'u'] ++ hexDigits 4 c.toNat
  else ['\\', 'U'] ++ hexDigits 8 c.toNat

/-- Texts stand in single quotation marks, or in double ones if they hold single ones only. -/
def quotationMark (s : String) : Char :=
  if s.toList.contains '\'' && !s.toList.contains '"' then '"' else '\''

def quoted (s : String) : String :=
  let mark := quotationMark s
  String.ofList (mark :: s.toList.flatMap (quotedChar mark) ++ [mark])

/-- A torn text, where the halves are spelt out. -/
def quotedCodes (codes : List Nat) : String :=
  let mark := quotationMark (mended codes)
  String.ofList (mark :: codes.flatMap (fun n =>
    if isHalf n then ['\\', 'u'] ++ hexDigits 4 n else quotedChar mark (Char.ofNat n)) ++ [mark])

def shownReal (text : String) : String :=
  if text == "NaN" then "nan"
  else if text == "Infinity" then "inf"
  else if text == "-Infinity" then "-inf"
  else text

mutual

/-- A value inside another one. -/
def shown : Json → String
  | null => "None"
  | bool b => if b then "True" else "False"
  | int n => toString n
  | real t => shownReal t
  | str s => quoted s
  | torn codes => quotedCodes codes
  | arr [] => "[]"
  | arr (x :: xs) => "[" ++ shown x ++ shownItems xs ++ "]"
  | obj [] => "\x7b\x7d"
  | obj ((k, v) :: ms) => "\x7b" ++ quoted k ++ ": " ++ shown v ++ shownMembers ms ++ "\x7d"

def shownItems : List Json → String
  | [] => ""
  | x :: xs => ", " ++ shown x ++ shownItems xs

def shownMembers : List (String × Json) → String
  | [] => ""
  | (k, v) :: ms => ", " ++ quoted k ++ ": " ++ shown v ++ shownMembers ms

end

/-- A value by itself. -/
def display : Json → String
  | str s => s
  | torn codes => mended codes
  | j => j.shown

/-- A value by itself, as it is passed on. Inside another value no text is torn any more. -/
def wording : Json → Wording
  | torn codes => ⟨mended codes, true⟩
  | j => j.display

end Json

end CrossCall

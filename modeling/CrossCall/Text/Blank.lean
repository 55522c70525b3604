/-!
Blank characters over the whole of Unicode, and trimming.
-/
namespace CrossCall.Text

/-- Spaces, tabs, line and page breaks, information separators, and the wide and narrow spaces of
Unicode. -/
def isBlank (c : Char) : Bool :=
  let n := c.toNat
  (9 ≤ n && n ≤ 13) || (0x1c ≤ n && n ≤ 0x20) || n == 0x85 || n == 0xa0 || n == 0x1680 ||
    (0x2000 ≤ n && n ≤ 0x200a) || n == 0x2028 || n == 0x2029 || n == 0x202f || n == 0x205f ||
    n == 0x3000

def trimStartChars (cs : List Char) : List Char := cs.dropWhile isBlank

def trimEndChars (cs : List Char) : List Char := (cs.reverse.dropWhile isBlank).reverse

/-- Drops blank characters at both ends. -/
def trim (s : String) : String := String.ofList (trimEndChars (trimStartChars s.toList))

/-- Only blank characters, or nothing. -/
def isBlankLine (s : String) : Bool := s.toList.all isBlank

end CrossCall.Text

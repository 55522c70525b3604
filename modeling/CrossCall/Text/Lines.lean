/-!
Cutting text into lines. `lines` knows every line boundary of Unicode and gives no line after a
final boundary; `splitAt` cuts at one character and keeps empty pieces.
-/
namespace CrossCall.Text

/-- Characters that end a line. -/
def isLineEnd (c : Char) : Bool :=
  let n := c.toNat
  (10 ≤ n && n ≤ 13) || (0x1c ≤ n && n ≤ 0x1e) || n == 0x85 || n == 0x2028 || n == 0x2029

def linesFrom (line : List Char) : List Char → List String
  | [] => if line.isEmpty then [] else [String.ofList line.reverse]
  | '\r' :: '\n' :: rest => String.ofList line.reverse :: linesFrom [] rest
  | c :: rest =>
    if isLineEnd c then String.ofList line.reverse :: linesFrom [] rest
    else linesFrom (c :: line) rest

/-- The lines of a text, without their boundaries. -/
def lines (s : String) : List String := linesFrom [] s.toList

def splitFrom (sep : Char) (piece : List Char) : List Char → List String
  | [] => [String.ofList piece.reverse]
  | c :: rest =>
    if c = sep then String.ofList piece.reverse :: splitFrom sep [] rest
    else splitFrom sep (c :: piece) rest

/-- The pieces between occurrences of `sep`; there is always one piece more than occurrences. -/
def splitAt (sep : Char) (s : String) : List String := splitFrom sep [] s.toList

theorem notMem_of_mem_splitFrom {sep : Char} {piece cs : List Char} {line : String}
    (h : sep ∉ piece) (hline : line ∈ splitFrom sep piece cs) : sep ∉ line.toList := by
  induction cs generalizing piece with
  | nil =>
    cases List.mem_singleton.mp hline
    simpa using h
  | cons c rest ih =>
    unfold splitFrom at hline
    split at hline
    · rcases List.mem_cons.mp hline with rfl | hline
      · simpa using h
      · exact ih (by simp) hline
    · rename_i hc
      refine ih ?_ hline
      rintro (_ | ⟨_, hmem⟩)
      · exact hc rfl
      · exact h hmem

theorem notMem_of_mem_splitAt {sep : Char} {s line : String} (h : line ∈ splitAt sep s) :
    sep ∉ line.toList := notMem_of_mem_splitFrom (by simp) h

/-- Carriage returns, alone or before a newline, become newlines. -/
def unifyNewlines : List Char → List Char
  | [] => []
  | '\r' :: '\n' :: rest => '\n' :: unifyNewlines rest
  | '\r' :: rest => '\n' :: unifyNewlines rest
  | c :: rest => c :: unifyNewlines rest

/-- Does `sub` occur in `cs`, as a run of neighbours? -/
def occursIn (sub : List Char) : List Char → Bool
  | [] => sub.isEmpty
  | c :: rest => sub.isPrefixOf (c :: rest) || occursIn sub rest

/-- Does the text contain `sub`? -/
def hasText (s sub : String) : Bool := occursIn sub.toList s.toList

def replaceChar (s : String) (a b : Char) : String :=
  String.ofList (s.toList.map fun c => if c = a then b else c)

/-- The first `n` characters. -/
def takeChars (s : String) (n : Nat) : String := String.ofList (s.toList.take n)

/-- All but the first `n` characters. -/
def dropChars (s : String) (n : Nat) : String := String.ofList (s.toList.drop n)

def hasStart (s start : String) : Bool := start.toList.isPrefixOf s.toList

def hasEnd (s ending : String) : Bool := ending.toList.reverse.isPrefixOf s.toList.reverse

/-- Pads with blanks on the left up to a width. -/
def padLeft (width : Nat) (s : String) : String :=
  String.ofList (List.replicate (width - s.length) ' ') ++ s

end CrossCall.Text

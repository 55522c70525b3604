import CrossCall.Text.Blank
import CrossCall.Text.Lines
/-!
Reports cut into the pieces of code that go to the assistant. A piece starts after a marked line;
blank lines and rulers are left out, and a piece without lines does not count.
-/
namespace CrossCall.Assistant

/-- The pieces so far, and the lines of the piece being read once there was a mark. -/
structure Cutting where
  done : List String := []
  current : List String := []
  started : Bool := false
deriving Repr

namespace Cutting

/-- Ends the current piece. -/
def close (c : Cutting) : Cutting :=
  if c.current.isEmpty then c
  else { c with done := c.done ++ [String.intercalate "\n" c.current], current := [] }

/-- Is a line part of a piece? -/
def isCode (line : String) : Bool := !Text.isBlankLine line && !Text.hasStart line "="

def next (isMark : String → Bool) (c : Cutting) (line : String) : Cutting :=
  if isMark line then { c.close with started := true }
  else if c.started && isCode line then { c with current := c.current ++ [line] }
  else c

end Cutting

/-- The pieces of a text. -/
def sections (isMark : String → Bool) (text : String) : List String :=
  ((Text.splitAt '\n' text).foldl (Cutting.next isMark) {}).close.done

/-- Starts a module in a report on registrations. -/
def isModuleMark (line : String) : Bool :=
  Text.hasText line "C中的python注册模块 #" || Text.hasText line "模块链 #"

/-- Starts a call in a report on calls. -/
def isCallMark (line : String) : Bool := Text.hasText line "C中的Python API调用 #"

def moduleSections (text : String) : List String := sections isModuleMark text

def callSections (text : String) : List String := sections isCallMark text

end CrossCall.Assistant

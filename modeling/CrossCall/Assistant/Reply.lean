import CrossCall.Text.Blank
import CrossCall.Text.Display
import CrossCall.Text.Lines
/-!
What comes back from the assistant, and what a reply says once its wrapping is taken off.
-/
namespace CrossCall.Assistant

inductive Reply where
  | text (w : Wording)
  /-- The assistant could not be reached, for the given reason. -/
  | failure (reason : String)
deriving Repr, DecidableEq

def fence : String := "```"

/-- Takes off an opening fence, which may name the format. -/
def dropOpening (s : String) : String :=
  if Text.hasStart s (fence ++ "json") then Text.dropChars s 7
  else if Text.hasStart s fence then Text.dropChars s 3
  else s

def dropClosing (s : String) : String :=
  if Text.hasEnd s fence then Text.takeChars s (s.length - 3) else s

/-- A reply without blanks and fences around. -/
def unwrap (s : String) : String := Text.trim (dropClosing (dropOpening (Text.trim s)))

/-- Why nothing can be read from a reply. -/
inductive ReplyFault where
  | failed (reason : String)
  | notJson (text : String)
deriving Repr, DecidableEq

namespace ReplyFault

/-- What is recorded in place of an answer. -/
def note : ReplyFault → String
  | failed reason => reason
  | notJson _ => "JSON parsing failed"

/-- A number that is too long is no fault of the format. -/
def ofFlaw (text : String) : Json.Flaw → ReplyFault
  | .malformed => .notJson text
  | .longNumber digits => .failed ("Exceeds the limit (" ++ toString Json.digitLimit ++
      " digits) for integer string conversion: value has " ++ toString digits ++
      " digits; use sys.set_int_max_str_digits() to increase the limit")

end ReplyFault

/-- The value in the text of a reply. -/
def valueOf (text : String) : Except ReplyFault Json :=
  (Json.parse (unwrap text)).mapError (.ofFlaw text)

end CrossCall.Assistant

import CrossCall.Assistant.Reply
import CrossCall.Assistant.Stub
import CrossCall.Store.Files
import CrossCall.Text.Display
/-!
The desk at which a program works: the files it reads and writes, the lines it prints, and its
exchange with the assistant. What was done stays done when the work stops early.
-/
namespace CrossCall

/-- A question to the assistant. -/
structure Question where
  model : String
  system : Option String := none
  prompt : String
  maxTokens : Int := 8192
  temperature : Int := 0
deriving Repr, DecidableEq

def Question.toJson (q : Question) : Json := .obj ([
  ("model", .str q.model), ("max_tokens", .int q.maxTokens), ("temperature", .int q.temperature),
  ("messages", .arr [.obj [("role", .str "user"), ("content", .str q.prompt)]])] ++
  q.system.toList.map fun s => ("system", .str s))

/-- Why the work stopped. -/
inductive Stop where
  | file (fault : FileFault) (path : String)
  | undecodable
  | unencodable
  | noKey
  | unanswered (reason : String)
  | shape (fault : Assistant.ShapeFault)
  | noFolder (path : String)
  | notFolder (path : String)
deriving Repr, DecidableEq

def FileFault.message : FileFault → String
  | notFound => "[Errno 2] No such file or directory"
  | isDirectory => "[Errno 21] Is a directory"
  | notDirectory => "[Errno 20] Not a directory"
  | nameTaken => "[Errno 17] File exists"

def Stop.message : Stop → String
  | file fault path => fault.message ++ ": " ++ Json.quoted path
  | undecodable => "invalid UTF-8"
  | unencodable => "surrogates not allowed"
  | noKey =>
    "API Key not found. Please set ANTHROPIC_API_KEY or CLAUDE_API_KEY in .env file or " ++
      "environment variables."
  | unanswered reason => "API call failed: " ++ reason
  | shape .missingKey => "missing member"
  | shape .wrongType => "wrong type"
  | shape .noMembers => "no object"
  | noFolder path => "文件夹不存在: " ++ path
  | notFolder path => "不是一个有效的文件夹: " ++ path

structure Desk where
  files : Files := {}
  /-- Is there a key for the assistant? -/
  hasKey : Bool := true
  /-- The replies to come. -/
  replies : List Assistant.Reply := []
  asked : List Question := []
  printed : List String := []

abbrev Job := ExceptT Stop (StateM Desk)

namespace Job

/-- Prints a line. Its characters are whole, so there is always a way to print it. -/
def say (line : String) : Job Unit := modify fun d => { d with printed := d.printed ++ [line] }

/-- Prints a line that ends in a text from elsewhere. The work stops if that is torn. -/
def sayWith (start : String) (w : Wording) : Job Unit :=
  if w.torn then throw .unencodable else say (start ++ w.text)

def sayAll (lines : List String) : Job Unit :=
  modify fun d => { d with printed := d.printed ++ lines }

def orStop {ε α : Type} (cause : ε → Stop) : Except ε α → Job α
  | .ok x => pure x
  | .error e => throw (cause e)

/-- The text of a file, all of which has to be text. -/
def readText (path : String) : Job String := do
  let bytes ← orStop (.file · path) ((← get).files.bytes path)
  match String.fromUTF8? bytes with
  | some s => pure (String.ofList (Text.unifyNewlines s.toList))
  | none => throw .undecodable

def store (path text : String) : Job Unit := do
  let fs ← orStop (.file · path) ((← get).files.store path text)
  modify fun d => { d with files := fs }

/-- Writes a text to a file. If the text is torn, the file is empty and the work stops. -/
def storeWording (path : String) (w : Wording) : Job Unit := do
  if w.torn then
    store path ""
    throw .unencodable
  else store path w.text

/-- Writes a value to a file. Where a text in it cannot be written, the work stops after all that is
before it. -/
def storeJson (path : String) (j : Json) : Job Unit := do
  if j.isTorn then
    store path (String.ofList (j.render.toList.takeWhile (· != Json.tornMark)))
    throw .unencodable
  else store path j.render

def makeDirectories (path : String) : Job Unit := do
  let fs ← orStop (.file · path) ((← get).files.makeDirectories path)
  modify fun d => { d with files := fs }

/-- The text of the next reply, without blanks around. -/
def ask (q : Question) : Job Wording := do
  let d ← get
  set { d with asked := d.asked ++ [q], replies := d.replies.tail }
  match d.replies.head? with
  | some (.text w) => pure { w with text := Text.trim w.text }
  | some (.failure reason) => throw (.unanswered reason)
  | none => throw (.unanswered "no reply")

/-- Runs a job and turns its stop into a value. What it did stays done. -/
def attempt {α : Type} (job : Job α) : Job (Except Stop α) := fun d =>
  let (r, d) := job.run.run d
  (.ok r, d)

end Job

end CrossCall

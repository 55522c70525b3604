import CrossCall.Store.Path
import CrossCall.Table
import CrossCall.Text.Utf8
/-!
A tree of files held in memory, with a working directory. Paths are kept in their shortest absolute
form.
-/
namespace CrossCall

/-- Why a file cannot be read or written. -/
inductive FileFault where
  | notFound
  | isDirectory
  | notDirectory
  /-- Something else has the name that a directory should get. -/
  | nameTaken
deriving Repr, DecidableEq

structure Files where
  cwd : String := "/"
  contents : Table String ByteArray := {}
  /-- Directories that exist even if they hold nothing. -/
  extraDirectories : List String := []

namespace Files

/-- The absolute form of a path. -/
def resolve (fs : Files) (p : String) : String := Path.absolute fs.cwd p

def isFile (fs : Files) (p : String) : Bool := fs.contents.contains (fs.resolve p)

/-- Is a path the same as a directory or below it? -/
def isBelow (dir p : String) : Bool :=
  p == dir || Text.hasStart p (if dir == "/" then dir else dir ++ "/")

def isDirectory (fs : Files) (p : String) : Bool :=
  let dir := fs.resolve p
  dir == "/" || isBelow dir fs.cwd || fs.extraDirectories.any (isBelow dir) ||
    fs.contents.keys.any fun f => f != dir && isBelow dir f

def doesExist (fs : Files) (p : String) : Bool := fs.isFile p || fs.isDirectory p

def bytes (fs : Files) (p : String) : Except FileFault ByteArray :=
  match fs.contents.get? (fs.resolve p) with
  | some b => .ok b
  | none =>
    if fs.isDirectory p then .error .isDirectory
    else if fs.isFile (Path.dirName (fs.resolve p)) then .error .notDirectory
    else .error .notFound

/-- The text of a file. -/
def read (fs : Files) (mode : Text.OnInvalid) (p : String) : Except FileFault String :=
  (fs.bytes p).map (Text.decode mode)

def write (fs : Files) (p text : String) : Files :=
  { fs with contents := fs.contents.insert (fs.resolve p) text.toUTF8 }

/-- Writes a file into a directory that is already there. -/
def store (fs : Files) (p text : String) : Except FileFault Files :=
  let up := Path.dirName (fs.resolve p)
  if p.isEmpty then .error .notFound
  else if fs.isDirectory p then .error .isDirectory
  else if fs.isDirectory up then .ok (fs.write p text)
  else if fs.isFile up then .error .notDirectory
  else .error .notFound

/-- Makes a directory and those it is in, as far as they are not there yet. -/
def makeDirectories (fs : Files) (p : String) : Except FileFault Files :=
  let dir := fs.resolve p
  if p.isEmpty then .error .notFound
  else if fs.isDirectory p then .ok fs
  else if fs.isFile p then .error .nameTaken
  else if fs.contents.keys.any fun f => isBelow f dir then .error .notDirectory
  else .ok { fs with extraDirectories := insertName fs.extraDirectories dir }

/-- The names directly inside a directory, without repetition. -/
def entries (fs : Files) (p : String) : List String :=
  let dir := fs.resolve p
  let base := if dir == "/" then dir else dir ++ "/"
  let below := (fs.contents.keys ++ fs.extraDirectories).filterMap fun f =>
    if Text.hasStart f base && f != base then
      (Text.splitAt '/' (Text.dropChars f base.length)).head?
    else none
  unionNames [] below

/-- The files below a directory. -/
def filesBelow (fs : Files) (p : String) : List String :=
  let dir := fs.resolve p
  fs.contents.keys.filter fun f => f != dir && isBelow dir f

end Files

end CrossCall

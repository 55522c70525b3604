import CrossCall.Calls.Name
import CrossCall.Store.Files
/-!
Finding the module that an import names. The search starts in the watched directory. A directory
with an initial file is a package, one without is only a place where modules may be found, and a
file with a known suffix is a module. Every module that is found on the way is an import of the
module that is being read. Nothing is ever run.
-/
namespace CrossCall.Calls

/-- A module in the import graph. -/
structure ImportNode where
  file : String := ""
  imports : List String := []
deriving Repr, DecidableEq

inductive ImportFault where
  | invalidName
  | secondNode
  | noSource
  | noNode
deriving Repr, DecidableEq

def ImportFault.message : ImportFault → String
  | invalidName => "Invalid node name"
  | secondNode => "Can't create a node a second time"
  | noSource => "Can't add edge to a non existing node"
  | noNode => "Node does not exist"

/-- A module that was found: its file, unless it is only a place, and the directories in which its
own modules are found, unless it has none. -/
structure Found where
  file : Option String
  places : Option (List String)
deriving Repr, DecidableEq

structure Imports where
  graph : Table String ImportNode := {}
  /-- The module that is being read, and its file. -/
  current : String := ""
  currentFile : String := ""
  /-- The directory that imports are relative to. -/
  directory : Option String := none
  /-- The directories that are being watched, and those before the last change. -/
  watched : List String := []
  watchedBefore : List String := []
  /-- Modules that stay loaded. -/
  loaded : Table String Found := {}
deriving Repr

/-- Modules that are part of the interpreter. -/
def interpreterModules : List String := [
  "_abc", "_ast", "_codecs", "_collections", "_functools", "_imp", "_io", "_locale", "_operator",
  "_signal", "_sre", "_stat", "_string", "_symtable", "_thread", "_tokenize", "_tracemalloc",
  "_warnings", "_weakref", "atexit", "builtins", "errno", "faulthandler", "gc", "itertools",
  "marshal", "posix", "pwd", "sys", "time", "xxsubtype"]

/-- The suffixes of module files, in the order in which they are tried. -/
def moduleSuffixes : List String :=
  [".py", ".pyc", ".cpython-311-x86_64-linux-gnu.so", ".abi3.so", ".so"]

namespace Imports

/-! ### The graph -/

def createNode (im : Imports) (name : String) : Except ImportFault Imports :=
  if name.isEmpty then .error .invalidName
  else if im.graph.contains name then .error .secondNode
  else .ok { im with graph := im.graph.insert name {} }

/-- The current module imports `name`. -/
def addEdge (im : Imports) (name : String) : Except ImportFault Imports :=
  if name.isEmpty then .error .invalidName
  else match im.graph.get? im.current with
    | none => .error .noSource
    | some node =>
      let node := { node with imports := insertName node.imports name }
      .ok { im with graph := im.graph.insert im.current node }

def setFile (im : Imports) (fs : Files) (name file : String) : Except ImportFault Imports :=
  if file.isEmpty then .error .invalidName
  else match im.graph.get? name with
    | none => .error .noNode
    | some node =>
      .ok { im with graph := im.graph.insert name { node with file := fs.resolve file } }

def file? (im : Imports) (name : String) : Option String := (im.graph.get? name).map (·.file)

def importsOf (im : Imports) (name : String) : List String :=
  (im.graph.get? name).elim [] (·.imports)

def setCurrent (im : Imports) (fs : Files) (name file : String) : Imports :=
  { im with current := name, currentFile := fs.resolve file }

/-- Is the file being read the initial file of a package? -/
def inInitialFile (im : Imports) : Bool := Text.hasEnd im.currentFile "__init__.py"

/-- Forgets the loaded modules that the graph knows. -/
def unload (im : Imports) : Imports :=
  { im with loaded := ⟨im.loaded.entries.filter fun e => !im.graph.contains e.1⟩ }

/-- Starts to watch the directory. -/
def watch (im : Imports) (fs : Files) : Imports :=
  unload { im with
    watched := fs.resolve (im.directory.getD "") :: im.watched
    watchedBefore := im.watched }

/-- Goes back to the directories before the last start. -/
def unwatch (im : Imports) : Imports := unload { im with watched := im.watchedBefore }

/-- A module was found in a file: it is imported by the current one, and known from now on. -/
def note (im : Imports) (fs : Files) (name file : String) : Except ImportFault Imports := do
  let im ← im.addEdge name
  if im.graph.contains name then pure im
  else (← im.createNode name).setFile fs name file

/-! ### The search -/

/-- A module in one directory. -/
inductive Sighting where
  | module (found : Found)
  | place (dir : String)
  | nothing

def sight (fs : Files) (dir tail : String) : Sighting :=
  let base := Path.join dir tail
  let initial := moduleSuffixes.map fun s => Path.join base (initMethod ++ s)
  let files := moduleSuffixes.map fun s => Path.join dir (tail ++ s)
  if tail.isEmpty then .nothing
  else match initial.find? fs.isFile with
    | some f => .module ⟨some f, some [base]⟩
    | none =>
      match files.find? fs.isFile with
      | some f => .module ⟨some f, none⟩
      | none => if fs.isDirectory base then .place base else .nothing

/-- A module in the first directory that has it. If none has, the places of that name together. -/
def search (fs : Files) (tail : String) (places : List String) : List String → Option Found
  | [] => if places.isEmpty then none else some ⟨none, some places⟩
  | dir :: rest =>
    match sight fs dir tail with
    | .module found => some found
    | .place p => search fs tail (places ++ [p]) rest
    | .nothing => search fs tail places rest

/-- Why an import did not succeed: there is no such module, or something else went wrong. -/
inductive Miss where
  | absent
  | failed
deriving Repr, DecidableEq

/-- The directories in which the modules of a loaded module are found. A mere place inside a package
that is no longer loaded has lost them. -/
def placesOf (im : Imports) (name : String) : Except Miss (List String) :=
  match im.loaded.get? name with
  | none => .error .absent
  | some found =>
    match found.places with
    | none => .error .absent
    | some dirs =>
      let parent := parentName name
      if found.file.isNone && !parent.isEmpty && !im.loaded.contains parent then .error .failed
      else .ok dirs

/-- Looks a module up in directories and notes it if it has a file. -/
def locate (im : Imports) (fs : Files) (name : String) (dirs : List String) :
    Imports × Except Miss Found :=
  match search fs (ownName name) [] dirs with
  | none => (im, .error .absent)
  | some found =>
    match found.file with
    | none => (im, .ok found)
    | some file =>
      match im.note fs name file with
      | .ok im => (im, .ok found)
      | .error _ => (im, .error .failed)

/-- Loads a module and, before it, those it is in. -/
def load (fs : Files) : Nat → Imports → String → Imports × Except Miss Found
  | 0, im, _ => (im, .error .failed)
  | fuel + 1, im, name =>
    match im.loaded.get? name with
    | some found => (im, .ok found)
    | none =>
      let parent := parentName name
      let (im, dirs) :=
        if parent.isEmpty then (im, .ok im.watched)
        else
          let (im, up) := load fs fuel im parent
          (im, up.bind fun _ => im.placesOf parent)
      match dirs with
      | .error e => (im, .error e)
      | .ok dirs =>
        let (im, outcome) := im.locate fs name dirs
        match outcome with
        | .ok found => ({ im with loaded := im.loaded.insert name found }, .ok found)
        | .error e => (im, .error e)

/-- Finds a module by its full name. The modules it is in are loaded, it itself is not. -/
def find (im : Imports) (fs : Files) (name : String) : Imports × Except Miss Found :=
  match im.loaded.get? name with
  | some found => (im, .ok found)
  | none =>
    let parent := parentName name
    if name.isEmpty then (im, .error .failed)
    else if parent.isEmpty then im.locate fs name im.watched
    else
      let (im, up) := load fs ((namePieces parent).length + 1) im parent
      match up.bind fun _ => im.placesOf parent with
      | .error e => (im, .error e)
      | .ok dirs => im.locate fs name dirs

/-- The full name of a name that may start with dots: one dot is the package itself, every further
one goes up. -/
def fullName? (name package : String) : Option String :=
  let dots := name.toList.takeWhile (· == '.')
  if dots.isEmpty then some name
  else if package.isEmpty then none
  else
    let rest := String.ofList (name.toList.drop dots.length)
    let pieces := namePieces package
    if pieces.length < dots.length then none
    else
      let base := ofPieces (pieces.take (pieces.length - (dots.length - 1)))
      some (if rest.isEmpty then base else joinNames base rest)

/-- One attempt at an import. -/
def attempt (im : Imports) (fs : Files) (name package : String) : Imports × Option Found :=
  match im.loaded.get? name with
  | some found =>
    match im.addEdge name with
    | .ok im => (im, some found)
    | .error _ => (im, none)
  | none =>
    match fullName? name package with
    | none => (im, none)
    | some full =>
      let (im, outcome) := im.find fs full
      (im, outcome.toOption)

/-- The attempts one after the other, up to the first that succeeds. -/
def attempts (fs : Files) : List (String × String) → Imports → Imports × Option Found
  | [], im => (im, none)
  | (name, package) :: rest, im =>
    let (im, found) := im.attempt fs name package
    match found with
    | some f => (im, some f)
    | none => attempts fs rest im

/-- All but the last `n`, counted from the front if `n` is negative. With zero nothing is left. -/
def trimPieces (ps : List String) (n : Int) : List String :=
  if n ≤ 0 then ps.take (-n).toNat else ps.take (ps.length - n.toNat)

/-- A name with a dot for every level, and the package that it is relative to; nothing beyond the
top. The initial file of a package is one level deeper than its name. -/
def relativeTo? (im : Imports) (name : String) (level : Int) : Option (String × String) :=
  let pieces := namePieces im.current
  if level > pieces.length then none
  else
    let dotted := String.ofList (List.replicate level.toNat '.') ++ name
    let package :=
      if im.inInitialFile && level ≥ 1 then
        if level = 1 then pieces else trimPieces pieces (level - 1)
      else trimPieces pieces level
    some (dotted, ofPieces package)

inductive ResolveFault where
  | graph (fault : ImportFault)
  | noDirectory
deriving Repr, DecidableEq

/-- The name, seen from the directory, of the module that an import names. It is nothing for modules
outside the directory. -/
def resolve (im : Imports) (fs : Files) (name : String) (level : Int) :
    Imports × Except ResolveFault (Option String) :=
  let top := topName name
  if interpreterModules.contains top then
    match im.addEdge top with
    | .ok im => (im, .ok none)
    | .error e => (im, .error (.graph e))
  else match im.relativeTo? name level with
    | none => (im, .ok none)
    | some (dotted, package) =>
      let (im, found) := attempts fs [
        (dotted, package), (parentName dotted, package), (joinNames package name, ""),
        (joinNames package (parentName name), "")] im
      match found.bind (·.file), im.directory with
      | none, _ => (im, .ok none)
      | some _, none => (im, .error .noDirectory)
      | some file, some dir =>
        if !Text.hasText file dir then (im, .ok none)
        else
          let shown := if Text.hasEnd file "__init__.py" then Path.dirName file else file
          (im, .ok (some (moduleNameOf (Path.relative fs.cwd shown dir))))

end Imports

end CrossCall.Calls

import CrossCall.Text.Lines
/-!
Slash-separated paths as texts. Nothing here looks at files.
-/
namespace CrossCall.Path

/-- A path below another one; a path that starts at the root stands for itself. -/
def join (a b : String) : String :=
  if Text.hasStart b "/" then b
  else if a.isEmpty || Text.hasEnd a "/" then a ++ b
  else a ++ "/" ++ b

/-- Steps through the pieces of a path: a dot stays, two dots go back where something is left to go
back from. -/
def foldPiece (rooted : Bool) (done : List String) (piece : String) : List String :=
  if piece.isEmpty || piece == "." then done
  else if piece != ".." then piece :: done
  else match done with
    | [] => if rooted then [] else [".."]
    | last :: rest => if last == ".." then ".." :: done else rest

/-- The shortest spelling of a path. -/
def normalize (p : String) : String :=
  if p.isEmpty then "."
  else
    let rooted := Text.hasStart p "/"
    let double := Text.hasStart p "//" && !Text.hasStart p "///"
    let body := String.intercalate "/" ((Text.splitAt '/' p).foldl (foldPiece rooted) []).reverse
    let whole := (if double then "//" else if rooted then "/" else "") ++ body
    if whole.isEmpty then "." else whole

/-- A path seen from a directory, in its shortest spelling. -/
def absolute (cwd p : String) : String := normalize (join cwd p)

def pieces (p : String) : List String := (Text.splitAt '/' p).filter fun s => !s.isEmpty

def commonLength : List String → List String → Nat
  | a :: as, b :: bs => if a = b then commonLength as bs + 1 else 0
  | _, _ => 0

/-- The way from a directory to a path, both taken from `cwd`. -/
def relative (cwd p start : String) : String :=
  let target := pieces (absolute cwd p)
  let origin := pieces (absolute cwd start)
  let n := commonLength origin target
  let way := List.replicate (origin.length - n) ".." ++ target.drop n
  if way.isEmpty then "." else String.intercalate "/" way

/-- The last piece. -/
def baseName (p : String) : String := ((Text.splitAt '/' p).getLast?).getD ""

/-- All before the last piece, without slashes at the end unless there is nothing else. -/
def dirName (p : String) : String :=
  let head := (p.toList.reverse.dropWhile (· != '/')).reverse
  let trimmed := (head.reverse.dropWhile (· == '/')).reverse
  String.ofList (if trimmed.isEmpty then head else trimmed)

/-- A path without and with only its extension: what starts at the last dot of the last piece,
leading dots apart. -/
def splitExtension (p : String) : String × String :=
  let base := (baseName p).toList
  let dots := base.takeWhile (· == '.')
  let rest := base.drop dots.length
  if rest.contains '.' then
    let ext := '.' :: (rest.reverse.takeWhile (· != '.')).reverse
    let n := p.length - ext.length
    (Text.takeChars p n, String.ofList ext)
  else (p, "")

/-- The suffix of a file name: its last dot and what follows, if there is something on both sides of
the dot. -/
def suffix (p : String) : String :=
  let base := (baseName p).toList
  let tail := (base.reverse.takeWhile (· != '.')).reverse
  let before := base.length - tail.length - 1
  if base.contains '.' && before > 0 && !tail.isEmpty then String.ofList ('.' :: tail) else ""

/-- A path without empty pieces and single dots. Two dots stay, since what is before them may be a
link. -/
def plain (p : String) : String :=
  let rooted := if Text.hasStart p "/" then "/" else ""
  let whole := rooted ++ String.intercalate "/" ((pieces p).filter (· != "."))
  if whole.isEmpty then "." else whole

/-- The directory of a path, in its plain spelling. -/
def parent (p : String) : String :=
  let whole := plain p
  let up := dirName whole
  if whole == "/" then whole else if up.isEmpty then "." else up

/-- A path below a directory, in its plain spelling. -/
def below (dir name : String) : String := plain (join dir name)

end CrossCall.Path

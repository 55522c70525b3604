import CrossCall.Text.Blank
import CrossCall.Text.Lines
/-!
Command lines. Options start with a dash; a long one may be cut short as long as it stays unique,
and its value may follow an equals sign. All other arguments belong together and may not be
interrupted by options.
-/
namespace CrossCall.Text

/-- An option: its spellings, and whether a value follows. -/
structure OptionForm where
  spellings : List String
  takesValue : Bool := true
deriving Repr, DecidableEq

namespace CommandLine

/-- How an argument is to be taken. -/
inductive Role where
  | plain
  /-- Two dashes: all that follows is plain. -/
  | divider
  /-- A spelling of an option, and a value in the same argument. -/
  | option (spelling : String) (value : Option String)
  /-- No option that is known, or more than one. -/
  | unknown
deriving Repr, DecidableEq

/-- Does an argument look like a number below zero? -/
def isNegativeNumber (s : String) : Bool :=
  match s.toList with
  | '-' :: cs =>
    match cs.dropWhile Char.isDigit with
    | [] => !cs.isEmpty
    | '.' :: rest => !rest.isEmpty && rest.all Char.isDigit
    | _ => false
  | _ => false

/-- What stands before and after the first equals sign. -/
def splitValue (s : String) : String × Option String :=
  let name := s.toList.takeWhile (· != '=')
  if name.length = s.length then (s, none)
  else (String.ofList name, some (String.ofList (s.toList.drop (name.length + 1))))

/-- The spellings that an argument may be short for, each with the value in the argument. -/
def candidates (known : List String) (s : String) : List (String × Option String) :=
  if hasStart s "--" then
    let (name, value) := splitValue s
    (known.filter fun k => hasStart k name).map (·, value)
  else
    let letter := takeChars s 2
    known.filterMap fun k =>
      if k == letter then some (k, some (dropChars s 2)) else if hasStart k s then some (k, none)
      else none

def roleOf (known : List String) (s : String) : Role :=
  let (name, value) := splitValue s
  if !hasStart s "-" || s == "-" then .plain
  else if s == "--" then .divider
  else if known.contains s then .option s none
  else if value.isSome && known.contains name then .option name value
  else match candidates known s with
    | [(k, v)] => .option k v
    | _ :: _ => .unknown
    | [] => if isNegativeNumber s || s.toList.contains ' ' then .plain else .unknown

/-- What was read: options with their values in order, and the plain arguments. -/
structure Parsed where
  options : List (String × Option String) := []
  plain : List String := []
deriving Repr, DecidableEq

/-- Reading state: the result so far, whether a divider was passed, and whether plain arguments are
being read or are done. -/
structure Progress where
  parsed : Parsed := {}
  divided : Bool := false
  inPlain : Bool := false
  plainDone : Bool := false

/-- Why a command line is no good, or that the reader asks for help. -/
inductive Outcome where
  | misuse
  | help
deriving Repr, DecidableEq

def helpSpellings : List String := ["-h", "--help"]

/-- An argument that is no option. -/
def addPlain (p : Progress) (s : String) : Except Outcome Progress :=
  if p.plainDone then .error .misuse
  else .ok { p with parsed := { p.parsed with plain := p.parsed.plain ++ [s] }, inPlain := true }

def addOption (p : Progress) (spelling : String) (value : Option String) : Progress :=
  { p with
    parsed := { p.parsed with options := p.parsed.options ++ [(spelling, value)] }
    plainDone := p.plainDone || p.inPlain }

/-- Goes past a divider. -/
def pastDivider (divided : Bool) (args : List String) : Bool × List String :=
  match divided, args with
  | false, "--" :: rest => (true, rest)
  | _, _ => (divided, args)

/-- Reads arguments from left to right. An option takes a divider next to it along. -/
def read (forms : List OptionForm) (known : List String) (check : String → Option String → Bool) :
    Nat → Progress → List String → Except Outcome Parsed
  | _, p, [] => .ok p.parsed
  | 0, _, _ => .error .misuse
  | fuel + 1, p, s :: rest =>
    match if p.divided then .plain else roleOf known s with
    | .plain => do read forms known check fuel (← addPlain p s) rest
    | .divider =>
      if p.plainDone then .error .misuse
      else read forms known check fuel { p with divided := true, inPlain := true } rest
    | .unknown => .error .misuse
    | .option k value =>
      if helpSpellings.contains k then .error (if value.isSome then .misuse else .help)
      else
        let takesValue := forms.any fun f => f.spellings.contains k && f.takesValue
        match takesValue, value with
        | false, some _ => .error .misuse
        | false, none =>
          let (divided, rest) := pastDivider false rest
          read forms known check fuel (addOption { p with divided := divided } k none) rest
        | true, some v =>
          if check k (some v) then read forms known check fuel (addOption p k (some v)) rest
          else .error .misuse
        | true, none =>
          let (divided, rest) := pastDivider false rest
          match rest with
          | [] => .error .misuse
          | v :: more =>
            if (divided || roleOf known v = .plain) && check k (some v) then
              let (divided, more) := pastDivider divided more
              read forms known check fuel (addOption { p with divided := divided } k (some v)) more
            else .error .misuse

/-- Reads a command line. Values that an option does not take are refused. -/
def parse (forms : List OptionForm) (check : String → Option String → Bool) (args : List String) :
    Except Outcome Parsed :=
  read forms (helpSpellings ++ forms.flatMap (·.spellings)) check (args.length + 1) {} args

end CommandLine

/-- A whole number, perhaps with a sign, blanks around and single underscores between digits. -/
def wholeNumber? (s : String) : Option Int :=
  let digits (cs : List Char) : Option Nat :=
    let groups := splitAt '_' (String.ofList cs)
    if groups.all fun g => !g.isEmpty && g.toList.all Char.isDigit then
      some ((String.join groups).toList.foldl (fun n c => n * 10 + (c.toNat - 48)) 0)
    else none
  match (trim s).toList with
  | '-' :: cs => (digits cs).map fun n => -(n : Int)
  | '+' :: cs => (digits cs).map Int.ofNat
  | cs => (digits cs).map Int.ofNat

end CrossCall.Text

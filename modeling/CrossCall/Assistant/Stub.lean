import CrossCall.Text.Display
/-!
Python stubs for the modules that the assistant describes. Descriptions come from outside, so every
part of them may be missing or of the wrong type.
-/
namespace CrossCall.Assistant

/-- What is wrong with a description. -/
inductive ShapeFault where
  | missingKey
  | wrongType
  /-- A value that is no object was asked for a member. -/
  | noMembers
deriving Repr, DecidableEq

/-- A member that has to be there. -/
def needed (j : Json) (name : String) : Except ShapeFault Json :=
  match j with
  | .obj ms => (Json.member? name ms).elim (.error .missingKey) .ok
  | _ => .error .wrongType

/-- A member that may be missing. -/
def optional (j : Json) (name : String) (default : Json) : Except ShapeFault Json :=
  match j with
  | .obj ms => .ok ((Json.member? name ms).getD default)
  | _ => .error .noMembers

/-- The parts of a value in order: items, characters or names of members. -/
def parts : Json → Except ShapeFault (List Json)
  | .arr xs => .ok xs
  | .str s => .ok (s.toList.map fun c => .str (String.singleton c))
  | .torn codes => .ok (codes.map fun n => .ofCodes [n])
  | .obj ms => .ok (ms.map fun m => .str m.1)
  | _ => .error .wrongType

/-- A function that does nothing, with numbered parameters. -/
def functionStub (j : Json) : Except ShapeFault String := do
  let name ← needed j "python_name"
  let types ← optional j "param_types" (.arr [])
  let result ← optional j "return_type" (.str "None")
  let params := (← parts types).zipIdx.map fun (t, i) => "arg" ++ toString i ++ ": " ++ t.display
  pure ("def " ++ name.display ++ "(" ++ String.intercalate ", " params ++ ") -> " ++
    result.display ++ ":\n    pass\n")

/-- The functions of a module, each followed by an empty line. -/
def moduleStub (j : Json) : Except ShapeFault String := do
  let functions ← parts (← optional j "functions" (.arr []))
  let stubs ← functions.mapM functionStub
  pure (String.join (stubs.map (· ++ "\n")))

end CrossCall.Assistant
